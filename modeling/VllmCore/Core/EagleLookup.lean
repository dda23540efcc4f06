import VllmCore.Core.HybridLookup

/-! # The search with EAGLE

A group that is flagged `use_eagle` matches one block more than the candidate and drops it, once for each
candidate length; `eagle_verified` keeps the groups that have done so. A lookup that drops is not expected to
lower the candidate below what another group has verified, but nothing prevents it: the entry of the other
group then stays although its block behind the lower candidate was never looked at. The last round of the
search finds the window before the answer in every group; `verifiedLength` tells whether the look-ahead was
verified there too. -/

namespace VllmCore
open Except List
variable {η : Type} [DecidableEq η]

/-- The look-ahead of a sliding-window group at `n` tokens: the block that starts there and the blocks that
cover the window before it are cached. -/
def BlockPool.LookAhead (p : BlockPool η) (s : KVCacheSpec) (w : Nat) (blockHashes : List η) (groupId n : Nat) : Prop :=
  p.CachedAt blockHashes s.blockSize groupId (n / s.blockSize) ∧
    ∀ i < n / s.blockSize, n / s.blockSize - cdiv (w - 1) s.blockSize ≤ i →
      p.CachedAt blockHashes s.blockSize groupId i

/-! ### The end of a hit, over the cached positions -/

/-- A hit may end before block `e`: what is left of it (the EAGLE block dropped) is a multiple of `k` blocks,
and the `need` blocks before `e` are cached. -/
structure HitEnd (cached : Nat → Prop) (k need : Nat) (drop : Bool) (e : Nat) : Prop where
  pos : 0 < e
  aligned : k ∣ if drop then e - 1 else e
  cached : ∀ j, e - need ≤ j → j < e → cached j

structure LastEnd (cached : Nat → Prop) (k need : Nat) (drop : Bool) (N e : Nat) : Prop where
  le : e ≤ N
  ends : 0 < e → HitEnd cached k need drop e
  last : ∀ e', e < e' → e' ≤ N → ¬ HitEnd cached k need drop e'

/-- The blocks of the hit that ends before `e`. A run that is shorter than needed starts at the first block. -/
def endToHit (k need : Nat) (drop : Bool) (e : Nat) : Nat :=
  if drop = true ∧ 0 < (if need ≤ e then e else e / k * k) then
    ((if need ≤ e then e else e / k * k) - 1) / k * k
  else if need ≤ e then e else e / k * k

variable {cached : Nat → Prop} {k need e : Nat} {drop : Bool} {blocks : List (List BlockId)}
  {l : List (Nat × SpecGroup)}

theorem endToHit_zero : endToHit k need drop 0 = 0 := by
  simp [endToHit]

theorem endToHit_false_le (k need e : Nat) : endToHit k need false e ≤ e := by
  simp only [endToHit, Bool.false_eq_true, false_and, if_false]
  split
  · exact Nat.le_refl e
  · exact Nat.div_mul_le_self e k

/-- The EAGLE block is dropped, and more only where the run is shorter than needed. -/
theorem HitEnd.endToHit_lt (h : HitEnd cached k need true e) :
    endToHit k need true e < e ∧ (need ≤ e → endToHit k need true e = e - 1) := by
  have hpos := h.pos
  have hal : (e - 1) / k * k = e - 1 := Nat.div_mul_cancel h.aligned
  unfold endToHit
  by_cases hneed : need ≤ e
  · simp [hneed, hpos, hal]
  · have h1 := Nat.div_mul_le_self e k
    have h2 := Nat.div_mul_le_self (e / k * k - 1) k
    simp only [hneed, if_false, true_and, false_implies, and_true]
    split <;> omega

namespace CacheHit
variable {p : BlockPool η} {s : KVCacheSpec} {ids : List Nat} {blockHashes : List η} {m n A : Nat} {drop : Bool}
  {cols : List (List BlockId)} {w : Nat}

theorem slidingScan_need {bsz need : Nat} {rs : List η} (i : Nat) (columns : List (List BlockId)) (run : Nat) :
    slidingScan p bsz rs ids drop A need i columns run = slidingScan p bsz rs ids drop A (max 1 need)
      i columns run := by
  induction i generalizing columns run with
  | zero => rfl
  | succ i ih =>
    have hiff : run + 1 ≥ need ↔ run + 1 ≥ max 1 need := by omega
    rw [slidingScan, slidingScan]
    simp only [ih, hiff]

variable (hA : 0 < A) (hdvd : s.blockSize ∣ A) (hhash : p.hashBlockSize ∣ s.blockSize) (hids : ids ≠ [])
include hdvd

theorem mul_mod_eq_zero_iff (n : Nat) :
    n * s.blockSize % A = 0 ↔ A / s.blockSize ∣ n := by
  obtain ⟨q, rfl⟩ := hdvd
  have hpos := s.blockSize_pos
  rw [Nat.mul_div_cancel_left q hpos, ← Nat.dvd_iff_mod_eq_zero, Nat.mul_comm n]
  exact Nat.mul_dvd_mul_iff_left hpos

theorem popToAlignment_eq (n : Nat) :
    popToAlignment s.blockSize A n = n / (A / s.blockSize) * (A / s.blockSize) := by
  induction n with
  | zero => simp [popToAlignment]
  | succ n ih =>
    rw [popToAlignment]
    split
    · next h => exact (Nat.div_mul_cancel ((mul_mod_eq_zero_iff hdvd _).1 h)).symm
    · next h =>
      rw [ih, Nat.succ_div, if_neg fun hd => h ((mul_mod_eq_zero_iff hdvd _).2 hd), Nat.add_zero]

include hA hhash hids

theorem slidingWindow_length (hm : m / s.blockSize ≤ blockHashes.length / (s.blockSize / p.hashBlockSize))
    (hneed : need = max 1 (Manager.contiguousBlocksForHit w s.blockSize drop)) :
    ∃ cols e, slidingWindow p s w blockHashes m ids drop A =
        .ok (cols, endToHit (A / s.blockSize) need drop e * s.blockSize) ∧
      LastEnd (fun i => ∀ g ∈ ids, p.CachedAt blockHashes s.blockSize g i) (A / s.blockSize) need drop
        (m / s.blockSize) e := by
  obtain ⟨rs, hres, hlen, hrs⟩ := resolve_spec p s blockHashes hA hdvd hhash
  have hpos : 0 < need := by omega
  obtain ⟨columns, run, found, e, hscan, hspec⟩ := slidingScan_spec hpos (hlen ▸ hm)
    (scanning_start p ids rs s.blockSize A drop hpos)
  rw [hneed, ← slidingScan_need] at hscan
  have hends : ∀ e, EndsAt p ids rs s.blockSize A need drop e ↔
      HitEnd (fun i => ∀ g ∈ ids, p.CachedAt blockHashes s.blockSize g i) (A / s.blockSize) need drop e := by
    intro e
    have hcached := isSome_cachedColumn (p := p) hids hrs
    constructor
    · rintro ⟨h1, h2, h3⟩
      refine ⟨h1, ?_, fun j hj hj' => (hcached j).1 (h3 j hj hj')⟩
      rcases h2 with rfl | h2
      · rw [Nat.div_self s.blockSize_pos]; exact one_dvd _
      · exact (mul_mod_eq_zero_iff hdvd _).1 h2
    · rintro ⟨h1, h2, h3⟩
      exact ⟨h1, .inr ((mul_mod_eq_zero_iff hdvd _).2 h2), fun j hj hj' => (hcached j).2 (h3 j hj hj')⟩
  refine ⟨columns.take (endToHit (A / s.blockSize) need drop e), e, ?_, hspec.le,
    fun h => (hends e).1 (hspec.ends h), fun e' h1 h2 h => hspec.last e' h1 h2 ((hends e').2 h)⟩
  have hn : (if found then columns.length else popToAlignment s.blockSize A run) =
      if need ≤ e then e else e / (A / s.blockSize) * (A / s.blockSize) := by
    have hl := hspec.length
    have hiff : found = true ↔ need ≤ e :=
      hspec.found_iff.trans ⟨And.left, fun h => ⟨h, by omega⟩⟩
    cases found with
    | true => rw [if_pos rfl, if_pos (hiff.1 rfl)]; exact hl
    | false =>
      rw [if_neg Bool.false_ne_true, if_neg fun h => Bool.false_ne_true (hiff.2 h), hl.1]
      exact popToAlignment_eq hdvd e
  simp only [slidingWindow, hres, ok_bind, hscan]
  rw [hn]
  simp only [popToAlignment_eq hdvd]
  rfl

omit hids in
theorem slidingWindow_error (hm : blockHashes.length / (s.blockSize / p.hashBlockSize) < m / s.blockSize) :
    slidingWindow p s w blockHashes m ids drop A = .error .indexError := by
  obtain ⟨rs, hres, hlen, -⟩ := resolve_spec p s blockHashes hA hdvd hhash
  obtain ⟨N, hN⟩ := Nat.exists_eq_succ_of_ne_zero (Nat.ne_zero_of_lt hm)
  have hnone : rs[N]? = none := getElem?_eq_none (by omega)
  simp only [slidingWindow, hres, ok_bind, hN, slidingScan, hnone]
  rfl

theorem slidingWindow_ok (h : slidingWindow p s w blockHashes m ids drop A = .ok (cols, n))
    (hneed : need = max 1 (Manager.contiguousBlocksForHit w s.blockSize drop)) :
    ∃ e, n = endToHit (A / s.blockSize) need drop e * s.blockSize ∧
      LastEnd (fun i => ∀ g ∈ ids, p.CachedAt blockHashes s.blockSize g i) (A / s.blockSize) need
        drop (m / s.blockSize) e := by
  by_cases hm : m / s.blockSize ≤ blockHashes.length / (s.blockSize / p.hashBlockSize)
  · obtain ⟨cols', e, hrun, hlast⟩ := slidingWindow_length hA hdvd hhash hids hm hneed
    cases h.symm.trans hrun
    exact ⟨e, rfl, hlast⟩
  · rw [slidingWindow_error hA hdvd hhash (Nat.lt_of_not_le hm)] at h
    cases h

theorem slidingWindow_lookAhead (h : slidingWindow p s w blockHashes m ids true A = .ok (cols, n)) (hn : 0 < n) :
    (∀ g ∈ ids, p.LookAhead s w blockHashes g n) ∧ n + s.blockSize ≤ m := by
  have hpos := s.blockSize_pos
  have hneed : cdiv (w - 1) s.blockSize + 1 = max 1 (Manager.contiguousBlocksForHit w s.blockSize true) := by
    simp [Manager.contiguousBlocksForHit]
  obtain ⟨e, rfl, hlast⟩ := slidingWindow_ok hA hdvd hhash hids h hneed
  have he : 0 < e := by
    by_contra h0
    rw [Nat.eq_zero_of_not_pos h0, endToHit_zero, Nat.zero_mul] at hn
    exact Nat.lt_irrefl 0 hn
  obtain ⟨hlt, heq⟩ := (hlast.ends he).endToHit_lt
  have hle := hlast.le
  unfold BlockPool.LookAhead
  rw [Nat.mul_div_cancel _ hpos, ← Nat.succ_mul, ← Nat.le_div_iff_mul_le hpos]
  -- a run that is shorter than needed reaches the start, so nothing is needed beyond it
  refine ⟨fun g hg => ⟨(hlast.ends he).cached _ ?_ hlt g hg, fun i hi hwi => (hlast.ends he).cached i ?_
    (by omega) g hg⟩,
    by omega⟩
  · omega
  · omega

theorem slidingWindow_behind (h : slidingWindow p s w blockHashes m ids false A = .ok (cols, n)) :
    ∀ g ∈ ids, ∀ i < n / s.blockSize, n / s.blockSize - cdiv (w - 1) s.blockSize ≤ i →
      p.CachedAt blockHashes s.blockSize g i := by
  obtain ⟨e, rfl, hlast⟩ := slidingWindow_ok hA hdvd hhash hids h rfl
  rw [Nat.mul_div_cancel _ s.blockSize_pos]
  intro g hg i hi hwi
  have hle := endToHit_false_le (A / s.blockSize) (max 1 (Manager.contiguousBlocksForHit w s.blockSize false)) e
  refine (hlast.ends (by omega)).cached i ?_ (hi.trans_le hle) g hg
  simp only [endToHit, Bool.false_eq_true, false_and, if_false] at hwi
  split at hwi
  · simp only [Manager.contiguousBlocksForHit, Bool.false_eq_true, if_false] at hwi ⊢
    omega
  · omega

omit hA hdvd hhash hids

/-! ### A hit is not longer than what is asked for -/

variable (p ids) in
theorem takeCached_length_le (l : List η) : (takeCached p ids l).length ≤ l.length := (takeCached_spec p ids l).1

theorem fullAttention_le (h : fullAttention p s blockHashes m ids drop A = .ok (cols, n)) :
    n ≤ m - if drop then min A s.blockSize else 0 := by
  simp only [fullAttention, do_eq_ok, Prod.mk.injEq] at h
  obtain ⟨rs, -, full, -, -, rfl⟩ := h
  have hpos := s.blockSize_pos
  have hcols : (takeCached p ids (full.take (m / s.blockSize))).length * s.blockSize ≤ m := by
    rw [← Nat.le_div_iff_mul_le hpos]
    exact (takeCached_length_le p ids _).trans (length_take_le ..)
  refine (Nat.sub_le ..).trans (Nat.sub_le_sub_right ?_ _)
  split
  · simp only [extendPartial]
    split
    · exact hcols
    · next i col hfind =>
      obtain ⟨-, hi, -, -⟩ := findDown_some hfind
      exact Nat.mul_le_of_le_div A _ m (by omega)
  · exact hcols

include hA hdvd hhash hids in
theorem slidingWindow_le (h : slidingWindow p s w blockHashes m ids false A = .ok (cols, n)) : n ≤ m := by
  obtain ⟨e, rfl, hlast⟩ := slidingWindow_ok hA hdvd hhash hids h rfl
  exact Nat.mul_le_of_le_div _ _ m ((endToHit_false_le ..).trans hlast.le)

theorem chunkedLocal_le {c : Nat} (h : chunkedLocal p s c blockHashes m ids drop A = .ok (cols, n)) :
    drop = false ∧ n ≤ m := by
  simp only [chunkedLocal, do_eq_ok, Prod.mk.injEq] at h
  obtain ⟨-, hdrop, -, -, rs, -, -, -, -, rfl⟩ := h
  refine ⟨hdrop, ?_⟩
  have hstart : m / c * c / s.blockSize ≤ m / s.blockSize := Nat.div_le_div_right (Nat.div_mul_le_self m c)
  rw [← Nat.le_div_iff_mul_le s.blockSize_pos, length_append, length_replicate]
  have hrun := takeCached_length_le p ids ((rs.take (m / s.blockSize)).drop (m / c * c / s.blockSize))
  rw [length_drop, length_take] at hrun
  omega

theorem mamba_le (h : mamba p s blockHashes m ids A = .ok (cols, n)) : n ≤ m := by
  simp only [mamba, bind_eq_ok] at h
  obtain ⟨rs, -, h⟩ := h
  split at h
  · split at h
    · cases h; exact Nat.zero_le m
    · next i col hfind =>
      cases h
      obtain ⟨-, hi, -, -⟩ := findDown_some hfind
      exact Nat.mul_le_of_le_div A _ m (by omega)
  · rw [bind_eq_ok] at h
    obtain ⟨-, -, h⟩ := h
    split at h
    · cases h; exact Nat.zero_le m
    · next i col hfind =>
      cases h
      obtain ⟨-, hi, -, -⟩ := findDown_some hfind
      exact Nat.mul_le_of_le_div _ _ m hi

end CacheHit

namespace Coordinator
variable {c : Coordinator η} {blockHashes : List η} {maxLength : Nat} {st st' : HitSearch} {g B : SpecGroup}
  {b idx w n : Nat} {drop : Bool}

/-- What a constructed coordinator knows about its block sizes. -/
structure Sized (c : Coordinator η) : Prop where
  align : 0 < c.cacheHitAlignmentTokens
  ids : ∀ g ∈ c.attentionGroups, g.groupIds ≠ []
  hash : ∀ g ∈ c.attentionGroups, c.pool.hashBlockSize ∣ g.spec.blockSize
  sliding : ∀ g ∈ c.attentionGroups, g.spec.supportsFineGrainedHashLookup = false →
    g.spec.blockSize ∣ c.cacheHitAlignmentTokens
  margin : ∀ g ∈ c.attentionGroups,
    (if c.enablePartialHashHits ∧ g.spec.supportsFineGrainedHashLookup ∧ g.spec.blockSize > c.hashBlockSize then
      c.hashBlockSize else g.spec.blockSize) ≤ min c.cacheHitAlignmentTokens g.spec.blockSize

/-- A lookup never returns more than the candidate: EAGLE drops what it matches more. -/
theorem Sized.lookup_le (hc : c.Sized) (hg : g ∈ c.attentionGroups) {curr : Nat}
    (h : CacheHit.findLongestCacheHit c.pool g.spec blockHashes (c.maxLookupLength g drop curr maxLength) g.groupIds
      drop c.cacheHitAlignmentTokens = .ok (blocks, n)) : n ≤ curr := by
  simp only [CacheHit.findLongestCacheHit, do_eq_ok, Prod.mk.injEq] at h
  obtain ⟨⟨cols, n'⟩, h, -, rfl⟩ := h
  have hmax : c.maxLookupLength g false curr maxLength = curr := by
    simp only [maxLookupLength, Bool.false_eq_true, false_and, if_false]
  have hdrop : g.spec.isMamba = false → c.maxLookupLength g true curr maxLength ≤
      curr + min c.cacheHitAlignmentTokens g.spec.blockSize := by
    intro hm
    simp only [maxLookupLength, hm, Bool.false_eq_true, not_false_eq_true, and_self, if_true]
    exact (Nat.min_le_left ..).trans (Nat.add_le_add_left (hc.margin g hg) curr)
  have hfull : ∀ {cols : List (List BlockId)} {n : Nat}, g.spec.isMamba = false →
      CacheHit.fullAttention c.pool g.spec blockHashes (c.maxLookupLength g drop curr maxLength) g.groupIds drop
        c.cacheHitAlignmentTokens = .ok (cols, n) → n ≤ curr := by
    intro cols n hm h
    have hle := CacheHit.fullAttention_le h
    cases drop with
    | false => rw [hmax] at hle; exact hle.trans (Nat.sub_le ..)
    | true =>
      have := hdrop hm
      rw [if_pos rfl] at hle
      omega
  cases hkind : g.spec.kind with
  | fullAttention => rw [hkind] at h; exact hfull (by simp [KVCacheSpec.isMamba, hkind]) h
  | rswa r => rw [hkind] at h; exact hfull (by simp [KVCacheSpec.isMamba, hkind]) h
  | slidingWindow w extra =>
    rw [hkind] at h
    have hdvd := hc.sliding g hg (by simp [KVCacheSpec.supportsFineGrainedHashLookup, hkind])
    cases drop with
    | false => rw [hmax] at h; exact CacheHit.slidingWindow_le hc.align hdvd (hc.hash g hg) (hc.ids g hg) h
    | true =>
      rcases Nat.eq_zero_or_pos n' with h0 | h0
      · exact h0 ▸ Nat.zero_le curr
      · have hle := (CacheHit.slidingWindow_lookAhead hc.align hdvd (hc.hash g hg) (hc.ids g hg) h h0).2
        have := hdrop (by simp [KVCacheSpec.isMamba, hkind])
        omega
  | chunkedLocal k =>
    rw [hkind] at h
    obtain ⟨rfl, hle⟩ := CacheHit.chunkedLocal_le h
    rwa [hmax] at hle
  | mamba ms =>
    rw [hkind] at h
    have hle := CacheHit.mamba_le h
    have hm : c.maxLookupLength g drop curr maxLength = curr := by
      simp [maxLookupLength, KVCacheSpec.isMamba, hkind]
    rwa [hm] at hle
  | circularBuffer k => rw [hkind] at h; cases h; exact Nat.zero_le curr
  | crossAttention => rw [hkind] at h; cases h

/-! ### The length a group has verified -/

/-- The length at which the group at `idx` was last looked up with the drop, through the rest of a round. -/
def roundVerified (c : Coordinator η) (blockHashes : List η) (maxLength idx : Nat) :
    List (Nat × SpecGroup) → HitSearch → Nat → Nat
  | [], _, verified => verified
  | ig :: l, st, verified =>
    match c.searchGroup blockHashes maxLength st ig with
    | .error _ => verified
    | .ok st' => c.roundVerified blockHashes maxLength idx l st'
        (if ig.1 = idx ∧ ig.2.useEagle = true ∧ idx ∉ st.eagleVerified then st'.currHitLength else verified)

def loopVerified (c : Coordinator η) (blockHashes : List η) (maxLength : Nat) (simple : Bool) (idx : Nat) :
    Nat → Nat → HitSearch → Nat → Nat
  | 0, _, _, verified => verified
  | fuel + 1, hitLength, st, verified =>
    let groups := (List.range c.attentionGroups.length).zip c.attentionGroups
    let start := { st with currHitLength := hitLength }
    let verified := c.roundVerified blockHashes maxLength idx groups start verified
    match groups.foldlM (c.searchGroup blockHashes maxLength) start with
    | .error _ => verified
    | .ok st => if st.currHitLength ≥ hitLength ∨ simple = true then verified
      else c.loopVerified blockHashes maxLength simple idx fuel st.currHitLength st verified

/-- Where the last dropping lookup of the group at `idx` ended, in the whole search. -/
def verifiedLength (c : Coordinator η) (blockHashes : List η) (maxLength idx : Nat) : Nat :=
  c.loopVerified blockHashes maxLength c.isSimpleHybrid idx (maxLength + 1) maxLength (HitSearch.start maxLength) 0

theorem Sized.searchGroup_le (hc : c.Sized) (hg : g ∈ c.attentionGroups)
    (h : c.searchGroup blockHashes maxLength st (idx, g) = .ok st') : st'.currHitLength ≤ st.currHitLength := by
  obtain ⟨first, rest, hgi⟩ := exists_cons_of_ne_nil (hc.ids g hg)
  rw [searchGroup_cons hgi] at h
  split at h
  · cases h
    exact Nat.min_le_left ..
  · simp only [do_eq_ok] at h
    obtain ⟨⟨blocks, n⟩, hfind, rfl⟩ := h
    exact hc.lookup_le hg hfind

section Window
variable {extra v : Nat} {p : BlockPool η}

/-- The blocks that cover the window before `n` tokens are cached, as a lookup without the drop asks. -/
def Behind (p : BlockPool η) (g : SpecGroup) (w : Nat) (blockHashes : List η) (n : Nat) : Prop :=
  ∀ i ∈ g.groupIds, ∀ j < n / g.spec.blockSize, n / g.spec.blockSize - cdiv (w - 1) g.spec.blockSize ≤ j →
    p.CachedAt blockHashes g.spec.blockSize i j

def Ahead (p : BlockPool η) (g : SpecGroup) (w : Nat) (blockHashes : List η) (n : Nat) : Prop :=
  ∀ i ∈ g.groupIds, p.LookAhead g.spec w blockHashes i n

/-- The candidate is verified, or at least the window before it is there. -/
def Settled (c : Coordinator η) (g : SpecGroup) (w : Nat) (blockHashes : List η) (v n : Nat) : Prop :=
  0 < n → v = n ∨ Behind c.pool g w blockHashes n

variable (hc : c.Sized) (hg : c.attentionGroups[b]? = some g) (hkind : g.spec.kind = .slidingWindow w extra)
  (huse : g.useEagle = true)
include hc hg hkind huse

theorem Sized.ask_window (h : c.searchGroup blockHashes maxLength st (b, g) = .ok st') :
    (b ∈ st.eagleVerified → Behind c.pool g w blockHashes st'.currHitLength) ∧
      (b ∉ st.eagleVerified → 0 < st'.currHitLength → Ahead c.pool g w blockHashes st'.currHitLength) := by
  have hmem := mem_of_getElem? hg
  have hdvd := hc.sliding g hmem (by simp [KVCacheSpec.supportsFineGrainedHashLookup, hkind])
  obtain ⟨first, rest, hgi⟩ := exists_cons_of_ne_nil (hc.ids g hmem)
  rw [searchGroup_cons hgi, if_neg (by simp [KVCacheSpec.isFullAttention, hkind])] at h
  simp only [CacheHit.findLongestCacheHit, hkind, huse, do_eq_ok] at h
  obtain ⟨_, ⟨⟨cols, n⟩, hfind, rfl⟩, rfl⟩ := h
  constructor
  · intro hb
    rw [contains_iff_mem.2 hb] at hfind
    exact CacheHit.slidingWindow_behind hc.align hdvd (hc.hash g hmem) (hc.ids g hmem) hfind
  · intro hb hpos
    rw [show st.eagleVerified.contains b = false by simpa using hb] at hfind
    exact (CacheHit.slidingWindow_lookAhead hc.align hdvd (hc.hash g hmem) (hc.ids g hmem) hfind hpos).1

theorem Sized.roundVerified_spec (hl : ∀ ig ∈ l, c.attentionGroups[ig.1]? = some ig.2)
    (h : l.foldlM (c.searchGroup blockHashes maxLength) st = .ok st') (hv : 0 < v → Ahead c.pool g w blockHashes v) :
    (0 < c.roundVerified blockHashes maxLength b l st v →
        Ahead c.pool g w blockHashes (c.roundVerified blockHashes maxLength b l st v)) ∧
      st'.currHitLength ≤ st.currHitLength ∧
      ((b, g) ∈ l ∨ c.Settled g w blockHashes v st.currHitLength → st.currHitLength ≤ st'.currHitLength →
        c.Settled g w blockHashes (c.roundVerified blockHashes maxLength b l st v) st'.currHitLength) ∧
      ∀ l', l = l' ++ [(b, g)] →
        c.Settled g w blockHashes (c.roundVerified blockHashes maxLength b l st v) st'.currHitLength := by
  induction l generalizing st v with
  | nil =>
    cases h
    exact ⟨hv, Nat.le_refl _, fun hor _ => hor.resolve_left not_mem_nil, fun l' hl' => by simp at hl'⟩
  | cons ig l ih =>
    rw [foldlM_cons, bind_eq_ok] at h
    obtain ⟨st₁, h₁, h⟩ := h
    obtain ⟨idx, g'⟩ := ig
    have hg' := hl _ (mem_cons_self ..)
    have hle := hc.searchGroup_le (mem_of_getElem? hg') h₁
    simp only [roundVerified, h₁]
    -- what this group leaves
    have hstep : ∃ v₁, v₁ = (if idx = b ∧ g'.useEagle = true ∧ b ∉ st.eagleVerified then st₁.currHitLength else v) ∧
        (0 < v₁ → Ahead c.pool g w blockHashes v₁) ∧
        ((idx, g') = (b, g) → c.Settled g w blockHashes v₁ st₁.currHitLength) ∧
        (c.Settled g w blockHashes v st.currHitLength → st.currHitLength ≤ st₁.currHitLength →
          c.Settled g w blockHashes v₁ st₁.currHitLength) := by
      refine ⟨_, rfl, ?_⟩
      by_cases hidx : idx = b
      · subst hidx
        cases hg.symm.trans hg'
        obtain ⟨hbehind, hahead⟩ := hc.ask_window hg hkind huse h₁
        by_cases hb : idx ∈ st.eagleVerified
        · rw [if_neg fun hh => hh.2.2 hb]
          exact ⟨hv, fun _ _ => .inr (hbehind hb), fun _ _ _ => .inr (hbehind hb)⟩
        · rw [if_pos ⟨rfl, huse, hb⟩]
          exact ⟨hahead hb, fun _ _ => .inl rfl, fun _ _ _ => .inl rfl⟩
      · rw [if_neg fun hh => hidx hh.1]
        refine ⟨hv, fun he => absurd (congrArg Prod.fst he) hidx, fun hs hge => ?_⟩
        rwa [Nat.le_antisymm hle hge]
    obtain ⟨v₁, hv₁, hahead, hown, hkeep⟩ := hstep
    rw [← hv₁]
    obtain ⟨hA, hB, hC, hD⟩ := ih (fun x hx => hl x (mem_cons_of_mem _ hx)) h hahead
    refine ⟨hA, hB.trans hle, fun hor hge => hC ?_ (hle.trans hge), fun l' hl' => ?_⟩
    · rcases hor with hor | hor
      · exact (mem_cons.1 hor).symm.imp_right fun he => hown he.symm
      · exact .inr (hkeep hor (hge.trans hB))
    · cases l' with
      | nil =>
        obtain ⟨he, rfl⟩ := cons.inj hl'
        cases h
        exact hown he
      | cons y l' => exact hD l' (cons.inj hl').2

theorem Sized.loopVerified_spec {simple : Bool} {fuel H L : Nat}
    (hsimple : simple = true → ∃ l, (List.range c.attentionGroups.length).zip c.attentionGroups = l ++ [(b, g)])
    (hfuel : H < fuel) (hv : 0 < v → Ahead c.pool g w blockHashes v)
    (h : c.searchLoop blockHashes maxLength simple fuel H st = .ok (L, st')) :
    (0 < c.loopVerified blockHashes maxLength simple b fuel H st v →
        Ahead c.pool g w blockHashes (c.loopVerified blockHashes maxLength simple b fuel H st v)) ∧
      c.Settled g w blockHashes (c.loopVerified blockHashes maxLength simple b fuel H st v) L := by
  induction fuel generalizing H st v with
  | zero => omega
  | succ fuel ih =>
    rw [searchLoop, bind_eq_ok] at h
    obtain ⟨st₁, hfold, h⟩ := h
    obtain ⟨hA, hle, hsame, hlast⟩ := hc.roundVerified_spec hg hkind huse (fun _ => mem_zip_range.1) hfold hv
    simp only [loopVerified, hfold]
    split at h
    · next hge =>
      cases h
      rw [if_pos (.inl hge)]
      have heq : st'.currHitLength = L := Nat.le_antisymm hle hge
      exact ⟨hA, heq ▸ hsame (.inl (mem_zip_range.2 hg)) hge⟩
    · next hlt =>
      split at h
      · next hs =>
        cases h
        obtain ⟨l, hl⟩ := hsimple hs
        rw [if_pos (.inr hs)]
        exact ⟨hA, hlast l hl⟩
      · next hs =>
        rw [if_neg (not_or.2 ⟨hlt, hs⟩)]
        exact ih (by omega) hA h

end Window

theorem prefixCacheable_of_split {specs : List KVCacheSpec} {eagle : List Nat}
    (h : g ∈ splitKvCacheGroups specs eagle) :
    g.spec.prefixCacheable = true :=
  forall_mem_split (P := fun g => g.spec.prefixCacheable = true) (fun _ _ hp => hp) (fun _ _ h => h) g h

omit [DecidableEq η] in
theorem Hybrid.sized {cfg : KVCacheConfig} {o : KVCacheOptions} (h : c.Hybrid cfg o)
    (hpool : c.pool.hashBlockSize = o.hashBlockSize) (hsched : 0 < o.schedulerBlockSize) : c.Sized := by
  have hsplit := h.specGroups
  have hof : ∀ g ∈ c.attentionGroups, g.spec.prefixCacheable = true ∧ ∃ gs ∈ cfg.groups, gs.spec = g.spec :=
    fun g hg => ⟨prefixCacheable_of_split (h.groups ▸ hg), h.of_mem hg⟩
  have hhash : ∀ g ∈ c.attentionGroups, o.hashBlockSize ∣ g.spec.blockSize := by
    intro g hg
    obtain ⟨hp, gs, hgs, he⟩ := hof g hg
    exact he ▸ h.hashSizes gs hgs (he ▸ hp)
  have hdvd : ∀ g ∈ c.attentionGroups, g.spec.blockSize ∣ o.schedulerBlockSize := by
    intro g hg
    obtain ⟨-, gs, hgs, he⟩ := hof g hg
    exact he ▸ h.schedSizes gs hgs
  cases hp : c.enablePartialHashHits with
  | false =>
    have hA : c.cacheHitAlignmentTokens = o.schedulerBlockSize := by
      rw [cacheHitAlignmentTokens, hp, if_neg Bool.false_ne_true, h.sched]
    refine ⟨hA ▸ hsched, fun g hg => (hsplit.ids g hg).1, hpool ▸ hhash, fun g hg _ => hA ▸ hdvd g hg, fun g hg => ?_⟩
    rw [hA, if_neg fun hh => Bool.false_ne_true (hp.symm.trans hh.1)]
    exact Nat.le_min.2 ⟨Nat.le_of_dvd hsched (hdvd g hg), Nat.le_refl _⟩
  | true =>
    -- hits inside a block: the groups that look up whole blocks have the size of the hash blocks
    have hA : c.cacheHitAlignmentTokens = o.hashBlockSize := by rw [cacheHitAlignmentTokens, if_pos hp, h.hash]
    have hpart := h.partialHits.symm.trans hp
    rw [partialHashHits, Bool.and_eq_true, any_eq_true, all_eq_true] at hpart
    obtain ⟨⟨s, hs, hbig⟩, hall⟩ := hpart
    rw [Bool.and_eq_true, decide_eq_true_eq] at hbig
    have hwhole : ∀ g ∈ c.attentionGroups, g.spec.supportsFineGrainedHashLookup = false →
        g.spec.blockSize = o.hashBlockSize := by
      intro g hg hf
      obtain ⟨hpc, gs, hgs, he⟩ := hof g hg
      have := hall g.spec (mem_map.2 ⟨gs, hgs, he⟩)
      simpa [hpc, hf] using this
    have hpos : 0 < o.hashBlockSize := by
      obtain ⟨gs, hgs, rfl⟩ := mem_map.1 hs
      have hm : gs.spec.prefixCacheable = true := by
        have := hbig.1
        unfold KVCacheSpec.isMambaAlign at this
        unfold KVCacheSpec.prefixCacheable
        split at this <;> simp_all
      exact Nat.pos_of_dvd_of_pos (h.hashSizes gs hgs hm) gs.spec.blockSize_pos
    refine ⟨hA ▸ hpos, fun g hg => (hsplit.ids g hg).1, hpool ▸ hhash,
      fun g hg hf => by rw [hwhole g hg hf, hA], fun g hg => ?_⟩
    rw [hA, h.hash]
    split
    · next hbig => exact Nat.le_min.2 ⟨Nat.le_refl _, hbig.2.2.le⟩
    · next hsmall =>
      refine Nat.le_min.2 ⟨?_, Nat.le_refl _⟩
      cases hf : g.spec.supportsFineGrainedHashLookup with
      | false => exact (hwhole g hg hf).le
      | true => exact Nat.le_of_not_lt fun hlt => hsmall ⟨hp, hf, hlt⟩


def eagleOptions : KVCacheOptions where
  maxModelLen := 16
  maxInFlightTokens := 16
  schedulerBlockSize := 2
  hashBlockSize := 2
  useEagle := true

def twoWindows : KVCacheConfig where
  numBlocks := 13
  groups := [⟨{ blockSize := 2, kind := .fullAttention }, false⟩,
    ⟨{ blockSize := 2, kind := .slidingWindow 3 0 }, false⟩, ⟨{ blockSize := 2, kind := .slidingWindow 5 0 }, false⟩]

def indexOf (l : List (Nat × Nat × BlockId)) : BlockHashToBlockMap Nat :=
  l.foldl (fun m e => m.insert ⟨e.1, e.2.1⟩ e.2.2) Dict.empty

def allCached : BlockHashToBlockMap Nat :=
  indexOf [(10, 0, 1), (20, 0, 2), (30, 0, 3), (40, 0, 4), (10, 1, 5), (20, 1, 6), (30, 1, 7), (40, 1, 8),
    (10, 2, 9), (20, 2, 10), (30, 2, 11), (40, 2, 12)]

/-- The small window has verified its look-ahead at six tokens when the large one lowers the candidate to two. -/
def twoWindowsIndex : BlockHashToBlockMap Nat :=
  indexOf [(10, 0, 1), (20, 0, 2), (30, 0, 3), (40, 0, 4), (10, 1, 5), (30, 1, 6), (40, 1, 7), (10, 2, 8), (20, 2, 9)]

end Coordinator

end VllmCore
