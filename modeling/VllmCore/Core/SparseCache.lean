import VllmCore.Core.EagleLookup

/-! # Caching only what a lookup can reach

`reachable_block_mask` keeps, of the blocks of a sliding-window group, the tails that the right-to-left scan of
`find_longest_cache_hit` can end on. Both are compared here over the positions that are cached: what the scan
answers depends on nothing else. The two disagree in two corners. A window of one token needs no earlier
block, so no block is kept, yet the scan asks for one; and a run that reaches the start of the sequence is cut
to the alignment before the EAGLE block is dropped, so that it is dropped twice. -/

namespace VllmCore
open List Manager
variable {η : Type} [DecidableEq η]

/-! ### The end of a hit, over the cached positions -/

variable {cached cached' : Nat → Prop} {k need N e e' : Nat} {drop : Bool}

theorem HitEnd.dvd {shift : Nat} (h : HitEnd cached k need drop e) (hshift : shift = if drop then 1 else 0) :
    k ∣ e - shift := by
  have hal := h.aligned
  cases drop with
  | false => subst hshift; exact hal
  | true => subst hshift; exact hal

theorem LastEnd.unique (h : LastEnd cached k need drop N e) (h' : LastEnd cached k need drop N e') : e = e' := by
  rcases Nat.lt_trichotomy e e' with hlt | heq | hlt
  · exact (h.last e' hlt h'.le (h'.ends (by omega))).elim
  · exact heq
  · exact (h'.last e hlt h.le (h.ends (by omega))).elim

theorem LastEnd.eq_zero (h : LastEnd cached k need drop N e) (hneed : 0 < need) (hnone : ∀ j, ¬ cached j) : e = 0 := by
  by_contra h0
  exact hnone (e - 1) ((h.ends (by omega)).cached (e - 1) (by omega) (by omega))

theorem LastEnd.eq_zero_iff {n : Nat} (h : LastEnd (fun i => i < n) k need false N e) (hneed : 0 < need) (hk : 0 < k) :
    e = 0 ↔ min N n < k := by
  constructor
  · intro h0
    by_contra hge
    rw [Nat.not_lt, Nat.le_min] at hge
    exact h.last k (h0 ▸ hk) hge.1 ⟨hk, Nat.dvd_refl k, fun j _ hj => hj.trans_le hge.2⟩
  · intro hlt
    by_contra hne
    have hend := h.ends (Nat.pos_of_ne_zero hne)
    have h1 : k ≤ e := Nat.le_of_dvd hend.pos hend.aligned
    have h2 : e - 1 < n := hend.cached (e - 1) (by omega) (by omega)
    have h3 := h.le
    omega

theorem endToHit_one (hk : 1 < k) : endToHit k need true 1 = 0 := by
  have h1 : 1 / k = 0 := Nat.div_eq_of_lt hk
  unfold endToHit
  rw [h1]
  split_ifs <;> simp_all

/-- A hit on the boundary `q * k`. It is lost when the run is shorter than needed, more than one block makes
up the alignment, and the last block is to be dropped. -/
theorem endToHit_boundary (hk : 0 < k) (q : Nat) : endToHit k need drop (q * k + if drop then 1 else 0) = q * k ↔
      q = 0 ∨ drop = false ∨ k = 1 ∨ need ≤ q * k + 1 := by
  unfold endToHit
  cases drop with
  | false => simp [Nat.mul_div_cancel q hk]
  | true =>
    simp only [if_true, true_and, Bool.true_eq_false, false_or]
    by_cases hneed : need ≤ q * k + 1
    · simp [hneed, Nat.mul_div_cancel q hk]
    · rw [if_neg hneed]
      rcases Nat.eq_or_lt_of_le (Nat.succ_le_of_lt hk) with h1 | h1
      · subst h1
        simp
      · have hdiv : (q * k + 1) / k = q := by
          rw [Nat.add_comm, Nat.add_mul_div_right 1 q hk, Nat.div_eq_of_lt h1, Nat.zero_add]
        rw [hdiv]
        cases q with
        | zero => simp
        | succ q =>
          -- the block below the boundary is cut to the boundary before
          have hpos : 0 < (q + 1) * k := Nat.mul_pos (Nat.succ_pos q) hk
          have hlow : ((q + 1) * k - 1) / k = q := by
            have he : (q + 1) * k - 1 = (k - 1) + q * k := by rw [Nat.succ_mul]; omega
            rw [he, Nat.add_mul_div_right _ q hk, Nat.div_eq_of_lt (by omega), Nat.zero_add]
          rw [if_pos hpos, hlow]
          have hne : q * k ≠ (q + 1) * k := by rw [Nat.succ_mul]; omega
          simp only [hne, hneed, Nat.succ_ne_zero, false_or, or_false, false_iff]
          omega

theorem tail_mod {x j : Nat} (hneed : need < k) (hx : k ∣ x) (hpos : 0 < x) (hj : x - need ≤ j) (hlt : j < x) :
    k - need ≤ j % k := by
  obtain ⟨q, rfl⟩ := hx
  obtain ⟨q, rfl⟩ := Nat.exists_eq_succ_of_ne_zero (Nat.pos_iff_ne_zero.1 (Nat.pos_of_mul_pos_left hpos))
  rw [Nat.mul_succ] at hj hlt
  have hdecomp : j = (j - k * q) + k * q := by omega
  rw [hdecomp, Nat.add_mul_mod_self_left, Nat.mod_eq_of_lt (by omega)]
  omega

theorem LastEnd.endToHit_eq {n shift : Nat} (hshift : shift = if drop then 1 else 0) (hneed : 0 < need)
    (hall : ∀ i, cached i ↔ i < n) (hsome : ∀ i, cached' i → i < n)
    (htail : ∀ i < n, k ≤ need ∨ (shift ≤ i ∧ k - need ≤ (i - shift) % k) → cached' i)
    (h : LastEnd cached k need drop N e) (h' : LastEnd cached' k need drop N e') :
    endToHit k need drop e = endToHit k need drop e' := by
  by_cases hk : k ≤ need
  · have hiff : cached = cached' := by
      funext i
      exact propext ⟨fun hi => htail i ((hall i).1 hi) (.inl hk), fun hi => (hall i).2 (hsome i hi)⟩
    subst hiff
    rw [h.unique h']
  · have hback : ∀ x, HitEnd cached' k need drop x → HitEnd cached k need drop x :=
      fun x hx => ⟨hx.pos, hx.aligned, fun j h1 h2 => (hall j).2 (hsome j (hx.cached j h1 h2))⟩
    -- every end but that of a lone EAGLE block
    have hforth : ∀ x, shift < x → HitEnd cached k need drop x → HitEnd cached' k need drop x := by
      intro x hlt hx
      refine ⟨hx.pos, hx.aligned, fun j h1 h2 => htail j ((hall j).1 (hx.cached j h1 h2)) (.inr ?_)⟩
      have hal := hx.dvd hshift
      have hle : k ≤ x - shift := Nat.le_of_dvd (by omega) hal
      have hs1 : shift ≤ 1 := by rw [hshift]; split <;> omega
      exact ⟨by omega, tail_mod (by omega) hal (by omega) (by omega) (by omega)⟩
    by_cases hbig : shift < e ∨ shift < e'
    · -- the larger of the two ends is an end of both
      have heq : e = e' := by
        rcases Nat.lt_trichotomy e e' with hlt | heq | hlt
        · exact (h.last e' hlt h'.le (hback e' (h'.ends (by omega)))).elim
        · exact heq
        · exact (h'.last e hlt h.le (hforth e (by omega) (h.ends (by omega)))).elim
      rw [heq]
    · cases drop with
      | false =>
        rw [if_neg Bool.false_ne_true] at hshift
        have h0 : e = 0 := by omega
        have h0' : e' = 0 := by omega
        rw [h0, h0']
      | true =>
        rw [if_pos rfl] at hshift
        have hzero : ∀ x, x ≤ 1 → endToHit k need true x = 0 := by
          intro x hx
          rcases Nat.le_one_iff_eq_zero_or_eq_one.1 hx with rfl | rfl
          · exact endToHit_zero
          · exact endToHit_one (by omega)
        rw [hzero e (by omega), hzero e' (by omega)]

theorem LastEnd.boundary {q shift : Nat} (hshift : shift = if drop then 1 else 0) (hle : q * k + shift ≤ N)
    (hlt : N < q * k + k + shift) (htail : ∀ j, q * k + shift - need ≤ j → j < q * k + shift → cached j) :
    LastEnd cached k need drop N (q * k + shift) := by
  refine ⟨hle, fun hpos => ⟨hpos, ?_, htail⟩, fun e' h1 h2 h => ?_⟩
  · cases drop with
    | false => subst hshift; exact Nat.dvd_mul_left k q
    | true => subst hshift; exact Nat.dvd_mul_left k q
  · obtain ⟨q', hq'⟩ := h.dvd hshift
    have h3 : k * q < k * q' := by rw [← hq', Nat.mul_comm k q]; omega
    have h4 : k * q' < k * (q + 1) := by rw [← hq', Nat.mul_succ, Nat.mul_comm k q]; omega
    have := Nat.lt_of_mul_lt_mul_left h3
    have := Nat.lt_of_mul_lt_mul_left h4
    omega

/-! ### The blocks that are kept -/

/-- One call of `cache_blocks` on the new full blocks of a request. -/
structure MaskCall where
  startBlock : Nat
  endBlock : Nat
  reachableBoundaries : List Nat := []
  finalSegmentEndBlock : Option Nat := none

namespace MaskCall
variable {s : KVCacheSpec} {A w extra i n start : Nat} {useEagle : Bool} {interval : Option Nat} {c : MaskCall}
  {calls : List MaskCall}

/-- Successive calls split `[start, n)`. -/
def Split : Nat → List MaskCall → Nat → Prop
  | start, [], n => start = n
  | start, c :: cs, n => c.startBlock = start ∧ start ≤ c.endBlock ∧ Split c.endBlock cs n

def selects (s : KVCacheSpec) (A : Nat) (useEagle : Bool) (interval : Option Nat) (c : MaskCall) (i : Nat) : Bool :=
  decide (c.startBlock ≤ i) && decide (i < c.endBlock) &&
    match reachableBlockMask s c.startBlock c.endBlock (some A) useEagle interval c.reachableBoundaries
      c.finalSegmentEndBlock with
    | none => true
    | some mask => mask.getD (i - c.startBlock) false

theorem Split.le (h : Split start calls n) : start ≤ n := by
  induction calls generalizing start with
  | nil => exact Nat.le_of_eq h
  | cons c cs ih => exact h.2.1.trans (ih h.2.2)

theorem Split.endBlock_le (h : Split start calls n) (hc : c ∈ calls) : c.endBlock ≤ n := by
  induction calls generalizing start with
  | nil => cases hc
  | cons c' cs ih =>
    rcases mem_cons.1 hc with rfl | hc
    · exact h.2.2.le
    · exact ih h.2.2 hc

theorem Split.exists (h : Split start calls n) (hi : start ≤ i) (hn : i < n) :
    ∃ c ∈ calls, c.startBlock ≤ i ∧ i < c.endBlock := by
  induction calls generalizing start with
  | nil => have : start = n := h; omega
  | cons c cs ih =>
    obtain ⟨rfl, -, hrest⟩ := h
    by_cases hlt : i < c.endBlock
    · exact ⟨c, mem_cons_self .., hi, hlt⟩
    · obtain ⟨c', hc', h⟩ := ih hrest (by omega)
      exact ⟨c', mem_cons_of_mem _ hc', h⟩

theorem getD_map_range {f : Nat → Bool} {j : Nat} (hj : j < n) : ((List.range n).map f).getD j false = f j := by
  simp [List.getD, hj]

theorem segment_pos (hA : 0 < A) (hdvd : s.blockSize ∣ A) : 0 < A / s.blockSize :=
  Nat.div_pos (Nat.le_of_dvd hA hdvd) s.blockSize_pos

theorem segment_eq_one_iff (hdvd : s.blockSize ∣ A) : A / s.blockSize = 1 ↔ A = s.blockSize := by
  rw [Nat.div_eq_iff_eq_mul_left s.blockSize_pos hdvd, Nat.one_mul]

variable (hkind : s.kind = .slidingWindow w extra) (hdvd : s.blockSize ∣ A) {need shift : Nat}
  (hneed : need = contiguousBlocksForHit w s.blockSize useEagle) (hshift : shift = if useEagle then 1 else 0)
variable (hstart : c.startBlock ≤ i) (hend : i < c.endBlock)

include hdvd hstart hend in
theorem covered : i - c.startBlock < c.endBlock - c.startBlock ∧ c.startBlock + (i - c.startBlock) = i ∧
    ¬ A % s.blockSize ≠ 0 := ⟨by omega, by omega, fun h => h (Nat.mod_eq_zero_of_dvd hdvd)⟩

include hkind hdvd hneed hshift hstart hend

/-- A mask with segments of `t` tokens, as conditions on a block that the call covers. -/
theorem selects_segments {t : Nat} (ht : interval = none ∧ t = A ∨ interval = some t ∧ 0 < t) :
    c.selects s A useEagle interval i = true ↔
      t / s.blockSize ≤ need ∨
      (shift ≤ i ∧ t / s.blockSize - need ≤ (i - shift) % (t / s.blockSize)) ∨
      (∃ e, c.finalSegmentEndBlock = some e ∧ useEagle = false ∧ e % (t / s.blockSize) ≠ 0 ∧
        e - e % (t / s.blockSize) ≤ i ∧ e - need ≤ i ∧ i < e) ∨
      interval.isSome = true ∧ ∃ b ∈ c.reachableBoundaries,
        b / A * A / s.blockSize + shift - need ≤ i ∧ i < b / A * A / s.blockSize + shift := by
  obtain ⟨hj, hi, hmod⟩ := covered hdvd hstart hend
  have ht' : interval = none ∧ t = A ∨ ∃ t', interval = some (t' + 1) ∧ t = t' + 1 :=
    ht.imp_right fun ⟨h, hpos⟩ => ⟨t - 1, by rw [h, Nat.sub_add_cancel hpos], by omega⟩
  subst hneed hshift
  by_cases hall : contiguousBlocksForHit w s.blockSize useEagle ≥ t / s.blockSize
  · rcases ht' with ⟨rfl, rfl⟩ | ⟨t, rfl, rfl⟩ <;>
    simp [selects, hstart, hend, reachableBlockMask, hkind, slidingWindowBlockMask, hmod, hall]
  · have hno : ¬ t / s.blockSize ≤ contiguousBlocksForHit w s.blockSize useEagle := hall
    rcases ht' with ⟨rfl, rfl⟩ | ⟨t, rfl, rfl⟩ <;>
    simp only [selects, hstart, hend, decide_true, Bool.true_and, reachableBlockMask, hkind,
      slidingWindowBlockMask, if_neg hmod, ge_iff_le, hno, if_false, getD_map_range hj, hi, false_or] <;>
    cases c.finalSegmentEndBlock <;> simp [Manager.inTail, or_assoc, and_assoc]

theorem selects_boundaries :
    c.selects s A useEagle (some 0) i = true ↔ ∃ b ∈ c.reachableBoundaries,
      b / A * A / s.blockSize + shift - need ≤ i ∧ i < b / A * A / s.blockSize + shift := by
  obtain ⟨hj, hi, hmod⟩ := covered hdvd hstart hend
  subst hneed hshift
  simp only [selects, hstart, hend, decide_true, Bool.true_and, reachableBlockMask, hkind,
    slidingWindowBlockMask, if_neg hmod, getD_map_range hj, hi]
  simp [Manager.inTail]

omit hkind hdvd hneed hshift hstart hend

def Kept (s : KVCacheSpec) (A : Nat) (useEagle : Bool) (interval : Option Nat) (calls : List MaskCall)
    (i : Nat) : Prop :=
  ∃ c ∈ calls, c.selects s A useEagle interval i = true

theorem Split.lt_of_kept (h : Split 0 calls n) (hi : Kept s A useEagle interval calls i) : i < n := by
  obtain ⟨c, hc, hsel⟩ := hi
  rw [selects, Bool.and_eq_true, Bool.and_eq_true, decide_eq_true_eq, decide_eq_true_eq] at hsel
  exact hsel.1.2.trans_le (h.endBlock_le hc)

theorem Split.kept (h : Split 0 calls n) (hi : i < n)
    (hsel : ∀ c ∈ calls, c.startBlock ≤ i → i < c.endBlock → c.selects s A useEagle interval i = true) :
    Kept s A useEagle interval calls i := by
  obtain ⟨c, hc, h1, h2⟩ := h.exists (Nat.zero_le i) hi
  exact ⟨c, hc, hsel c hc h1 h2⟩

include hkind hdvd hneed hshift

theorem Split.kept_boundary {r t : Nat} (h : Split 0 calls n) (ht : ∀ c ∈ calls, t ∈ c.reachableBoundaries) (hi : i < n)
    (h1 : t / A * A / s.blockSize + shift - need ≤ i)
    (h2 : i < t / A * A / s.blockSize + shift) : Kept s A useEagle (some r) calls i := by
  refine h.kept hi fun c hc hstart hend => ?_
  rcases Nat.eq_zero_or_pos r with rfl | hr
  · exact (selects_boundaries hkind hdvd hneed hshift hstart hend).2 ⟨t, ht c hc, h1, h2⟩
  · exact (selects_segments hkind hdvd hneed hshift hstart hend (.inr ⟨rfl, hr⟩)).2
      (.inr (.inr (.inr ⟨rfl, t, ht c hc, h1, h2⟩)))

omit hneed hshift in
theorem not_kept (hA : 0 < A) (hneed : contiguousBlocksForHit w s.blockSize useEagle = 0)
    (hint : ∀ r, interval = some r → r = 0 ∨ s.blockSize ≤ r) : ¬ Kept s A useEagle interval calls i := by
  rintro ⟨c, hc, hsel⟩
  have hrange := hsel
  rw [selects, Bool.and_eq_true, Bool.and_eq_true, decide_eq_true_eq, decide_eq_true_eq] at hrange
  obtain ⟨⟨hstart, hend⟩, -⟩ := hrange
  have heagle : useEagle = false := by
    rw [Bool.eq_false_iff]
    intro h
    simp [contiguousBlocksForHit, h] at hneed
  subst heagle
  have hseg : ∀ t, s.blockSize ≤ t → (interval = none ∧ t = A ∨ interval = some t ∧ 0 < t) → False := by
    intro t hle ht
    have hpos : 0 < t / s.blockSize := Nat.div_pos hle s.blockSize_pos
    have hmod := Nat.mod_lt i hpos
    rcases (selects_segments hkind hdvd hneed.symm rfl hstart hend ht).1 hsel with h | ⟨-, h⟩ | ⟨e,
      -, -, -, -, h1, h2⟩ |
      ⟨-, b, -, h1, h2⟩
    · omega
    · rw [if_neg Bool.false_ne_true, Nat.sub_zero, Nat.sub_zero] at h
      omega
    · omega
    · rw [Nat.sub_zero] at h1
      omega
  cases interval with
  | none => exact hseg A (Nat.le_of_dvd hA hdvd) (.inl ⟨rfl, rfl⟩)
  | some r =>
    rcases hint r rfl with rfl | hle
    · obtain ⟨b, -, h1, h2⟩ := (selects_boundaries hkind hdvd hneed.symm rfl hstart hend).1 hsel
      rw [Nat.sub_zero] at h1
      omega
    · exact hseg r hle (.inr ⟨rfl, s.blockSize_pos.trans_le hle⟩)

end MaskCall

/-! ### Lookups in a sparse pool -/

def hitLength (p : BlockPool η) (s : KVCacheSpec) (blockHashes : List η) (m : Nat) (ids : List Nat)
    (drop : Bool) (A : Nat) :
    Except Err Nat :=
  (CacheHit.findLongestCacheHit p s blockHashes m ids drop A).map Prod.snd

section Lookup
variable {s : KVCacheSpec} {w extra A m n : Nat} {ids : List Nat} {blockHashes : List η} {p : BlockPool η}
  {interval : Option Nat} {calls : List MaskCall}

theorem hitLength_eq (hkind : s.kind = .slidingWindow w extra) :
    hitLength p s blockHashes m ids drop A = (CacheHit.slidingWindow p s w blockHashes m ids drop A).map Prod.snd := by
  unfold hitLength CacheHit.findLongestCacheHit
  rw [hkind]
  simp only
  cases CacheHit.slidingWindow p s w blockHashes m ids drop A <;> rfl

section Aligned
variable (hA : 0 < A) (hdvd : s.blockSize ∣ A) (hhash : p.hashBlockSize ∣ s.blockSize) (hids : ids ≠ [])
  (hm : m / s.blockSize ≤ blockHashes.length / (s.blockSize / p.hashBlockSize))

include hA hdvd hhash hids hm in
theorem hitLength_ok (hkind : s.kind = .slidingWindow w extra)
    (hcached : ∀ g ∈ ids, ∀ i, p.CachedAt blockHashes s.blockSize g i ↔ cached i) {need : Nat}
    (hneed : need = max 1 (contiguousBlocksForHit w s.blockSize drop)) :
    ∃ e, hitLength p s blockHashes m ids drop A = .ok (endToHit (A / s.blockSize) need drop e * s.blockSize) ∧
      LastEnd cached (A / s.blockSize) need drop (m / s.blockSize) e := by
  obtain ⟨cols, e, hrun, hlast⟩ := CacheHit.slidingWindow_length hA hdvd hhash hids hm hneed
  have hfun : (fun i => ∀ g ∈ ids, p.CachedAt blockHashes s.blockSize g i) = cached := by
    funext i
    obtain ⟨g, hg⟩ := exists_mem_of_ne_nil ids hids
    exact propext ⟨fun h => (hcached g hg i).1 (h g hg), fun h g' hg' => (hcached g' hg' i).2 h⟩
  rw [hfun] at hlast
  exact ⟨e, by rw [hitLength_eq hkind, hrun]; rfl, hlast⟩

theorem contiguousBlocksForHit_pos {b : Nat} (hb : 0 < b) :
    0 < contiguousBlocksForHit w b drop ↔ 2 ≤ w ∨ drop = true := by
  have hpos : 0 < cdiv (w - 1) b ↔ 2 ≤ w := by
    rw [← Nat.not_le, cdiv_le_iff hb]
    omega
  unfold contiguousBlocksForHit
  cases drop with
  | false => simpa using hpos
  | true => simp

/-- The lengths that a lookup with the EAGLE drop may return. -/
def eagleHits (p : BlockPool η) (s : KVCacheSpec) (w : Nat) (blockHashes : List η) (m : Nat) (ids : List Nat)
    (A : Nat) :
    Set Nat :=
  {n | A ∣ n ∧ n + s.blockSize ≤ m ∧ ∀ g ∈ ids, p.LookAhead s w blockHashes g n}

include hdvd

theorem mul_mem_eagleHits (j : Nat) :
    j * s.blockSize ∈ eagleHits p s w blockHashes m ids A ↔
      HitEnd (fun i => ∀ g ∈ ids, p.CachedAt blockHashes s.blockSize g i) (A / s.blockSize)
        (cdiv (w - 1) s.blockSize + 1) true (j + 1) ∧ j + 1 ≤ m / s.blockSize := by
  have hpos := s.blockSize_pos
  have hal : A ∣ j * s.blockSize ↔ A / s.blockSize ∣ j :=
    (Nat.dvd_iff_mod_eq_zero ..).trans (CacheHit.mul_mod_eq_zero_iff hdvd j)
  rw [Nat.le_div_iff_mul_le hpos, Nat.succ_mul]
  simp only [eagleHits, BlockPool.LookAhead, Set.mem_ofPred_eq, Nat.mul_div_cancel _ hpos, hal]
  constructor
  · rintro ⟨hal, hle, hahead⟩
    refine ⟨⟨j.succ_pos, hal, fun i h1 h2 g hg => ?_⟩, hle⟩
    rcases Nat.lt_succ_iff_lt_or_eq.1 h2 with h2 | rfl
    · exact (hahead g hg).2 i h2 (by omega)
    · exact (hahead g hg).1
  · rintro ⟨⟨-, hal, hcached⟩, hle⟩
    exact ⟨hal, hle, fun g hg => ⟨hcached j (by omega) (by omega) g hg,
      fun i h1 h2 => hcached i (by omega) (by omega) g hg⟩⟩

theorem LastEnd.eagleHits (h : LastEnd (fun i => ∀ g ∈ ids, p.CachedAt blockHashes s.blockSize g i) (A / s.blockSize)
      (cdiv (w - 1) s.blockSize + 1) true (m / s.blockSize) e) :
    (e = 0 → eagleHits p s w blockHashes m ids A = ∅) ∧
      (0 < e → IsGreatest (eagleHits p s w blockHashes m ids A) ((e - 1) * s.blockSize)) := by
  have hlt : ∀ n ∈ VllmCore.eagleHits p s w blockHashes m ids A, ∃ j, n = j * s.blockSize ∧ j < e := by
    intro n hn
    obtain ⟨j, rfl⟩ := exists_eq_mul_left_of_dvd (hdvd.trans hn.1)
    obtain ⟨hend, hle⟩ := (mul_mem_eagleHits hdvd j).1 hn
    exact ⟨j, rfl, Nat.lt_of_not_le fun hj => h.last _ (Nat.lt_succ_of_le hj) hle hend⟩
  constructor
  · rintro rfl
    refine Set.eq_empty_of_forall_notMem fun n hn => ?_
    obtain ⟨j, -, hj⟩ := hlt n hn
    exact Nat.not_lt_zero j hj
  · intro hpos
    have hsucc := Nat.sub_add_cancel hpos
    refine ⟨(mul_mem_eagleHits hdvd (e - 1)).2 (hsucc.symm ▸ ⟨h.ends hpos, h.le⟩), fun n hn => ?_⟩
    obtain ⟨i, rfl, hi⟩ := hlt n hn
    exact Nat.mul_le_mul_right _ (by omega)

include hA hhash hids hm in
/-- The lookup with the EAGLE drop returns the greatest hit, except when the window reaches before the start of
the sequence there and the alignment is more than a block. -/
theorem slidingWindow_eagle_greatest :
    ∃ cols n, CacheHit.slidingWindow p s w blockHashes m ids true A = .ok (cols, n) ∧
      (eagleHits p s w blockHashes m ids A = ∅ ∧ n = 0 ∨
        ∃ best, IsGreatest (eagleHits p s w blockHashes m ids A) best ∧
          (n = best ↔ best = 0 ∨ A = s.blockSize ∨ cdiv (w - 1) s.blockSize ≤ best / s.blockSize)) := by
  have hpos := s.blockSize_pos
  have hneed : cdiv (w - 1) s.blockSize + 1 = max 1 (contiguousBlocksForHit w s.blockSize true) := by
    simp [contiguousBlocksForHit]
  obtain ⟨cols, e, hrun, hlast⟩ := CacheHit.slidingWindow_length hA hdvd hhash hids hm hneed
  obtain ⟨hempty, hbest⟩ := hlast.eagleHits hdvd
  refine ⟨cols, _, hrun, ?_⟩
  cases e with
  | zero => exact .inl ⟨hempty rfl, by rw [endToHit_zero, Nat.zero_mul]⟩
  | succ j =>
    obtain ⟨q, rfl⟩ := exists_eq_mul_left_of_dvd (hlast.ends j.succ_pos).aligned
    have hk := MaskCall.segment_pos hA hdvd
    have hboundary : endToHit (A / s.blockSize) (cdiv (w - 1) s.blockSize + 1) true (q * (A / s.blockSize) + 1) =
        q * (A / s.blockSize) ↔ _ := endToHit_boundary hk q
    refine .inr ⟨_, hbest (Nat.succ_pos _), ?_⟩
    rw [Nat.succ_sub_one, Nat.mul_left_inj hpos.ne', hboundary, MaskCall.segment_eq_one_iff hdvd,
      Nat.add_le_add_iff_right,
      Nat.mul_div_cancel _ hpos, Nat.mul_eq_zero, Nat.mul_eq_zero, or_iff_left hpos.ne', or_iff_left hk.ne']
    simp

end Aligned

section Sparse
variable {full sparse : BlockPool η} (hkind : s.kind = .slidingWindow w extra) (hA : 0 < A) (hdvd : s.blockSize ∣ A)
  (hids : ids ≠ []) (hhash : full.hashBlockSize ∣ s.blockSize) (hsame : sparse.hashBlockSize = full.hashBlockSize)
  (hsplit : MaskCall.Split 0 calls n) (hfull : ∀ g ∈ ids, ∀ i, full.CachedAt blockHashes s.blockSize g i ↔ i < n)
  (hsparse : ∀ g ∈ ids, ∀ i, sparse.CachedAt blockHashes s.blockSize g i ↔ MaskCall.Kept s A drop interval calls i)
include hkind hA hdvd hids hhash hsame hsplit hfull hsparse

theorem dense_hitLength (hint : interval = none) (m : Nat) :
    hitLength sparse s blockHashes m ids drop A = hitLength full s blockHashes m ids drop A ↔
      2 ≤ w ∨ drop = true ∨ min (m / s.blockSize) n * s.blockSize < A ∨
        blockHashes.length / (s.blockSize / full.hashBlockSize) < m / s.blockSize := by
  have hpos := s.blockSize_pos
  have hk : 0 < A / s.blockSize := MaskCall.segment_pos hA hdvd
  have hhash' : sparse.hashBlockSize ∣ s.blockSize := hsame ▸ hhash
  by_cases hm : m / s.blockSize ≤ blockHashes.length / (s.blockSize / full.hashBlockSize)
  · obtain ⟨e, hrun, hlast⟩ := hitLength_ok hA hdvd hhash hids hm hkind hfull rfl
    obtain ⟨e', hrun', hlast'⟩ := hitLength_ok hA hdvd hhash' hids (hsame ▸ hm) hkind hsparse rfl
    rw [hrun, hrun']
    by_cases hw : 2 ≤ w ∨ drop = true
    · -- the window needs a block, and the kept tails are enough for the scan
      have hneed := (contiguousBlocksForHit_pos hpos).2 hw
      rw [Nat.max_eq_right hneed] at hlast hlast' ⊢
      have heq := hlast.endToHit_eq rfl hneed (fun i => Iff.rfl) (fun i hi => hsplit.lt_of_kept hi)
        (fun i hi h => hsplit.kept hi fun c hc hstart hend =>
          (MaskCall.selects_segments hkind hdvd rfl rfl hstart hend (.inl ⟨hint, rfl⟩)).2
            (h.imp_right Or.inl)) hlast'
      rw [heq]
      exact iff_of_true rfl (hw.imp_right Or.inl)
    · -- no block is kept: the full pool must not have a hit either
      have hw' : ¬ 2 ≤ w ∧ drop = false := by
        rw [not_or, Bool.not_eq_true] at hw
        exact hw
      obtain ⟨hw2, rfl⟩ := hw'
      have hneed : contiguousBlocksForHit w s.blockSize false = 0 :=
        Nat.eq_zero_of_not_pos fun h => hw ((contiguousBlocksForHit_pos hpos).1 h)
      have h0 : e' = 0 := hlast'.eq_zero (by omega) fun j =>
        MaskCall.not_kept hkind hdvd hA hneed fun r hr => by rw [hint] at hr; cases hr
      have hnone : e = 0 ↔ min (m / s.blockSize) n * s.blockSize < A := by
        rw [← Nat.div_mul_cancel hdvd, Nat.mul_lt_mul_right hpos]
        exact hlast.eq_zero_iff (by rw [hneed]; omega) hk
      rw [h0, endToHit_zero, Nat.zero_mul]
      have heq : endToHit (A / s.blockSize) (max 1 (contiguousBlocksForHit w s.blockSize false)) false e = e := by
        rw [hneed]
        unfold endToHit
        rcases Nat.eq_zero_or_pos e with rfl | he
        · simp
        · simp [Nat.succ_le_of_lt he]
      rw [heq, Except.ok.injEq, eq_comm, Nat.mul_eq_zero, or_iff_left hpos.ne', hnone]
      constructor
      · intro h; exact .inr (.inr (.inl h))
      · rintro (h | h | h | h)
        · exact absurd h hw2
        · cases h
        · exact h
        · omega
  · have hlt := Nat.lt_of_not_le hm
    rw [hitLength_eq hkind, hitLength_eq hkind, CacheHit.slidingWindow_error hA hdvd hhash hlt,
      CacheHit.slidingWindow_error hA hdvd hhash' (hsame ▸ hlt)]
    exact iff_of_true rfl (.inr (.inr (.inr hlt)))

omit hfull in
theorem boundary_hitLength {r t : Nat} (hint : interval = some r) (ht : ∀ c ∈ calls, t ∈ c.reachableBoundaries)
    (hn : t / A * A + (if drop then s.blockSize else 0) ≤ n * s.blockSize)
    (hlow : t / A * A + (if drop then s.blockSize else 0) ≤ m)
    (hhigh : m < t / A * A + A + (if drop then s.blockSize else 0))
    (hm : m / s.blockSize ≤ blockHashes.length / (s.blockSize / full.hashBlockSize)) :
    hitLength sparse s blockHashes m ids drop A = .ok (t / A * A) ↔
      t / A = 0 ∨ if drop then A = s.blockSize ∨ cdiv (w - 1) s.blockSize ≤ t / A * A / s.blockSize
        else 2 ≤ w ∨ 0 < r ∧ r < s.blockSize := by
  have hpos := s.blockSize_pos
  have hk : 0 < A / s.blockSize := MaskCall.segment_pos hA hdvd
  have hhash' : sparse.hashBlockSize ∣ s.blockSize := hsame ▸ hhash
  obtain ⟨e, hrun, hlast⟩ := hitLength_ok hA hdvd hhash' hids (hsame ▸ hm) hkind hsparse
    (rfl : max 1 (contiguousBlocksForHit w s.blockSize drop) = _)
  -- count in blocks
  obtain ⟨shift, hshift⟩ : ∃ shift, shift = if drop then 1 else 0 := ⟨_, rfl⟩
  have hδ : (if drop then s.blockSize else 0) = shift * s.blockSize := by rw [hshift]; split <;> simp
  have hAk := Nat.div_mul_cancel hdvd
  generalize hkd : A / s.blockSize = k at *
  have ha : t / A * A = t / A * k * s.blockSize := by rw [Nat.mul_assoc, hAk]
  have hab : t / A * A / s.blockSize = t / A * k := by rw [ha, Nat.mul_div_cancel _ hpos]
  rw [hδ] at hn hlow hhigh
  generalize hq : t / A = q at *
  have hn' : q * k + shift ≤ n := Nat.le_of_mul_le_mul_right (by rw [Nat.add_mul, ← ha]; exact hn) hpos
  have hlow' : q * k + shift ≤ m / s.blockSize := (Nat.le_div_iff_mul_le hpos).2 (by rw [Nat.add_mul, ← ha]; exact hlow)
  have hhigh' : m / s.blockSize < q * k + k + shift := (Nat.div_lt_iff_lt_mul hpos).2 (by
    rw [Nat.add_mul, Nat.add_mul, ← ha, hAk]; exact hhigh)
  rw [hrun, hab, ha, Except.ok.injEq, Nat.mul_left_inj hpos.ne']
  by_cases hkeeps : (2 ≤ w ∨ drop = true) ∨ 0 < r ∧ r < s.blockSize
  · have htail : ∀ j, q * k + shift - max 1 (contiguousBlocksForHit w s.blockSize drop) ≤ j → j < q * k + shift →
        MaskCall.Kept s A drop interval calls j := by
      intro j h1 h2
      by_cases hw : 2 ≤ w ∨ drop = true
      · have hneed := (contiguousBlocksForHit_pos hpos).2 hw
        rw [Nat.max_eq_right hneed] at h1
        rw [hint]
        exact hsplit.kept_boundary hkind hdvd rfl hshift ht (by omega) (by rw [hq, hab]; exact h1)
          (by rw [hq, hab]; exact h2)
      · -- segments of less than a block: everything is kept
        have hr := hkeeps.resolve_left hw
        refine hsplit.kept (by omega) fun c hc hstart hend => ?_
        refine (MaskCall.selects_segments hkind hdvd rfl rfl hstart hend (.inr ⟨hint, hr.1⟩)).2 (.inl ?_)
        rw [Nat.div_eq_of_lt hr.2]
        exact Nat.zero_le _
    have he := hlast.unique (LastEnd.boundary hshift hlow' hhigh' htail)
    rw [he, hshift, endToHit_boundary hk]
    refine or_congr_right ?_
    cases drop with
    | false =>
      refine iff_of_true (.inl rfl) ?_
      rw [if_neg Bool.false_ne_true]
      rwa [or_iff_left Bool.false_ne_true] at hkeeps
    | true =>
      have hk1 : k = 1 ↔ A = s.blockSize := hkd ▸ MaskCall.segment_eq_one_iff hdvd
      have hn1 : max 1 (contiguousBlocksForHit w s.blockSize true) = cdiv (w - 1) s.blockSize + 1 := by
        simp [contiguousBlocksForHit]
      rw [if_pos rfl, hk1, hn1, Nat.add_le_add_iff_right]
      simp
  · -- nothing is kept
    rw [not_or, not_or, Bool.not_eq_true] at hkeeps
    obtain ⟨⟨hw, rfl⟩, hr⟩ := hkeeps
    have hneed : contiguousBlocksForHit w s.blockSize false = 0 :=
      Nat.eq_zero_of_not_pos fun h => ((contiguousBlocksForHit_pos hpos).1 h).elim hw Bool.false_ne_true
    have h0 : e = 0 := hlast.eq_zero (by omega) fun j =>
      MaskCall.not_kept hkind hdvd hA hneed fun r' hr' => by
        cases hint.symm.trans hr'
        omega
    rw [h0, endToHit_zero, if_neg Bool.false_ne_true, or_iff_left (not_or.2 ⟨hw, hr⟩), eq_comm, Nat.mul_eq_zero,
      or_iff_left hk.ne']

/-- Keeping only the reachable blocks. Without a retention interval the sparse pool gives every lookup the
length of the full pool, unless the window needs no block and the full pool has an aligned hit. With one, a
lookup at a boundary that the calls name returns it, unless the window needs no block, or it reaches before
the start and the EAGLE block is dropped twice. -/
theorem sparse_hitLength : (interval = none → ∀ m,
      (hitLength sparse s blockHashes m ids drop A = hitLength full s blockHashes m ids drop A ↔
        2 ≤ w ∨ drop = true ∨ min (m / s.blockSize) n * s.blockSize < A ∨
          blockHashes.length / (s.blockSize / full.hashBlockSize) < m / s.blockSize)) ∧
    ∀ r, interval = some r → ∀ t, (∀ c ∈ calls, t ∈ c.reachableBoundaries) →
      t / A * A + (if drop then s.blockSize else 0) ≤ n * s.blockSize →
      ∀ m, t / A * A + (if drop then s.blockSize else 0) ≤ m → m < t / A * A + A + (if drop then s.blockSize else 0) →
        m / s.blockSize ≤ blockHashes.length / (s.blockSize / full.hashBlockSize) →
        (hitLength sparse s blockHashes m ids drop A = .ok (t / A * A) ↔
          t / A = 0 ∨ if drop then A = s.blockSize ∨ cdiv (w - 1) s.blockSize ≤ t / A * A / s.blockSize
            else 2 ≤ w ∨ 0 < r ∧ r < s.blockSize) :=
  ⟨fun hint m => dense_hitLength hkind hA hdvd hids hhash hsame hsplit hfull hsparse hint m,
    fun _ hint _ ht hn _ hlow hhigh hm =>
      boundary_hitLength hkind hA hdvd hids hhash hsame hsplit hsparse hint ht hn hlow hhigh hm⟩

end Sparse

end Lookup

/-- A pool of hash blocks of two tokens that has cached the given hashes for group 0. -/
def poolOf (kept : List Nat) : BlockPool Nat where
  numGpuBlocks := 8
  enableCaching := true
  hashBlockSize := 2
  blocks := fun _ => {}
  freeBlockQueue := FreeKVCacheBlockQueue.init []
  cachedBlockHashToBlock := kept.foldl (fun m h => m.insert ⟨h, 0⟩ (h + 1)) Dict.empty
  cachedBlockHashesByBlock := Dict.empty
  enableKvCacheEvents := false
  kvEventQueue := []

def windowSpec (w : Nat) : KVCacheSpec := { blockSize := 2, kind := .slidingWindow w 0 }

theorem slidingWindow_eagle_greatest_three : IsGreatest (eagleHits (poolOf [0, 1, 2]) (windowSpec 3) 3 [0,
    1, 2] 6 [0] 4) 4 := by
  obtain ⟨cols, n, hrun, h⟩ := @slidingWindow_eagle_greatest Nat _ (windowSpec 3) 3 4 6 [0] [0, 1, 2] (poolOf [0, 1, 2])
    (by decide) (by decide) (by decide) (by decide) (by decide)
  cases hrun.symm.trans (show _ = .ok ([[0], [2]], 4) from rfl)
  rcases h with ⟨-, h⟩ | ⟨best, hbest, hiff⟩
  · cases h
  · obtain ⟨q, rfl⟩ := hbest.1.1
    have hfits : 4 * q = 0 ∨ 1 ≤ 4 * q / 2 := by omega
    have heq := hiff.2 (hfits.imp_right .inr)
    obtain rfl : q = 1 := by omega
    exact hbest

/-- The window is longer than the sequence: four tokens are cached with the block behind them, and the lookup
returns none. -/
theorem slidingWindow_eagle_lost : CacheHit.slidingWindow (poolOf [0, 1, 2]) (windowSpec 9) 9 [0, 1, 2] 6 [0]
    true 4 = .ok ([], 0) ∧
    4 ∈ eagleHits (poolOf [0, 1, 2]) (windowSpec 9) 9 [0, 1, 2] 6 [0] 4 := by
  refine ⟨rfl, by decide, by decide, fun g hg => ?_⟩
  cases mem_singleton.1 hg
  refine ⟨⟨_, rfl, rfl⟩, fun i hi _ => ?_⟩
  match i, (show i < 2 from hi) with
  | 0, _ | 1, _ => exact ⟨_, rfl, rfl⟩

theorem cachedAt_poolOf (kept : List Nat) (K : Nat → Prop) (hK : ∀ i, K i → i < 4)
    (h : ∀ i < 4, (poolOf kept).CachedAt [0, 1, 2, 3] 2 0 i ↔ K i) :
    ∀ g ∈ [0], ∀ i, (poolOf kept).CachedAt [0, 1, 2, 3] 2 g i ↔ K i := by
  intro g hg i
  obtain rfl := mem_singleton.1 hg
  by_cases hi : i < 4
  · exact h i hi
  · refine iff_of_false ?_ fun hk => hi (hK i hk)
    rintro ⟨x, hx, -⟩
    have hlt := (List.getElem?_eq_some_iff.1 hx).1
    simp [poolOf] at hlt
    exact hi hlt

/-- Blocks 1 and 3 serve nine tokens as all four blocks do; and with retention block 1 alone serves the boundary
at four tokens. -/
theorem sparse_hitLength_four : hitLength (poolOf [1, 3]) (windowSpec 3) [0, 1, 2, 3] 9 [0] false 4 =
      hitLength (poolOf [0, 1, 2, 3]) (windowSpec 3) [0, 1, 2, 3] 9 [0] false 4 ∧
    hitLength (poolOf [1]) (windowSpec 3) [0, 1, 2, 3] 7 [0] false 4 = .ok 4 := by
  have hfull := cachedAt_poolOf [0, 1, 2, 3] (· < 4) (fun _ hi => hi) (by decide)
  have hsplit : MaskCall.Split 0 [⟨0, 3, [], none⟩, ⟨3, 4, [], none⟩] 4 := by simp [MaskCall.Split]
  have hsplit' : MaskCall.Split 0 [⟨0, 4, [5], none⟩] 4 := by simp [MaskCall.Split]
  have hsparse := cachedAt_poolOf [1, 3]
    (MaskCall.Kept (windowSpec 3) 4 false none [⟨0, 3, [], none⟩, ⟨3, 4, [], none⟩])
    (fun _ => hsplit.lt_of_kept) (by unfold MaskCall.Kept; decide)
  have hsparse' := cachedAt_poolOf [1] (MaskCall.Kept (windowSpec 3) 4 false (some 0) [⟨0, 4, [5], none⟩])
    (fun _ => hsplit'.lt_of_kept) (by unfold MaskCall.Kept; decide)
  have hsame : ∀ kept, (poolOf kept).hashBlockSize = (poolOf [0, 1, 2, 3]).hashBlockSize := fun _ => rfl
  constructor
  · exact ((sparse_hitLength (s := windowSpec 3) rfl (by decide) (by decide) (by decide) (by decide) (hsame [1, 3])
      hsplit hfull hsparse).1 rfl 9).2 (.inl (by decide))
  · exact ((sparse_hitLength (s := windowSpec 3) rfl (by decide) (by decide) (by decide) (by decide) (hsame [1])
      hsplit' hfull hsparse').2 0 rfl 5 (by decide) (by decide) 7 (by decide) (by decide) (by decide)).2 (by decide)

/-- A window of one token keeps no block although a full pool serves four tokens; and a window longer than the
sequence loses the boundary at four tokens with EAGLE, with all three blocks kept. -/
theorem sparse_hitLength_lost : (reachableBlockMask (windowSpec 1) 0 2 (some 2) false none [] = some [false, false] ∧
      hitLength (poolOf []) (windowSpec 1) [0, 1] 4 [0] false 2 = .ok 0 ∧
      hitLength (poolOf [0, 1]) (windowSpec 1) [0, 1] 4 [0] false 2 = .ok 4) ∧
    reachableBlockMask (windowSpec 9) 0 3 (some 4) true (some 0) [4] = some [true, true, true] ∧
      hitLength (poolOf [0, 1, 2]) (windowSpec 9) [0, 1, 2] 6 [0] true 4 = .ok 0 :=
  ⟨⟨rfl, rfl, rfl⟩, rfl, rfl⟩

end VllmCore
