import VllmCore.Core.RefCounts
import VllmCore.Core.BlockCounts

/-! # Tables of groups that free blocks behind a window

Sliding windows, local chunks and R-SWA replace the blocks that no later position attends to by the null block.
The scan that does it runs backwards and stops at the first null entry, so it relies on where null entries can
be: they always fill one interval of the table, from its start (or from the end of the prompt, for R-SWA) up to
some entry before the window. This is stated here for a table and kept by every operation of a manager. -/

namespace VllmCore
open Except List KVCacheSpec
variable {η : Type} {b c : BlockId}

/-! ### Null entries of a table -/

def NullsIn (bs : List BlockId) (a z : Nat) : Prop := ∀ (i : Nat) b, bs[i]? = some b → (b = nullBlock ↔ a ≤ i ∧ i < z)

namespace NullsIn
variable {bs cs : List BlockId} {a z e i : Nat}

theorem nil (a z : Nat) : NullsIn [] a z := fun _ _ h => by cases h

theorem append (h : NullsIn bs a z) (hz : z ≤ max a bs.length) (hcs : ∀ b ∈ cs, b ≠ nullBlock) :
    NullsIn (bs ++ cs) a z := by
  intro i b hb
  rcases Nat.lt_or_ge i bs.length with hi | hi
  · rw [getElem?_append_left hi] at hb
    exact h i b hb
  · rw [getElem?_append_right hi] at hb
    exact iff_of_false (hcs b (mem_of_getElem? hb)) (by omega)

theorem set (h : NullsIn bs a z) (hb : bs[i]? = some b) (hn : b ≠ nullBlock) (hc : c ≠ nullBlock) :
    NullsIn (bs.set i c) a z := by
  intro j d hd
  rw [getElem?_set] at hd
  split at hd
  · next hij =>
    subst hij
    split at hd
    · cases hd
      exact iff_of_false hc fun hr => hn ((h i b hb).2 hr)
    · cases hd
  · exact h j d hd

theorem pad (h : NullsIn bs 0 z) (n : Nat) : NullsIn (List.replicate n nullBlock ++ bs.drop n) 0 (max n z) := by
  intro i b hb
  rcases Nat.lt_or_ge i n with hi | hi
  · rw [getElem?_append_left (by simpa using hi), getElem?_replicate, if_pos hi] at hb
    exact iff_of_true (Option.some.inj hb).symm ⟨Nat.zero_le i, by omega⟩
  · rw [getElem?_append_right (by simpa using hi), length_replicate, getElem?_drop,
      Nat.add_sub_cancel' hi] at hb
    rw [h i b hb]
    omega

end NullsIn

namespace Manager
variable {m m' : Manager η} {p p' : BlockPool η} {r x : RequestId}

theorem length_removeLoop (a e : Nat) (bs : List BlockId) : (removeLoop a e bs).2.length = bs.length := by
  induction e generalizing bs with
  | zero => rfl
  | succ e ih =>
    unfold removeLoop
    split
    · split
      · rfl
      · rw [ih, length_set]
    · rfl

/-- The scan nulls its whole range if the null entries in it come first. -/
theorem getElem?_removeLoop (a e : Nat) (bs : List BlockId) (hlen : e ≤ bs.length)
    (hdown : ∀ i j, a ≤ j → j ≤ i → i < e → bs[i]? = some nullBlock → bs[j]? = some nullBlock) (i : Nat) :
    (removeLoop a e bs).2[i]? = if a ≤ i ∧ i < e then some nullBlock else bs[i]? := by
  induction e generalizing bs with
  | zero => simp [removeLoop]
  | succ e ih =>
    unfold removeLoop
    by_cases hae : a ≤ e
    · rw [decide_eq_true hae, getElem?_eq_getElem hlen]
      have he : bs[e]? = some bs[e] := getElem?_eq_getElem hlen
      simp only
      split
      · next hn =>
        -- the rest of the range is null already
        by_cases hi : a ≤ i ∧ i < e + 1
        · rw [if_pos hi]
          exact hdown e i hi.1 (by omega) (Nat.lt_succ_self e) (by rw [he]; simpa [isNull] using hn)
        · rw [if_neg hi]
      · have hset : ∀ j, j ≠ e → (bs.set e nullBlock)[j]? = bs[j]? := fun j hj => by
          rw [getElem?_set, if_neg (Ne.symm hj)]
        rw [ih (bs.set e nullBlock) (by rw [length_set]; omega) fun i j h1 h2 h3 h4 => by
          rw [hset i (by omega)] at h4
          rw [hset j (by omega)]
          exact hdown i j h1 h2 (by omega) h4]
        rcases Nat.lt_trichotomy i e with hlt | heq | hgt
        · have h1 : a ≤ i ∧ i < e ↔ a ≤ i ∧ i < e + 1 := by omega
          simp only [h1, hset i (by omega)]
        · subst heq
          rw [if_neg (by omega), if_pos (by omega), getElem?_set_self hlen]
        · rw [if_neg (by omega), if_neg (by omega), hset i (by omega)]
    · rw [decide_eq_false hae]
      have hi : ¬ (a ≤ i ∧ i < e + 1) := by omega
      simp only [if_neg hi]

end Manager

theorem NullsIn.removeLoop {bs : List BlockId} {a z e : Nat} (h : NullsIn bs a z) (he : e ≤ bs.length) :
    NullsIn (Manager.removeLoop a e bs).2 a (max z e) := by
  have hdown : ∀ i j, a ≤ j → j ≤ i → i < e → bs[i]? = some nullBlock → bs[j]? = some nullBlock := by
    intro i j h1 h2 h3 h4
    have hz := ((h i _ h4).1 rfl).2
    have hj : bs[j]? = some bs[j] := getElem?_eq_getElem (by omega)
    rw [hj, (h j _ hj).2 ⟨h1, by omega⟩]
  intro i b hb
  rw [Manager.getElem?_removeLoop a e bs he hdown] at hb
  split at hb
  · next hi =>
    exact iff_of_true (Option.some.inj hb).symm ⟨hi.1, by omega⟩
  · next hi =>
    rw [h i b hb]
    omega

/-! ### The window of a position -/

namespace KVCacheSpec

def windowed (s : KVCacheSpec) : Bool :=
  match s.kind with
  | .slidingWindow .. | .chunkedLocal _ | .rswa _ => true
  | _ => false

def growing (s : KVCacheSpec) : Bool :=
  match s.kind with
  | .fullAttention | .slidingWindow .. | .chunkedLocal _ | .rswa _ => true
  | _ => false

theorem growing_of_windowed {s : KVCacheSpec} (h : s.windowed = true) : s.growing = true := by
  unfold windowed at h
  unfold growing
  split at h <;> simp_all

/-- The first token of the window of position `p`. -/
def attendedFrom (s : KVCacheSpec) (p : Nat) : Nat :=
  match s.kind with
  | .slidingWindow w _ | .rswa w => p + 1 - w
  | .chunkedLocal c => p / c * c
  | _ => 0

/-- Position `p` attends to token `t`: inside its window, or in the prompt for R-SWA. -/
def Attends (s : KVCacheSpec) (prompt p t : Nat) : Prop :=
  t ≤ p ∧ (s.attendedFrom p ≤ t ∨ t < prompt ∧ ∃ w, s.kind = .rswa w)

def gapStart (s : KVCacheSpec) (prompt : Nat) : Nat :=
  match s.kind with
  | .rswa _ => cdiv prompt s.blockSize
  | _ => 0

def skippedTo (s : KVCacheSpec) (prompt p : Nat) : Nat :=
  match s.kind with
  | .slidingWindow w extra => p + 1 - w - extra
  | .chunkedLocal c => p / c * c
  | .rswa w => max prompt (p - w)
  | _ => 0

/-- With `p` processed tokens, token `t` is before the retained window; for R-SWA it is in the gap. -/
def Skipped (s : KVCacheSpec) (prompt p t : Nat) : Prop :=
  t < s.skippedTo prompt p ∧ ∀ w, s.kind = .rswa w → prompt ≤ t

variable {s : KVCacheSpec} {prompt p q : Nat}

theorem attendedFrom_mono (h : p ≤ q) : s.attendedFrom p ≤ s.attendedFrom q := by
  unfold attendedFrom
  split
  · omega
  · omega
  · exact Nat.mul_le_mul_right _ (Nat.div_le_div_right h)
  · exact Nat.le_refl 0

theorem skipped_before (s : KVCacheSpec) (prompt p : Nat) :
    s.skippedTo prompt p / s.blockSize ≤ s.gapStart prompt ∨ s.skippedTo prompt p ≤ s.attendedFrom p := by
  cases hk : s.kind with
  | slidingWindow w extra =>
    simp only [skippedTo, gapStart, attendedFrom, hk]
    exact .inr (by omega)
  | rswa w =>
    simp only [skippedTo, gapStart, attendedFrom, hk]
    rcases Nat.le_total (p - w) prompt with h | h
    · rw [Nat.max_eq_left h]
      exact .inl (Nat.div_le_div_right (by have := s.blockSize_pos; omega))
    · rw [Nat.max_eq_right h]
      exact .inr (by omega)
  | _ => exact .inr (by simp only [skippedTo, attendedFrom, hk]; exact Nat.le_refl _)

end KVCacheSpec

/-- A table of a windowed group: its null entries end before the window of position `floor`. -/
structure WindowTable (s : KVCacheSpec) (prompt floor : Nat) (bs : List BlockId) (z : Nat) : Prop where
  nulls : NullsIn bs (s.gapStart prompt) z
  inside : z ≤ max (s.gapStart prompt) bs.length
  before : z ≤ s.gapStart prompt ∨ z * s.blockSize ≤ s.attendedFrom floor

namespace WindowTable
variable {s : KVCacheSpec} {prompt floor floor' z : Nat} {bs cs : List BlockId}

theorem nil (s : KVCacheSpec) (prompt floor : Nat) : WindowTable s prompt floor [] 0 :=
  ⟨.nil _ _, Nat.zero_le _, .inl (Nat.zero_le _)⟩

variable (h : WindowTable s prompt floor bs z)
include h

theorem mono (hle : floor ≤ floor') : WindowTable s prompt floor' bs z :=
  ⟨h.nulls, h.inside, h.before.imp_right fun hb => hb.trans (attendedFrom_mono hle)⟩

theorem of_not_rswa {prompt' : Nat} (hk : ∀ w, s.kind ≠ .rswa w) : WindowTable s prompt' floor bs z := by
  have hgap : ∀ pr, s.gapStart pr = 0 := by
    intro pr
    unfold gapStart
    split
    · next w hw => exact absurd hw (hk w)
    · rfl
  obtain ⟨h1, h2, h3⟩ := h
  rw [hgap] at h1 h2 h3
  exact ⟨by rw [hgap]; exact h1, by rw [hgap]; exact h2, by rw [hgap]; exact h3⟩

theorem append (hcs : ∀ b ∈ cs, b ≠ nullBlock) : WindowTable s prompt floor (bs ++ cs) z :=
  ⟨h.nulls.append h.inside hcs, h.inside.trans (by rw [length_append]; omega), h.before⟩

theorem set {i : Nat} (hb : bs[i]? = some b) (hn : b ≠ nullBlock) (hc : c ≠ nullBlock) :
    WindowTable s prompt floor (bs.set i c) z :=
  ⟨h.nulls.set hb hn hc, by rw [length_set]; exact h.inside, h.before⟩

theorem removeLoop {p e : Nat} (hle : floor ≤ p) (he : e = min (s.skippedTo prompt p / s.blockSize) bs.length) :
    WindowTable s prompt p (Manager.removeLoop (s.gapStart prompt) e bs).2 (max z e) := by
  have hlen : e ≤ bs.length := by omega
  refine ⟨h.nulls.removeLoop hlen, ?_, ?_⟩
  · rw [Manager.length_removeLoop]
    have := h.inside
    omega
  · have h' := (h.mono hle).before
    rcases Nat.le_total z e with hze | hez
    · rw [Nat.max_eq_right hze]
      refine (s.skipped_before prompt p).imp (fun hg => by omega) fun hb => ?_
      exact (Nat.mul_le_mul_right _ (show e ≤ s.skippedTo prompt p / s.blockSize by omega)).trans
        ((Nat.div_mul_le_self ..).trans hb)
    · rw [Nat.max_eq_left hez]; exact h'

theorem safe {p t : Nat} (hp : floor ≤ p) (ht : s.Attends prompt p t) (hb : bs[t / s.blockSize]? = some b) :
    b ≠ nullBlock := by
  intro hn
  have hpos := s.blockSize_pos
  obtain ⟨h1, h2⟩ := (h.nulls _ b hb).1 hn
  rcases ht.2 with hwin | ⟨hlt, w, hw⟩
  · rcases (h.mono hp).before with hz | hz
    · omega
    · have : t < z * s.blockSize := (Nat.div_lt_iff_lt_mul hpos).1 h2
      omega
  · -- a block of the prompt is before the gap
    simp only [gapStart, hw] at h1
    have := (cdiv_le_iff hpos).1 h1
    have := Nat.div_mul_le_self t s.blockSize
    omega

theorem complete {p i : Nat} (hz : min (s.skippedTo prompt p / s.blockSize) bs.length ≤ z) (hb : bs[i]? = some b)
    (hi : ∀ t, t / s.blockSize = i → s.Skipped prompt p t) : b = nullBlock := by
  have hpos := s.blockSize_pos
  obtain ⟨hlen, -⟩ := List.getElem?_eq_some_iff.1 hb
  have hfirst := hi (i * s.blockSize) (Nat.mul_div_cancel _ hpos)
  have hlast := hi (i * s.blockSize + (s.blockSize - 1)) (by
    rw [Nat.mul_comm, Nat.mul_add_div hpos, Nat.div_eq_of_lt (by omega), Nat.add_zero])
  refine (h.nulls i b hb).2 ⟨?_, ?_⟩
  · cases hk : s.kind with
    | rswa w =>
      simp only [gapStart, hk]
      exact (cdiv_le_iff hpos).2 (hfirst.2 w hk)
    | _ => simp only [gapStart, hk]; exact Nat.zero_le i
  · have : i + 1 ≤ s.skippedTo prompt p / s.blockSize := by
      rw [Nat.le_div_iff_mul_le hpos, Nat.succ_mul]
      have := hlast.1
      omega
    omega

end WindowTable

namespace Manager
variable {m m' : Manager η} {p p' : BlockPool η} {r x : RequestId}

/-! ### What the operations do to tables -/

theorem removeBlocksInRange_blocksOf {a e : Nat} (h : m.removeBlocksInRange p r a e = .ok (m', p')) :
    m'.spec = m.spec ∧ ∀ x, m'.blocksOf x =
      if x = r then (removeLoop a (min e (m.blocksOf r).length) (m.blocksOf r)).2 else m.blocksOf x := by
  unfold removeBlocksInRange at h
  split at h
  · next hnone =>
    cases h
    refine ⟨rfl, fun x => ?_⟩
    have hnil : m.blocksOf r = [] := by simp [blocksOf, Dict.getD, hnone]
    split
    · next hx => rw [hx, hnil]; simp [removeLoop]
    · rfl
  · next bs hbs =>
    simp only [do_eq_ok] at h
    obtain ⟨q, -, he⟩ := h
    cases he
    have hbs' : m.blocksOf r = bs := by simp [blocksOf, Dict.getD, hbs]
    exact ⟨rfl, fun x => by rw [blocksOf_set, hbs']⟩

/-- `remove_skipped_blocks` of a windowed group; only R-SWA reads the prompt. -/
theorem removeSkippedBlocks_blocksOf {n prompt : Nat} {np : Option Nat} (hw : m.spec.windowed = true)
    (hnp : np = some prompt ∨ ∀ w, m.spec.kind ≠ .rswa w) (h : m.removeSkippedBlocks p r n np = .ok (m', p')) :
    m'.spec = m.spec ∧ ∀ x, m'.blocksOf x = if x = r then (removeLoop (m.spec.gapStart prompt)
      (min (m.spec.skippedTo prompt n / m.spec.blockSize) (m.blocksOf r).length) (m.blocksOf r)).2 else m.blocksOf
        x := by
  have hbase : m.baseRemoveSkippedBlocks p r n = .ok (m', p') → m.getNumSkippedTokens n = m.spec.skippedTo prompt n →
      m.spec.gapStart prompt = 0 → m'.spec = m.spec ∧ ∀ x, m'.blocksOf x = if x = r then
        (removeLoop (m.spec.gapStart prompt) (min (m.spec.skippedTo prompt n / m.spec.blockSize) (m.blocksOf r).length)
          (m.blocksOf r)).2 else m.blocksOf x := by
    intro h hskip hgap
    unfold baseRemoveSkippedBlocks at h
    rw [hskip] at h
    dsimp only at h
    rw [hgap]
    split at h
    · next h0 =>
      cases h
      refine ⟨rfl, fun x => ?_⟩
      rw [h0, Nat.zero_div, Nat.zero_min]
      split
      · next hx => rw [hx]; rfl
      · rfl
    · obtain ⟨h1, h2⟩ := removeBlocksInRange_blocksOf h
      simp only [blocksOf_openTable] at h2
      exact ⟨h1, h2⟩
  unfold removeSkippedBlocks at h
  cases hk : m.spec.kind with
  | slidingWindow w extra =>
    rw [hk] at h
    exact hbase h (by simp [getNumSkippedTokens, skippedTo, hk]) (by simp [gapStart, hk])
  | chunkedLocal c =>
    rw [hk] at h
    exact hbase h (by simp [getNumSkippedTokens, skippedTo, hk]) (by simp [gapStart, hk])
  | rswa w =>
    obtain rfl := hnp.resolve_right fun hno => hno w hk
    rw [hk] at h
    simp only [gapStart, skippedTo, hk]
    exact removeBlocksInRange_blocksOf h
  | _ => simp [windowed, hk] at hw

theorem addLocalComputedBlocks_blocksOf {hits : List BlockId} {nl ne : Nat} (hg : m.spec.growing = true)
    (h : m.addLocalComputedBlocks p r hits nl ne = .ok (m', p')) :
    m.blocksOf r = [] ∧ m'.spec = m.spec ∧ ∀ x, m'.blocksOf x =
      if x = r then List.replicate (m.getNumSkippedTokens (nl + ne) / m.spec.blockSize) nullBlock ++
        hits.drop (m.getNumSkippedTokens (nl + ne) / m.spec.blockSize) else m.blocksOf x := by
  have hbase : m.baseAddLocalComputedBlocks p r hits nl ne = .ok (m', p') := by
    unfold addLocalComputedBlocks at h
    split at h
    · next hk => simp [growing, hk] at hg
    · next hk => simp [growing, hk] at hg
    · exact h
  simp only [baseAddLocalComputedBlocks, do_eq_ok] at hbase
  obtain ⟨-, hempty, q, -, he⟩ := hbase
  obtain ⟨rfl, rfl⟩ := Prod.mk.inj he
  refine ⟨hempty, (notePartialHit_spec ..).2.1, fun x => ?_⟩
  unfold blocksOf
  rw [(notePartialHit_spec ..).1]
  exact blocksOf_set m r x _

section Allocation
variable [DecidableEq η] {R : BlockId → Nat} {bs : List BlockId}

theorem appendNewBlocks_blocksOf {n : Nat} (ha : p.Accounts R) (h : m.appendNewBlocks p r n = .ok (bs, m', p')) :
    (∀ b ∈ bs, b ≠ nullBlock) ∧ bs.length = n ∧ m'.spec = m.spec ∧
      ∀ x, m'.blocksOf x = if x = r then m.blocksOf r ++ bs else m.blocksOf x := by
  have hspec := appendNewBlocks_spec h
  simp only [appendNewBlocks, do_eq_ok] at h
  obtain ⟨⟨new, q⟩, hq, h⟩ := h
  obtain ⟨rfl, -, rfl⟩ : new = bs ∧ _ ∧ q = p' := by simpa only [Prod.mk.injEq] using h
  obtain ⟨-, hlen, -, hnew, -⟩ := ha.of_getNewBlocks hq
  refine ⟨fun b hb => (hnew b hb).1, hlen, ?_, fun x => ?_⟩
  · rw [hspec.2.2]; rfl
  · rw [hspec.2.2]
    exact blocksOf_set m r x _

theorem allocateExternalComputedBlocks_blocksOf {nl ne : Nat} (hg : m.spec.growing = true) (ha : p.Accounts R)
    (h : m.allocateExternalComputedBlocks p r nl ne = .ok (m', p')) : ∃ bs, (∀ b ∈ bs, b ≠ nullBlock) ∧
      (m.blocksOf r ++ bs).length ≤ max (m.blocksOf r).length (cdiv (nl + ne) m.spec.blockSize) ∧ m'.spec = m.spec ∧
      ∀ x, m'.blocksOf x = if x = r then m.blocksOf r ++ bs else m.blocksOf x := by
  have hbase : m.baseAllocateExternalComputedBlocks p r nl ne = .ok (m', p') := by
    unfold allocateExternalComputedBlocks at h
    split at h
    · next hk => simp [growing, hk] at hg
    · next hk => simp [growing, hk] at hg
    · exact h
  simp only [baseAllocateExternalComputedBlocks] at hbase
  generalize (if m.getNumSkippedTokens (nl + ne) > 0 then _ else _) = external at hbase
  split at hbase
  · cases hbase
    refine ⟨[], fun b hb => (not_mem_nil hb).elim, by simp, rfl, fun x => ?_⟩
    rw [append_nil]
    split
    · next hx => rw [hx]
    · rfl
  · simp only [do_eq_ok] at hbase
    obtain ⟨⟨bs, m1, p1⟩, h1, he⟩ := hbase
    cases he
    obtain ⟨hbs, hlen, hspec, hx⟩ := appendNewBlocks_blocksOf ha h1
    refine ⟨bs, hbs, ?_, hspec, hx⟩
    rw [length_append, hlen]
    show _ + (cdiv (nl + ne) m.spec.blockSize - _) ≤ _
    omega

theorem redirectPartialHit_blocksOf (ha : p.Accounts (m.held + R)) (h : m.redirectPartialHit p r = .ok (bs, m', p')) :
    p'.Accounts (m'.held + R) ∧ m'.spec = m.spec ∧
      ((∀ x, m'.blocksOf x = m.blocksOf x) ∨ ∃ i source cow, (m.blocksOf r)[i]? = some source ∧ source ≠ nullBlock ∧
        cow ≠ nullBlock ∧ ∀ x, m'.blocksOf x = if x = r then (m.blocksOf r).set i cow else m.blocksOf x) := by
  refine ⟨((redirectPartialHit_works h).conserves R ha).1, ?_⟩
  unfold redirectPartialHit at h
  split at h
  · cases h; exact ⟨rfl, .inl fun x => rfl⟩
  · next i source _ =>
    rw [bind_eq_ok] at h
    obtain ⟨⟨new, q⟩, hq, h⟩ := h
    obtain ⟨-, hlen, -, hnew, -⟩ := ha.of_getNewBlocks hq
    match new, hlen, h with
    | [cow], _, h =>
      simp only [applyCow, do_eq_ok] at h
      obtain ⟨⟨m1, p1⟩, ⟨-, hsource, -, hnull, h1⟩, h⟩ := h
      cases h1
      cases h
      refine ⟨rfl, .inr ⟨i, source, cow, hsource, hnull.1, (hnew cow (mem_singleton.2 rfl)).1, fun x => ?_⟩⟩
      exact blocksOf_set _ r x _

theorem allocateNewBlocks_blocksOf {n n' : Nat} (hg : m.spec.growing = true) (ha : p.Accounts (m.held + R))
    (h : m.allocateNewBlocks p r n n' = .ok (bs, m', p')) : ∃ first rest, (∀ b ∈ rest, b ≠ nullBlock) ∧
      (first = m.blocksOf r ∨ ∃ i source cow, (m.blocksOf r)[i]? = some source ∧ source ≠ nullBlock ∧ cow ≠ nullBlock ∧
        first = (m.blocksOf r).set i cow) ∧
      (first ++ rest).length = max (m.blocksOf r).length (cdiv n m.spec.blockSize) ∧ m'.spec = m.spec ∧
      ∀ x, m'.blocksOf x = if x = r then first ++ rest else m.blocksOf x := by
  have hbase : m.baseAllocateNewBlocks p r n = .ok (bs, m', p') := by
    unfold allocateNewBlocks at h
    split at h
    · next hk => simp [growing, hk] at hg
    · next hk => simp [growing, hk] at hg
    all_goals exact h
  unfold baseAllocateNewBlocks at hbase
  rw [bind_eq_ok] at hbase
  obtain ⟨⟨cows, m1, p1⟩, h1, h2⟩ := hbase
  obtain ⟨ha1, hspec1, hfirst⟩ := redirectPartialHit_blocksOf ha h1
  -- the table after the redirect
  have hfirst' : ((m1.blocksOf r) = m.blocksOf r ∨ ∃ i source cow, (m.blocksOf r)[i]? = some source ∧
      source ≠ nullBlock ∧
      cow ≠ nullBlock ∧ m1.blocksOf r = (m.blocksOf r).set i cow) ∧ (m1.blocksOf r).length = (m.blocksOf r).length ∧
      ∀ x, x ≠ r → m1.blocksOf x = m.blocksOf x := by
    rcases hfirst with hsame | ⟨i, source, cow, h3, h4, h5, h6⟩
    · exact ⟨.inl (hsame r), by rw [hsame r], fun x _ => hsame x⟩
    · refine ⟨.inr ⟨i, source, cow, h3, h4, h5, by rw [h6, if_pos rfl]⟩, ?_, fun x hx => by rw [h6, if_neg hx]⟩
      rw [h6, if_pos rfl, length_set]
  obtain ⟨hf, hlen1, hother⟩ := hfirst'
  dsimp only at h2
  have hbsz : m1.blockSize = m.spec.blockSize := congrArg KVCacheSpec.blockSize hspec1
  rw [hbsz] at h2
  split at h2
  · next h0 =>
    cases pure_eq_ok.1 h2
    refine ⟨m1.blocksOf r, [], fun b hb => (not_mem_nil hb).elim, hf, ?_, hspec1, fun x => ?_⟩
    · rw [append_nil]
      omega
    · rw [blocksOf_openTable, append_nil]
      split
      · next hx => rw [hx]
      · next hx => exact hother x hx
  · simp only [do_eq_ok] at h2
    obtain ⟨⟨new, m2, p2⟩, h3, he⟩ := h2
    cases he
    obtain ⟨hnew, hlen, hspec2, hx⟩ := appendNewBlocks_blocksOf ha1 h3
    refine ⟨m1.blocksOf r, new, hnew, hf, ?_, hspec2.trans hspec1, fun x => ?_⟩
    · rw [length_append, hlen]
      omega
    · rw [hx]
      split
      · rfl
      · next hx => exact hother x hx

end Allocation

end Manager

end VllmCore
