import VllmCore.Core.CacheHit
import VllmCore.Core.HashIndex
import VllmCore.Core.BlockCounts

/-! # What a cache hit is

A prefix of `n` tokens is a hit of a group when every block the group still reads at position `n` is
cached. Which blocks these are depends on the kind of attention (`NeedsBlock`). The finders of `CacheHit`
are compared with this: each returns the greatest aligned hit up to the length it is asked for, and blocks
that are cached under the hashes of their positions. -/

namespace VllmCore
open Except List Option
variable {η : Type} {n : Nat}

/-- The hash of block `i` of a group: the chained hash at its last fine boundary. -/
def blockHashAt (blockHashes : List η) (hashBlockSize blockSize i : Nat) : Option η :=
  blockHashes[(i + 1) * (blockSize / hashBlockSize) - 1]?

/-- Attention at position `n` reads block `i`: all blocks, those that overlap the last `sliding_window - 1`
tokens, those that overlap the current chunk, or the state that ends at `n`. -/
def KVCacheSpec.NeedsBlock (s : KVCacheSpec) (n i : Nat) : Prop :=
  match s.kind with
  | .fullAttention | .rswa _ => True
  | .slidingWindow w _ => n < (i + 1) * s.blockSize + (w - 1)
  | .chunkedLocal c => n / c * c < (i + 1) * s.blockSize
  | .mamba _ => (i + 1) * s.blockSize = n
  | .circularBuffer _ | .crossAttention => True

theorem KVCacheSpec.needsBlock_full {s : KVCacheSpec} (h : s.isFullAttention = true) (n i : Nat) :
    s.NeedsBlock n i := by
  unfold KVCacheSpec.NeedsBlock
  unfold KVCacheSpec.isFullAttention at h
  split <;> first | trivial | simp_all

namespace BlockPool
variable [DecidableEq η]

def CachedAt (p : BlockPool η) (blockHashes : List η) (blockSize groupId i : Nat) : Prop :=
  ∃ h, blockHashAt blockHashes p.hashBlockSize blockSize i = some h ∧ (p.getCachedBlock h [groupId]).isSome = true

instance (p : BlockPool η) (blockHashes : List η) (blockSize g i : Nat) :
    Decidable (p.CachedAt blockHashes blockSize g i) :=
  decidable_of_iff ((blockHashAt blockHashes p.hashBlockSize blockSize i).any fun h => (p.getCachedBlock h [g]).isSome)
    (by simp [CachedAt, Option.any_eq_true])

/-- The first `n` tokens are a valid hit of the group. -/
def HasHit (p : BlockPool η) (s : KVCacheSpec) (blockHashes : List η) (groupId n : Nat) : Prop :=
  ∀ i < n / s.blockSize, s.NeedsBlock n i → p.CachedAt blockHashes s.blockSize groupId i

end BlockPool

/-! ### Resolved hashes -/

theorem getElem?_filterMap_range {f : Nat → Option η} (h : ∀ i < n, (f i).isSome = true) (j : Nat) :
    ((List.range n).filterMap f)[j]? = (if j < n then f j else none) ∧ ((List.range n).filterMap f).length = n := by
  induction n with
  | zero => simp
  | succ n ih =>
    obtain ⟨hget, hlen⟩ := ih fun i hi => h i (Nat.lt_succ_of_lt hi)
    obtain ⟨x, hx⟩ := isSome_iff_exists.1 (h n (Nat.lt_succ_self n))
    rw [range_succ, filterMap_append, filterMap_cons_some hx, filterMap_nil]
    refine ⟨?_, by rw [length_append, hlen]; rfl⟩
    rcases Nat.lt_trichotomy j n with hj | rfl | hj
    · rw [getElem?_append_left (by rw [hlen]; exact hj), hget, if_pos hj, if_pos (Nat.lt_succ_of_lt hj)]
    · rw [getElem?_append_right (by rw [hlen]), hlen, if_pos (Nat.lt_succ_self j), hx, Nat.sub_self]
      rfl
    · rw [getElem?_append_right (by rw [hlen]; omega), hlen, if_neg (by omega)]
      exact getElem?_eq_none (by simp only [length_singleton]; omega)

theorem resolveBlockHashes_spec (blockHashes : List η) {hbs bsz : Nat} (hbsz : 0 < bsz) (hdvd : hbs ∣ bsz) :
    ∃ rs, resolveBlockHashes blockHashes hbs bsz = .ok rs ∧ rs.length = blockHashes.length / (bsz / hbs) ∧
      ∀ j, rs[j]? = blockHashAt blockHashes hbs bsz j := by
  have hhbs : 0 < hbs := Nat.pos_of_dvd_of_pos hdvd hbsz
  unfold resolveBlockHashes
  by_cases heq : bsz = hbs
  · rw [if_pos heq]
    refine ⟨blockHashes, rfl, ?_, fun j => ?_⟩
    · rw [heq, Nat.div_self hhbs, Nat.div_one]
    · rw [blockHashAt, heq, Nat.div_self hhbs, Nat.mul_one, Nat.add_sub_cancel]
  · rw [if_neg heq, if_pos (Nat.mod_eq_zero_of_dvd hdvd)]
    have hscale : 0 < bsz / hbs := Nat.div_pos (Nat.le_of_dvd hbsz hdvd) hhbs
    have hsome : ∀ i < blockHashes.length / (bsz / hbs), (blockHashes[(i + 1) * (bsz / hbs) - 1]?).isSome = true := by
      intro i hi
      have hle : (i + 1) * (bsz / hbs) ≤ blockHashes.length := (Nat.le_div_iff_mul_le hscale).1 hi
      have hpos : 0 < (i + 1) * (bsz / hbs) := Nat.mul_pos (Nat.succ_pos i) hscale
      exact isSome_iff_exists.2 ⟨_, getElem?_eq_getElem (by omega)⟩
    refine ⟨_, rfl, (getElem?_filterMap_range hsome 0).2, fun j => ?_⟩
    rw [(getElem?_filterMap_range hsome j).1]
    split
    · rfl
    · next hj =>
      have hlt : blockHashes.length < (j + 1) * (bsz / hbs) := by
        rw [← Nat.div_lt_iff_lt_mul hscale]; omega
      exact (getElem?_eq_none (by omega)).symm

/-! ### Columns -/

namespace CacheHit
variable [DecidableEq η] {p : BlockPool η} {ids : List Nat} {rs : List η} {α : Type} {j : Nat} {f : Nat → Option α}

def cachedColumn (p : BlockPool η) (ids : List Nat) (rs : List η) (j : Nat) : Option (List BlockId) :=
  rs[j]?.bind fun h => p.getCachedBlock h ids

theorem mapM_some {β : Type} {f : α → Option β} {l : List α} {l' : List β} (h : l.mapM f = some l') :
    l'.length = l.length ∧ ∀ (k : Nat) a, l[k]? = some a → l'[k]? = f a ∧ (f a).isSome = true := by
  induction l generalizing l' with
  | nil => cases h; exact ⟨rfl, fun k a hk => by simp at hk⟩
  | cons a l ih =>
    rw [mapM_cons] at h
    simp only [Option.bind_eq_bind, bind_eq_some_iff] at h
    obtain ⟨b, hb, l'', hl'', hl'⟩ := h
    cases hl'
    obtain ⟨hlen, hget⟩ := ih hl''
    refine ⟨by rw [length_cons, hlen, length_cons], fun k x hk => ?_⟩
    cases k with
    | zero => cases hk; exact ⟨hb.symm, by rw [hb]; rfl⟩
    | succ k => exact hget k x (by rwa [getElem?_cons_succ] at hk)

theorem isSome_mapM {β : Type} {f : α → Option β} {l : List α} :
    (l.mapM f).isSome = true ↔ ∀ a ∈ l, (f a).isSome = true := by
  induction l with
  | nil => simp
  | cons a l ih =>
    rw [mapM_cons, forall_mem_cons, ← ih]
    cases f a with
    | none => simp
    | some b => cases l.mapM f <;> simp

theorem isSome_getCachedBlock {h : η} : (p.getCachedBlock h ids).isSome = true ↔
    ∀ g ∈ ids, (p.getCachedBlock h [g]).isSome = true := by
  have hone : ∀ g, (p.getCachedBlock h [g]).isSome = true ↔
      (BlockHashToBlockMap.getOneBlock p.cachedBlockHashToBlock ⟨h, g⟩).isSome = true := by
    intro g
    rw [BlockPool.getCachedBlock, isSome_mapM]
    simp
  rw [BlockPool.getCachedBlock, isSome_mapM]
  simp only [hone]

theorem isSome_cachedColumn {blockHashes : List η} {bsz : Nat} (hids : ids ≠ [])
    (hrs : ∀ j, rs[j]? = blockHashAt blockHashes p.hashBlockSize bsz j) (j : Nat) :
    (cachedColumn p ids rs j).isSome = true ↔ ∀ g ∈ ids, p.CachedAt blockHashes bsz g j := by
  obtain ⟨g₀, hg₀⟩ := exists_mem_of_ne_nil ids hids
  unfold cachedColumn BlockPool.CachedAt
  rw [hrs]
  cases blockHashAt blockHashes p.hashBlockSize bsz j with
  | none => simpa using ⟨g₀, hg₀⟩
  | some h => simp [@isSome_getCachedBlock η _ p ids]

/-- The columns are a hit: every position is null or holds its cached blocks. -/
def Filled (p : BlockPool η) (ids : List Nat) (rs : List η) (columns : List (List BlockId)) : Prop :=
  ∀ j col, columns[j]? = some col → col = nullColumn ids ∨ cachedColumn p ids rs j = some col

theorem Filled.take {columns : List (List BlockId)} (h : Filled p ids rs columns) (n : Nat) :
    Filled p ids rs (columns.take n) := by
  intro j col hj
  rw [getElem?_take] at hj
  split at hj
  · exact h j col hj
  · cases hj

/-! ### The run from the start -/

variable (p ids) in
theorem takeCached_spec (l : List η) : (takeCached p ids l).length ≤ l.length ∧
      (∀ j < (takeCached p ids l).length, (takeCached p ids l)[j]? = cachedColumn p ids l j) ∧
      ((takeCached p ids l).length < l.length → cachedColumn p ids l (takeCached p ids l).length = none) := by
  induction l with
  | nil => simp [takeCached]
  | cons h l ih =>
    obtain ⟨hle, hget, hmiss⟩ := ih
    unfold takeCached
    cases hc : p.getCachedBlock h ids with
    | none =>
      refine ⟨Nat.zero_le _, fun j hj => absurd hj (Nat.not_lt_zero j), fun _ => ?_⟩
      simp [cachedColumn, hc]
    | some col =>
      refine ⟨Nat.succ_le_succ hle, fun j hj => ?_, fun hlt => ?_⟩
      · cases j with
        | zero => simp [cachedColumn, hc]
        | succ j =>
          rw [getElem?_cons_succ, hget j (Nat.lt_of_succ_lt_succ hj)]
          simp [cachedColumn]
      · have := hmiss (Nat.lt_of_succ_lt_succ hlt)
        simpa [cachedColumn] using this

theorem cachedColumn_take (hj : j < n) : cachedColumn p ids (rs.take n) j = cachedColumn p ids rs j := by
  rw [cachedColumn, getElem?_take, if_pos hj, cachedColumn]

theorem cachedColumn_drop (n j : Nat) : cachedColumn p ids (rs.drop n) j = cachedColumn p ids rs (n + j) := by
  rw [cachedColumn, getElem?_drop, cachedColumn]

theorem cachedColumn_eq_none (hj : rs.length ≤ j) : cachedColumn p ids rs j = none := by
  rw [cachedColumn, getElem?_eq_none hj]; rfl

variable (p ids rs) in
theorem takeCached_take (m : Nat) : (takeCached p ids (rs.take m)).length ≤ m ∧
      (∀ j < (takeCached p ids (rs.take m)).length,
        (takeCached p ids (rs.take m))[j]? = cachedColumn p ids rs j ∧ (cachedColumn p ids rs j).isSome = true) ∧
      ((takeCached p ids (rs.take m)).length < m →
        cachedColumn p ids rs (takeCached p ids (rs.take m)).length = none) := by
  obtain ⟨hle, hget, hmiss⟩ := takeCached_spec p ids (rs.take m)
  rw [length_take] at hle hmiss
  refine ⟨by omega, fun j hj => ?_, fun hlt => ?_⟩
  · have hcol := hget j hj
    rw [cachedColumn_take (by omega)] at hcol
    exact ⟨hcol, by rw [← hcol, getElem?_eq_getElem hj]; rfl⟩
  · by_cases hlen : (takeCached p ids (rs.take m)).length < rs.length
    · have := hmiss (by omega)
      rwa [cachedColumn_take hlt] at this
    · exact cachedColumn_eq_none (by omega)

/-! ### The last index that answers -/

theorem findDown_none {lo : Nat} (h : findDown f lo n = none) : ∀ i, lo ≤ i → i < n → f i = none := by
  induction n with
  | zero => intro i _ hi; omega
  | succ n ih =>
    rw [findDown] at h
    split at h
    · intro i h1 h2; omega
    · split at h
      · cases h
      · next hn =>
        intro i h1 h2
        rcases Nat.lt_succ_iff_lt_or_eq.1 h2 with hi | rfl
        · exact ih h i h1 hi
        · exact hn

theorem findDown_some {lo i : Nat} {a : α} (h : findDown f lo n = some (i, a)) :
    lo ≤ i ∧ i < n ∧ f i = some a ∧ ∀ j, i < j → j < n → f j = none := by
  induction n with
  | zero => cases h
  | succ n ih =>
    rw [findDown] at h
    split at h
    · cases h
    · next hlo =>
      split at h
      · next hn =>
        cases h
        exact ⟨by omega, Nat.lt_succ_self _, hn, fun j h1 h2 => by omega⟩
      · next hn =>
        obtain ⟨h1, h2, h3, h4⟩ := ih h
        refine ⟨h1, Nat.lt_succ_of_lt h2, h3, fun j hj hjn => ?_⟩
        rcases Nat.lt_succ_iff_lt_or_eq.1 hjn with hj' | rfl
        · exact h4 j hj hj'
        · exact hn

/-! ### The right-to-left scan -/

/-- A hit of the scan may end before position `e`: the end is aligned (the EAGLE block not counted) and the
`need` positions before it are cached. -/
structure EndsAt (p : BlockPool η) (ids : List Nat) (rs : List η) (bsz A need : Nat) (drop : Bool) (e : Nat) :
    Prop where
  pos : 0 < e
  aligned : bsz = A ∨ (if drop then e - 1 else e) * bsz % A = 0
  cached : ∀ j, e - need ≤ j → j < e → (cachedColumn p ids rs j).isSome = true

/-- What the scan answers: the greatest end, or nothing. -/
structure ScanResult (p : BlockPool η) (ids : List Nat) (rs : List η) (bsz A need : Nat) (drop : Bool) (N : Nat)
    (columns : List (List BlockId)) (run : Nat) (found : Bool) (e : Nat) : Prop where
  le : e ≤ N
  ends : 0 < e → EndsAt p ids rs bsz A need drop e
  last : ∀ e', e < e' → e' ≤ N → ¬ EndsAt p ids rs bsz A need drop e'
  found_iff : found = true ↔ need ≤ e ∧ 0 < e
  length : if found then columns.length = e else run = e ∧ e ≤ columns.length
  filled : Filled p ids rs (columns.take e)

/-- The state of the scan at index `i`: the positions `[i, i + run)` are cached and their end is aligned, and
no hit ends after them. -/
structure Scanning (p : BlockPool η) (ids : List Nat) (rs : List η) (bsz A need : Nat) (drop : Bool) (N i : Nat)
    (columns : List (List BlockId)) (run : Nat) : Prop where
  le : i + run ≤ N
  length : columns.length = N
  short : run < need
  aligned : 0 < run → bsz = A ∨ (if drop then i + run - 1 else i + run) * bsz % A = 0
  nulls : ∀ j < i, columns[j]? = some (nullColumn ids)
  cached : ∀ j, i ≤ j → j < i + run → columns[j]? = cachedColumn p ids rs j ∧ (cachedColumn p ids rs j).isSome = true
  last : ∀ e, i + run < e → e ≤ N → ¬ EndsAt p ids rs bsz A need drop e

variable {bsz A need N i run : Nat} {drop : Bool} {columns cols : List (List BlockId)}

theorem Scanning.reset (h : Scanning p ids rs bsz A need drop N (i + 1) columns run)
    (hopen : ∀ e, i < e → e ≤ i + 1 + run → ¬ EndsAt p ids rs bsz A need drop e) :
    Scanning p ids rs bsz A need drop N i columns 0 := by
  have hle := h.le
  have hshort := h.short
  refine ⟨by omega, h.length, by omega, by omega, fun j hj => h.nulls j (by omega), by omega, fun e he hN => ?_⟩
  by_cases hlt : i + 1 + run < e
  · exact h.last e hlt hN
  · exact hopen e he (by omega)

theorem Scanning.extend (h : Scanning p ids rs bsz A need drop N (i + 1) columns run) {col : List BlockId}
    (hcol : cachedColumn p ids rs i = some col) (hA : 0 < run ∨ bsz = A ∨ (if drop then i else i + 1) * bsz % A = 0) :
    (∀ j < i, (columns.set i col)[j]? = some (nullColumn ids)) ∧
      (∀ j, i ≤ j → j < i + (run + 1) → (columns.set i col)[j]? = cachedColumn p ids rs j ∧
        (cachedColumn p ids rs j).isSome = true) ∧
      (bsz = A ∨ (if drop then i + (run + 1) - 1 else i + (run + 1)) * bsz % A = 0) := by
  have hi : i < columns.length := by have := h.le; have := h.length; omega
  refine ⟨fun j hj => ?_, fun j h1 h2 => ?_, ?_⟩
  · rw [getElem?_set_ne (by omega)]
    exact h.nulls j (by omega)
  · rcases h1.eq_or_lt with rfl | h1
    · rw [getElem?_set_self hi, hcol]
      exact ⟨rfl, rfl⟩
    · rw [getElem?_set_ne h1.ne]
      exact h.cached j h1 (by omega)
  · rcases Nat.eq_zero_or_pos run with h0 | hpos
    · subst h0
      rcases hA with hA | hA
      · omega
      · simpa using hA
    · have := h.aligned hpos
      rwa [show i + 1 + run = i + (run + 1) by omega] at this

theorem slidingScan_spec (hneed : 0 < need) (hrs : N ≤ rs.length)
    (h : Scanning p ids rs bsz A need drop N i columns run) :
    ∃ cols r found e, slidingScan p bsz rs ids drop A need i columns run = .ok (cols, r, found) ∧
      ScanResult p ids rs bsz A need drop N cols r found e := by
  induction i generalizing columns run with
  | zero =>
    -- the run reaches the start: it is a hit even if it is short
    refine ⟨columns, run, false, run, rfl, ?_⟩
    have hle := h.le
    have hshort := h.short
    rw [Nat.zero_add] at hle
    refine ⟨hle, fun hpos => ⟨hpos, ?_, ?_⟩, fun e he hN => h.last e (by omega) hN, ?_, ?_, ?_⟩
    · simpa using h.aligned hpos
    · intro j _ hj; exact (h.cached j (Nat.zero_le j) (by omega)).2
    · simp only [Bool.false_eq_true, false_iff]; omega
    · rw [if_neg Bool.false_ne_true, h.length]; exact ⟨rfl, hle⟩
    · intro j col hj
      rw [getElem?_take] at hj
      split at hj
      · next hlt => exact .inr ((h.cached j (Nat.zero_le j) (by omega)).1 ▸ hj)
      · cases hj
  | succ i ih =>
    have hi : i < rs.length := by have := h.le; omega
    have hhash : rs[i]? = some rs[i] := getElem?_eq_getElem hi
    rw [slidingScan, hhash]
    dsimp only
    cases hc : p.getCachedBlock rs[i] ids with
    | none =>
      refine ih (h.reset fun e he hle hend => ?_)
      have hcached := hend.cached i (by have := h.short; omega) he
      rw [cachedColumn, hhash, Option.bind_some, hc] at hcached
      cases hcached
    | some col =>
      have hcol : cachedColumn p ids rs i = some col := by rw [cachedColumn, hhash]; exact hc
      dsimp only
      by_cases hskip : run = 0 ∧ bsz ≠ A ∧ (if drop then i else i + 1) * bsz % A ≠ 0
      · rw [if_pos hskip]
        obtain ⟨rfl, hbsz, hmod⟩ := hskip
        refine ih (h.reset fun e he hle hend => ?_)
        obtain rfl : e = i + 1 := by omega
        exact hend.aligned.elim hbsz hmod
      · rw [if_neg hskip]
        have hA : 0 < run ∨ bsz = A ∨ (if drop then i else i + 1) * bsz % A = 0 := by
          by_contra hcon
          refine hskip ⟨by omega, fun e => hcon (.inr (.inl e)), fun e => hcon (.inr (.inr e))⟩
        obtain ⟨hnulls, hcached, haligned⟩ := h.extend hcol hA
        have hle := h.le
        have hshort := h.short
        have hlen : (columns.set i col).length = N := by rw [length_set]; exact h.length
        by_cases hfound : run + 1 ≥ need
        · rw [if_pos hfound]
          refine ⟨_, _, true, i + (run + 1), rfl, by omega, fun _ => ⟨by omega, haligned, fun j h1 h2 => ?_⟩,
            fun e he hN => h.last e (by omega) hN, ?_, ?_, ?_⟩
          · exact (hcached j (by omega) h2).2
          · simp only [true_iff]; omega
          · simp only [if_true, length_take, hlen]; omega
          · intro j col' hj
            rw [take_take, Nat.min_self, getElem?_take] at hj
            split at hj
            · next hlt =>
              by_cases hji : j < i
              · exact .inl (some.inj (hj.symm.trans (hnulls j hji)))
              · exact .inr ((hcached j (by omega) hlt).1 ▸ hj)
            · cases hj
        · rw [if_neg hfound]
          exact ih ⟨by omega, hlen, by omega, fun _ => haligned, hnulls, hcached,
            fun e he hN => h.last e (by omega) hN⟩

/-! ### The finders -/

/-- The hit that a finder returns: the greatest aligned one, and what its columns hold. -/
structure Found (p : BlockPool η) (s : KVCacheSpec) (blockHashes : List η) (maxLength : Nat) (ids : List Nat)
    (A : Nat) (columns : List (List BlockId)) (n : Nat) : Prop where
  greatest : IsGreatest {n | n ≤ maxLength ∧ A ∣ n ∧ ∀ g ∈ ids, p.HasHit s blockHashes g n} n
  length : columns.length = n / s.blockSize
  filled : ∀ j col, columns[j]? = some col → col = nullColumn ids ∨
    ∃ h, blockHashAt blockHashes p.hashBlockSize s.blockSize j = some h ∧ p.getCachedBlock h ids = some col

section Finders
variable {s : KVCacheSpec} {blockHashes : List η} {m : Nat}

theorem Filled.at_hash (h : Filled p ids rs cols)
    (hrs : ∀ j, rs[j]? = blockHashAt blockHashes p.hashBlockSize s.blockSize j) :
    ∀ j col, cols[j]? = some col → col = nullColumn ids ∨
      ∃ h, blockHashAt blockHashes p.hashBlockSize s.blockSize j = some h ∧ p.getCachedBlock h ids = some col := by
  intro j col hj
  rcases h j col hj with hn | hc
  · exact .inl hn
  · rw [cachedColumn, hrs] at hc
    exact .inr (bind_eq_some_iff.1 hc)

theorem forall_hasHit (hids : ids ≠ []) (hrs : ∀ j, rs[j]? = blockHashAt blockHashes p.hashBlockSize s.blockSize j)
    (n : Nat) : (∀ g ∈ ids, p.HasHit s blockHashes g n) ↔
      ∀ i < n / s.blockSize, s.NeedsBlock n i → (cachedColumn p ids rs i).isSome = true := by
  simp only [isSome_cachedColumn hids hrs]
  exact ⟨fun h i hi hneed g hg => h g hg i hi hneed, fun h g hg i hi hneed => h i hi hneed g hg⟩

theorem Filled.nulls_append {start : Nat}
    (h : ∀ j col, cols[j]? = some col → cachedColumn p ids rs (start + j) = some col) :
    Filled p ids rs (List.replicate start (nullColumn ids) ++ cols) := by
  intro j col hj
  by_cases hlt : j < start
  · rw [getElem?_append_left (by simpa using hlt), getElem?_replicate, if_pos hlt] at hj
    exact .inl (some.inj hj).symm
  · rw [getElem?_append_right (by simpa using hlt), length_replicate] at hj
    have hcol := h _ _ hj
    rw [Nat.add_sub_cancel' (Nat.not_lt.1 hlt)] at hcol
    exact .inr hcol

theorem found_of_blocks (hids : ids ≠ []) (hrs : ∀ j, rs[j]? = blockHashAt blockHashes p.hashBlockSize s.blockSize j)
    (hdvd : s.blockSize ∣ A) {e : Nat} (hlen : cols.length = e) (hfilled : Filled p ids rs cols)
    (hem : e ≤ m / s.blockSize) (hA : A ∣ e * s.blockSize)
    (hhit : ∀ i < e, s.NeedsBlock (e * s.blockSize) i → (cachedColumn p ids rs i).isSome = true)
    (hlast : ∀ e', e < e' → e' ≤ m / s.blockSize → A ∣ e' * s.blockSize →
      ¬ ∀ i < e', s.NeedsBlock (e' * s.blockSize) i → (cachedColumn p ids rs i).isSome = true) :
    Found p s blockHashes m ids A cols (e * s.blockSize) := by
  have hpos := s.blockSize_pos
  have hiff (e : Nat) : (∀ g ∈ ids, p.HasHit s blockHashes g (e * s.blockSize)) ↔
      ∀ i < e, s.NeedsBlock (e * s.blockSize) i → (cachedColumn p ids rs i).isSome = true := by
    rw [forall_hasHit hids hrs, Nat.mul_div_cancel e hpos]
  refine ⟨⟨⟨(Nat.le_div_iff_mul_le hpos).1 hem, hA, (hiff e).2 hhit⟩, ?_⟩, ?_, hfilled.at_hash hrs⟩
  · rintro n ⟨hn, hAn, hhit'⟩
    obtain ⟨e', rfl⟩ := hdvd.trans hAn
    rw [Nat.mul_comm] at hn hAn hhit' ⊢
    by_contra hcon
    exact hlast e' (Nat.lt_of_mul_lt_mul_right (Nat.lt_of_not_le hcon)) ((Nat.le_div_iff_mul_le hpos).2 hn) hAn
      ((hiff e').1 hhit')
  · rw [hlen, Nat.mul_div_cancel e hpos]

theorem not_fineGrained (hA : 0 < A) (hdvd : s.blockSize ∣ A) : fineGrained A s.blockSize = false := by
  have := Nat.le_of_dvd hA hdvd
  simp only [fineGrained, Bool.and_eq_false_iff, decide_eq_false_iff_not]
  exact .inl (by omega)

omit [DecidableEq η] in
theorem resolve_spec (p : BlockPool η) (s : KVCacheSpec) (blockHashes : List η) (hA : 0 < A) (hdvd : s.blockSize ∣ A)
    (hhash : p.hashBlockSize ∣ s.blockSize) :
    ∃ rs, resolve p s blockHashes A = .ok rs ∧ rs.length = blockHashes.length / (s.blockSize / p.hashBlockSize) ∧
      ∀ j, rs[j]? = blockHashAt blockHashes p.hashBlockSize s.blockSize j := by
  unfold resolve
  rw [not_fineGrained hA hdvd, Bool.and_false, if_neg Bool.false_ne_true]
  exact resolveBlockHashes_spec blockHashes s.blockSize_pos hhash

variable (hA : 0 < A) (hdvd : s.blockSize ∣ A) (hhash : p.hashBlockSize ∣ s.blockSize) (hids : ids ≠ [])
include hA hdvd hhash hids

theorem fullAttention_found (hkind : s.isFullAttention = true) :
    ∃ columns n, fullAttention p s blockHashes m ids false A = .ok (columns, n) ∧
      Found p s blockHashes m ids A columns n := by
  obtain ⟨rs, hres, -, hrs⟩ := resolve_spec p s blockHashes hA hdvd hhash
  obtain ⟨hle, hget, hmiss⟩ := takeCached_take p ids rs (m / s.blockSize)
  have hpos := s.blockSize_pos
  generalize hcols : takeCached p ids (rs.take (m / s.blockSize)) = cols at hle hget hmiss
  -- the aligned part of the run, in blocks
  have hAn : A ∣ cols.length * s.blockSize - cols.length * s.blockSize % A := Nat.dvd_sub_mod _
  obtain ⟨e, he⟩ := hdvd.trans hAn
  rw [Nat.mul_comm s.blockSize e] at he
  have hdiv : e ≤ cols.length := Nat.le_of_mul_le_mul_right (he ▸ Nat.sub_le ..) hpos
  have hcdiv : cdiv (e * s.blockSize) s.blockSize = e :=
    Nat.le_antisymm ((cdiv_le_iff hpos).2 (Nat.le_refl _))
      (Nat.le_of_mul_le_mul_right ((cdiv_le_iff hpos).1 (Nat.le_refl _)) hpos)
  refine ⟨cols.take e, e * s.blockSize, ?_, found_of_blocks hids hrs hdvd ?_
    (Filled.take ?_ _) (by omega) (he ▸ hAn) ?_ ?_⟩
  · simp only [fullAttention, hres, ok_bind, not_fineGrained hA hdvd, Bool.false_eq_true, if_false, hcols,
      Nat.sub_zero, he, hcdiv]
    rfl
  · rw [length_take, Nat.min_eq_left hdiv]
  · exact fun j col hj => .inr ((hget j (List.getElem?_eq_some_iff.1 hj).1).1 ▸ hj)
  · exact fun i hi _ => (hget i (by omega)).2
  · intro e' hlt hm' hAe' hhit
    have hfit : e' ≤ cols.length := by
      by_contra hno
      have hc := hhit cols.length (by omega) (KVCacheSpec.needsBlock_full hkind _ _)
      rw [hmiss (by omega)] at hc
      cases hc
    -- an aligned length below the run is below its aligned part
    have hfit := Nat.mul_le_mul_right s.blockSize hfit
    have hlt := Nat.mul_lt_mul_of_pos_right hlt hpos
    obtain ⟨c, hc⟩ := hAe'
    have hmod := Nat.div_add_mod (cols.length * s.blockSize) A
    have := Nat.mul_le_mul_left A ((Nat.le_div_iff_mul_le hA).2 (Nat.mul_comm A c ▸ hc ▸ hfit))
    omega

variable (hm : m / s.blockSize ≤ blockHashes.length / (s.blockSize / p.hashBlockSize))
include hm

theorem mamba_found {ms : MambaSpec} (hkind : s.kind = .mamba ms) :
    ∃ columns n, mamba p s blockHashes m ids A = .ok (columns, n) ∧ Found p s blockHashes m ids A columns n := by
  obtain ⟨rs, hres, hlen, hrs⟩ := resolve_spec p s blockHashes hA hdvd hhash
  have hpos := s.blockSize_pos
  have haligned : ∀ i, (s.blockSize == A || (i + 1) * s.blockSize % A == 0) = true ↔ A ∣ (i + 1) * s.blockSize := by
    intro i
    rw [Bool.or_eq_true, beq_iff_eq, beq_iff_eq, ← Nat.dvd_iff_mod_eq_zero]
    exact or_iff_right_of_imp fun e => e ▸ Nat.dvd_mul_left _ _
  have hneeds : ∀ n i, s.NeedsBlock n i ↔ (i + 1) * s.blockSize = n := by
    intro n i; simp only [KVCacheSpec.NeedsBlock, hkind]
  -- a valid hit ends at an aligned cached state
  have hvalid : ∀ e, 0 < e → A ∣ e * s.blockSize →
      (∀ i < e, s.NeedsBlock (e * s.blockSize) i → (cachedColumn p ids rs i).isSome = true) →
      (if (s.blockSize == A || (e - 1 + 1) * s.blockSize % A == 0) = true then
        (rs[e - 1]?).bind fun h => p.getCachedBlock h ids else none) ≠ none := by
    intro e he hAe hhit
    rw [if_pos ((haligned _).2 (by rwa [Nat.sub_add_cancel he])), Option.ne_none_iff_isSome]
    exact hhit (e - 1) (by omega) ((hneeds _ _).2 (by rw [Nat.sub_add_cancel he]))
  unfold mamba
  simp only [hres, ok_bind, not_fineGrained hA hdvd, Bool.false_eq_true, if_false, hlen, ensure, if_pos hm]
  split
  · next hnone =>
    refine ⟨[], 0 * s.blockSize, by rw [Nat.zero_mul]; rfl, found_of_blocks hids hrs hdvd rfl
      (fun _ _ hj => by cases hj) (Nat.zero_le _) ?_ (fun i hi => absurd hi (Nat.not_lt_zero i)) ?_⟩
    · rw [Nat.zero_mul]
      exact Nat.dvd_zero A
    · exact fun e he hem hAe hhit => hvalid e he hAe hhit (findDown_none hnone _ (Nat.zero_le _) (by omega))
  · next i col hsome =>
    obtain ⟨-, hi, hcol, hlast⟩ := findDown_some hsome
    split at hcol
    · next hal =>
      refine ⟨_, _, rfl, found_of_blocks hids hrs hdvd (by simp) (Filled.nulls_append ?_) hi ((haligned i).1 hal) ?_ ?_⟩
      · intro j c hj
        cases j with
        | zero => cases hj; exact hcol
        | succ j => cases hj
      · intro j _ hj
        obtain rfl : j = i := by have := Nat.eq_of_mul_eq_mul_right hpos ((hneeds _ _).1 hj); omega
        rw [cachedColumn, hcol]; rfl
      · exact fun e he hem hAe hhit => hvalid e (by omega) hAe hhit (hlast _ (by omega) (by omega))
    · cases hcol

omit hA hdvd in
theorem chunkedLocal_found {c : Nat} (hkind : s.kind = .chunkedLocal c) (hA : s.blockSize = A) (hc : 0 < c)
    (hchunk : s.blockSize ∣ c) :
    ∃ columns n, chunkedLocal p s c blockHashes m ids false A = .ok (columns, n) ∧
      Found p s blockHashes m ids A columns n := by
  subst hA
  obtain ⟨rs, hres, hlen, hrs⟩ := resolve_spec p s blockHashes s.blockSize_pos (Nat.dvd_refl _) hhash
  have hpos := s.blockSize_pos
  -- the chunk of `m` begins at a block boundary
  have hstart : m / c * c / s.blockSize * s.blockSize = m / c * c :=
    Nat.div_mul_cancel (hchunk.trans (Nat.dvd_mul_left c _))
  have hle : m / c * c ≤ m := Nat.div_mul_le_self m c
  generalize hst : m / c * c / s.blockSize = start at hstart
  have hsm : start ≤ m / s.blockSize := (Nat.le_div_iff_mul_le hpos).2 (hstart ▸ hle)
  have htake : (rs.take (m / s.blockSize)).drop start = (rs.drop start).take (m / s.blockSize - start) := drop_take
  obtain ⟨hrun, hget, hmiss⟩ := takeCached_take p ids (rs.drop start) (m / s.blockSize - start)
  rw [← htake] at hrun hget hmiss
  generalize hcols : takeCached p ids ((rs.take (m / s.blockSize)).drop start) = cols at hrun hget hmiss
  simp only [cachedColumn_drop] at hget hmiss
  -- every end of a block from the beginning of the chunk to `m` is in this chunk
  have hneeds : ∀ e i, start ≤ e → e ≤ m / s.blockSize → (s.NeedsBlock (e * s.blockSize) i ↔ start ≤ i) := by
    intro e i h1 h2
    have hlow : m / c ≤ e * s.blockSize / c := (Nat.le_div_iff_mul_le hc).2 (hstart ▸ Nat.mul_le_mul_right _ h1)
    have hhigh : e * s.blockSize / c ≤ m / c := Nat.div_le_div_right ((Nat.le_div_iff_mul_le hpos).1 h2)
    simp only [KVCacheSpec.NeedsBlock, hkind]
    rw [Nat.le_antisymm hhigh hlow, ← hstart, Nat.mul_lt_mul_right hpos, Nat.lt_succ_iff]
  refine ⟨List.replicate start (nullColumn ids) ++ cols, (start + cols.length) * s.blockSize, ?_,
    found_of_blocks hids hrs (Nat.dvd_refl _) ?_ (Filled.nulls_append ?_) (by omega) (Nat.dvd_mul_left _ _) ?_ ?_⟩
  · simp only [chunkedLocal, ensure, if_true, hres, ok_bind, hst, hcols, hlen]
    rw [if_pos (.inr (.inl hm))]
    simp only [ok_bind, length_append, length_replicate]
    rfl
  · rw [length_append, length_replicate]
  · exact fun j col hj => (hget j (List.getElem?_eq_some_iff.1 hj).1).1.symm.trans hj
  · intro i hi hneed
    rw [hneeds _ _ (by omega) (by omega)] at hneed
    have := (hget (i - start) (by omega)).2
    rwa [Nat.add_sub_cancel' hneed] at this
  · intro e he hem _ hhit
    have hsome := hhit (start + cols.length) he ((hneeds _ _ (by omega) hem).2 (by omega))
    rw [hmiss (by omega)] at hsome
    cases hsome

omit hA hdvd hhash hids hm

theorem popToAlignment_self {bsz A : Nat} (h : n * bsz % A = 0) : popToAlignment bsz A n = n := by
  cases n with
  | zero => rfl
  | succ n => rw [popToAlignment, if_pos h]

theorem lt_window_iff {bsz w e i : Nat} (hbsz : 0 < bsz) (hi : i < e) :
    e * bsz < (i + 1) * bsz + (w - 1) ↔ e - cdiv (w - 1) bsz ≤ i := by
  have hsplit : e * bsz = (i + 1) * bsz + (e - (i + 1)) * bsz := by
    rw [← Nat.add_mul, Nat.add_sub_cancel' hi]
  have hcdiv := cdiv_le_iff (a := w - 1) (n := e - (i + 1)) hbsz
  rw [hsplit]
  constructor
  · intro h
    have : ¬ cdiv (w - 1) bsz ≤ e - (i + 1) := fun hle => by have := hcdiv.1 hle; omega
    omega
  · intro h
    have : ¬ w - 1 ≤ (e - (i + 1)) * bsz := fun hle => by have := hcdiv.2 hle; omega
    omega

variable (p ids rs bsz A drop) in
theorem scanning_start (hneed : 0 < need) :
    Scanning p ids rs bsz A need drop N N (List.replicate N (nullColumn ids)) 0 := by
  refine ⟨by omega, length_replicate, hneed, by omega, fun j hj => ?_, by omega, by omega⟩
  rw [getElem?_replicate, if_pos hj]

include hA hdvd hhash hids hm in
theorem slidingWindow_found {w extra : Nat} (hkind : s.kind = .slidingWindow w extra) (hw : 2 ≤ w) :
    ∃ columns n, slidingWindow p s w blockHashes m ids false A = .ok (columns, n) ∧
      Found p s blockHashes m ids A columns n := by
  obtain ⟨rs, hres, hlen, hrs⟩ := resolve_spec p s blockHashes hA hdvd hhash
  have hpos := s.blockSize_pos
  have hneed : 0 < Manager.contiguousBlocksForHit w s.blockSize false := cdiv_pos (by omega) hpos
  obtain ⟨cols, run, found, e, hscan, hspec⟩ :=
    slidingScan_spec hneed (hlen ▸ hm) (scanning_start p ids rs s.blockSize A false hneed)
  have hneeds : ∀ e, ∀ i < e, s.NeedsBlock (e * s.blockSize) i ↔
      e - Manager.contiguousBlocksForHit w s.blockSize false ≤ i := by
    intro e i hi
    simp only [KVCacheSpec.NeedsBlock, hkind]
    exact lt_window_iff hpos hi
  have hal : A ∣ e * s.blockSize := by
    rcases Nat.eq_zero_or_pos e with rfl | h0
    · rw [Nat.zero_mul]
      exact Nat.dvd_zero A
    · rcases (hspec.ends h0).aligned with h | h
      · exact h ▸ Nat.dvd_mul_left ..
      · exact Nat.dvd_of_mod_eq_zero h
  have hl := hspec.length
  have hn : (if found then cols.length else popToAlignment s.blockSize A run) = e := by
    split at hl
    · next hf => rw [if_pos hf]; exact hl
    · next hf => rw [if_neg hf, hl.1, popToAlignment_self (Nat.mod_eq_zero_of_dvd hal)]
  have hecols : e ≤ cols.length := by
    split at hl
    · exact hl.ge
    · exact hl.2
  refine ⟨cols.take e, e * s.blockSize, ?_, found_of_blocks hids hrs hdvd ?_ hspec.filled hspec.le hal ?_ ?_⟩
  · simp only [slidingWindow, hres, ok_bind, hscan, Bool.false_eq_true, false_and, if_false, hn]
    rfl
  · rw [length_take, Nat.min_eq_left hecols]
  · exact fun i hi hn => (hspec.ends (by omega)).cached i ((hneeds e i hi).1 hn) hi
  · exact fun e' he hem hAe hhit => hspec.last e' he hem
      ⟨by omega, .inr (Nat.mod_eq_zero_of_dvd hAe), fun j h1 h2 => hhit j h2 ((hneeds e' j h2).2 h1)⟩

/-- The specs whose finders return the greatest hit: windows of at least two tokens (a window of one token
reads no earlier block, but the scan asks for one), and chunks of whole blocks of the alignment's size. -/
def Searchable (s : KVCacheSpec) (A : Nat) : Prop :=
  match s.kind with
  | .fullAttention | .rswa _ | .mamba _ => True
  | .slidingWindow w _ => 2 ≤ w
  | .chunkedLocal c => s.blockSize = A ∧ 0 < c ∧ s.blockSize ∣ c
  | .circularBuffer _ | .crossAttention => False

omit [DecidableEq η] in
theorem Searchable.prefixCacheable (h : Searchable s A) : s.prefixCacheable = true := by
  unfold Searchable at h
  unfold KVCacheSpec.prefixCacheable
  split <;> first | rfl | simp_all

/-- The blocks of one group: every entry is null or cached under the hash of its position. -/
def GroupBlocks (p : BlockPool η) (s : KVCacheSpec) (blockHashes : List η) (g : Nat) (bs : List BlockId) : Prop :=
  ∀ j b, bs[j]? = some b → b = nullBlock ∨ ∃ h, blockHashAt blockHashes p.hashBlockSize s.blockSize j = some h ∧
    BlockHashToBlockMap.contain p.cachedBlockHashToBlock ⟨h, g⟩ b = true

theorem contain_getOneBlock {key : BlockHashWithGroupId η} {b : BlockId}
    (h : BlockHashToBlockMap.getOneBlock p.cachedBlockHashToBlock key = some b) :
    BlockHashToBlockMap.contain p.cachedBlockHashToBlock key b = true := by
  unfold BlockHashToBlockMap.getOneBlock at h
  unfold BlockHashToBlockMap.contain
  split at h
  · cases h
  · cases h; exact beq_self_eq_true _
  · exact contains_iff_mem.2 (mem_of_mem_head? h)

/-- The answer of `find_longest_cache_hit`: the greatest aligned hit, and the blocks of each group for it. -/
structure Answer (p : BlockPool η) (s : KVCacheSpec) (blockHashes : List η) (maxLength : Nat) (ids : List Nat)
    (A : Nat) (blocks : List (List BlockId)) (n : Nat) : Prop where
  greatest : IsGreatest {n | n ≤ maxLength ∧ A ∣ n ∧ ∀ g ∈ ids, p.HasHit s blockHashes g n} n
  length : blocks.length = ids.length
  blocks : ∀ k g : Nat, ids[k]? = some g → ∃ bs, blocks[k]? = some bs ∧ bs.length = n / s.blockSize ∧
    GroupBlocks p s blockHashes g bs

theorem Found.answer {n : Nat} (hf : Found p s blockHashes m ids A cols n) :
    Answer p s blockHashes m ids A (perGroup ids.length cols) n := by
  refine ⟨hf.greatest, by rw [perGroup, length_map, length_range], fun k g hk => ?_⟩
  obtain ⟨hlt, -⟩ := List.getElem?_eq_some_iff.1 hk
  refine ⟨cols.map fun col => col.getD k nullBlock, ?_, (length_map _).trans hf.length, fun j b hj => ?_⟩
  · rw [perGroup, getElem?_map, getElem?_range hlt]; rfl
  · rw [getElem?_map, map_eq_some_iff] at hj
    obtain ⟨col, hcol, rfl⟩ := hj
    rcases hf.filled j col hcol with rfl | ⟨h, hh, hc⟩
    · refine .inl ?_
      rw [nullColumn, getD_eq_getElem?_getD, getElem?_map, hk]
      rfl
    · refine .inr ⟨h, hh, contain_getOneBlock ?_⟩
      obtain ⟨hget, hsome⟩ := (mapM_some hc).2 k g hk
      obtain ⟨b, hb⟩ := isSome_iff_exists.1 hsome
      rw [getD_eq_getElem?_getD, hget, hb]
      rfl

include hA hdvd hhash hids in
theorem findLongestCacheHit_found (hs : Searchable s A)
    (hm : s.isFullAttention = true ∨ m / s.blockSize ≤ blockHashes.length / (s.blockSize / p.hashBlockSize)) :
    ∃ blocks n, findLongestCacheHit p s blockHashes m ids false A = .ok (blocks, n) ∧
      Answer p s blockHashes m ids A blocks n := by
  have hwrap : ∀ {f : Except Err (List (List BlockId) × Nat)},
      (∃ cols n, f = .ok (cols, n) ∧ Found p s blockHashes m ids A cols n) →
      ∃ blocks n, (f >>= fun x => pure (perGroup ids.length x.1, x.2)) = .ok (blocks, n) ∧
        Answer p s blockHashes m ids A blocks n := by
    rintro f ⟨cols, n, rfl, hf⟩
    exact ⟨_, n, rfl, hf.answer⟩
  unfold findLongestCacheHit
  cases hkind : s.kind with
  | fullAttention => exact hwrap (fullAttention_found hA hdvd hhash hids (by simp [KVCacheSpec.isFullAttention, hkind]))
  | rswa w => exact hwrap (fullAttention_found hA hdvd hhash hids (by simp [KVCacheSpec.isFullAttention, hkind]))
  | slidingWindow w extra =>
    rw [Searchable, hkind] at hs
    exact hwrap (slidingWindow_found hA hdvd hhash hids (hm.resolve_left
      (by simp [KVCacheSpec.isFullAttention, hkind])) hkind hs)
  | chunkedLocal c =>
    rw [Searchable, hkind] at hs
    obtain ⟨h1, h2, h3⟩ := hs
    exact hwrap (chunkedLocal_found hhash hids (hm.resolve_left (by simp [KVCacheSpec.isFullAttention, hkind]))
      hkind h1 h2 h3)
  | mamba ms =>
    exact hwrap (mamba_found hA hdvd hhash hids (hm.resolve_left (by simp [KVCacheSpec.isFullAttention, hkind])) hkind)
  | circularBuffer k => rw [Searchable, hkind] at hs; exact hs.elim
  | crossAttention => rw [Searchable, hkind] at hs; exact hs.elim

end Finders

end CacheHit

end VllmCore
