import VllmCore.Core.KVCacheManager
import VllmCore.Core.BlockCounts

/-! # Failed KV loads

`Scheduler._update_requests_with_invalid_blocks` looks for blocks whose load failed and rolls the
requests that hold them back. It counts in blocks of the scheduler block size, while the tables of a
group count in blocks of their own size. `Locates` says when the two agree. -/

namespace VllmCore
open List
variable {η : Type} {P : BlockId → Bool}

namespace InvalidBlocks

def updateSet (s xs : List BlockId) : List BlockId := xs.foldl (fun s b => insertNew b s) s

structure InvalidScan where
  affectedReqIds : List RequestId := []
  totalAffectedTokens : Int := 0
  blocksToEvict : List BlockId := []
  markedInvalidBlockIds : List BlockId := []

structure BlockScan extends InvalidScan where
  isAffected : Bool := false
  markedInvalidBlock : Bool := false
  numComputedTokens : Nat

section
variable (blockSize : Nat) (invalidBlockIds : List BlockId) (evictBlocks : Bool)

/-- One round of the single-group loop. A block marked before will be recomputed by an earlier request;
the first unmarked one truncates the request. -/
def scanBlock (reqNumComputedTokens : Nat) (reqBlockIds : List BlockId) (idx : Nat) (b : BlockId) (st : BlockScan) :
    BlockScan :=
  if b ∉ invalidBlockIds then st
  else if b ∈ st.markedInvalidBlockIds then { st with isAffected := true }
  else
    let marked := st.markedInvalidBlockIds ++ [b]
    if st.markedInvalidBlock then { st with isAffected := true, markedInvalidBlockIds := marked }
    else
      { isAffected := true
        markedInvalidBlock := true
        numComputedTokens := idx * blockSize
        affectedReqIds := st.affectedReqIds
        totalAffectedTokens := st.totalAffectedTokens + ((reqNumComputedTokens : Int) - (idx * blockSize : Nat))
        blocksToEvict := if evictBlocks then updateSet st.blocksToEvict (reqBlockIds.drop idx) else st.blocksToEvict
        markedInvalidBlockIds := marked }

def scanBlocks (reqNumComputedTokens : Nat) (reqBlockIds : List BlockId) : Nat → List BlockId → BlockScan → BlockScan
  | _, [], st => st
  | idx, b :: bs, st =>
    scanBlocks reqNumComputedTokens reqBlockIds (idx + 1) bs
      (scanBlock blockSize invalidBlockIds evictBlocks reqNumComputedTokens reqBlockIds idx b st)

def scanSingle (r : Request η) (reqNumComputedTokens : Nat) (reqBlockIds : List BlockId) (st : InvalidScan) :
    Request η × InvalidScan :=
  let s := scanBlocks blockSize invalidBlockIds evictBlocks reqNumComputedTokens reqBlockIds 0
    (reqBlockIds.take (cdiv reqNumComputedTokens blockSize)) { st with numComputedTokens := r.numComputedTokens }
  if !s.isAffected then (r, s.toInvalidScan)
  else if s.markedInvalidBlock then
    ({ r with numComputedTokens := s.numComputedTokens },
      { s.toInvalidScan with affectedReqIds := insertNew r.requestId s.affectedReqIds })
  else
    -- all its invalid blocks are recomputed by earlier requests
    ({ r with numComputedTokens := reqNumComputedTokens },
      { s.toInvalidScan with
        totalAffectedTokens := s.totalAffectedTokens + ((s.numComputedTokens : Int) - reqNumComputedTokens)
        affectedReqIds := insertNew r.requestId s.affectedReqIds })

def firstInvalid (reqNumComputedTokens : Nat) (groupBlockIds : List BlockId) : Option Nat :=
  (groupBlockIds.take (cdiv reqNumComputedTokens blockSize)).findIdx? fun b => decide (b ∈ invalidBlockIds)

/-- The case of several groups for one request: truncate at the lowest index in any group. -/
def scanGroups (r : Request η) (reqNumComputedTokens : Nat) (blockIdsPerGroup : List (List BlockId))
    (st : InvalidScan) : Request η × InvalidScan :=
  let firsts := blockIdsPerGroup.map (firstInvalid blockSize invalidBlockIds reqNumComputedTokens)
  match (firsts.filterMap id).min? with
  | none => (r, st)
  | some minIdx =>
    ({ r with numComputedTokens := minIdx * blockSize },
      { st with
        totalAffectedTokens := st.totalAffectedTokens + ((reqNumComputedTokens : Int) - (minIdx * blockSize : Nat))
        blocksToEvict := if evictBlocks then
            (firsts.zip blockIdsPerGroup).foldl (fun s e => match e.1 with
              | some fi => updateSet s (e.2.drop fi)
              | none => s) st.blocksToEvict
          else st.blocksToEvict
        affectedReqIds := insertNew r.requestId st.affectedReqIds })

variable (numScheduledTokens : Dict RequestId Nat)

def reqNumComputedTokens (r : Request η) : Nat := r.numComputedTokens - numScheduledTokens.getD r.requestId 0

def updateRequest (kv : KVCacheManager η) (r : Request η) (st : InvalidScan) : Except Err (Request η × InvalidScan) :=
  match kv.getBlockIds r.requestId with
  | [] => .error (.valueError "not enough values to unpack (expected 1, got 0)")
  | [reqBlockIds] =>
    .ok (scanSingle blockSize invalidBlockIds evictBlocks r (reqNumComputedTokens numScheduledTokens r) reqBlockIds st)
  | blockIdsPerGroup =>
    .ok (scanGroups blockSize invalidBlockIds evictBlocks r (reqNumComputedTokens numScheduledTokens r)
      blockIdsPerGroup st)

/-- `_update_requests_with_invalid_blocks`: the requests as it leaves them, and what it returns. -/
def updateRequestsWithInvalidBlocks (kv : KVCacheManager η) :
    List (Request η) → InvalidScan → Except Err (List (Request η) × InvalidScan)
  | [], st => .ok ([], st)
  | r :: rs, st => do
    let (r, st) ← updateRequest blockSize invalidBlockIds evictBlocks numScheduledTokens kv r st
    let (rs, st) ← updateRequestsWithInvalidBlocks kv rs st
    pure (r :: rs, st)

end

/-! ### What one request goes through -/

section
variable {blockSize n k : Nat} {invalid tbl bs : List BlockId} {evict : Bool} {st s : BlockScan}

section
variable (hs : scanBlocks blockSize invalid evict n tbl k bs st = s)
include hs

theorem scanBlocks_sets :
    s.isAffected = (st.isAffected || bs.any fun b => decide (b ∈ invalid)) ∧ s.affectedReqIds = st.affectedReqIds ∧
      ∀ x, x ∈ s.markedInvalidBlockIds ↔ x ∈ st.markedInvalidBlockIds ∨ (x ∈ bs ∧ x ∈ invalid) := by
  induction bs generalizing k st with
  | nil => simp [← hs, scanBlocks]
  | cons b bs ih =>
    rw [scanBlocks] at hs
    obtain ⟨haff, hids, hmark⟩ := ih hs
    simp only [haff, hids, hmark, any_cons, mem_cons]
    unfold scanBlock
    split
    · next h => exact ⟨by simp [h], rfl, fun x => by grind⟩
    · next h =>
      have h := not_not.1 h
      split
      · exact ⟨by simp [h], rfl, fun x => by grind⟩
      split
      all_goals exact ⟨by simp [h], rfl, fun x => by grind⟩

theorem scanBlocks_done (h : st.markedInvalidBlock = true) :
    s.markedInvalidBlock = true ∧ s.numComputedTokens = st.numComputedTokens := by
  induction bs generalizing k st with
  | nil => cases hs; exact ⟨h, rfl⟩
  | cons b bs ih =>
    have hone : ∀ s', scanBlock blockSize invalid evict n tbl k b st = s' →
        s'.markedInvalidBlock = true ∧ s'.numComputedTokens = st.numComputedTokens := by
      rintro _ rfl
      unfold scanBlock
      split
      · exact ⟨h, rfl⟩
      split
      · exact ⟨h, rfl⟩
      exact ⟨h, rfl⟩
    obtain ⟨hm, hn⟩ := hone _ rfl
    obtain ⟨hm', hn'⟩ := ih hs hm
    exact ⟨hm', hn'.trans hn⟩

theorem scanBlocks_first (h : st.markedInvalidBlock = false) :
    match bs.findIdx? fun b => decide (b ∈ invalid ∧ b ∉ st.markedInvalidBlockIds) with
    | some j => s.markedInvalidBlock = true ∧ s.numComputedTokens = (k + j) * blockSize
    | none => s.markedInvalidBlock = false ∧ s.numComputedTokens = st.numComputedTokens := by
  induction bs generalizing k st with
  | nil => cases hs; exact ⟨h, rfl⟩
  | cons b bs ih =>
    rw [scanBlocks] at hs
    rw [findIdx?_cons]
    by_cases hb : b ∈ invalid ∧ b ∉ st.markedInvalidBlockIds
    · -- this block truncates
      rw [if_pos (decide_eq_true hb)]
      unfold scanBlock at hs
      rw [if_neg (not_not.2 hb.1), if_neg hb.2] at hs
      dsimp only at hs
      rw [if_neg (by simp [h])] at hs
      exact scanBlocks_done hs rfl
    · -- valid or marked already: the marks do not change
      rw [if_neg (by simpa using hb)]
      have hone : ∀ s', scanBlock blockSize invalid evict n tbl k b st = s' → s'.markedInvalidBlock = false ∧
          s'.numComputedTokens = st.numComputedTokens ∧ s'.markedInvalidBlockIds = st.markedInvalidBlockIds := by
        rintro _ rfl
        unfold scanBlock
        split
        · exact ⟨h, rfl, rfl⟩
        · next hi =>
          rw [if_pos (by tauto)]
          exact ⟨h, rfl, rfl⟩
      obtain ⟨hm, hn, hmarks⟩ := hone _ rfl
      have hrest := ih hs hm
      rw [hn, hmarks] at hrest
      cases hf : bs.findIdx? fun b => decide (b ∈ invalid ∧ b ∉ st.markedInvalidBlockIds) with
      | none => rw [hf] at hrest; exact hrest
      | some j =>
        rw [hf] at hrest
        refine ⟨hrest.1, hrest.2.trans ?_⟩
        rw [Nat.add_right_comm, Nat.add_assoc]

end

end

/-! ### Detection -/

/-- A report of failed loads: the tables, the scheduler block size, and the two arguments of the scan. -/
structure LoadFailure (η : Type) where
  kv : KVCacheManager η
  blockSize : Nat
  invalidBlockIds : List BlockId
  numScheduledTokens : Dict RequestId Nat

namespace LoadFailure
variable {f : LoadFailure η} {evictBlocks : Bool} {r r' : Request η} {st st' : InvalidScan} {b : BlockId}
  {m : Manager η} {tbl invalid : List BlockId} {i n : Nat}

def computed (f : LoadFailure η) (r : Request η) : Nat := reqNumComputedTokens f.numScheduledTokens r

def groups (f : LoadFailure η) : List (Manager η) := f.kv.coordinator.managers

/-- The scan sees block `i` of the table of `m`, and it is invalid. -/
structure Detected (f : LoadFailure η) (r : Request η) (m : Manager η) (i : Nat) (b : BlockId) : Prop where
  group : m ∈ f.groups
  block : (m.blocksOf r.requestId)[i]? = some b
  invalid : b ∈ f.invalidBlockIds
  seen : i * f.blockSize < f.computed r

/-- With one group, marked blocks are left to earlier requests. -/
def Unmarked (f : LoadFailure η) (st : InvalidScan) (b : BlockId) : Prop :=
  f.groups.length = 1 → b ∉ st.markedInvalidBlockIds

structure StepOk (f : LoadFailure η) (r : Request η) (st : InvalidScan) (r' : Request η) (st' : InvalidScan) :
    Prop where
  affected : ∀ x, x ∈ st'.affectedReqIds ↔ x ∈ st.affectedReqIds ∨ (x = r.requestId ∧ ∃ m i b, f.Detected r m i b)
  marked : f.groups.length = 1 → ∀ b, b ∈ st'.markedInvalidBlockIds ↔
    b ∈ st.markedInvalidBlockIds ∨ ∃ m i, f.Detected r m i b
  truncated : ∀ m i b, f.Detected r m i b → f.Unmarked st b →
    ∃ m' j b', f.Detected r m' j b' ∧ f.Unmarked st b' ∧ j ≤ i ∧ r' = { r with numComputedTokens := j * f.blockSize }
  reverted : ∀ m i b, f.Detected r m i b → (∀ m i b, f.Detected r m i b → ¬ f.Unmarked st b) →
    r' = { r with numComputedTokens := f.computed r }
  unchanged : (∀ m i b, ¬ f.Detected r m i b) → r' = r

theorem lt_cdiv_iff {a k : Nat} (hk : 0 < k) : n < cdiv a k ↔ n * k < a := by
  rw [← Nat.not_le, cdiv_le_iff hk, Nat.not_le]

theorem mem_take_iff : b ∈ tbl.take n ↔ ∃ i, i < n ∧ tbl[i]? = some b := by
  rw [mem_iff_getElem?]
  constructor
  · rintro ⟨i, hi⟩
    rw [getElem?_take] at hi
    split at hi
    · exact ⟨i, ‹_›, hi⟩
    · cases hi
  · rintro ⟨i, hlt, hi⟩
    exact ⟨i, by rw [getElem?_take, if_pos hlt, hi]⟩

theorem findIdx_take_some {j : Nat} (h : (tbl.take n).findIdx? P = some j) :
    (∃ b, j < n ∧ tbl[j]? = some b ∧ P b) ∧ ∀ i b, tbl[i]? = some b → P b → i < n → j ≤ i := by
  obtain ⟨hj, hP, hmin⟩ := findIdx?_eq_some_iff_getElem.1 h
  rw [length_take] at hj
  refine ⟨⟨_, by omega, ?_, hP⟩, fun i b hb hPb hi => ?_⟩
  · rw [getElem_take]
    exact getElem?_eq_getElem (by omega)
  · by_contra hlt
    have := hmin i (by omega)
    rw [getElem_take] at this
    obtain ⟨hi', rfl⟩ := List.getElem?_eq_some_iff.1 hb
    exact this hPb

theorem findIdx_take_none (h : (tbl.take n).findIdx? P = none) (hb : tbl[i]? = some b) (hi : i < n) : ¬ P b := by
  have := findIdx?_eq_none_iff.1 h b (mem_take_iff.2 ⟨i, hi, hb⟩)
  simp [this]

theorem scanSingle_ok (hB : 0 < f.blockSize) (hkv : f.groups = [m])
    (h : scanSingle f.blockSize f.invalidBlockIds evictBlocks r (f.computed r) (m.blocksOf r.requestId) st = (r',
      st')) :
    f.StepOk r st r' st' := by
  have hdet : ∀ m' i b, f.Detected r m' i b ↔ m' = m ∧ (m.blocksOf r.requestId)[i]? = some b ∧
      b ∈ f.invalidBlockIds ∧ i < cdiv (f.computed r) f.blockSize := by
    intro m' i b
    rw [lt_cdiv_iff hB]
    constructor
    · rintro ⟨hg, hb, hi, hs⟩
      rw [hkv, mem_singleton] at hg
      subst hg
      exact ⟨rfl, hb, hi, hs⟩
    · rintro ⟨rfl, hb, hi, hs⟩
      exact ⟨by rw [hkv]; exact mem_singleton.2 rfl, hb, hi, hs⟩
  have hone : f.groups.length = 1 := by rw [hkv]; rfl
  simp only [scanSingle] at h
  generalize hC : f.computed r = C at h hdet
  generalize htbl : m.blocksOf r.requestId = tbl at h hdet
  generalize hs : scanBlocks f.blockSize f.invalidBlockIds evictBlocks C tbl 0 (tbl.take (cdiv C f.blockSize))
    { st with numComputedTokens := r.numComputedTokens } = s at h
  obtain ⟨haff, hids, hmark⟩ := scanBlocks_sets hs
  have hfirst := scanBlocks_first hs rfl
  dsimp only at haff hids hmark hfirst
  have hex : s.isAffected = true ↔ ∃ m i b, f.Detected r m i b := by
    rw [haff, Bool.false_or, any_eq_true]
    simp only [hdet, mem_take_iff, decide_eq_true_eq]
    exact ⟨fun ⟨b, ⟨i, hi, hb⟩, hinv⟩ => ⟨m, i, b, rfl, hb, hinv, hi⟩,
      fun ⟨_, i, b, _, hb, hinv, hi⟩ => ⟨b, ⟨i, hi, hb⟩, hinv⟩⟩
  have hmarked : ∀ b, b ∈ s.markedInvalidBlockIds ↔ b ∈ st.markedInvalidBlockIds ∨ ∃ m i, f.Detected r m i b := by
    intro b
    rw [hmark, mem_take_iff]
    simp only [hdet]
    exact or_congr_right ⟨fun ⟨⟨i, hi, hb⟩, hinv⟩ => ⟨m, i, rfl, hb, hinv, hi⟩,
      fun ⟨_, i, _, hb, hinv, hi⟩ => ⟨⟨i, hi, hb⟩, hinv⟩⟩
  have hinsert : ∀ x, x ∈ insertNew r.requestId s.affectedReqIds ↔ x ∈ st.affectedReqIds ∨ x = r.requestId := by
    intro x
    rw [mem_insertNew, hids, or_comm]
  by_cases hA : s.isAffected = true
  · rw [if_neg (by simp [hA])] at h
    have hE := hex.1 hA
    cases hf : (tbl.take (cdiv C f.blockSize)).findIdx? fun b =>
        decide (b ∈ f.invalidBlockIds ∧ b ∉ st.markedInvalidBlockIds) with
    | some j =>
      rw [hf] at hfirst
      obtain ⟨hm, hn⟩ := hfirst
      obtain ⟨⟨b, hlt, hb, hP⟩, hmin⟩ := findIdx_take_some hf
      rw [decide_eq_true_eq] at hP
      have hd : f.Detected r m j b := (hdet _ _ _).2 ⟨rfl, hb, hP.1, hlt⟩
      rw [if_pos hm, hn, Nat.zero_add] at h
      obtain ⟨rfl, rfl⟩ := Prod.mk.inj h
      refine ⟨fun x => (hinsert x).trans (by simp [hE]), fun _ => hmarked, fun m' i b' hd' hu => ?_,
        fun _ _ _ _ hall => absurd (fun _ => hP.2) (hall m j b hd), fun hno => absurd hd (hno m j b)⟩
      obtain ⟨-, hb', hinv, hi⟩ := (hdet _ _ _).1 hd'
      exact ⟨m, j, b, hd, fun _ => hP.2, hmin i b' hb' (decide_eq_true ⟨hinv, hu hone⟩) hi, rfl⟩
    | none =>
      rw [hf] at hfirst
      obtain ⟨hm, hn⟩ := hfirst
      rw [if_neg (by simp [hm])] at h
      obtain ⟨rfl, rfl⟩ := Prod.mk.inj h
      refine ⟨fun x => (hinsert x).trans (by simp [hE]), fun _ => hmarked, fun m' i b' hd hu => ?_,
        fun _ _ _ _ _ => by rw [hC], fun hno => ?_⟩
      · obtain ⟨-, hb', hinv, hi⟩ := (hdet _ _ _).1 hd
        exact absurd (decide_eq_true ⟨hinv, hu hone⟩) (findIdx_take_none hf hb' hi)
      · obtain ⟨m', i, b, hd⟩ := hE
        exact absurd hd (hno m' i b)
  · rw [if_pos (by simpa using hA)] at h
    obtain ⟨rfl, rfl⟩ := Prod.mk.inj h
    have hno : ¬ ∃ m i b, f.Detected r m i b := fun hcon => hA (hex.2 hcon)
    refine ⟨fun x => by rw [hids]; simp [hno], fun _ => hmarked, fun m' i b hd _ => ?_, fun m' i b hd _ => ?_,
      fun _ => rfl⟩
    · exact absurd ⟨m', i, b, hd⟩ hno
    · exact absurd ⟨m', i, b, hd⟩ hno

theorem Detected.first_le (h : f.Detected r m i b) (hB : 0 < f.blockSize) : ∃ k ≤ i,
    k ∈ ((f.kv.getBlockIds r.requestId).map (firstInvalid f.blockSize f.invalidBlockIds (f.computed r))).filterMap
      id := by
  have hi := (lt_cdiv_iff hB).2 h.seen
  cases hfi : firstInvalid f.blockSize f.invalidBlockIds (f.computed r) (m.blocksOf r.requestId) with
  | none => exact absurd (decide_eq_true h.invalid) (findIdx_take_none hfi h.block hi)
  | some k =>
    refine ⟨k, (findIdx_take_some hfi).2 i b h.block (decide_eq_true h.invalid) hi, ?_⟩
    exact mem_filterMap.2 ⟨_, mem_map.2 ⟨_, mem_map.2 ⟨m, h.group, rfl⟩, hfi⟩, rfl⟩

theorem scanGroups_ok (hB : 0 < f.blockSize) (hkv : f.groups.length ≠ 1)
    (h : scanGroups f.blockSize f.invalidBlockIds evictBlocks r (f.computed r) (f.kv.getBlockIds r.requestId) st =
      (r', st')) : f.StepOk r st r' st' := by
  have hun : ∀ b, f.Unmarked st b := fun b hone => absurd hone hkv
  simp only [scanGroups] at h
  split at h
  · next hnone =>
    obtain ⟨rfl, rfl⟩ := Prod.mk.inj h
    have hno : ∀ m i b, ¬ f.Detected r m i b := by
      intro m i b hd
      obtain ⟨k, -, hk⟩ := hd.first_le hB
      rw [min?_eq_none_iff.1 hnone] at hk
      cases hk
    exact ⟨fun x => by simp [hno], fun hone => absurd hone hkv, fun m i b hd _ => absurd hd (hno m i b),
      fun m i b hd _ => absurd hd (hno m i b), fun _ => rfl⟩
  · next j hj =>
    obtain ⟨rfl, rfl⟩ := Prod.mk.inj h
    obtain ⟨hmem, hmin⟩ := min?_eq_some_iff.1 hj
    obtain ⟨_, hfirst, hfi⟩ := mem_filterMap.1 hmem
    obtain ⟨_, ht, rfl⟩ := mem_map.1 hfirst
    obtain ⟨m, hm, rfl⟩ := mem_map.1 ht
    obtain ⟨⟨b, hlt, hb, hP⟩, -⟩ := findIdx_take_some hfi
    have hd : f.Detected r m j b := ⟨hm, hb, of_decide_eq_true hP, (lt_cdiv_iff hB).1 hlt⟩
    refine ⟨fun x => ?_, fun hone => absurd hone hkv, fun m' i b' hd' _ => ?_, fun _ _ _ _ hall => ?_, fun hno => ?_⟩
    · have hE : ∃ m i b, f.Detected r m i b := ⟨m, j, b, hd⟩
      dsimp only
      rw [mem_insertNew, or_comm]
      simp [hE]
    · obtain ⟨k, hki, hk⟩ := hd'.first_le hB
      exact ⟨m, j, b, hd, hun b, (hmin k hk).trans hki, rfl⟩
    · exact absurd (hun b) (hall m j b hd)
    · exact absurd hd (hno m j b)

theorem updateRequest_ok (hB : 0 < f.blockSize) (hne : f.groups ≠ []) (evictBlocks : Bool) (r : Request η)
    (st : InvalidScan) :
    ∃ r' st', updateRequest f.blockSize f.invalidBlockIds evictBlocks f.numScheduledTokens f.kv r st = .ok (r', st') ∧
      f.StepOk r st r' st' := by
  have hids : f.kv.getBlockIds r.requestId = f.groups.map fun m => m.blocksOf r.requestId := rfl
  unfold updateRequest
  split
  · next h => exact absurd (map_eq_nil_iff.1 (hids.symm.trans h)) hne
  · next tbl h =>
    obtain ⟨m, hm, rfl⟩ := map_eq_singleton_iff.1 (hids.symm.trans h)
    exact ⟨_, _, rfl, scanSingle_ok hB hm rfl⟩
  · next tbls h1 h2 =>
    refine ⟨_, _, rfl, scanGroups_ok hB (fun hone => ?_) rfl⟩
    obtain ⟨m, hm⟩ := length_eq_one_iff.1 hone
    exact h2 _ (hids.trans (by rw [hm]; rfl))

/-- The run lemma: the accumulated sets, and the state in which each request is met. -/
theorem updateRequests_ok (hB : 0 < f.blockSize) (hne : f.groups ≠ []) (evictBlocks : Bool) (rs : List (Request η))
    (st : InvalidScan) :
    ∃ rs' st', updateRequestsWithInvalidBlocks f.blockSize f.invalidBlockIds evictBlocks f.numScheduledTokens f.kv
        rs st = .ok (rs', st') ∧
      rs'.length = rs.length ∧
      (∀ x, x ∈ st'.affectedReqIds ↔ x ∈ st.affectedReqIds ∨
        ∃ r ∈ rs, x = r.requestId ∧ ∃ m i b, f.Detected r m i b) ∧
      ∀ j r r', rs[j]? = some r → rs'[j]? = some r' → ∃ s s', f.StepOk r s r' s' ∧
        (f.groups.length = 1 → ∀ b, b ∈ s.markedInvalidBlockIds ↔ b ∈ st.markedInvalidBlockIds ∨
          ∃ r ∈ rs.take j, ∃ m i, f.Detected r m i b) := by
  induction rs generalizing st with
  | nil => exact ⟨[], st, rfl, rfl, by simp, by simp⟩
  | cons r rs ih =>
    obtain ⟨r1, st1, hr, hstep⟩ := updateRequest_ok hB hne evictBlocks r st
    obtain ⟨rs', st', hrs, hlen, haff, hall⟩ := ih st1
    refine ⟨r1 :: rs', st', ?_, by simp [hlen], fun x => ?_, fun j q q' hq hq' => ?_⟩
    · rw [updateRequestsWithInvalidBlocks, hr, Except.ok_bind]
      dsimp only
      rw [hrs]
      rfl
    · rw [haff, hstep.affected]
      simp only [mem_cons, exists_eq_or_imp]
      exact or_assoc
    · cases j with
      | zero =>
        simp only [getElem?_cons_zero, Option.some.injEq] at hq hq'
        subst hq hq'
        exact ⟨st, st1, hstep, fun _ b => by simp⟩
      | succ j =>
        obtain ⟨s, s', hs, hm⟩ := hall j q q' (by simpa using hq) (by simpa using hq')
        refine ⟨s, s', hs, fun hone b => ?_⟩
        rw [hm hone, hstep.marked hone, take_succ_cons]
        simp only [mem_cons, exists_eq_or_imp]
        exact or_assoc

/-! ### Recovery -/

/-- Block `i` of the table of `m` is invalid and begins below the computed tokens. -/
structure InvalidBelow (f : LoadFailure η) (r : Request η) (m : Manager η) (i : Nat) (b : BlockId) : Prop where
  group : m ∈ f.groups
  block : (m.blocksOf r.requestId)[i]? = some b
  invalid : b ∈ f.invalidBlockIds
  below : i * m.blockSize < f.computed r

/-- With one group, the block is marked by the scan of an earlier request. -/
def MarkedBy (f : LoadFailure η) (earlier : List (Request η)) (b : BlockId) : Prop :=
  f.groups.length = 1 ∧ ∃ r ∈ earlier, ∃ m i, f.Detected r m i b

/-- No failed load of `r` stays marked as computed. -/
structure Recovered (f : LoadFailure η) (earlier : List (Request η)) (r r' : Request η) (affected : List RequestId) :
    Prop where
  truncated : ∀ m i b, f.InvalidBelow r m i b → ¬ f.MarkedBy earlier b → r'.numComputedTokens ≤ i * m.blockSize
  affected : ∀ m i b, f.InvalidBelow r m i b → r.requestId ∈ affected
  unchanged : (∀ m i b, ¬ f.InvalidBelow r m i b) → r' = r

/-- Where scheduler blocks and the blocks of the groups agree: one of the invalid blocks has an index that,
counted in scheduler blocks, lies at or before all of them, and the scan reaches one of them. -/
structure Locates (f : LoadFailure η) (earlier : List (Request η)) (r : Request η) : Prop where
  truncates : ∀ m i b, f.InvalidBelow r m i b → ¬ f.MarkedBy earlier b →
    ∃ m' j b', f.InvalidBelow r m' j b' ∧ ¬ f.MarkedBy earlier b' ∧
      ∀ m i b, f.InvalidBelow r m i b → ¬ f.MarkedBy earlier b → j * f.blockSize ≤ i * m.blockSize
  reaches : ∀ m i b, f.InvalidBelow r m i b → ∃ m' j b', f.InvalidBelow r m' j b' ∧ j * f.blockSize < f.computed r

/-- The groups have positive block sizes that divide the scheduler block size. -/
structure Divides (f : LoadFailure η) : Prop where
  groups : f.groups ≠ []
  pos : 0 < f.blockSize
  dvd : ∀ m ∈ f.groups, m.blockSize ∣ f.blockSize

theorem Detected.invalidBelow (hf : f.Divides) (h : f.Detected r m i b) : f.InvalidBelow r m i b := by
  have hle := Nat.le_of_dvd hf.pos (hf.dvd m h.group)
  exact ⟨h.group, h.block, h.invalid, (Nat.mul_le_mul_left i hle).trans_lt h.seen⟩

theorem InvalidBelow.detected (h : f.InvalidBelow r m i b) (hs : i * f.blockSize < f.computed r) : f.Detected r m i b :=
  ⟨h.group, h.block, h.invalid, hs⟩

theorem StepOk.recovered_iff (hf : f.Divides) {earlier : List (Request η)} {affected : List RequestId}
    (h : f.StepOk r st r' st') (hmark : ∀ b, f.Unmarked st b ↔ ¬ f.MarkedBy earlier b)
    (haff : r.requestId ∈ affected ↔ ∃ m i b, f.Detected r m i b) :
    f.Recovered earlier r r' affected ↔ f.Locates earlier r := by
  constructor
  · intro hrec
    constructor
    · intro m i b hinv hun
      obtain ⟨m1, i1, b1, hd1⟩ := haff.1 (hrec.affected m i b hinv)
      have hex : ∃ m i b, f.Detected r m i b ∧ f.Unmarked st b := by
        by_contra hno
        -- then the request is only set back to its computed tokens, which lie past the invalid block
        have hback := h.reverted m1 i1 b1 hd1 fun m i b hd hu => hno ⟨m, i, b, hd, hu⟩
        have := hrec.truncated m i b hinv hun
        rw [hback] at this
        exact absurd hinv.below (Nat.not_lt.2 this)
      obtain ⟨m2, i2, b2, hd2, hu2⟩ := hex
      obtain ⟨m', j, b', hd, hu, -, rfl⟩ := h.truncated m2 i2 b2 hd2 hu2
      exact ⟨m', j, b', hd.invalidBelow hf, (hmark b').1 hu, hrec.truncated⟩
    · intro m i b hinv
      obtain ⟨m', j, b', hd⟩ := haff.1 (hrec.affected m i b hinv)
      exact ⟨m', j, b', hd.invalidBelow hf, hd.seen⟩
  · intro hloc
    refine ⟨fun m i b hinv hun => ?_, fun m i b hinv => ?_, fun hno => ?_⟩
    · obtain ⟨m', j, b', hinv', hun', hle⟩ := hloc.truncates m i b hinv hun
      have hseen : j * f.blockSize < f.computed r := (hle m i b hinv hun).trans_lt hinv.below
      obtain ⟨m2, k, b2, -, -, hk, rfl⟩ := h.truncated m' j b' (hinv'.detected hseen) ((hmark b').2 hun')
      exact (Nat.mul_le_mul_right f.blockSize hk).trans (hle m i b hinv hun)
    · obtain ⟨m', j, b', hinv', hs⟩ := hloc.reaches m i b hinv
      exact haff.2 ⟨m', j, b', hinv'.detected hs⟩
    · exact h.unchanged fun m i b hd => hno m i b (hd.invalidBelow hf)

/-- `_update_requests_with_invalid_blocks` completes, and every request it scans is recovered exactly if
its invalid blocks are located. -/
theorem updateRequests_recovered_iff (f : LoadFailure η) (hf : f.Divides) (evictBlocks : Bool)
    (requests : List (Request η)) (hnodup : (requests.map (·.requestId)).Nodup) :
    ∃ requests' st, updateRequestsWithInvalidBlocks f.blockSize f.invalidBlockIds evictBlocks f.numScheduledTokens f.kv
        requests {} = .ok (requests', st) ∧
      requests'.length = requests.length ∧
      ∀ j r r', requests[j]? = some r → requests'[j]? = some r' →
        (f.Recovered (requests.take j) r r' st.affectedReqIds ↔ f.Locates (requests.take j) r) := by
  obtain ⟨rs', st', hok, hlen, haff, hall⟩ := updateRequests_ok hf.pos hf.groups evictBlocks requests {}
  refine ⟨rs', st', hok, hlen, fun j r r' hr hr' => ?_⟩
  obtain ⟨s, s', hstep, hmark⟩ := hall j r r' hr hr'
  refine hstep.recovered_iff hf (fun b => ?_) ?_
  · by_cases hone : f.groups.length = 1
    · simp only [Unmarked, MarkedBy, hone, true_and, forall_const, hmark hone]
      simp
    · simp only [Unmarked, MarkedBy, hone, false_and, false_imp_iff, not_false_iff]
  · rw [haff]
    simp only [not_mem_nil, false_or]
    constructor
    · rintro ⟨q, hq, heq, hd⟩
      rwa [inj_on_of_nodup_map hnodup (mem_of_getElem? hr) hq heq]
    · intro hd
      exact ⟨r, mem_of_getElem? hr, rfl, hd⟩

def twoSizes : Coordinator.KVCacheConfig where
  numBlocks := 5
  groups := [⟨⟨2, .fullAttention, Nat.two_pos, 0⟩, false⟩, ⟨⟨4, .fullAttention, pos_four, 0⟩, false⟩]

def twoSizesOptions : Coordinator.KVCacheOptions where
  maxModelLen := 16
  maxInFlightTokens := 16
  enableCaching := false
  schedulerBlockSize := 4
  hashBlockSize := 4

def twoSizesRun : Except Err (KVCacheManager Nat) := do
  let kv ← KVCacheManager.init twoSizes twoSizesOptions 0
  let (_, kv) ← kv.allocateSlots { requestId := 7, allTokenIds := [1, 2, 3, 4] } { numNewTokens := 4 }
  pure kv

theorem divides_of_blockSizes {kv : KVCacheManager η} {sched : Dict RequestId Nat}
    (h : kv.coordinator.managers.map (·.blockSize) = [2, 4]) : Divides ⟨kv, 4, invalid, sched⟩ := by
  refine ⟨?_, Nat.zero_lt_succ 3, fun m hm => ?_⟩
  · rintro (hnil : kv.coordinator.managers = [])
    rw [hnil] at h
    cases h
  · have : m.blockSize ∈ [2, 4] := h ▸ mem_map_of_mem hm
    simp only [mem_cons, not_mem_nil, or_false] at this
    show m.blockSize ∣ 4
    rcases this with h2 | h4
    · rw [h2]; exact ⟨2, rfl⟩
    · rw [h4]

theorem updateRequests_recovered_iff_twoSizes : ∃ kv, twoSizesRun = .ok kv ∧ Divides ⟨kv, 4, [1], Dict.empty⟩ ∧
      ∃ requests' st, updateRequestsWithInvalidBlocks 4 [1] true Dict.empty kv
          [{ requestId := 7, numComputedTokens := 4 }] {} = .ok (requests', st) ∧ requests'.length = 1 ∧
        ∀ j r r', [({ requestId := 7, numComputedTokens := 4 } : Request Nat)][j]? = some r → requests'[j]? = some r' →
          (Recovered ⟨kv, 4, [1], Dict.empty⟩ ([{ requestId := 7, numComputedTokens := 4 }].take j) r r'
              st.affectedReqIds ↔
            Locates ⟨kv, 4, [1], Dict.empty⟩ ([{ requestId := 7, numComputedTokens := 4 }].take j) r) := by
  have hrun : ∃ kv, twoSizesRun = .ok kv ∧ kv.coordinator.managers.map (·.blockSize) = [2, 4] := ⟨_, rfl, rfl⟩
  obtain ⟨kv, hkv, hsizes⟩ := hrun
  have hf : Divides ⟨kv, 4, [1], Dict.empty⟩ := divides_of_blockSizes hsizes
  exact ⟨kv, hkv, hf, updateRequests_recovered_iff _ hf true [{ requestId := 7, numComputedTokens := 4 }] (by simp)⟩

/-- The second block of the first group failed; it begins at token 2 of the four computed ones. The scan
looks at one block of each group and leaves the request as it is. -/
theorem invalid_block_not_detected : ∃ kv m, twoSizesRun = .ok kv ∧ Divides ⟨kv, 4, [2], Dict.empty⟩ ∧ m.blockSize = 2 ∧
      InvalidBelow ⟨kv, 4, [2], Dict.empty⟩ { requestId := 7, numComputedTokens := 4 } m 1 2 ∧
      updateRequestsWithInvalidBlocks 4 [2] true Dict.empty kv [{ requestId := 7, numComputedTokens := 4 }] {} =
        .ok ([{ requestId := 7, numComputedTokens := 4 }], {}) := by
  refine ⟨_, _, rfl, divides_of_blockSizes rfl, rfl, ⟨.head _, rfl, mem_singleton.2 rfl, ?_⟩, rfl⟩
  show 1 * 2 < 4 - 0
  decide

end LoadFailure

end InvalidBlocks

end VllmCore
