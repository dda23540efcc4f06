import VllmCore.Sched.WindowRuns

/-! # The common prefix of the running requests

`get_num_common_prefix_blocks` counts the leading blocks of a table whose reference count is the number of
tables. That a block is in every table at the same index follows only while each of its references is such an
entry: a popped table that waits to be freed, an endpoint of a copy, an entry of another group or at another
index can stand in for a running request that does not have the block. -/

namespace VllmCore
open List Option Dict
variable {η : Type} {r : RequestId}

namespace Manager

/-- `get_num_common_prefix_blocks`; only `FullAttentionManager` counts. Its read opens the table. -/
def getNumCommonPrefixBlocks (m : Manager η) (p : BlockPool η) (runningRequestId : RequestId) : Nat × Manager η :=
  match m.spec.kind with
  | .fullAttention | .rswa _ =>
    let m := m.openTable runningRequestId
    (((m.blocksOf runningRequestId).takeWhile fun b =>
      decide ((p.blocks b).refCnt = m.reqToBlocks.entries.length)).length, m)
  | .slidingWindow .. | .circularBuffer _ | .chunkedLocal _ | .mamba _ | .crossAttention => (0, m)

def sharers (m : Manager η) (i : Nat) (b : BlockId) : Nat :=
  m.reqToBlocks.entries.countP fun e => decide (e.2[i]? = some b)

def bystanders (m : Manager η) (running : List RequestId) (i : Nat) (b : BlockId) : Nat :=
  m.reqToBlocks.entries.countP fun e => decide (e.1 ∉ running ∧ e.2[i]? ≠ some b)

end Manager

namespace Coordinator

/-- Without prefix caching no block is shared. -/
def getNumCommonPrefixBlocks (c : Coordinator η) (runningRequestId : RequestId) : List Nat × Coordinator η :=
  match c.kind with
  | .noPrefixCache => (c.managers.map fun _ => 0, c)
  | .unitary | .hybrid =>
    let answers := c.managers.map fun m => m.getNumCommonPrefixBlocks c.pool runningRequestId
    (answers.map Prod.fst, { c with managers := answers.map Prod.snd })

end Coordinator

namespace KVCacheManager

def getNumCommonPrefixBlocks (k : KVCacheManager η) (runningRequestId : RequestId) : List Nat × KVCacheManager η :=
  let (ns, c) := k.coordinator.getNumCommonPrefixBlocks runningRequestId
  (ns, { k with coordinator := c })

end KVCacheManager

/-- The `num_common_prefix_blocks` of a step: the first running request is asked. -/
def Scheduler.numCommonPrefixBlocks (s : Scheduler η) : List Nat :=
  match s.running with
  | [] => s.kvCacheManager.coordinator.managers.map fun _ => 0
  | r :: _ => (s.kvCacheManager.getNumCommonPrefixBlocks r).1

/-! ### Counting tables -/

theorem lt_length_takeWhile {α : Type} (p : α → Bool) (l : List α) (i : Nat) :
    i < (l.takeWhile p).length ↔ (∃ a, l[i]? = some a) ∧ ∀ j ≤ i, ∀ a, l[j]? = some a → p a = true := by
  induction l generalizing i with
  | nil => simp
  | cons x l ih =>
    by_cases hx : p x = true
    · rw [takeWhile_cons_of_pos hx, length_cons]
      cases i with
      | zero => simp [hx]
      | succ i =>
        rw [Nat.add_lt_add_iff_right, ih, getElem?_cons_succ]
        refine and_congr_right fun _ => ⟨fun h j hj a ha => ?_,
          fun h j hj a ha => h (j + 1) (by omega) a (by simpa using ha)⟩
        cases j with
        | zero => simp only [getElem?_cons_zero, some.injEq] at ha; exact ha ▸ hx
        | succ j => exact h j (by omega) a (by simpa using ha)
    · rw [takeWhile_cons_of_neg hx]
      refine iff_of_false (by simp) fun h => hx (h.2 0 (Nat.zero_le _) x rfl)

namespace Manager
variable {m : Manager η} {running : List RequestId} {i : Nat} {b : BlockId}

theorem sharers_le (m : Manager η) (i : Nat) (b : BlockId) :
    m.sharers i b ≤ m.reqToBlocks.total fun _ bs => bs.count b := by
  unfold sharers Dict.total
  induction m.reqToBlocks.entries with
  | nil => exact Nat.le_refl _
  | cons e l ih =>
    rw [countP_cons, map_cons, sum_cons]
    by_cases he : e.2[i]? = some b
    · have := count_pos_iff.2 (mem_of_getElem? he)
      simp only [he, decide_true, if_true] at ih ⊢
      omega
    · simp only [he, decide_false, Bool.false_eq_true, if_false] at ih ⊢
      omega

/-- Every table has the block at the index, or its request is a bystander, or it runs without the block. -/
theorem length_eq_sharers_add (m : Manager η) (running : List RequestId) (i : Nat) (b : BlockId) :
    m.reqToBlocks.entries.length = m.sharers i b + m.bystanders running i b +
      m.reqToBlocks.entries.countP fun e => decide (e.1 ∈ running ∧ e.2[i]? ≠ some b) := by
  unfold sharers bystanders
  induction m.reqToBlocks.entries with
  | nil => rfl
  | cons e l ih =>
    simp only [countP_cons, length_cons, ih]
    by_cases hb : e.2[i]? = some b <;> by_cases hr : e.1 ∈ running <;> simp [hb, hr] <;> omega

theorem countP_lacking_eq_zero (htab : ∀ x ∈ running, m.reqToBlocks.contains x = true) :
    (m.reqToBlocks.entries.countP fun e => decide (e.1 ∈ running ∧ e.2[i]? ≠ some b)) = 0 ↔
      ∀ x ∈ running, (m.blocksOf x)[i]? = some b := by
  rw [countP_eq_zero]
  constructor
  · intro h x hx
    obtain ⟨bs, hbs⟩ := isSome_iff_exists.1 (htab x hx)
    have := h (x, bs) (mem_entries.2 hbs)
    rw [decide_eq_true_eq, not_and, not_not] at this
    rw [blocksOf, Dict.getD, hbs]
    exact this hx
  · rintro h ⟨x, bs⟩ he
    rw [decide_eq_true_eq, not_and, not_not]
    intro hx
    have := h x hx
    rwa [blocksOf, Dict.getD, mem_entries.1 he] at this

theorem length_openTable (h : m.reqToBlocks.contains r = true) :
    (m.openTable r).reqToBlocks.entries.length = m.reqToBlocks.entries.length := by
  have hkeys : ((m.openTable r).reqToBlocks.entries.map Prod.fst).length = (m.reqToBlocks.entries.map
      Prod.fst).length := by
    show ((Dict.setEntry r _ m.reqToBlocks.entries).map Prod.fst).length = _
    obtain ⟨bs, hbs⟩ := isSome_iff_exists.1 h
    rw [keys_setEntry, if_pos (mem_map.2 ⟨_, mem_entries.2 hbs, rfl⟩)]
  rwa [length_map, length_map] at hkeys

theorem lt_numCommonPrefixBlocks {p : BlockPool η} (hfull : m.spec.kind = .fullAttention)
    (h : m.reqToBlocks.contains r = true) :
    i < (m.getNumCommonPrefixBlocks p r).1 ↔ (∃ b, (m.blocksOf r)[i]? = some b) ∧
      ∀ j ≤ i, ∀ b, (m.blocksOf r)[j]? = some b → (p.blocks b).refCnt = m.reqToBlocks.entries.length := by
  simp only [getNumCommonPrefixBlocks, hfull, lt_length_takeWhile, blocksOf_openTable, length_openTable h,
    decide_eq_true_eq]

end Manager

/-! ### Runs -/

theorem Grown.real {bs bs' : List BlockId} {n : Nat} (h : Grown bs bs' n) (hbs : nullBlock ∉ bs) : nullBlock ∉ bs' := by
  obtain ⟨first, rest, rfl, hrest, hfirst⟩ := h.blocks
  rw [mem_append, not_or]
  refine ⟨?_, fun hmem => hrest _ hmem rfl⟩
  rcases hfirst with rfl | ⟨i, source, cow, -, -, hcow, rfl⟩
  · exact hbs
  · intro hmem
    rcases mem_or_eq_of_mem_set hmem with hmem | heq
    · exact hbs hmem
    · exact hcow heq.symm

namespace KVCacheManager
variable [DecidableEq η] {g : Nat} {m m' : Manager η} {s s' : RefState η}

/-- The steps of a run. The hits of a full-attention group are blocks of the hash index, so none is null. -/
inductive FullStep (g : Nat) : RefState η → RefState η → Prop
  | allocateSlots {s : RefState η} {k' : KVCacheManager η} (request : Request η) (a : AllocArgs)
      (res : Option (List (List BlockId)))
      (hreal : ∀ hits ∈ a.newComputedBlocks, ∀ bs, hits[g]? = some bs → nullBlock ∉ bs)
      (h : s.manager.allocateSlots request a = .ok (res, k')) : FullStep g s { s with manager := k' }
  | removeSkippedBlocks {s : RefState η} {k' : KVCacheManager η} (r : RequestId) (n : Nat) (prompt : Option Nat)
      (h : s.manager.removeSkippedBlocks r n prompt = .ok k') : FullStep g s { s with manager := k' }
  | recycleSlidingWindows {s : RefState η} {k' : KVCacheManager η} (request : Request η)
      (h : s.manager.recycleSlidingWindows request = .ok k') : FullStep g s { s with manager := k' }
  | upkeep {s s' : RefState η} (h : UpkeepStep s s') : FullStep g s s'

def FullReachable (g : Nat) (s : RefState η) : Prop :=
  ∃ cfg o w f k m, KVCacheManager.init cfg o w f = .ok k ∧ k.coordinator.managers[g]? = some m ∧
    m.spec.kind = .fullAttention ∧ Relation.ReflTransGen (FullStep g) ⟨k, [], []⟩ s

def RefState.Filled (g : Nat) (s : RefState η) : Prop :=
  s.Accounted ∧ ∃ m, s.manager.coordinator.managers[g]? = some m ∧ m.spec.kind = .fullAttention ∧
    ∀ x, nullBlock ∉ m.blocksOf x

omit [DecidableEq η] in
theorem removeSkippedBlocks_full {p p' : BlockPool η} {n : Nat} {np : Option Nat} (hfull : m.spec.kind = .fullAttention)
    (h : m.removeSkippedBlocks p r n np = .ok (m', p')) : m' = m := by
  simp only [Manager.removeSkippedBlocks, hfull, Manager.baseRemoveSkippedBlocks, Manager.getNumSkippedTokens,
    if_true] at h
  cases h
  rfl

omit [DecidableEq η] in
theorem ComputedTable.real {k : KVCacheManager η} {request : Request η} {a : AllocArgs} {old bs : List BlockId}
    (h : k.ComputedTable request a m g old bs) (hfull : m.spec.kind = .fullAttention) (hold : nullBlock ∉ old)
    (hreal : ∀ hits ∈ a.newComputedBlocks, ∀ bs, hits[g]? = some bs → nullBlock ∉ bs) : nullBlock ∉ bs := by
  cases h with
  | kept => exact hold
  | @added _ hits hhits _ hbs =>
    obtain ⟨ext, hext, rfl, -⟩ := hbs
    have hpad : m.paddedHits hits (numLocalComputedTokens request a + a.numExternalComputedTokens) = hits := by
      simp [Manager.paddedHits, Manager.getNumSkippedTokens, hfull]
    have hnull : nullBlock ∉ hits := by
      cases hc : a.newComputedBlocks with
      | none =>
        rw [hc, getD_none, emptyKvCacheBlocks, getElem?_map, map_eq_some_iff] at hhits
        obtain ⟨_, -, rfl⟩ := hhits
        exact not_mem_nil
      | some all =>
        rw [hc, getD_some] at hhits
        exact hreal all (by simp [hc]) hits hhits
    rw [hpad, mem_append, not_or]
    exact ⟨hnull, fun hmem => hext _ hmem rfl⟩

theorem FullStep.filled (h : FullStep g s s') (hs : s.Filled g) : s'.Filled g := by
  obtain ⟨ha, m, hm, hfull, hnull⟩ := hs
  have hgr : m.spec.growing = true := by simp [KVCacheSpec.growing, hfull]
  cases h with
  | allocateSlots request a res hreal h =>
    obtain ⟨m', hm', hs', hcase⟩ := allocateSlots_table h ha hm hgr
    refine ⟨RefStep.accounted (.allocateSlots request a res h) ha, m', hm', hs' ▸ hfull, fun x => ?_⟩
    rcases hcase with ⟨-, rfl⟩ | ⟨m₁, q, q', hrem, -, hcase⟩
    · exact hnull x
    obtain rfl := removeSkippedBlocks_full hfull hrem
    rcases hcase with ⟨-, rfl⟩ | ⟨-, hx, bs, hbs, hgrown⟩
    · exact hnull x
    by_cases hxr : x = request.requestId
    · rw [hxr]
      exact hgrown.real (hbs.real hfull (hnull _) hreal)
    · rw [hx x hxr]
      exact hnull x
  | removeSkippedBlocks r n prompt h =>
    refine ⟨RefStep.accounted (.removeSkippedBlocks r n prompt h) ha, m, ?_, hfull, hnull⟩
    simp only [KVCacheManager.removeSkippedBlocks, Except.do_eq_ok] at h
    obtain ⟨c, hc, rfl⟩ := h
    obtain ⟨m', q, q', hm', hrem⟩ := Coordinator.removeSkippedBlocks_at hc ha hm
    obtain rfl := removeSkippedBlocks_full hfull hrem
    exact hm'
  | recycleSlidingWindows request h =>
    refine ⟨RefStep.accounted (.recycleSlidingWindows request h) ha, m, ?_, hfull, hnull⟩
    obtain ⟨m', q, q', hm', ⟨-, hrem⟩ | rfl⟩ := recycleSlidingWindows_at h ha hm
    · obtain rfl := removeSkippedBlocks_full hfull hrem
      exact hm'
    · exact hm'
  | upkeep h =>
    obtain ⟨m', hm', hs', hb'⟩ := h.keepsTables hm
    refine ⟨h.accounted ha, m', hm', hs' ▸ hfull, fun x => ?_⟩
    rcases hb' x with hb | hb
    · rw [hb]; exact hnull x
    · rw [hb]; exact not_mem_nil

theorem FullReachable.filled (h : FullReachable g s) : s.Filled g := by
  obtain ⟨cfg, o, w, f, k, m, hk, hm, hfull, hrun⟩ := h
  induction hrun with
  | refl =>
    refine ⟨init_accounted hk, m, hm, hfull, fun x => ?_⟩
    rw [init_table hk (mem_of_getElem? hm)]
    exact not_mem_nil
  | tail _ hstep ih => exact hstep.filled ih

def RefState.strayRefs (s : RefState η) (m : Manager η) (i : Nat) (b : BlockId) : Nat := s.occurrences b - m.sharers i b

/-- Each leading block that is referenced as often as there are tables has no more stray references than there
are tables without it of requests that are not running. -/
def RefState.StraysMatched (s : RefState η) (m : Manager η) (running : List RequestId) (r : RequestId) : Prop :=
  ∀ i b, (m.blocksOf r)[i]? = some b →
    (∀ j ≤ i, ∀ b', (m.blocksOf r)[j]? = some b' → (s.manager.pool.blocks b').refCnt = m.reqToBlocks.entries.length) →
    s.strayRefs m i b ≤ m.bystanders running i b

omit [DecidableEq η] in
theorem sharers_le_occurrences (hm : s.manager.coordinator.managers[g]? = some m) (i : Nat) (b : BlockId) :
    m.sharers i b ≤ s.occurrences b := by
  have hsum := le_sum_of_mem (mem_map_of_mem (f := fun m : Manager η => m.reqToBlocks.total fun _ bs => bs.count b)
    (mem_of_getElem? hm))
  have := m.sharers_le i b
  unfold RefState.occurrences
  omega

omit [DecidableEq η] in
/-- All running requests have the block at the index exactly if its stray references stand for bystanders. -/
theorem shared_iff (hs : s.Filled g) (hm : s.manager.coordinator.managers[g]? = some m) {running : List RequestId}
    (htab : ∀ x ∈ running, m.reqToBlocks.contains x = true) {i : Nat} {b : BlockId} (hb : (m.blocksOf r)[i]? = some b)
    (hcnt : (s.manager.pool.blocks b).refCnt = m.reqToBlocks.entries.length) :
    (∀ x ∈ running, (m.blocksOf x)[i]? = some b) ↔ s.strayRefs m i b ≤ m.bystanders running i b := by
  obtain ⟨ha, m₀, hm₀, -, hnull⟩ := hs
  cases hm.symm.trans hm₀
  have hreal : b ≠ nullBlock := fun he => hnull r (he ▸ mem_of_getElem? hb)
  rw [← Manager.countP_lacking_eq_zero htab]
  have hlen := m.length_eq_sharers_add running i b
  have hle := sharers_le_occurrences hm i b
  have hocc := ha.refCnt_eq hreal
  unfold RefState.strayRefs
  omega

def fullCache : Coordinator.KVCacheConfig where
  numBlocks := 12
  groups := [⟨⟨2, .fullAttention, Nat.two_pos, 0⟩, false⟩]

def fullOptions : Coordinator.KVCacheOptions where
  maxModelLen := 16
  maxInFlightTokens := 16
  schedulerBlockSize := 2
  hashBlockSize := 2

end KVCacheManager

namespace Engine

def sharingConfig : SchedulerConfig where
  maxNumRunningReqs := 4
  maxNumScheduledTokens := 16
  maxNumBatchedTokens := 16
  maxModelLen := 16
  maxInFlightTokens := 32
  blockSize := 2
  cacheBlockSize := 2
  hashBlockSize := 2
  asyncScheduling := true
  connector := some { deferBlockFree := true }

/-- The hash of a block is the list of tokens up to its end. -/
def tokenHasher : BlockHasher (List TokenId) where
  hashBlockSize := 2
  hashFn
    | .seed => []
    | .block parent tokens _ => parent ++ tokens

def sharingArgs (r : RequestId) (prompt : List TokenId) : Request.Args (List TokenId) where
  requestId := r
  promptTokenIds := some prompt
  samplingParams := some { maxTokens := 4 }
  blockHasher := some tokenHasher

/-- Request 3 shares the first block of request 1 and is aborted while its step is in flight. -/
def abortSharer : List (EngineOp (List TokenId)) :=
  [.addRequest {} (sharingArgs 1 [1, 2, 3, 4]), .addRequest {} (sharingArgs 2 [5, 6, 7, 8]),
    .addRequest {} (sharingArgs 3 [1, 2, 9, 9]), .schedule {}, .finishRequests {} [3] .finishedAborted, .schedule {}]

end Engine

end VllmCore
