import VllmCore.Core.WindowFreeing
import VllmCore.Sched.Engine

/-! # Freeing behind the window, over whole runs

A run of a KV-cache manager with a record of how far each request has been processed. As long as no call counts
fewer processed tokens than an earlier one for the same table, no attended block is ever freed; and the scan of
`remove_skipped_blocks` leaves the whole skipped range null. The scheduler falls behind a table when it computes
the last token of a remotely loaded prompt again. -/

namespace VllmCore
open Except
variable {η : Type}

namespace KVCacheManager
variable [DecidableEq η] {k k' : KVCacheManager η} {m : Manager η} {g : Nat}

/-- Every table is as it was, or gone. -/
def KeepsTables (m m' : Manager η) : Prop :=
  m'.spec = m.spec ∧ ∀ x, m'.blocksOf x = m.blocksOf x ∨ m'.blocksOf x = []

omit [DecidableEq η] in
theorem keepsTables_popBlocksForFree (m : Manager η) (r : RequestId) : KeepsTables m (m.popBlocksForFree r).2 := by
  obtain ⟨hspec, htables⟩ := m.popBlocksForFree_blocksOf r
  refine ⟨hspec, fun x => ?_⟩
  rw [htables]
  split
  · exact .inr rfl
  · exact .inl rfl

theorem UpkeepStep.forall₂ {s s' : RefState η} (h : UpkeepStep s s') :
    List.Forall₂ KeepsTables s.manager.coordinator.managers s'.manager.coordinator.managers := by
  have hsame : ∀ {ms : List (Manager η)}, List.Forall₂ KeepsTables ms ms :=
    List.forall₂_same.2 fun m _ => ⟨rfl, fun _ => .inl rfl⟩
  have hmap : ∀ {ms : List (Manager η)} {f : Manager η → Manager η}, (∀ m, KeepsTables m (f m)) →
      List.Forall₂ KeepsTables ms (ms.map f) := by
    intro ms f hf
    rw [List.forall₂_map_right_iff]
    exact List.forall₂_same.2 fun m _ => hf m
  have hrecords : ∀ {ms : List (Manager η)} {f : Manager η → Manager η}, (∀ m, Manager.SameTables m (f m)) →
      List.Forall₂ KeepsTables ms (ms.map f) :=
    fun hf => hmap fun m => ⟨(hf m).spec, fun x => .inl ((hf m).tables x)⟩
  cases h with
  | free r h =>
    simp only [KVCacheManager.free, do_eq_ok] at h
    obtain ⟨c, hc, rfl⟩ := h
    obtain ⟨us, htr, heach⟩ := Coordinator.forManagers_eq hc
    refine Coordinator.traverse_forall₂ (fun i m p a m' p' h₁ => ?_) htr
    have h₁ := heach i m p a m' p' h₁
    simp only [Manager.free, do_eq_ok] at h₁
    obtain ⟨_, -, he⟩ := h₁
    cases he
    exact keepsTables_popBlocksForFree m r
  | popBlocksForFree r => exact hmap fun m => keepsTables_popBlocksForFree m r
  | freePopped u v bs bs' hs hperm h | freeRetained u v bs bs' hs hperm h =>
    simp only [KVCacheManager.freeBlocks, do_eq_ok] at h
    obtain ⟨_, -, rfl⟩ := h
    exact hsame
  | reserve r nt hits enc tot nl main cap h =>
    obtain ⟨ns, htr⟩ := Coordinator.getNumBlocksToAllocate_eq h
    refine Coordinator.traverse_forall₂ (fun i m p a m' p' h₁ => ?_) htr
    obtain ⟨-, _, _, _, _, _, h₁⟩ := Coordinator.managerNumBlocksToAllocate_eq h₁
    have hm := (Manager.getNumBlocksToAllocate_same h₁).1
    exact ⟨hm.spec, fun x => .inl (hm.tables x)⟩
  | cacheBlocks request n h =>
    unfold KVCacheManager.cacheBlocks at h
    split at h
    · simp only [do_eq_ok] at h
      obtain ⟨c, hc, rfl⟩ := h
      obtain ⟨us, htr, heach⟩ := Coordinator.forManagers_eq hc
      refine Coordinator.traverse_forall₂ (fun i m p a m' p' h₁ => ?_) htr
      have hm := (Manager.cacheBlocks_same (heach i m p a m' p' h₁)).1
      exact ⟨hm.spec, fun x => .inl (hm.tables x)⟩
    · cases h; exact hsame
  | takeCopies => exact hmap fun m => ⟨rfl, fun _ => .inl rfl⟩
  | evictBlocks ids h =>
    simp only [KVCacheManager.evictBlocks, do_eq_ok] at h
    obtain ⟨_, -, rfl⟩ := h
    exact hsame
  | resetPrefixCache => exact hsame
  | newStepStarts => exact hrecords Manager.newStepStarts_same
  | takeNewBlockIds => exact hrecords Manager.takeNewBlockIds_same
  | takeBoundaryStateOffloads => exact hrecords Manager.takePendingBoundaryStateOffloads_same
  | finalizePartialTailOffloads request => exact hrecords fun m => m.finalizePartialTailOffload_same ..
  | recordBlocksForZeroing r n h =>
    obtain ⟨f, hf, rfl⟩ := recordBlocksForZeroing_eq h
    exact hrecords hf

theorem UpkeepStep.keepsTables {s s' : RefState η} (h : UpkeepStep s s')
    (hm : s.manager.coordinator.managers[g]? = some m) :
    ∃ m', s'.manager.coordinator.managers[g]? = some m' ∧ KeepsTables m m' := by
  obtain ⟨hlen, hget⟩ := List.forall₂_iff_get.1 h.forall₂
  obtain ⟨hg, rfl⟩ := List.getElem?_eq_some_iff.1 hm
  exact ⟨_, List.getElem?_eq_getElem (hlen ▸ hg), hget g hg (hlen ▸ hg)⟩

omit [DecidableEq η] in
/-- A group with a window is recycled up to the processed tokens; any other is left alone. -/
theorem recycleSlidingWindows_at {request : Request η} {R : BlockId → Nat}
    (h : k.recycleSlidingWindows request = .ok k')
    (ha : k.pool.Accounts (Coordinator.heldBy k.coordinator.managers + R)) (hm : k.coordinator.managers[g]? = some m) :
    ∃ m' q q', k'.coordinator.managers[g]? = some m' ∧
      ((∀ w, m.spec.kind ≠ .rswa w) ∧ m.removeSkippedBlocks q request.requestId
        ((request.numComputedTokens : Int) - request.numInFlightTokens).toNat none = .ok (m', q') ∨ m' = m) := by
  simp only [KVCacheManager.recycleSlidingWindows, do_eq_ok] at h
  obtain ⟨c, hc, rfl⟩ := h
  obtain ⟨m', q, q', S, hm', -, hrem⟩ := Coordinator.forManagers_at recycled_works hc ha hm
  refine ⟨m', q, q', hm', ?_⟩
  split at hrem
  · next hk => exact .inl ⟨fun w he => (by cases hk.symm.trans he), hrem⟩
  · next hk => exact .inl ⟨fun w he => (by cases hk.symm.trans he), hrem⟩
  · cases hrem; exact .inr rfl

/-- A run, with the processed tokens and the prompt length of the latest call for each table. -/
structure WindowState (η : Type) where
  refs : RefState η
  floor : RequestId → Nat := fun _ => 0
  prompt : RequestId → Nat := fun _ => 0

def WindowState.record (w : WindowState η) (k' : KVCacheManager η) (r : RequestId) (n pr : Nat) : WindowState η where
  refs := { w.refs with manager := k' }
  floor := Function.update w.floor r n
  prompt := Function.update w.prompt r pr

/-- The steps of a run in which no call falls behind a table of group `g`. -/
inductive WindowStep (g : Nat) : WindowState η → WindowState η → Prop
  | allocateSlots {w : WindowState η} {k' : KVCacheManager η} (request : Request η) (a : AllocArgs)
      (res : Option (List (List BlockId)))
      (hkeep : ∀ m, w.refs.manager.coordinator.managers[g]? = some m →
        KeepsWindow m g w.floor w.prompt w.refs.manager request a)
      (h : w.refs.manager.allocateSlots request a = .ok (res, k')) :
      WindowStep g w (w.record k' request.requestId (w.refs.manager.floorAfter request a) request.numPromptTokens)
  | removeSkippedBlocks {w : WindowState η} {k' : KVCacheManager η} (r : RequestId) (n pr : Nat)
      (hkeep : ∀ m, w.refs.manager.coordinator.managers[g]? = some m → m.NotBehind w.floor w.prompt r n pr)
      (h : w.refs.manager.removeSkippedBlocks r n (some pr) = .ok k') : WindowStep g w (w.record k' r n pr)
  | recycleSlidingWindows {w : WindowState η} {k' : KVCacheManager η} {n : Nat} (request : Request η)
      (hn : n = ((request.numComputedTokens : Int) - request.numInFlightTokens).toNat)
      (hkeep : ∀ m, w.refs.manager.coordinator.managers[g]? = some m →
        m.NotBehind w.floor w.prompt request.requestId n request.numPromptTokens)
      (h : w.refs.manager.recycleSlidingWindows request = .ok k') :
      WindowStep g w (w.record k' request.requestId n request.numPromptTokens)
  | upkeep {w : WindowState η} {refs' : RefState η} (h : UpkeepStep w.refs refs') :
      WindowStep g w { w with refs := refs' }

def WindowReachable (g : Nat) (w : WindowState η) : Prop :=
  ∃ cfg o wm f k m, KVCacheManager.init cfg o wm f = .ok k ∧ k.coordinator.managers[g]? = some m ∧
    m.spec.windowed = true ∧ Relation.ReflTransGen (WindowStep g) ⟨⟨k, [], []⟩, fun _ => 0, fun _ => 0⟩ w

def WindowState.Windowed (g : Nat) (w : WindowState η) : Prop :=
  w.refs.Accounted ∧ ∃ m, w.refs.manager.coordinator.managers[g]? = some m ∧ m.spec.windowed = true ∧
    m.Windows w.floor w.prompt

theorem WindowStep.windowed {w w' : WindowState η} (h : WindowStep g w w') (hw : w.Windowed g) : w'.Windowed g := by
  obtain ⟨ha, m, hm, hspec, hwin⟩ := hw
  cases h with
  | allocateSlots request a res hkeep h =>
    obtain ⟨m', hm', hs', hwin'⟩ := allocateSlots_windows h ha hm hspec hwin (hkeep m hm)
    exact ⟨RefStep.accounted (.allocateSlots request a res h) ha, m', hm', hs' ▸ hspec, hwin'⟩
  | removeSkippedBlocks r n pr hkeep h =>
    refine ⟨RefStep.accounted (.removeSkippedBlocks r n (some pr) h) ha, ?_⟩
    simp only [KVCacheManager.removeSkippedBlocks, do_eq_ok] at h
    obtain ⟨c, hc, rfl⟩ := h
    obtain ⟨m', q, q', hm', hrem⟩ := Coordinator.removeSkippedBlocks_at hc ha hm
    obtain ⟨hwin', hs', -⟩ := hwin.removeSkippedBlocks hspec (.inl rfl) (hkeep m hm) hrem
    exact ⟨m', hm', hs' ▸ hspec, hwin'⟩
  | recycleSlidingWindows request hn hkeep h =>
    refine ⟨RefStep.accounted (.recycleSlidingWindows request h) ha, ?_⟩
    obtain ⟨m', q, q', hm', hrem⟩ := recycleSlidingWindows_at h ha hm
    rw [← hn] at hrem
    refine ⟨m', hm', ?_⟩
    rcases hrem with ⟨hk, hrem⟩ | rfl
    · obtain ⟨hwin', hs', -⟩ := hwin.removeSkippedBlocks hspec (.inr hk) (hkeep m hm) hrem
      exact ⟨hs' ▸ hspec, hwin'⟩
    · exact ⟨hspec, hwin.advance (hkeep m' hm) (Nat.le_refl _)⟩
  | upkeep h =>
    obtain ⟨m', hm', hs', hb'⟩ := h.keepsTables hm
    refine ⟨h.accounted ha, m', hm', hs' ▸ hspec, fun x => ?_⟩
    rcases hb' x with hb | hb
    · rw [hs', hb]; exact hwin x
    · rw [hb]; exact ⟨0, .nil ..⟩

omit [DecidableEq η] in
theorem init_table {cfg : Coordinator.KVCacheConfig} {o : Coordinator.KVCacheOptions} {wm : Nat} {f : Bool}
    (h : KVCacheManager.init cfg o wm f = .ok k) (hm : m ∈ k.coordinator.managers) (x : RequestId) :
    m.blocksOf x = [] := by
  simp only [KVCacheManager.init, do_eq_ok] at h
  obtain ⟨c, hc, rfl⟩ := h
  simp only [Coordinator.init, do_eq_ok] at hc
  obtain ⟨-, -, p, hp, -, -, ret, -, -, -, rfl⟩ := hc
  simp only [List.mem_map, Coordinator.initManagers] at hm
  obtain ⟨_, ⟨g, -, rfl⟩, rfl⟩ := hm
  rfl

theorem WindowReachable.windowed {w : WindowState η} (h : WindowReachable g w) : w.Windowed g := by
  obtain ⟨cfg, o, wm, f, k, m, hk, hm, hspec, hrun⟩ := h
  induction hrun with
  | refl =>
    refine ⟨init_accounted hk, m, hm, hspec, fun x => ?_⟩
    rw [init_table hk (List.mem_of_getElem? hm)]
    exact ⟨0, .nil ..⟩
  | tail _ hstep ih => exact hstep.windowed ih

/-- In a run in which no call falls behind a table, each `coordinator.remove_skipped_blocks`, at the start of
`allocate_slots` or on its own, leaves the blocks of every attended token and no block of skipped tokens only. -/
theorem windowFreeing_safe_complete {w : WindowState η} (hrun : WindowReachable g w)
    (hm : w.refs.manager.coordinator.managers[g]? = some m) {c c' : Coordinator η} {r : RequestId} {n pr : Nat}
    (hc : c = w.refs.manager.coordinator ∨
      ∃ request a hits, w.refs.manager.fullSequenceFits request a hits = .ok (true, c))
    (hkeep : m.NotBehind w.floor w.prompt r n pr) (hrem : c.removeSkippedBlocks r n (some pr) = .ok c') :
    ∃ m', c'.managers[g]? = some m' ∧
      (∀ p t, n ≤ p → m.spec.Attends pr p t →
        ∀ b, (m'.blocksOf r)[t / m.spec.blockSize]? = some b → b ≠ nullBlock) ∧
      ∀ (i : Nat) b, (m'.blocksOf r)[i]? = some b → (∀ t, t / m.spec.blockSize = i → m.spec.Skipped pr n t) →
        b = nullBlock := by
  obtain ⟨ha, m₀, hm₀, hspec, hwin⟩ := hrun.windowed
  cases hm.symm.trans hm₀
  -- the gate leaves the group alone
  have hgate : ∃ S, c.pool.Accounts (Coordinator.heldBy c.managers + S) ∧ c.managers[g]? = some m := by
    rcases hc with rfl | ⟨request, a, hits, hfits⟩
    · exact ⟨_, ha, hm⟩
    · exact ⟨_, (fullSequenceFits_conserves hfits _ ha).1,
        fullSequenceFits_at hfits ha hm (KVCacheSpec.growing_of_windowed hspec)⟩
  obtain ⟨S, haS, hmc⟩ := hgate
  obtain ⟨m', q, q', hm', hstep⟩ := Coordinator.removeSkippedBlocks_at hrem haS hmc
  obtain ⟨-, -, z, hz, hzle⟩ := hwin.removeSkippedBlocks hspec (.inl rfl) hkeep hstep
  refine ⟨m', hm', ?_, ?_⟩
  · intro p t hp ht b hb
    exact hz.safe hp ht hb
  · intro i b hb hi
    exact hz.complete hzle hb hi

def windowCache : Coordinator.KVCacheConfig where
  numBlocks := 9
  groups := [⟨⟨2, .slidingWindow 3 0, Nat.two_pos, 0⟩, false⟩]

def windowOptions : Coordinator.KVCacheOptions where
  maxModelLen := 16
  maxInFlightTokens := 16
  enableCaching := false
  schedulerBlockSize := 2
  hashBlockSize := 2

/-- Four tokens are computed, and the block of the first two is freed. -/
theorem windowFreeing_safe_complete_four : ∃ (w : WindowState Nat) (m : Manager Nat) (c' : Coordinator Nat),
    WindowReachable 0 w ∧ w.refs.manager.coordinator.managers[0]? = some m ∧ m.blocksOf 1 = [1, 2] ∧
      m.NotBehind w.floor w.prompt 1 4 4 ∧ w.refs.manager.coordinator.removeSkippedBlocks 1 4 (some 4) = .ok c' ∧
      ∃ m', c'.managers[0]? = some m' ∧
        (∀ p t, 4 ≤ p → m.spec.Attends 4 p t →
          ∀ b, (m'.blocksOf 1)[t / m.spec.blockSize]? = some b → b ≠ nullBlock) ∧
        ∀ (i : Nat) b, (m'.blocksOf 1)[i]? = some b → (∀ t, t / m.spec.blockSize = i → m.spec.Skipped 4 4 t) →
          b = nullBlock := by
  have hrun : ∃ (w : WindowState Nat) (m : Manager Nat) (c' : Coordinator Nat), WindowReachable 0 w ∧
      w.refs.manager.coordinator.managers[0]? = some m ∧ m.blocksOf 1 = [1, 2] ∧ w.floor 1 = 0 ∧ w.prompt 1 = 4 ∧
      w.refs.manager.coordinator.removeSkippedBlocks 1 4 (some 4) = .ok c' := by
    refine ⟨_, _, _, ⟨windowCache, windowOptions, 0, false, _, _, rfl, rfl, rfl, .single (.allocateSlots
      { requestId := 1, allTokenIds := [1, 2, 3, 4], numPromptTokens := 4 } { numNewTokens := 4 } _ ?_ rfl)⟩,
      rfl, rfl, rfl, rfl, rfl⟩
    rintro m ⟨⟩
    exact ⟨.inl rfl, nofun⟩
  obtain ⟨w, m, c', hreach, hm, hblocks, hfloor, hprompt, hrem⟩ := hrun
  have hkeep : m.NotBehind w.floor w.prompt 1 4 4 := .inr ⟨hfloor ▸ Nat.zero_le 4, .inl hprompt⟩
  exact ⟨w, m, c', hreach, hm, hblocks, hkeep, hrem, windowFreeing_safe_complete hreach hm (.inl rfl) hkeep hrem⟩

end KVCacheManager

namespace Engine

def windowConfig : SchedulerConfig where
  maxNumRunningReqs := 4
  maxNumScheduledTokens := 16
  maxNumBatchedTokens := 16
  maxModelLen := 16
  maxInFlightTokens := 16
  blockSize := 2
  cacheBlockSize := 2
  hashBlockSize := 2
  enablePrefixCaching := false
  connector := some {}

/-- The connector loads the whole prompt of four tokens; its last token is then computed again. -/
def loadWholePrompt : List (EngineOp Nat) :=
  [.addRequest {} { requestId := 1, promptTokenIds := some [1, 2, 3, 4], samplingParams := some { maxTokens := 4 } },
    .schedule { getNumNewMatchedTokens := fun _ _ => (some 4, true) },
    .updateFromOutput { kvConnectorOutput := some { finishedRecving := [1] } },
    .schedule {}]

/-- The table was built for four computed tokens, so token 1 has no block; the recomputed position 3 attends
to it. -/
theorem recomputed_token_reads_null : ∃ e₀ e out m, Engine.init windowConfig KVCacheManager.windowCache = .ok e₀ ∧
    e₀.run loadWholePrompt = .ok e ∧ e.inFlight = [out] ∧ out.numScheduledTokens.entries = [(1, 1)] ∧
    (e.scheduler.requests.get? 1).map (fun q => q.numComputedTokens) = some 4 ∧
    e.scheduler.kvCacheManager.coordinator.managers[0]? = some m ∧ m.spec.Attends 4 3 1 ∧
    (m.blocksOf 1)[1 / m.spec.blockSize]? = some nullBlock := by
  refine ⟨_, _, _, _, rfl, rfl, rfl, rfl, rfl, rfl, ?_, rfl⟩
  show KVCacheSpec.Attends ⟨2, .slidingWindow 3 0, by decide, 0⟩ 4 3 1
  exact ⟨by decide, .inl (by decide)⟩

end Engine

end VllmCore
