import VllmCore.Sched.CommonPrefix
import VllmCore.Sched.PassMoves
import VllmCore.Sched.UpdateMoves

/-! # Runs of the engine are runs of its KV-cache manager

Reference counts are studied in runs of the manager alone, with lists of blocks that leave it and go back to the
pool later. The scheduler calls the manager from many places and keeps these lists in `deferred_frees`. Each of its
methods continues a run of the manager; so what holds in every run of the manager holds in every state of the
engine. -/

namespace VllmCore
open Except List KVCacheManager
variable {η : Type}

theorem KVCacheManager.freeBlocks_nil (k : KVCacheManager η) : k.freeBlocks [] = .ok k := rfl

namespace Scheduler
variable {s s' s'' : Scheduler η} {t : RefState η} {r : RequestId} {q q' : Request η} {k' : KVCacheManager η}
  {out : SchedulerOutput} {b : Bool}

/-- The state of a run of the manager that stands for the scheduler. Popped tables and endpoints of copies are kept
in one list by the scheduler, and the blocks of each in an order of its own. -/
def Tracks (t : RefState η) (s : Scheduler η) : Prop :=
  t.manager = s.kvCacheManager ∧
    ∃ l, l.Perm (t.popped ++ t.retained) ∧ Forall₂ Perm l (s.deferredFrees.map Prod.snd)

/-- A list that was put aside goes back to the pool. -/
theorem Tracks.freeAside [DecidableEq η] {fence : Nat} {blocks : List BlockId} {rest : List (Nat × List BlockId)}
    (ht : Tracks t { s with deferredFrees := (fence, blocks) :: rest })
    (h : s.kvCacheManager.freeBlocks blocks.reverse = .ok k') :
    ∃ t', RefStep t t' ∧ Tracks t' { s with kvCacheManager := k', deferredFrees := rest } := by
  obtain ⟨hk, l, hl, hall⟩ := ht
  obtain ⟨bs, l', hbs, hall', rfl⟩ := forall₂_cons_right_iff.1 hall
  have hperm : blocks.reverse.Perm bs := (reverse_perm blocks).trans hbs.symm
  have hfree : t.manager.freeBlocks blocks.reverse = .ok k' := hk ▸ h
  -- the run knows whether the list was a table or the endpoints of copies, the scheduler does not
  rcases mem_append.1 (hl.subset (mem_cons_self ..)) with hmem | hmem
  · obtain ⟨u, v, huv⟩ := append_of_mem hmem
    refine ⟨_, .upkeep (.freePopped u v bs _ huv hperm hfree), rfl, l', ?_, hall'⟩
    rw [huv, append_assoc, cons_append] at hl
    have hrest := (hl.trans perm_middle).cons_inv
    rwa [← append_assoc] at hrest
  · obtain ⟨u, v, huv⟩ := append_of_mem hmem
    refine ⟨_, .upkeep (.freeRetained u v bs _ huv hperm hfree), rfl, l', ?_, hall'⟩
    rw [huv, ← append_assoc] at hl
    have hrest := (hl.trans perm_middle).cons_inv
    rwa [append_assoc] at hrest

/-- Every run of the manager that stands for `s` goes on to one that stands for `s'`. -/
def Continues [DecidableEq η] (s s' : Scheduler η) : Prop :=
  ∀ t, Tracks t s → ∃ t', Relation.ReflTransGen RefStep t t' ∧ Tracks t' s'

section
variable [DecidableEq η]

theorem Continues.refl (s : Scheduler η) : Continues s s := fun t ht => ⟨t, .refl, ht⟩

theorem Continues.trans (h : Continues s s') (h' : Continues s' s'') : Continues s s'' := by
  intro t ht
  obtain ⟨t₁, hrun₁, ht₁⟩ := h t ht
  obtain ⟨t₂, hrun₂, ht₂⟩ := h' t₁ ht₁
  exact ⟨t₂, hrun₁.trans hrun₂, ht₂⟩

theorem Continues.same (hk : s'.kvCacheManager = s.kvCacheManager) (hd : s'.deferredFrees = s.deferredFrees) :
    Continues s s' := by
  intro t ht
  refine ⟨t, .refl, ?_⟩
  unfold Tracks
  rw [hk, hd]
  exact ht

theorem Continues.foldlM {α : Type} {f : Scheduler η → α → Except Err (Scheduler η)} {l : List α}
    (hf : ∀ a ∈ l, ∀ s s', f s a = .ok s' → Continues s s') (h : l.foldlM f s = .ok s') : Continues s s' :=
  foldlM_inv (P := fun x => Continues s x) (fun a ha _ _ hx hstep => hx.trans (hf a ha _ _ hstep)) h (.refl s)

/-- One call of the manager. -/
theorem Continues.call (h : ∀ popped retained, RefStep ⟨s.kvCacheManager, popped, retained⟩ ⟨k', popped, retained⟩) :
    Continues s { s with kvCacheManager := k' } := by
  rintro ⟨_, popped, retained⟩ ⟨rfl, haside⟩
  exact ⟨_, .single (h popped retained), rfl, haside⟩

theorem EncoderOnly.continues (h : EncoderOnly s s') : Continues s s' := by
  obtain ⟨e, x, rfl⟩ := h
  exact .same rfl rfl

/-! ### Returning blocks -/

theorem freeRequestBlocks_continues (h : s.freeRequestBlocks q = .ok s') : Continues s s' := by
  unfold freeRequestBlocks at h
  split at h
  · simp only [do_eq_ok] at h
    obtain ⟨k, hk, rfl⟩ := h
    exact .call fun _ _ => .upkeep (.free _ hk)
  cases h
  rintro ⟨_, popped, retained⟩ ⟨rfl, l, hl, hall⟩
  have hpop : RefStep ⟨s.kvCacheManager, popped, retained⟩ ⟨(s.kvCacheManager.popBlocksForFree q.requestId).2,
      (s.kvCacheManager.popBlocksForFree q.requestId).1 :: popped, retained⟩ := .upkeep (.popBlocksForFree q.requestId)
  split
  · next hnil =>
    -- an empty list is not kept
    exact ⟨_, .tail (.single hpop) (.upkeep (.freePopped [] popped [] [] (congrArg (· :: popped) hnil) (.refl _)
      (freeBlocks_nil _))), rfl, l, hl, hall⟩
  · refine ⟨_, .single hpop, rfl, l ++ [(s.kvCacheManager.popBlocksForFree q.requestId).1], ?_, ?_⟩
    · exact (perm_append_singleton ..).trans (hl.cons _)
    · rw [map_append]
      exact rel_append hall (.cons (.refl _) .nil)

/-- The loop works on a list of its own; `deferred_frees` is what is left of it. -/
theorem drainDeferredFrees_continues {l : List (Nat × List BlockId)} (h : s.drainDeferredFrees l = .ok s') :
    Continues { s with deferredFrees := l } s' := by
  induction l generalizing s with
  | nil => cases h; exact .refl _
  | cons e l ih =>
    unfold drainDeferredFrees at h
    split at h
    · cases h; exact .refl _
    · rw [bind_eq_ok] at h
      obtain ⟨k, hk, h⟩ := h
      have hone : Continues { s with deferredFrees := e :: l } { s with kvCacheManager := k, deferredFrees := l } := by
        intro t ht
        obtain ⟨t', hstep, ht'⟩ := ht.freeAside hk
        exact ⟨t', .single hstep, ht'⟩
      exact hone.trans (ih h)

theorem drainFrees_continues (h : s.drainFrees out = .ok s') : Continues s s' := by
  unfold drainFrees at h
  split at h
  · have hdrain := drainDeferredFrees_continues (s := { s with processedStepSeq := s.processedStepSeq + 1 }) h
    exact hdrain
  · cases h; exact .refl s

theorem takeCopies_continues {copies : List (BlockId × BlockId)} (h : s.takeCopies = .ok (copies, s')) :
    Continues s s' := by
  unfold takeCopies at h
  dsimp only at h
  have htake : ∀ popped retained, RefStep ⟨s.kvCacheManager, popped, retained⟩
      ⟨s.kvCacheManager.takeKvCacheBlockCopies.2.2, popped,
        s.kvCacheManager.takeKvCacheBlockCopies.2.1 :: retained⟩ := fun _ _ => .upkeep .takeCopies
  split at h
  · next hnil =>
    cases h
    rintro ⟨_, popped, retained⟩ ⟨rfl, l, hl, hall⟩
    have hnone : s.kvCacheManager.takeKvCacheBlockCopies.2.1 = [] :=
      congrArg (fun copies : List (BlockId × BlockId) => copies.flatMap fun c : BlockId × BlockId => [c.1, c.2]) hnil
    exact ⟨_, .tail (.single (htake popped retained)) (.upkeep (.freeRetained [] retained [] []
      (congrArg (· :: retained) hnone) (.refl _) (freeBlocks_nil _))), rfl, l, hl, hall⟩
  simp only [do_eq_ok] at h
  obtain ⟨s₁, h₁, he⟩ := h
  cases he
  unfold freeCowRetainedBlocks at h₁
  split at h₁
  · simp only [do_eq_ok] at h₁
    obtain ⟨k, hk, rfl⟩ := h₁
    rintro ⟨_, popped, retained⟩ ⟨rfl, l, hl, hall⟩
    exact ⟨_, .tail (.single (htake popped retained)) (.upkeep (.freeRetained [] retained _ _ rfl (.refl _) hk)), rfl,
      l, hl, hall⟩
  · cases h₁
    rintro ⟨_, popped, retained⟩ ⟨rfl, l, hl, hall⟩
    refine ⟨_, .single (htake popped retained), rfl, l ++ [s.kvCacheManager.takeKvCacheBlockCopies.2.1], ?_, ?_⟩
    · exact (perm_append_singleton ..).trans ((hl.cons _).trans perm_middle.symm)
    · rw [map_append]
      exact rel_append hall (.cons (reverse_perm _).symm .nil)

/-! ### Lifecycle -/

theorem preemptRequest_continues {drop : Bool} (h : s.preemptRequest r drop = .ok s') : Continues s s' := by
  simp only [preemptRequest, do_eq_ok] at h
  obtain ⟨q, -, -, -, s₁, h₁, enc, -, rfl⟩ := h
  exact (freeRequestBlocks_continues h₁).trans (.same rfl rfl)

theorem connectorFinished_continues {env : FinishEnv} (h : s.connectorFinished env q = .ok (b, s')) :
    Continues s s' := by
  unfold connectorFinished at h
  split at h
  · cases h; exact .refl s
  · simp only [do_eq_ok] at h
    obtain ⟨k, hk, he⟩ := h
    cases he
    split at hk
    · have htails : Continues s { s with kvCacheManager := (s.kvCacheManager.finalizePartialTailOffloads q).2 } :=
        .call fun _ _ => .upkeep (.finalizePartialTailOffloads q)
      exact htails.trans (.call fun _ _ => .removeSkippedBlocks _ _ _ hk)
    · exact .call fun _ _ => .removeSkippedBlocks _ _ _ hk

theorem freeBlocks_continues (h : s.freeBlocks r = .ok s') : Continues s s' := by
  simp only [freeBlocks, do_eq_ok] at h
  obtain ⟨q, -, -, -, s₁, h₁, rfl⟩ := h
  exact (freeRequestBlocks_continues h₁).trans (.same rfl rfl)

theorem freeRequest_continues {env : FinishEnv} {delay : Bool} (h : s.freeRequest env r delay = .ok s') :
    Continues s s' := by
  simp only [freeRequest, bind_eq_ok] at h
  obtain ⟨q, -, -, -, ⟨d, s₁⟩, h₁, enc, -, h⟩ := h
  have hconn := connectorFinished_continues h₁
  dsimp only at h
  split at h
  · cases h
    exact hconn.trans (.same rfl rfl)
  · have hfree := freeBlocks_continues h
    exact hconn.trans hfree

theorem finishRequests_continues {env : FinishEnv} {ids : List RequestId} {st : RequestStatus}
    (h : s.finishRequests env ids st = .ok s') : Continues s s' := by
  simp only [finishRequests, bind_eq_ok] at h
  obtain ⟨-, -, h⟩ := h
  have hqueues : Continues s (s.dequeueFinished (s.validRequests ids.dedup)) := .same rfl rfl
  refine hqueues.trans (.foldlM (fun r _ x y hstep => ?_) h)
  simp only [finishRequest, bind_eq_ok] at hstep
  obtain ⟨q, -, hstep⟩ := hstep
  have hfree := freeRequest_continues hstep
  exact hfree

theorem enqueueWaitingRequest_continues (s : Scheduler η) (r : RequestId) (st : RequestStatus) :
    Continues s (s.enqueueWaitingRequest r st) := by
  unfold enqueueWaitingRequest
  split
  · exact .same rfl rfl
  · exact .same rfl rfl

theorem updateRequestAsSession_continues {u : StreamingUpdate} (h : s.updateRequestAsSession r u = .ok s') :
    Continues s s' := by
  simp only [updateRequestAsSession, do_eq_ok] at h
  obtain ⟨q, -, q', -, rfl⟩ := h
  exact .same rfl rfl

theorem addRequest_continues {env : FinishEnv} (h : s.addRequest env q = .ok s') : Continues s s' := by
  unfold addRequest at h
  dsimp only at h
  split at h
  · split at h
    · split at h
      · cases h
      · cases h; exact .same rfl rfl
    · split at h
      · exact updateRequestAsSession_continues h
      · exact finishRequests_continues h
  · cases h
    have henqueue := enqueueWaitingRequest_continues (s.setRequest q.requestId
      (if q.resumable then { q with streamingQueue := some [] } else q)) q.requestId
    exact henqueue _

theorem preemptAll_continues {l : List RequestId} (h : preemptAll l s = .ok s') : Continues s s' := by
  induction l generalizing s with
  | nil => cases h; exact .refl _
  | cons r l ih =>
    simp only [preemptAll, bind_eq_ok] at h
    obtain ⟨s₁, h₁, h⟩ := h
    have hone := preemptRequest_continues h₁
    have hboth := hone.trans (ih h)
    exact hboth

theorem resetPrefixCache_continues {a c : Bool} {res : Except Err Bool}
    (h : s.resetPrefixCache a b c = .ok (res, s')) : Continues s s' := by
  simp only [resetPrefixCache, bind_eq_ok] at h
  obtain ⟨s₁, h₁, h⟩ := h
  have hpreempt : Continues s s₁ := by
    unfold preemptForReset at h₁
    split at h₁
    · exact preemptAll_continues h₁
    · cases h₁; exact .refl s
  have hreset : Continues s { s₁ with kvCacheManager := s₁.kvCacheManager.resetPrefixCache.2 } :=
    hpreempt.trans (.call fun _ _ => .upkeep .resetPrefixCache)
  split at h
  · cases h; exact hreset
  split at h
  · cases h; exact hreset
  · cases h; exact hreset

/-! ### Waiting requests -/

theorem cacheLoaded_continues (h : s.cacheLoaded r q = .ok k') : Continues s { s with kvCacheManager := k' } := by
  unfold cacheLoaded at h
  split at h
  · split at h
    · rw [bind_eq_ok] at h
      obtain ⟨k₁, h₁, h⟩ := h
      have hcache : Continues s { s with kvCacheManager := k₁ } := .call fun _ _ => .upkeep (.cacheBlocks q _ h₁)
      split at h
      · exact hcache.trans (.call fun _ _ => .upkeep (.recordBlocksForZeroing r _ h))
      · cases h; exact hcache
    · exact .call fun _ _ => .upkeep (.free r h)
  · exact .call fun _ _ => .upkeep (.cacheBlocks q _ h)

theorem promote_continues {env : ScheduleEnv} (h : s.promote env r = .ok (b, s')) : Continues s s' := by
  simp only [promote, bind_eq_ok] at h
  obtain ⟨q, -, h⟩ := h
  split at h
  · unfold tryPromoteBlockedWaitingRequest at h
    split at h
    · split at h
      · cases h; exact .refl s
      · simp only [updateWaitingForRemoteKv, do_eq_ok] at h
        obtain ⟨⟨q₁, s₁⟩, ⟨-, -, k, hk, he₁⟩, he⟩ := h
        cases he₁
        cases he
        exact (cacheLoaded_continues hk).trans (.same rfl rfl)
    · split at h
      · cases h; exact .refl s
      · cases h; exact .same rfl rfl
      · cases h; exact .same rfl rfl
    · simp only [do_eq_ok] at h
      obtain ⟨-, -, he⟩ := h
      cases he
      exact .refl s
    · cases h
  · cases h; exact .refl s

theorem lookupComputed_continues {env : ScheduleEnv} {found : Option Lookup}
    (h : s.lookupComputed env r = .ok (found, s')) : Continues s s' := by
  have hhits : ∀ {q : Request η} {found : Option Lookup} {s' : Scheduler η}, s.lookupHits env r q = .ok (found, s') →
      Continues s s' := by
    intro q found s' h
    simp only [lookupHits, bind_eq_ok] at h
    obtain ⟨⟨blocks, numLocal, boundary, diverged⟩, -, h⟩ := h
    dsimp only at h
    split at h
    · cases h; exact .same rfl rfl
    rw [bind_eq_ok] at h
    obtain ⟨found₁, -, h⟩ := h
    split at h
    · cases h; exact .same rfl rfl
    simp only [do_eq_ok] at h
    obtain ⟨⟨found₂, s₂⟩, h₂, he⟩ := h
    cases he
    unfold reconcile at h₂
    split at h₂
    · simp only [do_eq_ok] at h₂
      obtain ⟨⟨blocks', n, boundary'⟩, -, he⟩ := h₂
      cases he
      exact .same rfl rfl
    · cases h₂; exact .same rfl rfl
  simp only [lookupComputed, bind_eq_ok] at h
  obtain ⟨q, -, h⟩ := h
  split at h
  · rw [bind_eq_ok] at h
    obtain ⟨⟨found₁, s₁⟩, h₁, h⟩ := h
    cases found₁ with
    | none => cases h; exact hhits h₁
    | some f =>
      simp only [do_eq_ok] at h
      obtain ⟨-, -, he⟩ := h
      cases he
      exact hhits h₁
  · cases h; exact .refl s

theorem reservedBlocksFor_continues {n : Int} (h : s.reservedBlocksFor b = .ok (n, s')) : Continues s s' := by
  unfold reservedBlocksFor at h
  split at h
  · refine foldlM_inv (P := fun x : Int × Scheduler η => Continues s x.2) (fun r _ x y hx hstep => ?_) h (.refl s)
    simp only [do_eq_ok] at hstep
    obtain ⟨q, -, ⟨m, c⟩, hc, rfl⟩ := hstep
    exact hx.trans (.call fun _ _ => .upkeep (.reserve _ _ _ _ _ _ _ _ hc))
  · cases h; exact .refl s

theorem setQueue_continues (s : Scheduler η) (side : WaitingQueue) (Q : RequestQueue) :
    Continues s (s.setQueue side Q) := by
  cases side with
  | waiting => exact .same rfl rfl
  | skipped => exact .same rfl rfl

end

end Scheduler

/-! ### A pass -/

namespace Pass
open Scheduler
variable {p p' : Pass η} {r : RequestId} {found : Lookup} {share : Share} {env : ScheduleEnv} {side : WaitingQueue}
  {b : Bool} {n : Nat}

section
variable [DecidableEq η]

theorem preemptOne_continues {i j : Nat} {v : RequestId} (h : p.preemptOne i = .ok (v, p', j)) :
    Continues p.scheduler p'.scheduler := by
  simp only [preemptOne, do_eq_ok] at h
  obtain ⟨⟨v₁, p₁, j₁⟩, h₁, s₁, h₂, he⟩ := h
  cases he
  obtain ⟨hs, -, -⟩ := takeVictim_eq h₁
  have hpreempt := preemptRequest_continues h₂
  rw [hs] at hpreempt
  exact hpreempt

theorem allocateLoop_continues {fuel i j : Nat} {blocks : Option (List (List BlockId))}
    (h : allocateLoop r n fuel p i = .ok (blocks, p', j)) : Continues p.scheduler p'.scheduler := by
  induction fuel generalizing p i with
  | zero => cases h
  | succ fuel ih =>
    simp only [allocateLoop, bind_eq_ok] at h
    obtain ⟨q, -, ⟨new, k⟩, hk, h⟩ := h
    have hcall : Continues p.scheduler { p.scheduler with kvCacheManager := k } :=
      .call fun _ _ => .allocateSlots q _ _ hk
    cases new with
    | some blocks => cases h; exact hcall
    | none =>
      -- a call without room has released skipped blocks already
      rw [bind_eq_ok] at h
      obtain ⟨⟨v, p₁, i₁⟩, h₁, h⟩ := h
      have hpreempt := hcall.trans (preemptOne_continues h₁)
      dsimp only at h
      split at h
      · cases h; exact hpreempt
      · exact hpreempt.trans (ih h)

theorem recordRunning_continues {blocks : List (List BlockId)} {plan : EncoderPlan}
    (h : p.recordRunning r blocks n plan = .ok p') : Continues p.scheduler p'.scheduler := by
  simp only [recordRunning, bind_eq_ok] at h
  obtain ⟨q, -, h⟩ := h
  refine Continues.trans ?_ (recordEncoder_idle h).scheduler.continues
  unfold recordDrafts
  split
  · exact .refl _
  · dsimp only
    split
    · exact .same rfl rfl
    · exact .same rfl rfl

theorem runningLoop_continues {fuel i : Nat} (h : runningLoop env fuel p i = .ok p') :
    Continues p.scheduler p'.scheduler := by
  induction fuel generalizing p i with
  | zero => cases h; exact .refl _
  | succ fuel ih =>
    unfold runningLoop at h
    split at h
    · cases h; exact .refl _
    split at h
    · cases h; exact .refl _
    rw [bind_eq_ok] at h
    obtain ⟨q, -, h⟩ := h
    split at h
    · exact ih h
    rw [bind_eq_ok] at h
    obtain ⟨⟨plan, p₁⟩, h₁, h⟩ := h
    have hplan : Continues p.scheduler p₁.scheduler :=
      ((runningNumNewTokens_idle p q).trans (planEncoder_idle h₁)).scheduler.continues
    dsimp only at h
    split at h
    · exact hplan.trans (ih h)
    rw [bind_eq_ok] at h
    obtain ⟨⟨blocks, p₂, i₂⟩, h₂, h⟩ := h
    have halloc := hplan.trans (allocateLoop_continues h₂)
    cases blocks with
    | none => cases h; exact halloc
    | some blocks =>
      rw [bind_eq_ok] at h
      obtain ⟨p₃, h₃, h⟩ := h
      exact (halloc.trans (recordRunning_continues h₃)).trans (ih h)

theorem skipWaiting_continues (h : p.skipWaiting side = .ok p') : Continues p.scheduler p'.scheduler := by
  simp only [skipWaiting, do_eq_ok] at h
  obtain ⟨⟨r, Q⟩, -, rfl⟩ := h
  exact setQueue_continues p.scheduler side Q

theorem startRunning_continues (h : p.startRunning r found share = .ok p') : Continues p.scheduler p'.scheduler := by
  simp only [startRunning, bind_eq_ok] at h
  obtain ⟨q, -, p₁, h₁, -, -, h⟩ := h
  obtain ⟨hs, -, -⟩ := recordAdmitted_eq h₁
  have hk : p₁.scheduler.kvCacheManager = p.scheduler.kvCacheManager := by rw [hs]
  have hd : p₁.scheduler.deferredFrees = p.scheduler.deferredFrees := by rw [hs]
  refine Continues.trans ?_ (recordEncoder_idle h).scheduler.continues
  exact .same hk hd

theorem admitWaiting_continues (h : p.admitWaiting side r found share = .ok (b, p')) :
    Continues p.scheduler p'.scheduler := by
  simp only [admitWaiting, bind_eq_ok] at h
  obtain ⟨⟨blocks, p₁⟩, h₁, h⟩ := h
  have halloc : Continues p.scheduler p₁.scheduler := by
    simp only [allocateWaiting, do_eq_ok] at h₁
    obtain ⟨q, -, n, -, ⟨reserved, s₁⟩, hres, ⟨blocks₁, k⟩, hk, he⟩ := h₁
    cases he
    exact (reservedBlocksFor_continues hres).trans (.call fun _ _ => .allocateSlots q _ _ hk)
  refine halloc.trans ?_
  cases blocks with
  | none =>
    simp only [do_eq_ok] at h
    obtain ⟨s₁, hs₁, he⟩ := h
    cases he
    exact (untouchEncoder_only hs₁).continues
  | some blocks =>
    rw [bind_eq_ok] at h
    obtain ⟨⟨r', Q⟩, -, h⟩ := h
    refine (setQueue_continues p₁.scheduler side Q).trans ?_
    dsimp only at h
    split at h
    · simp only [startLoad, do_eq_ok] at h
      obtain ⟨p₂, ⟨q, -, rfl⟩, he⟩ := h
      cases he
      exact .same rfl rfl
    · simp only [do_eq_ok] at h
      obtain ⟨p₂, h₂, he⟩ := h
      cases he
      exact startRunning_continues h₂

theorem waitingRound_continues (h : p.waitingRound env side = .ok (b, p')) : Continues p.scheduler p'.scheduler := by
  have hskip : ∀ {x y : Pass η} {b : Bool},
      (do let y ← x.skipWaiting side; pure (false, y) : Except Err (Bool × Pass η)) = .ok (b, y) →
      Continues x.scheduler y.scheduler := by
    intro x y b hstep
    simp only [do_eq_ok] at hstep
    obtain ⟨y, hy, he⟩ := hstep
    cases he
    exact skipWaiting_continues hy
  simp only [waitingRound, bind_eq_ok] at h
  obtain ⟨r, -, ⟨promoted, s₁⟩, h₁, h⟩ := h
  refine (promote_continues h₁).trans ?_
  cases promoted with
  | false => exact hskip h
  | true =>
    simp only [considerWaiting, bind_eq_ok] at h
    obtain ⟨q, -, h⟩ := h
    split at h
    · exact hskip h
    rw [bind_eq_ok] at h
    obtain ⟨⟨found, s₂⟩, h₂, h⟩ := h
    refine (lookupComputed_continues h₂).trans ?_
    cases found with
    | none => exact hskip h
    | some found =>
      simp only [bind_eq_ok] at h
      obtain ⟨q₂, -, h⟩ := h
      split at h
      · exact hskip h
      rw [bind_eq_ok] at h
      obtain ⟨⟨share, p₃⟩, h₃, h⟩ := h
      refine (shareOf_idle h₃).scheduler.continues.trans ?_
      cases share with
      | none => cases h; exact .refl _
      | some share => exact admitWaiting_continues h

theorem scheduleWaiting_continues (h : p.scheduleWaiting env = .ok p') : Continues p.scheduler p'.scheduler := by
  have hloop : ∀ {fuel : Nat} {x y : Pass η}, waitingLoop env fuel x = .ok y → Continues x.scheduler y.scheduler := by
    intro fuel
    induction fuel with
    | zero => intro x y h; cases h; exact .refl _
    | succ fuel ih =>
      intro x y h
      unfold waitingLoop at h
      split at h
      · cases h; exact .refl _
      split at h
      · cases h; exact .refl _
      split at h
      · cases h; exact .refl _
      rw [bind_eq_ok] at h
      obtain ⟨⟨stop, z⟩, hz, h⟩ := h
      have hround := waitingRound_continues hz
      dsimp only at h
      split at h
      · cases h; exact hround
      · exact hround.trans (ih h)
  unfold scheduleWaiting at h
  split at h
  · simp only [do_eq_ok] at h
    obtain ⟨p₁, h₁, rfl⟩ := h
    exact (hloop h₁).trans (.same rfl rfl)
  · cases h; exact .refl _

end

end Pass

namespace Scheduler
variable {s s' : Scheduler η} {r : RequestId} {q q' : Request η} {out : SchedulerOutput} {mro : ModelRunnerOutput}
  {env : ScheduleEnv}

section
variable [DecidableEq η]

/-! ### A step -/

theorem alignDecodes_continues (s : Scheduler η) : Continues s s.alignDecodes := by
  unfold alignDecodes
  split
  · dsimp only
    split
    · exact .same rfl rfl
    · exact .same rfl rfl
  · exact .refl s

theorem recycleWindows_continues (h : s.recycleWindows = .ok s') : Continues s s' := by
  unfold recycleWindows at h
  split at h
  · refine .foldlM (fun r _ x y hstep => ?_) h
    simp only [do_eq_ok] at hstep
    obtain ⟨q, -, k, hk, rfl⟩ := hstep
    exact .call fun _ _ => .recycleSlidingWindows q hk
  · cases h; exact .refl s

theorem updateAfterSchedule_continues (h : s.updateAfterSchedule out = .ok s') : Continues s s' := by
  simp only [updateAfterSchedule, bind_eq_ok] at h
  obtain ⟨s₁, h₁, h₂⟩ := h
  have hadvance : Continues s s₁ := .foldlM (fun e _ x y hstep => by
    simp only [advanceRequest, do_eq_ok] at hstep
    obtain ⟨q, -, rfl⟩ := hstep
    exact .same rfl rfl) h₁
  refine hadvance.trans ?_
  unfold asyncPlaceholders at h₂
  split at h₂
  · have hasync := Continues.foldlM (fun r _ x y hstep => by
      simp only [addPlaceholders, bind_eq_ok] at hstep
      obtain ⟨q, -, hstep⟩ := hstep
      split at hstep
      · cases hstep; exact Continues.refl _
      · cases hstep; exact .same rfl rfl) h₂
    exact hasync
  · cases h₂; exact .same rfl rfl

theorem emit_continues {p : Pass η} (h : emit env p = .ok (out, s')) : Continues p.scheduler s' := by
  simp only [emit, do_eq_ok] at h
  obtain ⟨-, -, ⟨copies, s₁⟩, h₁, nSpec, -, s₂, h₂, he⟩ := h
  cases he
  have hbound : Continues p.scheduler
      { p.scheduler with kvCacheManager := p.scheduler.kvCacheManager.takeBoundaryStateOffloads.2 } :=
    .call fun _ _ => .upkeep .takeBoundaryStateOffloads
  have hids : Continues s₁ { s₁ with kvCacheManager := s₁.kvCacheManager.takeNewBlockIds.2 } :=
    .call fun _ _ => .upkeep .takeNewBlockIds
  have hzero : Continues s₁
      { s₁ with encoderCacheManager := s₁.encoderCacheManager.getFreedMmHashes.2 }.getNewBlockIdsToZero.2 := by
    unfold getNewBlockIdsToZero
    dsimp only
    split
    · exact hids
    · exact hids
  have hupdate := updateAfterSchedule_continues h₂
  exact (hbound.trans (takeCopies_continues h₁)).trans (hzero.trans hupdate)

theorem schedule_continues (h : s.schedule env = .ok (out, s')) : Continues s s' := by
  simp only [schedule, bind_eq_ok] at h
  obtain ⟨s₁, h₁, p₁, h₂, p₂, h₃, p₃, h₄, h⟩ := h
  have hstart : Continues s₁ (s₁.startPass env).scheduler := by
    have hnew : Continues s₁ { s₁ with kvCacheManager := s₁.kvCacheManager.newStepStarts } :=
      .call fun _ _ => .upkeep .newStepStarts
    exact hnew
  have hrunning := ((alignDecodes_continues s).trans (recycleWindows_continues h₁)).trans
    (hstart.trans (Pass.runningLoop_continues h₂))
  have hwaiting := (Pass.recordLoras_idle h₃).scheduler.continues.trans (Pass.scheduleWaiting_continues h₄)
  exact (hrunning.trans hwaiting).trans (emit_continues h)

/-! ### An output -/

omit [DecidableEq η] in
theorem setRequests_fields (s : Scheduler η) (rs : List (Request η)) :
    (s.setRequests rs).kvCacheManager = s.kvCacheManager ∧ (s.setRequests rs).deferredFrees = s.deferredFrees := by
  unfold setRequests
  induction rs generalizing s with
  | nil => exact ⟨rfl, rfl⟩
  | cons q rs ih => exact ih (s.setRequest q.requestId q)

theorem updateInvalid_continues {invalid : List BlockId} {sched : Dict RequestId Nat} {ids : List RequestId}
    {evict : Bool} {scan : InvalidBlocks.InvalidScan} (h : s.updateInvalid invalid sched ids evict = .ok (scan, s')) :
    Continues s s' := by
  simp only [updateInvalid, do_eq_ok] at h
  obtain ⟨rs, -, ⟨rs', scan₁⟩, -, he⟩ := h
  cases he
  obtain ⟨hk, hd⟩ := setRequests_fields s rs'
  exact .same hk hd

theorem handleFailures_continues {failed : List RequestId} (h : s.handleFailures out mro = .ok (failed, s')) :
    Continues s s' := by
  unfold handleFailures at h
  split at h
  · split at h
    · cases h; exact .refl s
    simp only [handleInvalidBlocks, bind_eq_ok] at h
    obtain ⟨⟨loads, s₁⟩, h₁, ⟨sync, s₂⟩, h₂, h⟩ := h
    refine ((updateInvalid_continues h₁).trans (updateInvalid_continues h₂)).trans ?_
    dsimp only at h
    split at h
    · cases h; exact .refl _
    split at h
    · cases h; exact .same rfl rfl
    · simp only [do_eq_ok] at h
      obtain ⟨k, hk, he⟩ := h
      cases he
      exact .call fun _ _ => .upkeep (.evictBlocks _ hk)
  · cases h; exact .refl s

theorem stopOrAppend_continues {stale stopped : Bool} {new : List TokenId}
    (h : s.stopOrAppend mro q stale = .ok (new, stopped, q', s')) : Continues s s' := by
  unfold stopOrAppend at h
  dsimp only at h
  split at h
  · simp only [updateRequestWithOutput, bind_eq_ok] at h
    obtain ⟨⟨new₁, stopped₁, q₁⟩, -, h⟩ := h
    dsimp only at h
    split at h
    · simp only [do_eq_ok] at h
      obtain ⟨⟨q₂, s₂⟩, h₂, he⟩ := h
      cases he
      simp only [settlePlaceholders, bind_eq_ok] at h₂
      obtain ⟨-, -, h₂⟩ := h₂
      split at h₂
      · simp only [do_eq_ok] at h₂
        obtain ⟨k, hk, he⟩ := h₂
        cases he
        exact .call fun _ _ => .upkeep (.cacheBlocks _ _ hk)
      · cases h₂; exact .refl s
    · cases h; exact .refl s
  split at h
  · cases h; exact .refl s
  split at h
  · cases h; exact .refl s
  · cases h; exact .refl s

theorem handleStoppedRequest_continues {finished : Bool} (h : s.handleStoppedRequest r = .ok (finished, s')) :
    Continues s s' := by
  simp only [handleStoppedRequest, bind_eq_ok] at h
  obtain ⟨q, -, h⟩ := h
  split at h
  · cases h; exact .refl s
  split at h
  · cases h; exact .same rfl rfl
  · simp only [do_eq_ok] at h
    obtain ⟨s₁, h₁, he⟩ := h
    cases he
    have hsession := (updateRequestAsSession_continues h₁).trans (enqueueWaitingRequest_continues s₁ r .waiting)
    exact hsession
  · cases h
    have henqueue := enqueueWaitingRequest_continues { s.setRequest r { q with status := .waitingForStreamingReq } with
      numWaitingForStreamingInput := s.numWaitingForStreamingInput + 1 } r .waitingForStreamingReq
    exact henqueue

end

namespace UpdateState
variable [DecidableEq η] {u u' : UpdateState η} {failed : List RequestId}

theorem finishIfStopped_continues {env : FinishEnv} {st : RequestStatus} {b : Bool}
    (h : u.finishIfStopped env r st b = .ok u') : Continues u.scheduler u'.scheduler := by
  unfold finishIfStopped at h
  split at h
  · simp only [finishStopped, do_eq_ok] at h
    obtain ⟨⟨finished, s₁⟩, h₁, s₂, h₂, rfl⟩ := h
    refine (handleStoppedRequest_continues h₁).trans ?_
    unfold freeIfFinished at h₂
    split at h₂
    · exact freeRequest_continues h₂
    · cases h₂; exact .refl _
  · cases h; exact .refl _

theorem processOutput_continues {e : RequestId × Nat} (h : processOutput out mro failed u e = .ok u') :
    Continues u.scheduler u'.scheduler := by
  simp only [processOutput, bind_eq_ok] at h
  obtain ⟨-, -, h⟩ := h
  split at h
  · cases h; exact .refl _
  rw [bind_eq_ok] at h
  obtain ⟨⟨stale, q⟩, -, h⟩ := h
  dsimp only at h
  split at h
  · cases h; exact .same rfl rfl
  split at h
  · cases h; exact .same rfl rfl
  split at h
  · cases h; exact .same rfl rfl
  simp only [deliver, bind_eq_ok] at h
  obtain ⟨s₁, h₁, ⟨new, stopped, q₂, s₂⟩, h₂, u₃, h₃, h⟩ := h
  have hinputs := (freeEncoderInputs_only h₁).continues.trans (stopOrAppend_continues h₂)
  have hstop := finishIfStopped_continues h₃
  have hout : Continues u.scheduler u₃.scheduler := Continues.trans hinputs hstop
  split at h
  · cases h; exact hout
  · cases h; exact hout

end UpdateState

section
variable [DecidableEq η]

theorem updateFromOutput_continues {outputs : List EngineCoreOutput}
    (h : s.updateFromOutput out mro = .ok (outputs, s')) : Continues s s' := by
  simp only [updateFromOutput, do_eq_ok] at h
  obtain ⟨s₁, h₁, ⟨failed, s₂⟩, h₂, u, h₃, s₄, h₄, s₅, h₅, he⟩ := h
  cases he
  have hloop : Continues s₂ u.scheduler := foldlM_inv (P := fun x : UpdateState η => Continues s₂ x.scheduler)
    (fun e _ x y hx hstep => hx.trans (UpdateState.processOutput_continues hstep)) h₃ (.refl s₂)
  have herrors := finishRequests_continues h₄
  have hxfer : Continues s₄ s' := updateFromKvXferFinished_inv (I := fun x => Continues s₄ x)
    (fun _ _ hx => hx) (fun _ _ _ hx hfree => hx.trans (freeBlocks_continues hfree)) (.refl s₄) h₅
  have hmain := (drainFrees_continues h₁).trans ((handleFailures_continues h₂).trans hloop)
  exact hmain.trans (Continues.trans herrors hxfer)

theorem updateDraftTokenIds_continues (s : Scheduler η) (step : Option Nat) (r : RequestId)
    (validated : List TokenId) : Continues s (s.updateDraftTokenIds step r validated) := by
  rcases s.updateDraftTokenIds_eq step r validated with he | ⟨q, drafts, stepId, -, he⟩
  · rw [he]; exact .refl s
  · rw [he]; exact .same rfl rfl

end

/-- Where a block is named: in the tables of all managers, in pending copies and in the lists put aside. -/
def references (s : Scheduler η) (b : BlockId) : Nat :=
  (s.kvCacheManager.coordinator.managers.map fun m => m.reqToBlocks.total fun _ bs => bs.count b).sum +
    (s.kvCacheManager.coordinator.managers.map fun m => (endpoints m.pendingCowCopies).count b).sum +
    (s.deferredFrees.map Prod.snd).flatten.count b

theorem Tracks.occurrences_eq {t : RefState η} (h : Tracks t s) (b : BlockId) : t.occurrences b = s.references b := by
  obtain ⟨hk, l, hl, hall⟩ := h
  have haside : t.popped.flatten.count b + t.retained.flatten.count b =
      (s.deferredFrees.map Prod.snd).flatten.count b := by
    rw [← count_append, ← flatten_append, ← hl.flatten.count_eq, (Perm.flatten_congr hall).count_eq]
  unfold RefState.occurrences references
  rw [← haside, hk]
  omega

end Scheduler

/-! ### Runs -/

namespace Engine
variable [DecidableEq η] {e₀ e e' : Engine η} {config : SchedulerConfig} {kvCacheConfig : Coordinator.KVCacheConfig}
  {ops : List (EngineOp η)}

theorem apply_continues {op : EngineOp η} (h : e.apply op = .ok e') : e.scheduler.Continues e'.scheduler := by
  cases op with
  | addRequest env args =>
    simp only [apply, do_eq_ok] at h
    obtain ⟨q, -, s, hs, rfl⟩ := h
    exact Scheduler.addRequest_continues hs
  | schedule env =>
    simp only [apply, do_eq_ok] at h
    obtain ⟨⟨out, s⟩, hs, rfl⟩ := h
    exact Scheduler.schedule_continues hs
  | updateFromOutput mro =>
    simp only [apply] at h
    split at h
    · cases h
    · simp only [do_eq_ok] at h
      obtain ⟨⟨outputs, s⟩, hs, rfl⟩ := h
      exact Scheduler.updateFromOutput_continues hs
  | updateDraftTokenIds step r validated =>
    cases h
    exact e.scheduler.updateDraftTokenIds_continues step r validated
  | finishRequests env ids status =>
    simp only [apply, do_eq_ok] at h
    obtain ⟨s, hs, rfl⟩ := h
    exact Scheduler.finishRequests_continues hs
  | resetPrefixCache a b c =>
    simp only [apply, do_eq_ok] at h
    obtain ⟨⟨answer, s⟩, hs, rfl⟩ := h
    exact Scheduler.resetPrefixCache_continues hs
  | resetEncoderCache => cases h; exact .same rfl rfl
  | setPauseState state => cases h; exact .same rfl rfl

/-- A run of the engine is a run of its KV-cache manager. -/
theorem run_tracked (hinit : Engine.init config kvCacheConfig = .ok e₀) (h : e₀.run ops = .ok e) :
    ∃ t, RefReachable t ∧ Scheduler.Tracks t e.scheduler := by
  simp only [Engine.init, Scheduler.init, do_eq_ok] at hinit
  obtain ⟨_, ⟨k, hk, rfl⟩, rfl⟩ := hinit
  have hrun : Scheduler.Continues _ e.scheduler :=
    foldlM_inv (P := fun x : Engine η => Scheduler.Continues _ x.scheduler)
      (fun op _ x y hx hstep => hx.trans (apply_continues hstep)) h (.refl _)
  obtain ⟨t, hsteps, ht⟩ := hrun ⟨k, [], []⟩ ⟨rfl, [], .refl _, .nil⟩
  exact ⟨t, ⟨kvCacheConfig, config.kvCacheOptions, _, _, k, hk, hsteps⟩, ht⟩

end Engine

end VllmCore
