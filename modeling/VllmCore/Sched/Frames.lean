import VllmCore.Sched.Placement
import VllmCore.Sched.Update

/-! # What the parts of a step leave alone

Most of the scheduler's methods change caches, budgets or progress counters and move no request.
`SameRequests` says that of a method which changes no request at all, `SameQueues` of one which keeps
the tags of the requests. -/

namespace VllmCore
open Except List
variable {η : Type} {plan : EncoderPlan} {env : ScheduleEnv}

namespace Scheduler
variable {s s' s'' : Scheduler η} {r : RequestId} {q q' : Request η} {out : SchedulerOutput}

structure QueueView (η : Type) where
  config : SchedulerConfig
  requests : Dict RequestId (Request η)
  running : List RequestId
  waiting : RequestQueue
  skippedWaiting : RequestQueue
  numWaitingForStreamingInput : Int
  pauseState : PauseState

def view (s : Scheduler η) : QueueView η :=
  ⟨s.config, s.requests, s.running, s.waiting, s.skippedWaiting, s.numWaitingForStreamingInput, s.pauseState⟩

def SameRequests (s s' : Scheduler η) : Prop := s'.view = s.view

def EncoderOnly (s s' : Scheduler η) : Prop :=
  ∃ e x, s' = { s with encoderCacheManager := e, exl3Int8PrefillRequests := x }

structure SameQueues (s s' : Scheduler η) : Prop where
  config : s'.config = s.config
  pause : s'.pauseState = s.pauseState
  running : s'.running = s.running
  waiting : s'.waiting = s.waiting
  skipped : s'.skippedWaiting = s.skippedWaiting
  streaming : s'.numWaitingForStreamingInput = s.numWaitingForStreamingInput
  tags : ∀ r, (s'.requests.get? r).map Request.tag = (s.requests.get? r).map Request.tag

section
variable (h : SameRequests s s')
include h

theorem SameRequests.trans (h' : SameRequests s' s'') : SameRequests s s'' := Eq.trans h' h

theorem SameRequests.requests : s'.requests = s.requests := congrArg QueueView.requests h

theorem SameRequests.config : s'.config = s.config := congrArg QueueView.config h

theorem SameRequests.running : s'.running = s.running := congrArg QueueView.running h

theorem SameRequests.same : SameQueues s s' :=
  ⟨h.config, congrArg QueueView.pauseState h, h.running, congrArg QueueView.waiting h,
    congrArg QueueView.skippedWaiting h,
    congrArg QueueView.numWaitingForStreamingInput h, fun r => by rw [h.requests]⟩

end

theorem EncoderOnly.refl (s : Scheduler η) : EncoderOnly s s := ⟨_, _, rfl⟩

theorem EncoderOnly.trans (h : EncoderOnly s s') (h' : EncoderOnly s' s'') : EncoderOnly s s'' := by
  obtain ⟨e, x, rfl⟩ := h
  obtain ⟨e', x', rfl⟩ := h'
  exact ⟨e', x', rfl⟩

theorem EncoderOnly.same (h : EncoderOnly s s') : SameRequests s s' := by
  obtain ⟨e, x, rfl⟩ := h
  rfl

theorem SameQueues.refl (s : Scheduler η) : SameQueues s s := ⟨rfl, rfl, rfl, rfl, rfl, rfl, fun _ => rfl⟩

theorem SameQueues.trans (h : SameQueues s s') (h' : SameQueues s' s'') : SameQueues s s'' :=
  ⟨h'.config.trans h.config, h'.pause.trans h.pause, h'.running.trans h.running, h'.waiting.trans h.waiting,
    h'.skipped.trans h.skipped,
    h'.streaming.trans h.streaming, fun r => (h'.tags r).trans (h.tags r)⟩

theorem getRequest_eq_ok : s.getRequest r = .ok q ↔ s.requests.get? r = some q := by
  unfold getRequest
  split
  · next h => rw [h]; simp
  · next h => rw [h]; simp

theorem SameQueues.setRequest (hq : s.requests.get? r = some q) (ht : q'.tag = q.tag) :
    SameQueues s (s.setRequest r q') := by
  refine ⟨rfl, rfl, rfl, rfl, rfl, rfl, fun x => ?_⟩
  show ((s.requests.set r q').get? x).map _ = _
  rw [Dict.get?_set]
  split
  · next hx => rw [hx, hq, Option.map_some, Option.map_some, ht]
  · rfl

theorem SameQueues.foldlM {α : Type} {f : Scheduler η → α → Except Err (Scheduler η)} {l : List α}
    (hf : ∀ a ∈ l, ∀ s s', f s a = .ok s' → SameQueues s s') (h : l.foldlM f s = .ok s') : SameQueues s s' :=
  foldlM_inv (P := fun x => SameQueues s x) (fun a ha _ _ hx hstep => hx.trans (hf a ha _ _ hstep)) h (.refl s)

theorem SameRequests.foldlM {α : Type} {f : Scheduler η → α → Except Err (Scheduler η)} {l : List α}
    (hf : ∀ a ∈ l, ∀ s s', f s a = .ok s' → SameRequests s s') (h : l.foldlM f s = .ok s') : SameRequests s s' :=
  foldlM_inv (P := fun x => SameRequests s x) (fun a ha _ _ hx hstep => hx.trans (hf a ha _ _ hstep)) h rfl

/-! ### Blocks -/

theorem freeRequestBlocks_same (h : s.freeRequestBlocks q = .ok s') : SameRequests s s' := by
  unfold freeRequestBlocks at h
  split at h
  · simp only [do_eq_ok] at h
    obtain ⟨kv, -, rfl⟩ := h
    rfl
  · cases h; rfl

theorem freeCowRetainedBlocks_same {blocks : List BlockId} {fence : Nat}
    (h : s.freeCowRetainedBlocks blocks fence = .ok s') : SameRequests s s' := by
  unfold freeCowRetainedBlocks at h
  split at h
  · simp only [do_eq_ok] at h
    obtain ⟨kv, -, rfl⟩ := h
    rfl
  · cases h; rfl

theorem drainDeferredFrees_same {l : List (Nat × List BlockId)} (h : s.drainDeferredFrees l = .ok s') :
    SameRequests s s' := by
  induction l generalizing s with
  | nil => cases h; rfl
  | cons e l ih =>
    unfold drainDeferredFrees at h
    split at h
    · cases h; rfl
    · simp only [bind_eq_ok] at h
      obtain ⟨kv, -, h⟩ := h
      have hrest := ih h
      exact hrest

theorem drainFrees_same (h : s.drainFrees out = .ok s') : SameRequests s s' := by
  unfold drainFrees at h
  split at h
  · have hdrain := drainDeferredFrees_same h
    exact hdrain
  · cases h; rfl

theorem connectorFinished_same {env : FinishEnv} {b : Bool} (h : s.connectorFinished env q = .ok (b, s')) :
    SameRequests s s' := by
  unfold connectorFinished at h
  split at h
  · cases h; rfl
  · simp only [do_eq_ok] at h
    obtain ⟨kv, -, he⟩ := h
    cases he
    rfl

theorem recycleWindows_same (h : s.recycleWindows = .ok s') : SameRequests s s' := by
  unfold recycleWindows at h
  split at h
  · refine SameRequests.foldlM (fun r _ s s' hstep => ?_) h
    simp only [do_eq_ok] at hstep
    obtain ⟨q, -, kv, -, rfl⟩ := hstep
    rfl
  · cases h; rfl

theorem takeCopies_same {copies : List (BlockId × BlockId)} (h : s.takeCopies = .ok (copies, s')) :
    SameRequests s s' := by
  unfold takeCopies at h
  dsimp only at h
  split at h
  · cases h; rfl
  · simp only [do_eq_ok] at h
    obtain ⟨s1, h1, he⟩ := h
    cases he
    have hfree := freeCowRetainedBlocks_same h1
    exact hfree

theorem getNewBlockIdsToZero_same (s : Scheduler η) : SameRequests s s.getNewBlockIdsToZero.2 := by
  unfold getNewBlockIdsToZero
  dsimp only
  split
  · rfl
  · rfl

/-! ### Encoder inputs -/

theorem exl3PrefillBudget_only (s : Scheduler η) (q : Request η) (n m : Int) :
    EncoderOnly s (s.exl3PrefillBudget q n m).2 := by
  unfold exl3PrefillBudget
  dsimp only
  split
  · exact .refl s
  · split
    · exact ⟨_, _, rfl⟩
    · exact .refl s

theorem tryScheduleEncoderInputs_only {has : RequestId → Nat → Bool} {c n b : Int}
    (h : s.tryScheduleEncoderInputs has q c n b = .ok (plan, s')) : EncoderOnly s s' := by
  unfold tryScheduleEncoderInputs at h
  split at h
  · cases h; exact .refl s
  · simp only [do_eq_ok] at h
    obtain ⟨st, -, he⟩ := h
    cases he
    exact ⟨_, _, rfl⟩

theorem untouchEncoder_only (h : s.untouchEncoder r = .ok s') : EncoderOnly s s' := by
  unfold untouchEncoder at h
  rw [bind_eq_ok] at h
  obtain ⟨q, -, h⟩ := h
  split at h
  · simp only [do_eq_ok] at h
    obtain ⟨e, -, rfl⟩ := h
    exact ⟨_, _, rfl⟩
  · cases h; exact .refl s

theorem freeEncoderInputs_only (h : s.freeEncoderInputs q = .ok s') : EncoderOnly s s' := by
  simp only [freeEncoderInputs, do_eq_ok] at h
  obtain ⟨e, -, rfl⟩ := h
  exact ⟨_, _, rfl⟩

theorem updateWaitingForRemoteKv_same [DecidableEq η] (h : s.updateWaitingForRemoteKv r q = .ok (q', s')) :
    SameRequests s s' ∧ q'.tag = q.tag := by
  simp only [updateWaitingForRemoteKv, do_eq_ok] at h
  obtain ⟨-, -, kv, -, he⟩ := h
  cases he
  refine ⟨rfl, ?_⟩
  split <;> rfl

section
variable [DecidableEq η] {env : ScheduleEnv} {found : Option Lookup}

theorem lookupHits_same (hq : s.requests.get? r = some q) (h : s.lookupHits env r q = .ok (found, s')) :
    SameQueues s s' := by
  simp only [lookupHits, bind_eq_ok] at h
  obtain ⟨⟨blocks, numLocal, boundary, diverged⟩, -, h⟩ := h
  have hset : SameQueues s (s.setRequest r { q with sharedPrefixBoundary := boundary }) := .setRequest hq rfl
  dsimp only at h
  split at h
  · cases h; exact hset
  rw [bind_eq_ok] at h
  obtain ⟨found₁, -, h⟩ := h
  split at h
  · cases h; exact hset
  simp only [do_eq_ok] at h
  obtain ⟨⟨found₂, s₂⟩, h₂, he⟩ := h
  cases he
  unfold reconcile at h₂
  split at h₂
  · simp only [do_eq_ok] at h₂
    obtain ⟨⟨blocks', n, boundary'⟩, -, he⟩ := h₂
    cases he
    exact hset.trans (.setRequest ((Dict.get?_set ..).trans (if_pos rfl)) rfl)
  · cases h₂; exact hset

theorem lookupComputed_same (h : s.lookupComputed env r = .ok (found, s')) : SameQueues s s' := by
  simp only [lookupComputed, bind_eq_ok, getRequest_eq_ok] at h
  obtain ⟨q, hq, h⟩ := h
  split at h
  · rw [bind_eq_ok] at h
    obtain ⟨⟨found₁, s₁⟩, h₁, h⟩ := h
    have hsame := lookupHits_same hq h₁
    cases found₁ with
    | none => cases h; exact hsame
    | some f =>
      simp only [do_eq_ok] at h
      obtain ⟨-, -, he⟩ := h
      cases he
      exact hsame
  · cases h; exact .refl s

theorem reservedBlocksFor_eq {b : Bool} {n : Int} (h : s.reservedBlocksFor b = .ok (n, s')) :
    ∃ k, s' = { s with kvCacheManager := k } := by
  unfold reservedBlocksFor at h
  split at h
  · refine foldlM_inv (P := fun x : Int × Scheduler η => ∃ k, x.2 = { s with kvCacheManager := k })
      (fun a _ x y hx hstep => ?_) h ⟨_, rfl⟩
    simp only [do_eq_ok] at hstep
    obtain ⟨q, -, ⟨m, c⟩, -, rfl⟩ := hstep
    obtain ⟨k, hk⟩ := hx
    exact ⟨_, by rw [hk]⟩
  · cases h; exact ⟨_, rfl⟩

end

/-! ### Before and after the loops -/

theorem tag_foldl_set {f : RequestId × Request η → Request η} (hf : ∀ e, (f e).tag = e.2.tag)
    {l : List (RequestId × Request η)} {d : Dict RequestId (Request η)}
    (hl : ∀ e ∈ l, (d.get? e.1).map Request.tag = some e.2.tag) (r : RequestId) :
    ((l.foldl (fun d e => d.set e.1 (f e)) d).get? r).map Request.tag = (d.get? r).map Request.tag := by
  induction l generalizing d with
  | nil => rfl
  | cons e l ih =>
    have hset : ∀ x, ((d.set e.1 (f e)).get? x).map Request.tag = (d.get? x).map Request.tag := by
      intro x
      rw [Dict.get?_set]
      split
      · next hx => rw [hx, hl e (mem_cons_self ..), Option.map_some, hf]
      · rfl
    rw [foldl_cons, ih fun e' he' => (hset e'.1).trans (hl e' (mem_cons_of_mem _ he')), hset]

theorem alignDecodes_same (s : Scheduler η) : SameQueues s s.alignDecodes := by
  unfold alignDecodes
  split
  · dsimp only
    split
    · exact ⟨rfl, rfl, rfl, rfl, rfl, rfl, fun _ => rfl⟩
    · refine ⟨rfl, rfl, rfl, rfl, rfl, rfl, fun r => tag_foldl_set ?_ ?_ r⟩
      · intro e; rfl
      · intro e he
        obtain ⟨x, -, hx⟩ := mem_filterMap.1 he
        obtain ⟨q, hq, hx⟩ := Option.bind_eq_some_iff.1 hx
        split at hx
        · cases hx
        · cases hx
          rw [hq, Option.map_some]
  · exact .refl s

theorem advanceRequest_same {e : RequestId × Nat} (h : s.advanceRequest e = .ok s') : SameQueues s s' := by
  simp only [advanceRequest, do_eq_ok, getRequest_eq_ok] at h
  obtain ⟨q, hq, rfl⟩ := h
  have hset : SameQueues s (s.setRequest e.1 (s.advance q e.2)) := .setRequest hq rfl
  exact ⟨hset.config, hset.pause, hset.running, hset.waiting, hset.skipped, hset.streaming, hset.tags⟩

theorem addPlaceholders_same (h : addPlaceholders out s r = .ok s') : SameQueues s s' := by
  simp only [addPlaceholders, bind_eq_ok, getRequest_eq_ok] at h
  obtain ⟨q, hq, h⟩ := h
  split at h
  · cases h; exact .refl s
  · cases h
    exact .setRequest hq rfl

theorem asyncPlaceholders_same (h : s.asyncPlaceholders out = .ok s') : SameQueues s s' := by
  unfold asyncPlaceholders at h
  split at h
  · exact SameQueues.foldlM (fun _ _ _ _ hstep => addPlaceholders_same hstep) h
  · cases h; exact .refl s

theorem updateAfterSchedule_same (h : s.updateAfterSchedule out = .ok s') : SameQueues s s' := by
  simp only [updateAfterSchedule, bind_eq_ok] at h
  obtain ⟨s1, h1, h2⟩ := h
  have hadvance : SameQueues s s1 := SameQueues.foldlM (fun _ _ _ _ hstep => advanceRequest_same hstep) h1
  have hreset : SameRequests s1 { s1 with finishedReqIds := [], resetPreemptedReqIds := [] } := rfl
  exact hadvance.trans (hreset.same.trans (asyncPlaceholders_same h2))

theorem emit_same {p : Pass η} (h : emit env p = .ok (out, s')) : SameQueues p.scheduler s' := by
  simp only [emit, do_eq_ok] at h
  obtain ⟨-, -, ⟨copies, s1⟩, h1, nSpec, -, s2, h2, he⟩ := h
  cases he
  have hcopies := takeCopies_same h1
  have hzero := getNewBlockIdsToZero_same { s1 with encoderCacheManager := s1.encoderCacheManager.getFreedMmHashes.2 }
  have hpre : SameRequests p.scheduler
      { s1 with encoderCacheManager := s1.encoderCacheManager.getFreedMmHashes.2 } := hcopies
  have hupdate := updateAfterSchedule_same h2
  refine (hpre.trans hzero).same.trans ?_
  exact ⟨hupdate.config, hupdate.pause, hupdate.running, hupdate.waiting, hupdate.skipped, hupdate.streaming,
    hupdate.tags⟩

end Scheduler

namespace Pass
open Scheduler
variable {p p' p'' : Pass η} {r : RequestId} {q : Request η}

/-- A part of a pass that moves no request. -/
structure Same (p p' : Pass η) : Prop where
  queues : SameQueues p.scheduler p'.scheduler
  skipped : p'.stepSkippedWaiting = p.stepSkippedWaiting

theorem Same.refl (p : Pass η) : Same p p := ⟨.refl _, rfl⟩

theorem Same.trans (h : Same p p') (h' : Same p' p'') : Same p p'' :=
  ⟨h.queues.trans h'.queues, h'.skipped.trans h.skipped⟩

structure Books where
  scheduledNewReqs : List RequestId
  scheduledResumedReqs : List RequestId
  scheduledRunningReqs : List RequestId
  preemptedReqs : List RequestId
  numScheduledTokens : Dict RequestId Nat

def books (p : Pass η) : Books :=
  ⟨p.scheduledNewReqs, p.scheduledResumedReqs, p.scheduledRunningReqs, p.preemptedReqs, p.numScheduledTokens⟩

/-- A part of a pass that is about budgets and encoder inputs only. -/
structure Idle (p p' : Pass η) : Prop where
  scheduler : EncoderOnly p.scheduler p'.scheduler
  books : p'.books = p.books
  skipped : p'.stepSkippedWaiting = p.stepSkippedWaiting

theorem Idle.refl (p : Pass η) : Idle p p := ⟨.refl _, rfl, rfl⟩

theorem Idle.trans (h : Idle p p') (h' : Idle p' p'') : Idle p p'' :=
  ⟨h.scheduler.trans h'.scheduler, h'.books.trans h.books, h'.skipped.trans h.skipped⟩

theorem Idle.same (h : Idle p p') : Same p p' := ⟨h.scheduler.same.same, h.skipped⟩

theorem applyExl3_idle (p : Pass η) (q : Request η) (n : Int) : Idle p (p.applyExl3 q n) := by
  unfold applyExl3
  split
  · exact ⟨exl3PrefillBudget_only .., rfl, rfl⟩
  · exact .refl p

theorem planEncoder_idle {c n : Int} (h : p.planEncoder env q c n = .ok (plan, p')) : Idle p p' := by
  unfold planEncoder at h
  split at h
  · simp only [do_eq_ok] at h
    obtain ⟨⟨plan1, s1⟩, h1, he⟩ := h
    cases he
    exact ⟨tryScheduleEncoderInputs_only h1, rfl, rfl⟩
  · cases h; exact .refl p

theorem allocateEncoder_idle {inputs : List Nat} (h : p.allocateEncoder q inputs = .ok p') : Idle p p' := by
  simp only [allocateEncoder, do_eq_ok] at h
  obtain ⟨e, -, rfl⟩ := h
  exact ⟨⟨_, _, rfl⟩, rfl, rfl⟩

theorem recordEncoder_idle (h : p.recordEncoder r q plan = .ok p') : Idle p p' := by
  simp only [recordEncoder, do_eq_ok] at h
  obtain ⟨p1, h1, p2, h2, rfl⟩ := h
  have hinputs : Idle p1 (if plan.encoderInputsToSchedule = [] then p1 else
      { p1 with
        scheduledEncoderInputs := p1.scheduledEncoderInputs.set r plan.encoderInputsToSchedule
        encoderComputeBudget := plan.encoderComputeBudget }) := by
    split
    · exact .refl p1
    · exact ⟨.refl _, rfl, rfl⟩
  have hloads := (allocateEncoder_idle h1).trans (hinputs.trans (allocateEncoder_idle h2))
  exact ⟨hloads.scheduler, hloads.books, hloads.skipped⟩

theorem recordLoras_idle (h : p.recordLoras = .ok p') : Idle p p' := by
  unfold recordLoras at h
  split at h
  · cases h; exact .refl p
  · simp only [do_eq_ok] at h
    obtain ⟨-, -, rfl⟩ := h
    exact ⟨.refl _, rfl, rfl⟩

theorem shareOf_idle {found : Lookup} {share : Option Share} (h : p.shareOf env q found = .ok (share, p')) :
    Idle p p' := by
  unfold shareOf at h
  split at h
  · simp only [do_eq_ok] at h
    obtain ⟨-, -, he⟩ := h
    cases he
    exact .refl p
  split at h
  · cases h; exact .refl p
  simp only [bind_eq_ok] at h
  obtain ⟨asked, -, h⟩ := h
  have hexl3 := applyExl3_idle p q found.numComputedTokens
  cases asked with
  | none => cases h; exact hexl3
  | some a =>
    simp only [bind_eq_ok] at h
    obtain ⟨⟨plan, p1⟩, h1, h⟩ := h
    have hplan := hexl3.trans (planEncoder_idle h1)
    dsimp only at h
    split at h
    · cases h; exact hplan
    · cases h; exact hplan

theorem allocateWaiting_eq [DecidableEq η] {found : Lookup} {share : Share} {blocks : Option (List (List BlockId))}
    (h : p.allocateWaiting r found share = .ok (blocks, p')) :
    ∃ k, p' = { p with scheduler := { p.scheduler with kvCacheManager := k } } := by
  simp only [allocateWaiting, do_eq_ok] at h
  obtain ⟨q, -, n, -, ⟨reserved, s₁⟩, h₁, ⟨blocks₁, k⟩, -, he⟩ := h
  cases he
  obtain ⟨k₁, rfl⟩ := reservedBlocksFor_eq h₁
  exact ⟨k, rfl⟩

/-! ### Running requests -/

theorem runningNumNewTokens_idle (p : Pass η) (q : Request η) : Idle p (p.runningNumNewTokens q).2 :=
  applyExl3_idle p q _

theorem withdraw_scheduler (h : p.withdraw r = .ok p') :
    p'.scheduler = p.scheduler ∧ p'.stepSkippedWaiting = p.stepSkippedWaiting := by
  unfold withdraw at h
  split at h
  · rw [bind_eq_ok] at h
    obtain ⟨q, -, h⟩ := h
    split at h
    · simp only [do_eq_ok] at h
      obtain ⟨embeds, -, rfl⟩ := h
      exact ⟨rfl, rfl⟩
    · cases h
  · cases h; exact ⟨rfl, rfl⟩

theorem recordDrafts_same (hq : p.scheduler.requests.get? r = some q) (n : Nat) : Same p (p.recordDrafts r q n) := by
  unfold recordDrafts
  split
  · exact .refl p
  · dsimp only
    split
    · exact ⟨.setRequest hq rfl, rfl⟩
    · exact ⟨.setRequest hq rfl, rfl⟩

theorem recordRunning_same {blocks : List (List BlockId)} {n : Nat} (h : p.recordRunning r blocks n plan = .ok p') :
    Same p p' := by
  simp only [recordRunning, bind_eq_ok, getRequest_eq_ok] at h
  obtain ⟨q, hq, h⟩ := h
  have hrecord := (recordEncoder_idle h).same
  have hdrafts := (recordDrafts_same (by exact hq) n).trans hrecord
  exact ⟨hdrafts.queues, hdrafts.skipped⟩

end Pass

end VllmCore
