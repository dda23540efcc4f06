import VllmCore.Sched.Moves

/-! # A scheduling pass keeps requests in their places

During a pass a request may also be in the pass's own queue of skipped requests. Preemption moves a
running request back to `waiting`; a round of the waiting loop takes the head of a queue and puts it
aside, or lets it run. -/

namespace VllmCore
open Except List
variable {η : Type} {Q : RequestQueue} {found : Lookup}

namespace Pass
open Scheduler
variable {p p' : Pass η} {r v : RequestId} {X l : List RequestId} {k : Nat}

def Adrift (p : Pass η) (X : List RequestId) (k : Nat) : Prop := p.scheduler.Adrift (p.stepSkippedWaiting.items ++ X) k

theorem Adrift.same (h : p.Adrift X k) (hs : Same p p') : p'.Adrift X k := by
  unfold Adrift
  rw [hs.skipped]
  exact Scheduler.Adrift.same h hs.queues

/-- What the running phase keeps. Nothing is put aside in it. -/
structure Keeps (p p' : Pass η) : Prop where
  adrift : ∀ {X k}, p.Adrift X k → p'.Adrift X k
  skipped : p'.stepSkippedWaiting = p.stepSkippedWaiting

theorem Keeps.refl (p : Pass η) : Keeps p p := ⟨id, rfl⟩

theorem Keeps.trans {p'' : Pass η} (h : Keeps p p') (h' : Keeps p' p'') : Keeps p p'' :=
  ⟨h'.adrift ∘ h.adrift, h'.skipped.trans h.skipped⟩

theorem Same.keeps (h : Same p p') : Keeps p p' := ⟨fun hp => hp.same h, h.skipped⟩

/-! ### Preemption -/

theorem lowestPriority_mem {s : Scheduler η} (h : lowestPriority s l = some v) : v ∈ l := by
  cases l with
  | nil => cases h
  | cons r l =>
    cases h
    have hfold : ∀ (l : List RequestId) (b : RequestId), l.foldl (fun best q =>
        let a := victimKey s best
        let b := victimKey s q
        if a.1 < b.1 ∨ (a.1 = b.1 ∧ a.2 < b.2) then q else best) b ∈ b :: l := by
      intro l
      induction l with
      | nil => intro b; exact mem_singleton_self b
      | cons q l ih =>
        intro b
        rw [foldl_cons]
        dsimp only
        split
        · exact mem_cons_of_mem _ (ih q)
        · rcases mem_cons.1 (ih b) with he | hmem
          · rw [he]; exact mem_cons_self ..
          · exact mem_cons_of_mem _ (mem_cons_of_mem _ hmem)
    exact hfold l r

theorem takeVictim_eq {i j : Nat} (h : p.takeVictim i = .ok (v, p', j)) :
    p'.scheduler = { p.scheduler with running := p'.scheduler.running } ∧
      p.scheduler.running.Perm (v :: p'.scheduler.running) ∧ p'.stepSkippedWaiting = p.stepSkippedWaiting := by
  unfold takeVictim at h
  dsimp only at h
  split at h
  · split at h
    · cases h
    · next victim hv =>
      simp only [do_eq_ok] at h
      obtain ⟨p1, h1, he⟩ := h
      cases he
      obtain ⟨hs, hskip⟩ := withdraw_scheduler h1
      rw [hs]
      refine ⟨rfl, ?_, hskip⟩
      rw [← erase_eq_eraseIdx_of_idxOf rfl]
      exact perm_cons_erase (lowestPriority_mem hv)
  · split at h
    · cases h
    · next victim hv =>
      have hlast := dropLast_append_getLast? victim hv
      cases h
      refine ⟨rfl, ?_, rfl⟩
      show p.scheduler.running.Perm (_ :: p.scheduler.running.dropLast)
      nth_rewrite 1 [← hlast]
      exact perm_append_singleton ..

theorem preemptOne_keeps {i j : Nat} (h : p.preemptOne i = .ok (v, p', j)) : Keeps p p' := by
  simp only [preemptOne, do_eq_ok] at h
  obtain ⟨⟨v1, p1, j1⟩, h1, s1, h2, he⟩ := h
  cases he
  obtain ⟨hs, hperm, hskip⟩ := takeVictim_eq h1
  refine ⟨fun hp => ?_, hskip⟩
  unfold Adrift at hp ⊢
  rw [← hskip] at hp
  refine preemptRequest_adrift ?_ hperm h2
  rw [hs]
  exact hp

end Pass

/-! ### Heads of the waiting queues -/

namespace Scheduler
variable {s s' : Scheduler η} {r : RequestId} {q q' : Request η} {X : List RequestId} {k : Nat} {side : WaitingQueue}

theorem setQueue_perm (h : (s.queue side).items.Perm (r :: Q.items)) :
    s.allWaiting.Perm (r :: (s.setQueue side Q).allWaiting) := by
  cases side with
  | waiting => exact h.append_right _
  | skipped => exact (h.append_left _).trans perm_middle

theorem setQueue_fields (s : Scheduler η) (side : WaitingQueue) (Q : RequestQueue) :
    (s.setQueue side Q).requests = s.requests ∧ (s.setQueue side Q).running = s.running ∧
      (s.setQueue side Q).numWaitingForStreamingInput = s.numWaitingForStreamingInput := by
  cases side <;> exact ⟨rfl, rfl, rfl⟩

theorem queue_subset (h : r ∈ (s.queue side).items) : r ∈ s.allWaiting := by
  cases side with
  | waiting => exact mem_append_left _ h
  | skipped => exact mem_append_right _ h

theorem SameQueues.queue (h : SameQueues s s') : s'.queue side = s.queue side := by
  cases side with
  | waiting => exact h.waiting
  | skipped => exact h.skipped

def HasInput (s : Scheduler η) (r : RequestId) : Prop :=
  ∀ q, s.requests.get? r = some q → q.status ≠ .waitingForStreamingReq

theorem HasInput.same (h : s.HasInput r) (hs : SameQueues s s') : s'.HasInput r := by
  intro q hq
  have htag := hs.tags r
  rw [hq, Option.map_some, eq_comm, Option.map_eq_some_iff] at htag
  obtain ⟨q0, hq0, ht⟩ := htag
  rw [← Request.status_eq ht]
  exact h q0 hq0

/-- What `promote` does to a waiting request: it still waits, and if it was promoted, then not for input. -/
structure Promoted (s : Scheduler η) (r : RequestId) (promoted : Bool) (s' : Scheduler η) (X : List RequestId)
    (k : Nat) : Prop where
  adrift : Adrift s' X k
  queue : ∀ side, s'.queue side = s.queue side
  running : s'.running = s.running
  ready : promoted = true → s'.HasInput r

theorem promoted_setRequest {b : Bool} (h : Adrift s X k) (hr : r ∈ s.allWaiting) (hq : s.requests.get? r = some q)
    (hns : q.status ≠ .waitingForStreamingReq) (hw : q'.Waits) (hns' : q'.status ≠ .waitingForStreamingReq)
    (hid : q'.requestId = q.requestId) : Promoted s r b (s.setRequest r q') X k := by
  obtain ⟨q1, hq1, hw1⟩ := h.waits_of_mem (mem_append_left _ hr)
  cases hq.symm.trans hq1
  refine ⟨Placed.wait h hq hw1 hw ?_ (fun he => absurd he hns') (hid.trans (h.ids r q hq)), fun side => ?_, rfl, ?_⟩
  · rw [Request.streamingWeight_of_ne hns, Request.streamingWeight_of_ne hns']
    rfl
  · cases side <;> rfl
  · intro _ x hx
    rw [show (s.setRequest r q').requests = s.requests.set r q' from rfl, Dict.get?_set, if_pos rfl] at hx
    cases hx
    exact hns'

theorem promote_promoted [DecidableEq η] {env : ScheduleEnv} {b : Bool} (h : Adrift s X k) (hr : r ∈ s.allWaiting)
    (hstep : s.promote env r = .ok (b, s')) : Promoted s r b s' X k := by
  simp only [promote, bind_eq_ok, getRequest_eq_ok] at hstep
  obtain ⟨q, hq, hstep⟩ := hstep
  split at hstep
  · unfold tryPromoteBlockedWaitingRequest at hstep
    split at hstep
    · -- a finished load
      next hst =>
      split at hstep
      · cases hstep; exact ⟨h, fun _ => rfl, rfl, nofun⟩
      · simp only [do_eq_ok] at hstep
        obtain ⟨⟨q1, s1⟩, h1, he⟩ := hstep
        cases he
        obtain ⟨hsame, htag⟩ := updateWaitingForRemoteKv_same h1
        have hq1 : s1.requests.get? r = some q := by rw [hsame.requests]; exact hq
        have hr1 : r ∈ s1.allWaiting := by
          unfold allWaiting
          rw [hsame.same.waiting, hsame.same.skipped]
          exact hr
        have hid := Request.requestId_eq htag
        have hprom : Promoted s1 r true (s1.setRequest r
            { q1 with status := if q1.numPreemptions ≠ 0 then .preempted else .waiting }) X k := by
          refine promoted_setRequest (h.same hsame.same) hr1 hq1 (hst ▸ nofun) ⟨?_, ?_⟩ ?_ hid
          · unfold Request.isFinished; dsimp only; split <;> rfl
          · dsimp only; split <;> nofun
          · dsimp only; split <;> nofun
        exact ⟨hprom.adrift, fun side => (hprom.queue side).trans hsame.same.queue, hprom.running.trans hsame.running,
          hprom.ready⟩
    · next hst =>
      split at hstep
      · cases hstep; exact ⟨h, fun _ => rfl, rfl, nofun⟩
      · cases hstep; exact ⟨h, fun side => by cases side <;> rfl, rfl, nofun⟩
      · cases hstep
        exact promoted_setRequest h hr hq (hst ▸ nofun) (Request.waits_of_status (t := .waiting) rfl rfl nofun)
          nofun rfl
    · simp only [do_eq_ok] at hstep
      obtain ⟨-, -, he⟩ := hstep
      cases he
      exact ⟨h, fun _ => rfl, rfl, nofun⟩
    · cases hstep
  · next hblocked =>
    cases hstep
    refine ⟨h, fun _ => rfl, rfl, fun _ x hx he => hblocked ?_⟩
    cases hq.symm.trans hx
    rw [he]
    rfl

end Scheduler

namespace Pass
open Scheduler
variable {p p' : Pass η} {r : RequestId} {X : List RequestId} {k : Nat} {side : WaitingQueue}

theorem skipWaiting_adrift (h : p.Adrift X k) (hstep : p.skipWaiting side = .ok p') : p'.Adrift X k := by
  simp only [skipWaiting, do_eq_ok] at hstep
  obtain ⟨⟨r, Q⟩, hpop, rfl⟩ := hstep
  obtain ⟨hreq, hrun, hnum⟩ := setQueue_fields p.scheduler side Q
  unfold Adrift Scheduler.Adrift at h ⊢
  dsimp only
  rw [hreq, hrun, hnum]
  refine Placed.perm h (.refl _) ?_
  have hqueue := setQueue_perm (RequestQueue.popRequest_perm hpop)
  refine (((RequestQueue.prependRequest_perm r).append_right X).append_left _).trans (perm_middle.trans ?_)
  exact (hqueue.append_right (p.stepSkippedWaiting.items ++ X)).symm

def Popped (p : Pass η) (r : RequestId) (X : List RequestId) (k : Nat) : Prop :=
  Placed p.scheduler.requests (p.scheduler.numWaitingForStreamingInput - k) p.scheduler.running
    (r :: (p.scheduler.allWaiting ++ (p.stepSkippedWaiting.items ++ X)))

theorem popped_of_pop (h : p.Adrift X k) (hpop : (p.scheduler.queue side).popRequest p.scheduler.before = .ok (r, Q)) :
    Popped { p with scheduler := p.scheduler.setQueue side Q } r X k := by
  obtain ⟨hreq, hrun, hnum⟩ := setQueue_fields p.scheduler side Q
  unfold Popped
  dsimp only
  rw [hreq, hrun, hnum]
  exact Placed.perm h (.refl _) ((setQueue_perm (RequestQueue.popRequest_perm hpop)).append_right _).symm

theorem startLoad_adrift (h : p.Popped r X k) (hns : p.scheduler.HasInput r) (hstep : p.startLoad r found = .ok p') :
    p'.Adrift X k := by
  simp only [startLoad, do_eq_ok, getRequest_eq_ok] at hstep
  obtain ⟨q, hq, rfl⟩ := hstep
  obtain ⟨q1, hq1, hw⟩ := h.waits_of_mem (mem_cons_self ..)
  cases hq.symm.trans hq1
  have hload : Placed (p.scheduler.requests.set r
      { q with status := .waitingForRemoteKvs, numComputedTokens := found.numComputedTokens })
      (p.scheduler.numWaitingForStreamingInput - k) p.scheduler.running
      (r :: (p.scheduler.allWaiting ++ (p.stepSkippedWaiting.items ++ X))) := by
    refine Placed.wait h hq hw (Request.waits_of_status (t := .waitingForRemoteKvs) rfl rfl (by decide)) ?_
      (fun he => by cases he) (h.ids r q hq)
    rw [Request.streamingWeight_of_ne (hns q hq)]
    rfl
  refine hload.perm (.refl _) ?_
  exact (((RequestQueue.prependRequest_perm r).append_right X).append_left _).trans perm_middle

theorem recordAdmitted_eq {st : RequestStatus} (h : p.recordAdmitted r st = .ok p') :
    p'.scheduler = p.scheduler ∧ p'.stepSkippedWaiting = p.stepSkippedWaiting ∧ st ≠ .waitingForStreamingReq := by
  unfold recordAdmitted at h
  split at h
  · cases h; exact ⟨rfl, rfl, nofun⟩
  · cases h; exact ⟨rfl, rfl, nofun⟩
  · cases h

theorem startRunning_adrift {share : Share} (h : p.Popped r X k) (hstep : p.startRunning r found share = .ok p') :
    p'.Adrift X k := by
  simp only [startRunning, bind_eq_ok, getRequest_eq_ok, ensure_eq_ok] at hstep
  obtain ⟨q, hq, p1, h1, -, -, hstep⟩ := hstep
  obtain ⟨hs, hskip, hns⟩ := recordAdmitted_eq h1
  refine Adrift.same ?_ (recordEncoder_idle hstep).same
  unfold Adrift Scheduler.Adrift
  dsimp only
  rw [hs, hskip]
  have hrun : Placed (p.scheduler.requests.set r
      { q with status := .running, numComputedTokens := found.numComputedTokens })
      (p.scheduler.numWaitingForStreamingInput - k) (p.scheduler.running ++ [r])
      (p.scheduler.allWaiting ++ (p.stepSkippedWaiting.items ++ X)) :=
    Placed.start h hq (Request.streamingWeight_of_ne hns) rfl (h.ids r q hq) (perm_append_singleton ..) (.refl _)
  exact hrun

end Pass

end VllmCore
