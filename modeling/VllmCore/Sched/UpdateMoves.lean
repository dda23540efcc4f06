import VllmCore.Sched.Moves

/-! # Processing outputs keeps requests in their places

Stopped requests leave their queues after the main loop of `update_from_output`, all at once. Between
their rounds and that moment the lists to look at are the queues without the requests that are marked
to leave. A session that survives its stop joins a waiting queue inside the loop, so it must not be
marked to leave the waiting queues: that is what fails for a session that was preempted. -/

namespace VllmCore
open Except List Option Dict Request
variable {η : Type} {new : List TokenId} {failed : List RequestId} {c : SchedulerConfig} {stopped : Bool}
  {rs rs' : List (Request η)}

/-! ### Stopping -/

namespace Request
variable {q q' : Request η} {maxModelLen : Nat} {tokens : List TokenId}

def withOutput (q : Request η) (tokens : List TokenId) : Request η :=
  { q with outputTokenIds := q.outputTokenIds ++ tokens, allTokenIds := q.allTokenIds ++ tokens }

/-- Some of the tokens, one after the other, meet a stop condition. -/
def Stops (maxModelLen : Nat) (tokens : List TokenId) (q : Request η) : Prop :=
  ∃ before status, before ≠ [] ∧ before <+: tokens ∧ checkStop (q.withOutput before) maxModelLen = .ok (some status)

structure StopView where
  poolingParams : Option PoolingParams
  samplingParams : Option SamplingParams
  outputTokenIds : List TokenId
  allTokenIds : List TokenId
  maxTokens : Nat

def stopView (q : Request η) : StopView :=
  ⟨q.poolingParams, q.samplingParams, q.outputTokenIds, q.allTokenIds, q.maxTokens⟩

theorem checkStop_congr (h : q'.stopView = q.stopView) (maxModelLen : Nat) :
    checkStop q' maxModelLen = checkStop q maxModelLen := by
  have hpool : q'.poolingParams = q.poolingParams := congrArg StopView.poolingParams h
  have hsamp : q'.samplingParams = q.samplingParams := congrArg StopView.samplingParams h
  have hout : q'.outputTokenIds = q.outputTokenIds := congrArg StopView.outputTokenIds h
  have hall : q'.allTokenIds = q.allTokenIds := congrArg StopView.allTokenIds h
  have hmax : q'.maxTokens = q.maxTokens := congrArg StopView.maxTokens h
  unfold checkStop numTokens numOutputTokens
  rw [hpool, hsamp, hout, hall, hmax]

theorem stopView_withOutput (h : q'.stopView = q.stopView) (tokens : List TokenId) :
    (q'.withOutput tokens).stopView = (q.withOutput tokens).stopView :=
  congrArg (fun v => { v with outputTokenIds := v.outputTokenIds ++ tokens, allTokenIds := v.allTokenIds ++ tokens }) h

theorem stops_congr (h : q'.stopView = q.stopView) : Stops maxModelLen tokens q' ↔ Stops maxModelLen tokens q := by
  unfold Stops
  simp only [checkStop_congr (stopView_withOutput h _)]

theorem appendOutputTokenIds_withOutput (q : Request η) (tokens : List TokenId) :
    ∃ hashes, q.appendOutputTokenIds tokens = { q.withOutput tokens with blockHashes := hashes } := by
  unfold appendOutputTokenIds updateBlockHashes
  split
  · exact ⟨q.blockHashes, rfl⟩
  · exact ⟨_, rfl⟩

theorem checkStop_finished {st : RequestStatus} (h : checkStop q maxModelLen = .ok (some st)) :
    st.isFinished = true := by
  unfold checkStop at h
  split at h
  · cases h
  · cases h
  · cases h
  · split at h
    · cases h; rfl
    split at h
    · cases h; rfl
    split at h
    · cases h; rfl
    split at h
    · cases h
    split at h
    · cases h; rfl
    · cases h

theorem appendUntilStop_eq (h : appendUntilStop maxModelLen tokens q = .ok (new, stopped, q')) :
    (∃ hashes, q' = { q.withOutput new with blockHashes := hashes, status := q'.status }) ∧
      (stopped = false ∧ new = tokens ∧ q'.status = q.status ∨
        stopped = true ∧ Stops maxModelLen tokens q ∧ q'.isFinished = true) := by
  induction tokens generalizing q new with
  | nil =>
    cases h
    exact ⟨⟨q'.blockHashes, by simp [withOutput]⟩, .inl ⟨rfl, rfl, rfl⟩⟩
  | cons t ts ih =>
    simp only [appendUntilStop, bind_eq_ok] at h
    obtain ⟨res, hres, h⟩ := h
    obtain ⟨hashes, he⟩ := appendOutputTokenIds_withOutput q [t]
    rw [he] at hres h
    cases res with
    | some st =>
      cases h
      exact ⟨⟨hashes, rfl⟩, .inr ⟨rfl, ⟨[t], st, cons_ne_nil _ _, ⟨ts, rfl⟩, hres⟩, checkStop_finished hres⟩⟩
    | none =>
      simp only [do_eq_ok] at h
      obtain ⟨⟨new1, stopped1, q1⟩, h1, hout⟩ := h
      cases hout
      obtain ⟨⟨hashes1, hq1⟩, hcase⟩ := ih h1
      refine ⟨⟨hashes1, hq1.trans (by simp [withOutput])⟩, ?_⟩
      rcases hcase with ⟨hs, hnew, hst⟩ | ⟨hs, ⟨before, st, hne, hbefore, hstop⟩, hfin⟩
      · exact .inl ⟨hs, by rw [hnew], hst⟩
      · refine .inr ⟨hs, ⟨t :: before, st, cons_ne_nil _ _, cons_prefix_cons.2 ⟨rfl, hbefore⟩, ?_⟩, hfin⟩
        rw [← hstop]
        refine checkStop_congr ?_ _
        simp [withOutput, stopView]

end Request

namespace Scheduler
variable {s s' : Scheduler η} {r : RequestId} {q q' q0 : Request η} {mro : ModelRunnerOutput} {stale : Bool}

def EndedBy (c : SchedulerConfig) (mro : ModelRunnerOutput) (q : Request η) : Prop :=
  let tokens := mro.sampledTokenIds q.requestId
  q.Stops c.maxModelLen tokens ∨ (tokens ≠ [] ∧ mro.grammarRejects q.requestId tokens = true) ∨
    (tokens = [] ∧ ((q.poolingParams.isSome = true ∧ mro.poolerOutput q.requestId = true) ∨ c.isMmEncoderOnly = true))

/-- What processing an output makes of a request. -/
inductive Outcome (ended : Prop) (q q' : Request η) : Bool → Prop
  | goesOn (ht : q'.tag = q.tag) : Outcome ended q q' false
  | stops (he : ended) (hfin : q'.isFinished = true) (hid : q'.requestId = q.requestId)
      (hqueue : q'.streamingQueue = q.streamingQueue) (hres : q'.resumable = true → q.resumable = true) :
      Outcome ended q q' true

theorem settlePlaceholders_same [DecidableEq η] {st : RequestStatus} {n : Nat}
    (h : s.settlePlaceholders st stale n q = .ok (q', s')) : SameRequests s s' ∧ q'.tag = q.tag := by
  simp only [settlePlaceholders, bind_eq_ok] at h
  obtain ⟨-, -, h⟩ := h
  split at h
  · simp only [do_eq_ok] at h
    obtain ⟨kv, -, he⟩ := h
    cases he
    exact ⟨rfl, rfl⟩
  · cases h
    exact ⟨rfl, rfl⟩

/-- The tokens, the pooled output or the encoder's run end the request, or it goes on with all the tokens. -/
theorem stopOrAppend_outcome [DecidableEq η] (h : s.stopOrAppend mro q stale = .ok (new, stopped, q', s')) :
    SameRequests s s' ∧ Outcome (EndedBy s.config mro q) q q' stopped ∧
      (stopped = false → new = mro.sampledTokenIds q.requestId) := by
  unfold stopOrAppend at h
  dsimp only at h
  split at h
  · simp only [updateRequestWithOutput, bind_eq_ok] at h
    obtain ⟨⟨new1, stopped1, q1⟩, h1, h⟩ := h
    obtain ⟨⟨hashes, hq1⟩, hcase⟩ := appendUntilStop_eq h1
    have hout : ∀ q2 : Request η, q2.tag = q1.tag → Outcome (EndedBy s.config mro q) q q2 stopped1 ∧
        (stopped1 = false → new1 = mro.sampledTokenIds q.requestId) := by
      intro q2 ht2
      have ht : q2.tag = { q.tag with status := q1.status } := by rw [ht2, hq1]; rfl
      rcases hcase with ⟨rfl, hnew, hst⟩ | ⟨rfl, hend, hfin⟩
      · exact ⟨.goesOn (by rw [ht, hst]; rfl), fun _ => hnew⟩
      · refine ⟨.stops (.inl hend) ?_ (congrArg Request.Tag.requestId ht) (congrArg Request.Tag.streamingQueue ht)
          ?_, nofun⟩
        · rwa [Request.isFinished, status_eq ht2]
        · rw [show q2.resumable = q.resumable from congrArg Request.Tag.resumable ht]
          exact id
    dsimp only at h
    split at h
    · simp only [do_eq_ok] at h
      obtain ⟨⟨q2, s2⟩, h2, he⟩ := h
      cases he
      obtain ⟨hs, ht⟩ := settlePlaceholders_same h2
      exact ⟨hs, hout _ ht⟩
    · cases h
      exact ⟨rfl, hout _ rfl⟩
  · next hnil =>
    have hnil := not_not.1 hnil
    rw [hnil]
    split at h
    · next hpool =>
      cases h
      rw [Bool.and_eq_true] at hpool
      exact ⟨rfl, .stops (.inr (.inr ⟨hnil, .inl hpool⟩)) rfl rfl rfl id, nofun⟩
    split at h
    · next henc =>
      cases h
      rw [Bool.and_eq_true] at henc
      exact ⟨rfl, .stops (.inr (.inr ⟨hnil, .inr henc.1⟩)) rfl rfl rfl id, nofun⟩
    · cases h
      exact ⟨rfl, .goesOn rfl, fun _ => rfl⟩

theorem applyGrammar_eq (h : Outcome (EndedBy c mro q0) q0 q stopped)
    (hnew : stopped = false → new = mro.sampledTokenIds q0.requestId) :
    Outcome (EndedBy c mro q0) q0 (applyGrammar mro new stopped q).2 (applyGrammar mro new stopped q).1 := by
  unfold applyGrammar
  split
  · next hrej =>
    rw [Bool.and_eq_true, decide_eq_true_iff] at hrej
    cases h with
    | goesOn ht =>
      have hid := requestId_eq ht
      rw [hnew rfl, hid] at hrej
      exact .stops (.inr (.inl hrej)) rfl hid (congrArg Request.Tag.streamingQueue ht) nofun
    | stops he hfin hid hqueue hres => exact .stops he rfl hid hqueue nofun
  · exact h

/-! ### A stopped request -/

def SessionOpen (q : Request η) : Prop := q.resumable = true ∧ (q.streamingQueue.getD []).head? ≠ some none

/-- Where `_handle_stopped_request` leaves a request that has left all lists: finished, or, if it is an
open session, in a waiting queue. -/
theorem handleStoppedRequest_placed {R W : List RequestId} {k : Nat} {finished : Bool}
    (hp : Placed s.requests (s.numWaitingForStreamingInput - k) R W) (hq : s.requests.get? r = some q)
    (hfin : q.isFinished = true) (h : s.handleStoppedRequest r = .ok (finished, s')) :
    s'.config = s.config ∧ s'.running = s.running ∧ (∀ x ≠ r, s'.requests.get? x = s.requests.get? x) ∧
      if finished then s'.allWaiting = s.allWaiting ∧ Placed s'.requests (s'.numWaitingForStreamingInput - k) R W
      else SessionOpen q ∧ s'.allWaiting.Perm (r :: s.allWaiting) ∧
        Placed s'.requests (s'.numWaitingForStreamingInput - k) R (r :: W) := by
  simp only [handleStoppedRequest, bind_eq_ok, getRequest_eq_ok] at h
  obtain ⟨q1, hq1, h⟩ := h
  cases hq.symm.trans hq1
  have hid := hp.ids r q hq
  have hne : ∀ st : RequestStatus, st.isFinished = false → q.status ≠ st := by
    intro st hst he
    rw [Request.isFinished, he, hst] at hfin
    cases hfin
  have hget : ∀ (q' : Request η), ∀ x ≠ r, (s.requests.set r q').get? x = s.requests.get? x :=
    fun q' x hx => by rw [get?_set, if_neg hx]
  have hold : ∀ q', s.requests.get? r = some q' → q'.isFinished = true :=
    fun q' hq' => by cases hq.symm.trans hq'; exact hfin
  split at h
  · cases h
    exact ⟨rfl, rfl, fun _ _ => rfl, rfl, hp⟩
  · next hres =>
    have hres : q.resumable = true := by simpa using hres
    split at h
    · -- the end marker
      cases h
      exact ⟨rfl, rfl, hget _, rfl, hp.rewrite hq rfl (fun he => absurd he (hne _ rfl)) hid⟩
    · -- the next input
      next u rest hqueue =>
      simp only [do_eq_ok] at h
      obtain ⟨s1, h1, he⟩ := h
      cases he
      have hq2 : (s.setRequest r { q with streamingQueue := some rest }).requests.get? r =
          some { q with streamingQueue := some rest } := (get?_set ..).trans (if_pos rfl)
      have hp2 : Placed (s.setRequest r { q with streamingQueue := some rest }).requests
          (s.numWaitingForStreamingInput - k) R W := hp.rewrite hq rfl (fun he => absurd he (hne _ rfl)) hid
      obtain ⟨q', hview, hst, hid'⟩ := updateRequestAsSession_view hq2 hid h1
      obtain ⟨hreq, hrun, -, hconf⟩ := enqueueWaitingRequest_fields s1 r .waiting
      have hreq1 : s1.requests = _ := congrArg QueueView.requests hview
      have hnum1 : s1.numWaitingForStreamingInput = s.numWaitingForStreamingInput := by
        have hweight : streamingWeight { q with streamingQueue := some rest } = 0 :=
          streamingWeight_finished hfin
        rw [hweight] at hview
        exact (congrArg QueueView.numWaitingForStreamingInput hview).trans (Int.sub_zero _)
      have hwait1 : s1.allWaiting = s.allWaiting :=
        congrArg (fun v : QueueView η => v.waiting.items ++ v.skippedWaiting.items) hview
      refine ⟨hconf.trans (congrArg QueueView.config hview), hrun.trans (congrArg QueueView.running hview), ?_, ?_⟩
      · intro x hx
        rw [hreq, hreq1, get?_set, if_neg hx]
        exact hget _ x hx
      · refine ⟨⟨hres, by rw [hqueue]; exact fun he => by cases he⟩, ?_, ?_⟩
        · rw [← hwait1]; exact enqueueWaitingRequest_perm ..
        · rw [enqueueWaitingRequest_placed, hreq1, hnum1]
          refine hp2.join (fun x hx => ?_) (waits_of_status hst rfl (by decide)) ?_
            (fun he => by rw [hst] at he; cases he) hid' (.refl _)
          · cases hq2.symm.trans hx; exact hfin
          · rw [streamingWeight_of_ne (by rw [hst]; decide)]
            exact (Int.add_zero _).symm
    · -- nothing yet
      next hqueue =>
      cases h
      obtain ⟨hreq, hrun, -, hconf⟩ := enqueueWaitingRequest_fields
        { s.setRequest r { q with status := .waitingForStreamingReq } with
          numWaitingForStreamingInput := s.numWaitingForStreamingInput + 1 } r .waitingForStreamingReq
      refine ⟨hconf, hrun, fun x hx => ?_, ⟨hres, by rw [hqueue]; exact fun he => by cases he⟩,
        enqueueWaitingRequest_perm .., ?_⟩
      · exact (congrArg (fun d => d.get? x) hreq).trans (hget _ x hx)
      · have hjoin : Placed (s.requests.set r { q with status := .waitingForStreamingReq })
            (s.numWaitingForStreamingInput + 1 - k) R (r :: W) :=
          hp.join hold (waits_of_status (t := .waitingForStreamingReq) rfl rfl (by decide))
            (show _ = s.numWaitingForStreamingInput - (k : Int) + 1 by omega) (fun _ => ⟨hres, hqueue⟩) hid (.refl _)
        exact enqueueWaitingRequest_placed.2 hjoin

/-! ### The main loop -/

def SparesSession (c : SchedulerConfig) (mro : ModelRunnerOutput) (q : Request η) : Prop :=
  q.isFinished = false → q.status ≠ .running → ¬ (q.numStaleOutputTokens > 0 ∧ q.dropStaleOutput = true) →
    SessionOpen q → ¬ EndedBy c mro q

namespace UpdateState
variable {u u' : UpdateState η} {done X : List RequestId} {k : Nat}

/-- Without the requests marked to leave, the queues hold every unfinished request in its place, up to the
flaws `X` and `k`. The requests that are not `done` yet are as they were in `s`. -/
structure Draining (s : Scheduler η) (done X : List RequestId) (k : Nat) (u : UpdateState η) : Prop where
  placed : Placed u.scheduler.requests (u.scheduler.numWaitingForStreamingInput - k)
    (u.scheduler.running.filter (· ∉ u.stoppedRunningReqs))
    (u.scheduler.allWaiting.filter (· ∉ u.stoppedPreemptedReqs) ++ X)
  config : u.scheduler.config = s.config
  running : u.scheduler.running = s.running
  marked : ∀ r ∈ u.stoppedPreemptedReqs, r ∈ done
  rest : ∀ r, r ∉ done → u.scheduler.requests.get? r = s.requests.get? r

/-- From `u` to `u'` there are no new flaws if `spares` holds, and the same requests wait if `plain` does. -/
def DrainsTo (s : Scheduler η) (done X : List RequestId) (k : Nat) (u u' : UpdateState η) (spares plain : Prop) :
    Prop :=
  ∃ X' k', Draining s done X' k' u' ∧ (spares → X'.Sublist X ∧ k' = k) ∧
    (plain → u'.scheduler.allWaiting = u.scheduler.allWaiting)

theorem filter_insertNew (l A : List RequestId) (r : RequestId) :
    l.filter (· ∉ insertNew r A) = (l.filter (· ∉ A)).filter (· ≠ r) := by
  rw [List.filter_filter]
  exact filter_congr fun a _ => by rw [Bool.eq_iff_iff]; simp [mem_insertNew]

/-- A stopped request, finished and in no list, is marked to leave the side it was on. A session that comes
back without having been running is lost; the counter then keeps the input it waited for. -/
theorem finishStopped_draining {env : FinishEnv} {before : RequestStatus} (hu : Draining s done X k u)
    (hq : u.scheduler.requests.get? r = some q) (hst : q.status = before) (hr : r ∈ done)
    (hnew : r ∉ u.stoppedPreemptedReqs) (hfin : q'.isFinished = true) (hid : q'.requestId = r)
    (h : finishStopped { u with scheduler := u.scheduler.setRequest r q' } env r before = .ok u') :
    DrainsTo s done X k u u' (before ≠ .waitingForStreamingReq ∧ (SessionOpen q' → before = .running))
      (¬ SessionOpen q') := by
  simp only [finishStopped, do_eq_ok] at h
  obtain ⟨⟨finished, s1⟩, h1, s2, h2, rfl⟩ := h
  have hstop : Placed (u.scheduler.setRequest r q').requests
      (u.scheduler.numWaitingForStreamingInput - (k + q.streamingWeight : Nat))
      ((u.scheduler.running.filter (· ∉ u.stoppedRunningReqs)).filter (· ≠ r))
      ((u.scheduler.allWaiting.filter (· ∉ u.stoppedPreemptedReqs) ++ X).filter (· ≠ r)) :=
    hu.placed.finish hq (by omega) hfin hid
  rw [filter_append] at hstop
  have hweight : before ≠ .waitingForStreamingReq → k + q.streamingWeight = k :=
    fun hns => by rw [streamingWeight_of_ne (hst ▸ hns), Nat.add_zero]
  have hget : (u.scheduler.setRequest r q').requests.get? r = some q' := (get?_set ..).trans (if_pos rfl)
  obtain ⟨hconf, hrun, hother, hcase⟩ := handleStoppedRequest_placed hstop hget hfin h1
  have hrest : ∀ x, x ∉ done → s1.requests.get? x = s.requests.get? x := by
    intro x hx
    have hxr : x ≠ r := fun he => hx (he ▸ hr)
    rw [hother x hxr, ← hu.rest x hx]
    exact (get?_set ..).trans (if_neg hxr)
  have hmarked : ∀ x ∈ (if before = .running then u.stoppedPreemptedReqs else insertNew r u.stoppedPreemptedReqs),
      x ∈ done := by
    intro x hx
    split at hx
    · exact hu.marked x hx
    · rcases mem_insertNew.1 hx with rfl | hx
      · exact hr
      · exact hu.marked x hx
  -- the side the request was not on is not touched
  have hrunning : before ≠ .running → r ∉ u.scheduler.running.filter (· ∉ u.stoppedRunningReqs) :=
    fun hb => hu.placed.notMem_running hq (hst ▸ hb)
  have hwaiting : before = .running → r ∉ u.scheduler.allWaiting.filter (· ∉ u.stoppedPreemptedReqs) :=
    fun hb hmem => hu.placed.notMem_waiting hq (fun hw => hw.2 (hst.trans hb)) (mem_append_left _ hmem)
  cases finished with
  | true =>
    obtain ⟨hwait, hp⟩ := hcase
    have hrel := freeRequest_released h2
    obtain ⟨hrun2, -, -, hnum2⟩ := hrel.queues
    have hall2 : s2.allWaiting = u.scheduler.allWaiting := hrel.allWaiting.trans hwait
    refine ⟨X.filter (· ≠ r), k + q.streamingWeight, ⟨?_, hrel.config.trans (hconf.trans hu.config),
      hrun2.trans (hrun.trans hu.running), hmarked, ?_⟩, fun hns => ⟨filter_sublist, hweight hns.1⟩, fun _ => hall2⟩
    · dsimp only
      rw [hnum2, hrun2.trans hrun, hall2]
      refine (hrel.placed hp).perm (.of_eq ?_) (.of_eq (congrArg (· ++ _) ?_))
      · split
        · exact filter_insertNew ..
        · next hb => exact (Placed.filter_ne_self (hrunning hb)).symm
      · split
        · next hb => exact (Placed.filter_ne_self (hwaiting hb)).symm
        · exact filter_insertNew ..
    · intro x hx
      rw [← hrest x hx]
      exact hrel.get_of_ne fun he => hx (he ▸ hr)
  | false =>
    obtain ⟨hopen, hwait, hp⟩ := hcase
    cases h2
    by_cases hb : before = .running
    · refine ⟨X.filter (· ≠ r), k + q.streamingWeight, ⟨?_, hconf.trans hu.config, hrun.trans hu.running, hmarked,
        hrest⟩, fun hns => ⟨filter_sublist, hweight hns.1⟩, fun hplain => absurd hopen hplain⟩
      dsimp only
      rw [if_pos hb, if_pos hb, hrun]
      refine hp.perm (.of_eq (filter_insertNew ..)) (((hwait.filter _).append_right _).trans (.of_eq ?_))
      rw [filter_cons_of_pos (by simpa using hnew), Placed.filter_ne_self (hwaiting hb)]
      rfl
    · -- it is in a waiting queue and marked to leave it
      refine ⟨r :: X.filter (· ≠ r), k + q.streamingWeight, ⟨?_, hconf.trans hu.config, hrun.trans hu.running, hmarked,
        hrest⟩, fun hback => absurd (hback.2 hopen) hb, fun hplain => absurd hopen hplain⟩
      dsimp only
      rw [if_neg hb, if_neg hb, hrun]
      refine hp.perm (.of_eq (Placed.filter_ne_self (hrunning hb)).symm) ?_
      refine ((hwait.filter _).append_right _).trans (perm_middle.trans (.of_eq ?_))
      rw [filter_cons_of_neg (by simp [mem_insertNew]), filter_insertNew]
      rfl

theorem Draining.mono (hu : Draining s done X k u) (r : RequestId) : Draining s (r :: done) X k u :=
  ⟨hu.placed, hu.config, hu.running, fun x hx => mem_cons_of_mem _ (hu.marked x hx),
    fun x hx => hu.rest x fun hd => hx (mem_cons_of_mem _ hd)⟩

theorem Draining.same (hu : Draining s done X k u) (hs : SameRequests u.scheduler s') :
    Draining s done X k { u with scheduler := s' } := by
  have hall : s'.allWaiting = u.scheduler.allWaiting :=
    congrArg (fun v : QueueView η => v.waiting.items ++ v.skippedWaiting.items) hs
  refine ⟨?_, hs.config.trans hu.config, hs.running.trans hu.running, hu.marked, fun x hx => ?_⟩
  · dsimp only
    rw [hs.requests, hs.running, hall, hs.same.streaming]
    exact hu.placed
  · dsimp only
    rw [hs.requests]
    exact hu.rest x hx

theorem Draining.setRequest (hu : Draining s done X k u) (hq : u.scheduler.requests.get? r = some q)
    (ht : q'.tag = q.tag) (hr : r ∈ done) :
    Draining s done X k { u with scheduler := u.scheduler.setRequest r q' } := by
  have hid := (requestId_eq ht).trans (hu.placed.ids r q hq)
  refine ⟨?_, hu.config, hu.running, hu.marked, fun x hx => ?_⟩
  · exact hu.placed.rewrite hq (status_eq ht) ((sessionOk_congr ht).2 (hu.placed.session r q hq)) hid
  · rw [← hu.rest x hx]
    exact (get?_set ..).trans (if_neg fun he : x = r => hx (he ▸ hr))

end UpdateState

theorem endedBy_congr (hview : q'.stopView = q.stopView) (hid : q'.requestId = q.requestId) :
    EndedBy c mro q' ↔ EndedBy c mro q := by
  have hpool : q'.poolingParams = q.poolingParams := congrArg Request.StopView.poolingParams hview
  unfold EndedBy
  dsimp only
  rw [hid, hpool, stops_congr hview]

theorem sessionOpen_congr (ht : q'.tag = q.tag) : SessionOpen q' ↔ SessionOpen q := by
  unfold SessionOpen
  rw [show q'.resumable = q.resumable from congrArg Request.Tag.resumable ht,
    show q'.streamingQueue = q.streamingQueue from congrArg Request.Tag.streamingQueue ht]

theorem rollbackRejected_eq (s : Scheduler η) (out : SchedulerOutput) (tokens : List TokenId) (stale : Bool)
    (q : Request η) :
    ∃ n m, s.rollbackRejected out tokens stale q = { q with numComputedTokens := n, numOutputPlaceholders := m } := by
  unfold rollbackRejected
  dsimp only
  split
  · exact ⟨_, _, rfl⟩
  · exact ⟨_, _, rfl⟩

theorem landTokens_eq {n : Nat} (h : landTokens q n = .ok (stale, q')) :
    q'.tag = q.tag ∧ q'.stopView = q.stopView ∧ q'.dropStaleOutput = q.dropStaleOutput ∧
      (stale = true ↔ q.numStaleOutputTokens > 0) := by
  unfold landTokens at h
  dsimp only at h
  split at h
  · next hstale =>
    simp only [do_eq_ok] at h
    obtain ⟨-, -, he⟩ := h
    cases he
    exact ⟨rfl, rfl, rfl, by simpa using hstale⟩
  · next hstale =>
    cases h
    exact ⟨rfl, rfl, rfl, by simpa using hstale⟩

namespace UpdateState
variable [DecidableEq η] {u u' : UpdateState η} {done X : List RequestId} {k : Nat} {out : SchedulerOutput}

theorem deliver_draining (hu : Draining s done X k u) (hq : u.scheduler.requests.get? r = some q) (hr : r ∈ done)
    (hnew : r ∉ u.stoppedPreemptedReqs) (h : deliver out mro u r q stale = .ok u') :
    DrainsTo s done X k u u' (q.status ≠ .running → SessionOpen q →
      ¬ EndedBy s.config mro q) (q.resumable = false) := by
  simp only [deliver, bind_eq_ok] at h
  obtain ⟨s1, h1, ⟨new, stopped, q2, s2⟩, h2, u1, h3, h⟩ := h
  have hroll := rollbackRejected_eq u.scheduler out (mro.sampledTokenIds r) stale q
  generalize u.scheduler.rollbackRejected out (mro.sampledTokenIds r) stale q = q1 at h1 h2 h3 hroll
  have ht : q1.tag = q.tag := by obtain ⟨_, _, rfl⟩ := hroll; rfl
  have hview : q1.stopView = q.stopView := by obtain ⟨_, _, rfl⟩ := hroll; rfl
  obtain ⟨hsame, hout, hall⟩ := stopOrAppend_outcome h2
  have hfree := (freeEncoderInputs_only h1).same
  have hu2 := hu.same (hfree.trans hsame)
  have hq2 : s2.requests.get? r = some q := by rw [(hfree.trans hsame).requests]; exact hq
  have hended : EndedBy s1.config mro q1 → EndedBy s.config mro q := by
    rw [hfree.config, hu.config, endedBy_congr hview (requestId_eq ht)]
    exact id
  have hgrammar := applyGrammar_eq hout hall
  have hround : DrainsTo s done X k u u1 (q.status ≠ .running → SessionOpen q → ¬ EndedBy s.config mro q)
      (q.resumable = false) := by
    have hwait2 : s2.allWaiting = u.scheduler.allWaiting := (hfree.trans hsame).same.allWaiting
    generalize applyGrammar mro new stopped q2 = g at h3 hgrammar
    obtain ⟨stopped3, q3⟩ := g
    cases hgrammar with
    | goesOn ht3 =>
      cases h3
      exact ⟨X, k, hu2.setRequest hq2 (ht3.trans ht) hr, fun _ => ⟨.refl X, rfl⟩, fun _ => hwait2⟩
    | stops he hfin hid hqueue hres =>
      have hstatus := status_eq ht
      obtain ⟨X', k', hX, hkeep, hplain⟩ := finishStopped_draining hu2 hq2 hstatus.symm hr hnew hfin
        (hid.trans ((requestId_eq ht).trans (hu.placed.ids r q hq))) h3
      refine ⟨X', k', hX, fun hspares => ?_, fun hno => (hplain ?_).trans hwait2⟩
      swap
      · rintro ⟨hres3, -⟩
        have hres0 : q.resumable = true := (congrArg Request.Tag.resumable ht).symm.trans (hres hres3)
        rw [hno] at hres0
        cases hres0
      -- a request that waits for input is an open session, so its output has not ended it
      have hrunning : SessionOpen q → q.status = .running := by
        intro hopen
        by_contra hne
        exact hspares hne hopen (hended he)
      refine hkeep ⟨?_, ?_⟩
      · intro hst
        obtain ⟨hres0, hnil⟩ := hu.placed.session r q hq (hstatus ▸ hst)
        have hrun := hrunning ⟨hres0, by rw [hnil]; nofun⟩
        rw [hstatus, hrun] at hst
        cases hst
      · rintro ⟨hres3, hhead⟩
        rw [hstatus]
        refine hrunning ((sessionOpen_congr ht).1 ⟨hres hres3, ?_⟩)
        rwa [← hqueue]
  split at h
  · cases h
    obtain ⟨X', k', hX, hkeep⟩ := hround
    exact ⟨X', k', ⟨hX.placed, hX.config, hX.running, hX.marked, hX.rest⟩, hkeep⟩
  · cases h
    exact hround

theorem processOutput_draining {e : RequestId × Nat} (hu : Draining s done X k u) (hr : e.1 ∉ done)
    (h : processOutput out mro failed u e = .ok u') :
    DrainsTo s (e.1 :: done) X k u u' (∀ q, s.requests.get? e.1 = some q → SparesSession s.config mro q)
      (∀ q, s.requests.get? e.1 = some q → q.resumable = false) := by
  have hnew : e.1 ∉ u.stoppedPreemptedReqs := fun hmem => hr (hu.marked _ hmem)
  have hdone := mem_cons_self (a := e.1) (l := done)
  have hsame : ∀ {u' : UpdateState η} {P Q : Prop}, Draining s (e.1 :: done) X k u' →
      u'.scheduler.allWaiting = u.scheduler.allWaiting → DrainsTo s (e.1 :: done) X k u u' P Q :=
    fun hu' hwait => ⟨X, k, hu', fun _ => ⟨.refl X, rfl⟩, fun _ => hwait⟩
  simp only [processOutput, bind_eq_ok] at h
  obtain ⟨-, -, h⟩ := h
  split at h
  · cases h
    exact hsame (hu.mono e.1) rfl
  · next q hq =>
    simp only [bind_eq_ok] at h
    obtain ⟨⟨stale, q1⟩, h1, h⟩ := h
    obtain ⟨ht, hview, hdrop, hstale⟩ := landTokens_eq h1
    have hu1 := (hu.mono e.1).setRequest hq ht hdone
    dsimp only at h
    split at h
    · cases h; exact hsame hu1 rfl
    split at h
    · cases h; exact hsame hu1 rfl
    split at h
    · cases h; exact hsame hu1 rfl
    next hlive hkeep =>
    have hq1 : (u.scheduler.setRequest e.1 q1).requests.get? e.1 = some q1 := (get?_set ..).trans (if_pos rfl)
    have hq0 : s.requests.get? e.1 = some q := (hu.rest _ hr) ▸ hq
    obtain ⟨X', k', hX, hspared, hplain⟩ := deliver_draining hu1 hq1 hdone hnew h
    refine ⟨X', k', hX, fun hspares => hspared ?_,
      fun hno => hplain ((congrArg Request.Tag.resumable ht).trans (hno q hq0))⟩
    intro hne hopen hend
    have hlive0 : q.isFinished = false := by
      rw [Request.isFinished, ← status_eq ht]
      exact Bool.not_eq_true _ |>.mp hlive
    refine hspares q hq0 hlive0 (status_eq ht ▸ hne) ?_ ((sessionOpen_congr ht).1 hopen)
      ((endedBy_congr hview (requestId_eq ht)).1 hend)
    rintro ⟨hs, hd⟩
    exact hkeep (by rw [hstale.2 hs, hdrop, hd]; rfl)

theorem foldlM_processOutput_draining {l : List (RequestId × Nat)} (hu : Draining s done X k u)
    (hnd : (l.map Prod.fst).Nodup) (hl : ∀ e ∈ l, e.1 ∉ done) (h : l.foldlM (processOutput out mro failed) u = .ok u') :
    ∃ done', DrainsTo s done' X k u u' (∀ e ∈ l, ∀ q, s.requests.get? e.1 = some q → SparesSession s.config mro q)
      (∀ e ∈ l, ∀ q, s.requests.get? e.1 = some q → q.resumable = false) := by
  induction l generalizing u done X k with
  | nil => cases h; exact ⟨done, X, k, hu, fun _ => ⟨.refl X, rfl⟩, fun _ => rfl⟩
  | cons e l ih =>
    rw [foldlM_cons, bind_eq_ok] at h
    obtain ⟨u1, h1, h⟩ := h
    rw [map_cons, nodup_cons] at hnd
    obtain ⟨X1, k1, hround, hkeep1, hplain1⟩ := processOutput_draining hu (hl e (mem_cons_self ..)) h1
    have hl1 : ∀ e' ∈ l, e'.1 ∉ e.1 :: done := by
      intro e' he' hmem
      rcases mem_cons.1 hmem with heq | hmem
      · exact hnd.1 (heq ▸ mem_map_of_mem he')
      · exact hl e' (mem_cons_of_mem _ he') hmem
    obtain ⟨done', X', k', hend, hkeep, hplain⟩ := ih hround hnd.2 hl1 h
    refine ⟨done', X', k', hend, fun hspares => ?_, fun hno => ?_⟩
    · obtain ⟨hX1, rfl⟩ := hkeep1 (hspares e (mem_cons_self ..))
      obtain ⟨hX, rfl⟩ := hkeep fun e' he' => hspares e' (mem_cons_of_mem _ he')
      exact ⟨hX.trans hX1, rfl⟩
    · exact (hplain fun e' he' => hno e' (mem_cons_of_mem _ he')).trans (hplain1 (hno e (mem_cons_self ..)))

omit [DecidableEq η] in
theorem removeStopped_adrift (hu : Draining s done X k u) (hnd : s.running.Nodup) : u.removeStopped.Adrift X k := by
  unfold Adrift
  refine hu.placed.perm ?_ ?_
  · show (removeAll u.scheduler.running u.stoppedRunningReqs).Perm _
    rw [removeAll_eq_filter (hu.running ▸ hnd)]
  · unfold allWaiting
    rw [filter_append]
    exact ((removeRequests_ite_perm ..).append (removeRequests_ite_perm ..)).append_right X

end UpdateState

/-! ### Failed loads -/

end Scheduler

namespace Request

def uncounted (q : Request η) : Request η := { q with numComputedTokens := 0 }

theorem eq_of_uncounted {q q' : Request η} (h : q'.uncounted = q.uncounted) :
    q' = { q with numComputedTokens := q'.numComputedTokens } := by
  have h := congrArg (fun x => ({ x with numComputedTokens := q'.numComputedTokens } : Request η)) h
  exact h

end Request

namespace Scheduler
variable {s s' s'' : Scheduler η} {r : RequestId} {q q' : Request η} {mro : ModelRunnerOutput}

structure Recounted (s s' : Scheduler η) : Prop where
  queues : SameQueues s s'
  counts : ∀ r, (s'.requests.get? r).map Request.uncounted = (s.requests.get? r).map Request.uncounted

theorem Recounted.trans (h : Recounted s s') (h' : Recounted s' s'') : Recounted s s'' :=
  ⟨h.queues.trans h'.queues, fun r => (h'.counts r).trans (h.counts r)⟩

theorem SameRequests.recounted (h : SameRequests s s') : Recounted s s' := ⟨h.same, fun r => by rw [h.requests]⟩

def Ids (s : Scheduler η) : Prop := ∀ r q, s.requests.get? r = some q → q.requestId = r

theorem Recounted.ids (h : Recounted s s') (hid : s.Ids) : s'.Ids := by
  intro r q hq
  have hc := h.counts r
  rw [hq, map_some, eq_comm, map_eq_some_iff] at hc
  obtain ⟨q0, hq0, he⟩ := hc
  have hqid : q.uncounted.requestId = q0.uncounted.requestId := congrArg Request.requestId he.symm
  exact hqid.trans (hid r q0 hq0)

theorem setRequests_recounted (h : ∀ q' ∈ rs, (s.requests.get? q'.requestId).map Request.uncounted =
    some q'.uncounted) :
    Recounted s (s.setRequests rs) := by
  induction rs generalizing s with
  | nil => exact ⟨.refl s, fun _ => rfl⟩
  | cons q' rs ih =>
    obtain ⟨q, hq, he⟩ := map_eq_some_iff.1 (h q' (mem_cons_self ..))
    have htag : q'.uncounted.tag = q.uncounted.tag := congrArg Request.tag he.symm
    have hone : Recounted s (s.setRequest q'.requestId q') := by
      refine ⟨.setRequest hq htag, fun x => ?_⟩
      show ((s.requests.set _ _).get? x).map _ = _
      rw [get?_set]
      split
      · next hx => rw [hx, hq, map_some, map_some, he]
      · rfl
    exact hone.trans (ih fun x hx => (hone.counts _).trans (h x (mem_cons_of_mem _ hx)))

end Scheduler

namespace InvalidBlocks
variable {q q' : Request η} {kv : KVCacheManager η} {blockSize : Nat} {invalid : List BlockId} {evict : Bool}
  {sched : Dict RequestId Nat} {st st' : InvalidScan}

theorem updateRequest_uncounted (h : updateRequest blockSize invalid evict sched kv q st = .ok (q', st')) :
    q'.uncounted = q.uncounted := by
  unfold updateRequest at h
  split at h
  · cases h
  · have he := congrArg Prod.fst (Except.ok.inj h)
    unfold scanSingle at he
    dsimp only at he
    rw [← he]
    split
    · rfl
    split <;> rfl
  · have he := congrArg Prod.fst (Except.ok.inj h)
    unfold scanGroups at he
    dsimp only at he
    rw [← he]
    split <;> rfl

theorem updateRequests_uncounted
    (h : updateRequestsWithInvalidBlocks blockSize invalid evict sched kv rs st = .ok (rs', st')) :
    ∀ q' ∈ rs', ∃ q ∈ rs, q'.uncounted = q.uncounted := by
  induction rs generalizing st rs' with
  | nil => cases h; simp
  | cons q rs ih =>
    simp only [updateRequestsWithInvalidBlocks, do_eq_ok] at h
    obtain ⟨⟨q1, st1⟩, h1, ⟨rs1, st2⟩, h2, he⟩ := h
    cases he
    intro q' hq'
    rcases mem_cons.1 hq' with rfl | hq'
    · exact ⟨q, mem_cons_self .., updateRequest_uncounted h1⟩
    · obtain ⟨q0, hq0, he⟩ := ih h2 q' hq'
      exact ⟨q0, mem_cons_of_mem _ hq0, he⟩

end InvalidBlocks

namespace Scheduler
variable {s s' : Scheduler η} {r : RequestId} {q q' : Request η} {mro : ModelRunnerOutput} {out : SchedulerOutput}
  {X : List RequestId} {k : Nat}

theorem mapM_getRequest {ids : List RequestId} (h : ids.mapM s.getRequest = .ok rs) :
    ∀ q ∈ rs, ∃ r, s.requests.get? r = some q := by
  induction ids generalizing rs with
  | nil => cases h; simp
  | cons r ids ih =>
    simp only [mapM_cons, do_eq_ok, getRequest_eq_ok] at h
    obtain ⟨q, hq, rs1, h1, rfl⟩ := h
    intro q' hq'
    rcases mem_cons.1 hq' with rfl | hq'
    · exact ⟨r, hq⟩
    · exact ih h1 q' hq'

theorem updateInvalid_recounted {invalid : List BlockId} {sched : Dict RequestId Nat} {ids : List RequestId}
    {evict : Bool} {scan : InvalidBlocks.InvalidScan} (hid : s.Ids)
    (h : s.updateInvalid invalid sched ids evict = .ok (scan, s')) : Recounted s s' := by
  simp only [updateInvalid, do_eq_ok] at h
  obtain ⟨rs, h1, ⟨rs', scan1⟩, h2, he⟩ := h
  cases he
  refine setRequests_recounted fun q' hq' => ?_
  obtain ⟨q, hq, he⟩ := InvalidBlocks.updateRequests_uncounted h2 q' hq'
  obtain ⟨r, hr⟩ := mapM_getRequest h1 q hq
  have hqid : q'.uncounted.requestId = q.uncounted.requestId := congrArg Request.requestId he
  rw [show q'.requestId = r from hqid.trans (hid r q hr), hr, map_some, he]

theorem handleFailures_recounted [DecidableEq η] (hid : s.Ids) (h : s.handleFailures out mro = .ok (failed, s')) :
    Recounted s s' := by
  have hrefl : Recounted s s := ⟨.refl s, fun _ => rfl⟩
  unfold handleFailures at h
  split at h
  · split at h
    · cases h; exact hrefl
    · simp only [handleInvalidBlocks, bind_eq_ok] at h
      obtain ⟨⟨loads, s1⟩, h1, ⟨sync, s2⟩, h2, h⟩ := h
      have hloads := updateInvalid_recounted hid h1
      have hboth := hloads.trans (updateInvalid_recounted (hloads.ids hid) h2)
      dsimp only at h
      split at h
      · cases h; exact hboth
      split at h
      · cases h
        exact hboth.trans (SameRequests.recounted rfl)
      · simp only [do_eq_ok] at h
        obtain ⟨kv, -, he⟩ := h
        cases he
        exact hboth.trans (SameRequests.recounted rfl)
  · cases h; exact hrefl

theorem SparesSession.uncounted (h : SparesSession c mro q) (he : q'.uncounted = q.uncounted) :
    SparesSession c mro q' := by
  rw [eq_of_uncounted he]
  exact h

/-! ### `update_from_output` -/

theorem updateFromKvXferFinished_inv {I : Scheduler η → Prop}
    (hnote : ∀ x ids, I x → I { x with finishedRecvingKvReqIds := ids })
    (hfree : ∀ x r y, I x → x.freeBlocks r = .ok y → I y) (h : I s) (hstep : s.updateFromKvXferFinished mro = .ok s') :
    I s' := by
  unfold updateFromKvXferFinished at hstep
  split at hstep
  · cases hstep; exact h
  · simp only [bind_eq_ok] at hstep
    obtain ⟨s1, h1, h2⟩ := hstep
    have hrecv : I s1 := by
      refine foldlM_inv (P := I) (fun r _ x y hx hxy => ?_) h1 h
      unfold finishRecving at hxy
      split at hxy
      · cases hxy; exact hx
      split at hxy
      · cases hxy; exact hnote x _ hx
      split at hxy
      · exact hfree x r y hx hxy
      · cases hxy; exact hx
    refine foldlM_inv (P := I) (fun r _ x y hx hxy => ?_) h2 hrecv
    unfold finishSending at hxy
    split at hxy
    · cases hxy; exact hx
    · exact hfree x r y hx hxy

theorem updateDraftTokenIds_eq (s : Scheduler η) (step : Option Nat) (r : RequestId) (validated : List TokenId) :
    s.updateDraftTokenIds step r validated = s ∨ ∃ q drafts stepId, s.requests.get? r = some q ∧
      s.updateDraftTokenIds step r validated =
        s.setRequest r { q with specTokenIds := drafts, specTokenIdsStepId := stepId } := by
  unfold updateDraftTokenIds
  split
  · exact .inl rfl
  next q hq =>
  split
  · exact .inl rfl
  split
  · split
    · exact .inr ⟨q, _, _, hq, rfl⟩
    · exact .inl rfl
  split
  · exact .inr ⟨q, _, _, hq, rfl⟩
  split
  · exact .inl rfl
  split
  · exact .inr ⟨q, _, _, hq, rfl⟩
  · exact .inl rfl

def SparesSessions (s : Scheduler η) (out : SchedulerOutput) (mro : ModelRunnerOutput) : Prop :=
  ∀ r ∈ out.numScheduledTokens.keys, ∀ q, s.requests.get? r = some q → SparesSession s.config mro q

def SessionFree (s : Scheduler η) (out : SchedulerOutput) : Prop :=
  ∀ r ∈ out.numScheduledTokens.keys, ∀ q, s.requests.get? r = some q → q.resumable = false

theorem updateFromOutput_adrift [DecidableEq η] {outputs : List EngineCoreOutput} (h : s.Adrift X k)
    (hstep : s.updateFromOutput out mro = .ok (outputs, s')) :
    ∃ X' k', s'.Adrift X' k' ∧ (s.SparesSessions out mro → X'.Sublist X ∧ k' = k) ∧
      (s.SessionFree out → s'.allWaiting ⊆ s.allWaiting) := by
  simp only [updateFromOutput, do_eq_ok] at hstep
  obtain ⟨s1, h1, ⟨failed, s2⟩, h2, u, h3, s3, h4, s4, h5, he⟩ := hstep
  cases he
  have hdrain := drainFrees_same h1
  have hid : s1.Ids := by rw [Ids, hdrain.requests]; exact h.ids
  have hrec := hdrain.recounted.trans (handleFailures_recounted hid h2)
  have h2c : s2.Adrift X k := h.same hrec.queues
  have hstart : UpdateState.Draining s2 [] X k { scheduler := s2 } := by
    refine ⟨?_, rfl, rfl, nofun, fun _ _ => rfl⟩
    unfold Adrift at h2c
    simpa using h2c
  -- the requests of the loop, up to their progress
  have hbefore : ∀ e ∈ out.numScheduledTokens.entries, ∀ q, s2.requests.get? e.1 = some q →
      ∃ q0, s.requests.get? e.1 = some q0 ∧ q.uncounted = q0.uncounted := by
    intro e _ q hq
    have hc := hrec.counts e.1
    rw [hq, map_some, eq_comm, map_eq_some_iff] at hc
    obtain ⟨q0, hq0, he0⟩ := hc
    exact ⟨q0, hq0, he0.symm⟩
  obtain ⟨done, X1, k1, hend, hkeep, hplain⟩ := UpdateState.foldlM_processOutput_draining hstart
    out.numScheduledTokens.nodup (fun _ _ => not_mem_nil) h3
  have hremove := UpdateState.removeStopped_adrift hend (nodup_append.1 h2c.nodup).1
  unfold finishErrors at h4
  obtain ⟨X2, hX2, herrors, hwait⟩ :=
    finishRequests_adrift (s := { u.removeStopped with grammarCompileErrorReqs := [] }) hremove h4
  have hend := updateFromKvXferFinished_inv (I := fun x => x.Adrift X2 k1) (fun _ _ hx => hx)
    (fun _ _ _ hx hfree => (freeBlocks_released hfree).adrift hx) herrors h5
  refine ⟨X2, k1, hend, fun hspares => ?_, fun hfree => ?_⟩
  · obtain ⟨hX1, rfl⟩ := hkeep fun e he q hq => by
      obtain ⟨q0, hq0, he0⟩ := hbefore e he q hq
      rw [hrec.queues.config]
      exact (hspares e.1 (mem_map_of_mem he) q0 hq0).uncounted he0
    exact ⟨hX2.trans hX1, rfl⟩
  · have hloop := hplain fun e he q hq => by
      obtain ⟨q0, hq0, he0⟩ := hbefore e he q hq
      rw [eq_of_uncounted he0]
      exact hfree e.1 (mem_map_of_mem he) q0 hq0
    have hxfer := updateFromKvXferFinished_inv (I := fun x => x.allWaiting = s3.allWaiting) (fun _ _ hx => hx)
      (fun _ _ _ hx hfree => (freeBlocks_released hfree).allWaiting.trans hx) rfl h5
    rw [hxfer, ← hrec.queues.allWaiting, ← hloop]
    exact Subset.trans hwait (removeRequests_ite_subset ..)

end Scheduler

end VllmCore
