import VllmCore.Sched.Engine
import VllmCore.Sched.PassOrder
import VllmCore.Sched.UpdateMoves

/-! # The queues partition the unfinished requests

The invariant of the previous modules in the words of the scheduler, for every run. It needs that no
output ends an open session that is not running: such a session is put into a waiting queue and then
removed from both with the requests that stopped. -/

namespace VllmCore
open Except List
variable {η : Type}

namespace Scheduler
variable {s s' : Scheduler η}

/-- Every unfinished request is in exactly one of the three queues, once, and in `running` iff it runs; the
counter knows how many requests wait for streaming input. -/
structure Partitioned (s : Scheduler η) : Prop where
  once : ∀ r q, s.requests.get? r = some q → q.isFinished = false →
    s.running.count r + s.waiting.items.count r + s.skippedWaiting.items.count r = 1
  running : ∀ r q, s.requests.get? r = some q → q.isFinished = false → (r ∈ s.running ↔ q.status = .running)
  streaming : s.numWaitingForStreamingInput =
    s.requests.values.countP fun q => decide (q.status = .waitingForStreamingReq)

theorem Consistent.partitioned (h : s.Consistent []) : s.Partitioned := by
  unfold Consistent at h
  rw [append_nil] at h
  constructor
  · intro r q hq hlive
    have hmem : r ∈ s.running ++ s.allWaiting := (h.live r).2 ⟨q, hq, hlive⟩
    have hone := count_eq_one_of_mem h.nodup hmem
    unfold allWaiting at hone
    rw [count_append, count_append] at hone
    omega
  · intro r q hq _
    exact (h.running r q hq).symm
  · rw [h.streaming, ← Dict.total_ite]
    rfl

theorem init_consistent {config : SchedulerConfig} {kvConfig : Coordinator.KVCacheConfig}
    (h : Scheduler.init config kvConfig = .ok s) : s.Consistent [] := by
  simp only [init, do_eq_ok] at h
  obtain ⟨kv, -, rfl⟩ := h
  exact Placed.empty

theorem updateDraftTokenIds_same (s : Scheduler η) (step : Option Nat) (r : RequestId) (validated : List TokenId) :
    SameQueues s (s.updateDraftTokenIds step r validated) := by
  rcases s.updateDraftTokenIds_eq step r validated with he | ⟨q, drafts, stepId, hq, he⟩
  · rw [he]
    exact .refl s
  · rw [he]
    exact .setRequest hq rfl

end Scheduler

namespace Engine
variable [DecidableEq η] {e e' : Engine η} {op : EngineOp η}

/-- The condition on a call: the outputs it processes end no open session that is not running. -/
def SparesSessions (e : Engine η) (op : EngineOp η) : Prop :=
  ∀ mro out rest, op = .updateFromOutput mro → e.inFlight = out :: rest → e.scheduler.SparesSessions out mro

/-- Whatever a call does, the queues stay in order up to sessions lost; a call that spares the sessions loses
none. -/
theorem apply_adrift {X : List RequestId} {k : Nat} (h : e.scheduler.Adrift X k) (hstep : e.apply op = .ok e') :
    ∃ X' k', e'.scheduler.Adrift X' k' ∧ (SparesSessions e op → X'.Sublist X ∧ k' = k) := by
  cases op with
  | addRequest env args =>
    simp only [apply, do_eq_ok] at hstep
    obtain ⟨q, hq, s, h1, rfl⟩ := hstep
    obtain ⟨X', hX, hs, -⟩ := Scheduler.addRequest_adrift h hq h1
    exact ⟨X', k, hs, fun _ => ⟨hX, rfl⟩⟩
  | schedule env =>
    simp only [apply, do_eq_ok] at hstep
    obtain ⟨⟨out, s⟩, h1, rfl⟩ := hstep
    exact ⟨X, k, Scheduler.schedule_adrift h h1, fun _ => ⟨.refl X, rfl⟩⟩
  | updateFromOutput mro =>
    simp only [apply] at hstep
    split at hstep
    · cases hstep
    · next out rest hin =>
      simp only [do_eq_ok] at hstep
      obtain ⟨⟨outputs, s⟩, h1, rfl⟩ := hstep
      obtain ⟨X', k', hs, hkeep, -⟩ := Scheduler.updateFromOutput_adrift h h1
      exact ⟨X', k', hs, fun hK => hkeep (hK mro out rest rfl hin)⟩
  | updateDraftTokenIds step r validated =>
    cases hstep
    exact ⟨X, k, h.same (Scheduler.updateDraftTokenIds_same ..), fun _ => ⟨.refl X, rfl⟩⟩
  | finishRequests env ids status =>
    simp only [apply, do_eq_ok] at hstep
    obtain ⟨s, h1, rfl⟩ := hstep
    obtain ⟨X', hX, hs, -⟩ := Scheduler.finishRequests_adrift h h1
    exact ⟨X', k, hs, fun _ => ⟨hX, rfl⟩⟩
  | resetPrefixCache a b c =>
    simp only [apply, do_eq_ok] at hstep
    obtain ⟨⟨res, s⟩, h1, rfl⟩ := hstep
    exact ⟨X, k, Scheduler.resetPrefixCache_adrift h h1, fun _ => ⟨.refl X, rfl⟩⟩
  | resetEncoderCache => cases hstep; exact ⟨X, k, h, fun _ => ⟨.refl X, rfl⟩⟩
  | setPauseState state => cases hstep; exact ⟨X, k, h, fun _ => ⟨.refl X, rfl⟩⟩

theorem apply_consistent (h : e.scheduler.Consistent []) (hK : SparesSessions e op) (hstep : e.apply op = .ok e') :
    e'.scheduler.Consistent [] := by
  obtain ⟨X', k', hs, hkeep⟩ := apply_adrift (Scheduler.adrift_zero.2 h) hstep
  obtain ⟨hX, rfl⟩ := hkeep hK
  rw [eq_nil_of_sublist_nil hX] at hs
  exact Scheduler.adrift_zero.1 hs

/-- In every run whose outputs spare the sessions that are not running, the queues partition the
unfinished requests. -/
theorem run_partitioned {config : SchedulerConfig} {kvConfig : Coordinator.KVCacheConfig} {e₀ : Engine η}
    (hinit : Engine.init config kvConfig = .ok e₀) (ops : List (EngineOp η)) (hK : Along SparesSessions ops e₀)
    (hrun : e₀.run ops = .ok e) : e.scheduler.Partitioned := by
  simp only [init, do_eq_ok] at hinit
  obtain ⟨s, hs, rfl⟩ := hinit
  refine Scheduler.Consistent.partitioned (run_inv (P := fun e : Engine η => e.scheduler.Consistent []) ?_
    (Scheduler.init_consistent hs) hK hrun)
  intro e op e' he hop hstep
  exact apply_consistent he hop hstep

/-! ### A session preempted with a step in flight

Three usable blocks for two requests. Both prompts are scheduled; the second step preempts the session
while its first token is on the way. -/

def smallCache : Coordinator.KVCacheConfig where
  numBlocks := 4
  groups := [⟨⟨2, .fullAttention, Nat.two_pos, 0⟩, false⟩]

def asyncConfig : SchedulerConfig where
  maxNumRunningReqs := 4
  maxNumScheduledTokens := 16
  maxNumBatchedTokens := 16
  maxModelLen := 16
  maxInFlightTokens := 32
  blockSize := 2
  cacheBlockSize := 2
  hashBlockSize := 2
  asyncScheduling := true
  enablePrefixCaching := false

def chat (id : RequestId) (resumable : Bool) : Request.Args Nat where
  requestId := id
  promptTokenIds := some [1, 2]
  samplingParams := some { maxTokens := 4, eosTokenId := some 9 }
  resumable := resumable

def preemptSession : List (EngineOp Nat) :=
  [.addRequest {} (chat 1 false), .addRequest {} (chat 2 true), .schedule {}, .schedule {}]

def firstTokens (token : TokenId) : EngineOp Nat :=
  .updateFromOutput { sampledTokenIds := fun r => if r = 2 then [token] else [5] }

theorem preemptSession_state : ∃ e₀ e out rest q1 q2, Engine.init asyncConfig smallCache = .ok e₀ ∧
    e₀.run preemptSession = .ok e ∧ e.inFlight = out :: rest ∧ out.numScheduledTokens.keys = [1, 2] ∧
    e.scheduler.config = asyncConfig ∧ e.scheduler.requests.get? 1 = some q1 ∧ q1.status = .running ∧
    e.scheduler.requests.get? 2 = some q2 ∧ q2.requestId = 2 ∧ checkStop (q2.withOutput [5]) 16 = .ok none :=
  ⟨_, _, _, _, _, _, rfl, rfl, rfl, rfl, rfl, rfl, rfl, rfl, rfl, rfl⟩

/-- An ordinary token spares the preempted session. -/
theorem run_partitioned_preemptSession : ∃ e₀ e, Engine.init asyncConfig smallCache = .ok e₀ ∧
    e₀.run (preemptSession ++ [firstTokens 5]) = .ok e ∧ e.scheduler.waiting.items = [2] ∧ e.scheduler.Partitioned := by
  have hrun : ∃ e₀ e, Engine.init asyncConfig smallCache = .ok e₀ ∧
      e₀.run (preemptSession ++ [firstTokens 5]) = .ok e ∧ e.scheduler.waiting.items = [2] := ⟨_, _, rfl, rfl, rfl⟩
  obtain ⟨e₀, e, hinit, hrun, hwait⟩ := hrun
  refine ⟨e₀, e, hinit, hrun, hwait, run_partitioned hinit _ (along_concat ?_ ?_) hrun⟩
  · intro op hop e mro out rest heq
    subst heq
    simp [preemptSession] at hop
  · intro e1 h1 mro out rest hop hin r hr q hq
    obtain ⟨e₀', e1', out', rest', q1, q2, hinit', h1', hin', hkeys, hconf, hq1, hrunning, hq2, hid, hgoes⟩ :=
      preemptSession_state
    cases hinit.symm.trans hinit'
    cases h1.symm.trans h1'
    cases hin.symm.trans hin'
    cases hop
    rw [hkeys] at hr
    rw [hconf]
    rcases mem_pair.1 hr with rfl | rfl
    · cases hq.symm.trans hq1
      exact fun _ hne => absurd hrunning hne
    · cases hq.symm.trans hq2
      intro _ _ _ _ hend
      unfold Scheduler.EndedBy at hend
      rw [hid] at hend
      rcases hend with ⟨before, st, hne, hpre, hstop⟩ | ⟨-, hrej⟩ | ⟨hnil, -⟩
      · rcases prefix_cons_iff.1 hpre with rfl | ⟨l, rfl, hl⟩
        · exact hne rfl
        · rw [prefix_nil.1 hl] at hstop
          cases hgoes.symm.trans hstop
      · cases hrej
      · cases hnil

/-- The end-of-sequence token loses it: the session is in none of the queues. -/
theorem preempted_session_lost : ∃ e₀ e q, Engine.init asyncConfig smallCache = .ok e₀ ∧
    e₀.run (preemptSession ++ [firstTokens 9]) = .ok e ∧ e.scheduler.requests.get? 2 = some q ∧
    q.status = .waitingForStreamingReq ∧ e.scheduler.running = [1] ∧ e.scheduler.waiting.items = [] ∧
    e.scheduler.skippedWaiting.items = [] ∧ ¬ e.scheduler.Partitioned := by
  refine ⟨_, _, _, rfl, rfl, rfl, rfl, rfl, rfl, rfl, fun hp => ?_⟩
  cases hp.once 2 _ rfl rfl

end Engine

end VllmCore
