import VllmCore.Sched.Update

/-! # Runs of the scheduler

What `EngineCore` does with its scheduler: calls come in any order, and the outputs of scheduled steps are
processed first in, first out. A run is a list of calls; a call that raises ends it. -/

namespace VllmCore
variable {η : Type}

/-- A scheduler and its steps in flight, oldest first. -/
structure Engine (η : Type) where
  scheduler : Scheduler η
  inFlight : List SchedulerOutput := []

/-- A call, with the answers that others give during it. -/
inductive EngineOp (η : Type) where
  | addRequest (env : Scheduler.FinishEnv) (args : Request.Args η)
  | schedule (env : ScheduleEnv)
  | updateFromOutput (mro : ModelRunnerOutput)
  | updateDraftTokenIds (producerStepId : Option Nat) (r : RequestId) (validated : List TokenId)
  | finishRequests (env : Scheduler.FinishEnv) (requestIds : List RequestId) (finishedStatus : RequestStatus)
  | resetPrefixCache (resetRunningRequests resetConnector connectorResets : Bool)
  | resetEncoderCache
  | setPauseState (pauseState : PauseState)

variable {K : Engine η → EngineOp η → Prop} {ops : List (EngineOp η)}

namespace Engine

def init (config : SchedulerConfig) (kvCacheConfig : Coordinator.KVCacheConfig) : Except Err (Engine η) := do
  let s ← Scheduler.init config kvCacheConfig
  pure { scheduler := s }

section
variable [DecidableEq η]

def apply (e : Engine η) : EngineOp η → Except Err (Engine η)
  | .addRequest env args => do
    let request ← Request.init args
    let s ← e.scheduler.addRequest env request
    pure { e with scheduler := s }
  | .schedule env => do
    let (out, s) ← e.scheduler.schedule env
    pure { scheduler := s, inFlight := e.inFlight ++ [out] }
  | .updateFromOutput mro =>
    match e.inFlight with
    | [] => .error .indexError
    | out :: rest => do
      let (_, s) ← e.scheduler.updateFromOutput out mro
      pure { scheduler := s, inFlight := rest }
  | .updateDraftTokenIds step r validated =>
    .ok { e with scheduler := e.scheduler.updateDraftTokenIds step r validated }
  | .finishRequests env ids status => do
    let s ← e.scheduler.finishRequests env ids status
    pure { e with scheduler := s }
  | .resetPrefixCache a b c => do
    let (_, s) ← e.scheduler.resetPrefixCache a b c
    pure { e with scheduler := s }
  | .resetEncoderCache => .ok { e with scheduler := e.scheduler.resetEncoderCache }
  | .setPauseState state => .ok { e with scheduler := e.scheduler.setPauseState state }

def run (ops : List (EngineOp η)) (e : Engine η) : Except Err (Engine η) := ops.foldlM apply e

/-- Every call of the run is made in a state that satisfies `K`. -/
def Along (K : Engine η → EngineOp η → Prop) : List (EngineOp η) → Engine η → Prop
  | [], _ => True
  | op :: ops, e => K e op ∧ ∀ e', e.apply op = .ok e' → Along K ops e'

/-- What every call keeps, under the condition it is made in, holds at the end of the run. -/
theorem run_inv {P : Engine η → Prop} {e e' : Engine η} (hstep : ∀ e op e', P e → K e op → e.apply op = .ok e' → P e')
    (he : P e) (hK : Along K ops e) (h : e.run ops = .ok e') : P e' := by
  induction ops generalizing e with
  | nil => cases h; exact he
  | cons op ops ih =>
    unfold run at h
    rw [List.foldlM_cons, Except.bind_eq_ok] at h
    obtain ⟨e1, h1, h⟩ := h
    exact ih (hstep e op e1 he hK.1 h1) (hK.2 e1 h1) h

theorem along_concat {op : EngineOp η} {e : Engine η} (hpre : ∀ op ∈ ops, ∀ e, K e op)
    (hlast : ∀ e', e.run ops = .ok e' → K e' op) : Along K (ops ++ [op]) e := by
  induction ops generalizing e with
  | nil => exact ⟨hlast e rfl, fun _ _ => trivial⟩
  | cons a ops ih =>
    refine ⟨hpre a (List.mem_cons_self ..) e, fun e1 h1 => ih (fun b hb => hpre b (List.mem_cons_of_mem _ hb)) ?_⟩
    intro e' he'
    refine hlast e' ?_
    unfold run
    rw [List.foldlM_cons, h1]
    exact he'

end

end Engine

end VllmCore
