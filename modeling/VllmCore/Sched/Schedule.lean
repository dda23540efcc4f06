import VllmCore.Sched.Plan

/-! # `schedule`

One scheduling pass: first the running requests, preempting others when the cache is full, then the
waiting ones. The local variables of the method are the fields of a `Pass`; `self` is its `scheduler`. -/

namespace VllmCore
variable {η : Type}

inductive GrammarState where
  | missing
  | failed
  | ready
deriving DecidableEq, Repr

/-- What others answer during a pass: the connectors, the grammar compiler, the adaptive draft budget. -/
structure ScheduleEnv where
  throttlePrefills : Bool := false
  getNumNewMatchedTokens : RequestId → Nat → Option Nat × Bool := fun _ _ => (some 0, false)
  ensureCacheAvailable : RequestId → Int → Bool := fun _ _ => true
  hasCacheItem : RequestId → Nat → Bool := fun _ _ => false
  grammar : RequestId → GrammarState := fun _ => .missing
  /-- the choice of `adaptive_draft_budget`, if there is one -/
  adaptiveDrafts : Option Nat := none

structure Pass (η : Type) where
  scheduler : Scheduler η
  tokenBudget : Int
  inputBudget : Int
  encoderComputeBudget : Int
  deferPrefills : Bool
  stepSkippedWaiting : RequestQueue
  scheduledNewReqs : List RequestId := []
  scheduledResumedReqs : List RequestId := []
  scheduledRunningReqs : List RequestId := []
  preemptedReqs : List RequestId := []
  reqToNewBlocks : Dict RequestId (List (List BlockId)) := Dict.empty
  numScheduledTokens : Dict RequestId Nat := Dict.empty
  scheduledEncoderInputs : Dict RequestId (List Nat) := Dict.empty
  /-- the items the EC connector is told to load -/
  ecLoads : List Nat := []
  scheduledSpecDecodeTokens : Dict RequestId (List TokenId) := Dict.empty
  scheduledSpecDecodeStepIds : Dict RequestId Nat := Dict.empty
  scheduledLoras : List Nat := []
  prefillScheduled : Bool := false
  hasSyncKvLoads : Bool := false

namespace Pass
open Scheduler
variable (p : Pass η)

def draftSlots : Nat := p.scheduler.config.maxNumNewSlotsForDrafting

def applyExl3 (request : Request η) (numComputedTokens : Int) : Pass η :=
  if p.scheduler.config.exl3PrefillAuto then
    let (budget, s) := p.scheduler.exl3PrefillBudget request numComputedTokens (min p.tokenBudget p.inputBudget)
    { p with scheduler := s, tokenBudget := min p.tokenBudget budget, inputBudget := min p.inputBudget budget }
  else p

def planEncoder (env : ScheduleEnv) (request : Request η) (numComputedTokens numNewTokens : Int) :
    Except Err (EncoderPlan × Pass η) :=
  if request.hasEncoderInputs then do
    let (plan, s) ← p.scheduler.tryScheduleEncoderInputs env.hasCacheItem request numComputedTokens numNewTokens
      p.encoderComputeBudget
    pure (plan, { p with scheduler := s })
  else .ok ({ numNewTokens, encoderComputeBudget := p.encoderComputeBudget }, p)

/-- `encoder_cache_manager.allocate` for a list of inputs. -/
def allocateEncoder (request : Request η) (inputs : List Nat) : Except Err (Pass η) := do
  let encoder ← inputs.foldlM (fun c i => c.allocate request i) p.scheduler.encoderCacheManager
  pure { p with scheduler := { p.scheduler with encoderCacheManager := encoder } }

def recordEncoder (r : RequestId) (request : Request η) (plan : EncoderPlan) : Except Err (Pass η) := do
  let inputs := plan.encoderInputsToSchedule
  let p ← p.allocateEncoder request inputs
  let p := if inputs = [] then p else
    { p with
      scheduledEncoderInputs := p.scheduledEncoderInputs.set r inputs
      encoderComputeBudget := plan.encoderComputeBudget }
  let external := plan.externalLoadEncoderInput
  let p ← p.allocateEncoder request external
  pure { p with ecLoads := p.ecLoads ++ external.filterMap fun i => request.mmFeatures[i]?.map fun f => f.identifier }

/-! ### Running requests -/

/-- The reasons to pass over a running request. -/
def skipsRunning (env : ScheduleEnv) (request : Request η) : Bool :=
  -- the previous step has reached `max_tokens`
  (decide (request.numOutputPlaceholders > 0) &&
    decide ((request.numComputedTokens : Int) + 2 - request.numOutputPlaceholders ≥
      request.numPromptTokens + request.maxTokens)) ||
  decide (p.scheduler.currentStep < request.nextDecodeEligibleStep) ||
  (p.deferPrefills && request.isPrefillChunk) ||
  (p.scheduler.config.ecConnector && !request.mmFeatures.isEmpty &&
    !env.ensureCacheAvailable request.requestId (request.numComputedTokens - request.numOutputPlaceholders))

/-- The tokens a running request asks for, before its encoder inputs are looked at. -/
def runningNumNewTokens (request : Request η) : Int × Pass η :=
  let computed : Int := request.numComputedTokens
  let n := p.scheduler.capLongPrefill (request.numTokensWithSpec + request.numOutputPlaceholders - computed)
  let p := p.applyExl3 request computed
  let n := min n (min p.tokenBudget (p.inputBudget - p.draftSlots))
  -- the input position stays below the model length
  let n := min n (p.scheduler.config.maxModelLen - computed - p.scheduler.config.numSampledTokensPerStep)
  let n := if p.scheduler.mamba.needMambaBlockAlignedSplit then p.scheduler.mambaBlockAlignedSplit request n 0 0 else n
  (n, p)

/-- The key of the preemption victim, `(priority, arrival_time)`. -/
def victimKey (s : Scheduler η) (r : RequestId) : Int × Int :=
  match s.requests.get? r with
  | some request => (request.priority, request.arrivalTime)
  | none => (0, 0)

/-- `max(self.running, key=...)`: the first of the largest. -/
def lowestPriority (s : Scheduler η) : List RequestId → Option RequestId
  | [] => none
  | r :: rs => some (rs.foldl (fun best q =>
      let a := victimKey s best
      let b := victimKey s q
      if a.1 < b.1 ∨ (a.1 = b.1 ∧ a.2 < b.2) then q else best) r)

/-- A victim that is scheduled in this pass already gives its share back. -/
def withdraw (r : RequestId) : Except Err (Pass η) :=
  if r ∈ p.scheduledRunningReqs then do
    let request ← p.scheduler.getRequest r
    match p.numScheduledTokens.get? r, p.reqToNewBlocks.get? r with
    | some restored, some _ => do
      let inputs := p.scheduledEncoderInputs.getD r []
      let embeds ← inputs.mapM fun i => request.getNumEncoderEmbeds i
      pure { p with
        scheduledRunningReqs := p.scheduledRunningReqs.erase r
        numScheduledTokens := p.numScheduledTokens.erase r
        tokenBudget := p.tokenBudget + restored
        inputBudget := p.inputBudget + (restored + p.draftSlots)
        reqToNewBlocks := p.reqToNewBlocks.erase r
        scheduledSpecDecodeTokens := p.scheduledSpecDecodeTokens.erase r
        scheduledSpecDecodeStepIds := p.scheduledSpecDecodeStepIds.erase r
        scheduledEncoderInputs := p.scheduledEncoderInputs.erase r
        encoderComputeBudget := p.encoderComputeBudget + (embeds.sum : Nat) }
    | _, _ => .error .keyError
  else .ok p

/-- Take the victim from `running`; the cursor follows a removal in front of it. -/
def takeVictim (reqIndex : Nat) : Except Err (RequestId × Pass η × Nat) :=
  let running := p.scheduler.running
  match p.scheduler.config.policy with
  | .priority =>
    match lowestPriority p.scheduler running with
    | none => .error (.valueError "max() iterable argument is empty")
    | some victim => do
      let victimIndex := running.idxOf victim
      let p := { p with scheduler := { p.scheduler with running := running.eraseIdx victimIndex } }
      let p ← p.withdraw victim
      pure (victim, p, if victimIndex < reqIndex then reqIndex - 1 else reqIndex)
  | .fcfs =>
    match running.getLast? with
    | none => .error .indexError
    | some victim =>
      .ok (victim, { p with scheduler := { p.scheduler with running := running.dropLast } }, reqIndex)

def preemptOne (reqIndex : Nat) : Except Err (RequestId × Pass η × Nat) := do
  let (victim, p, reqIndex) ← p.takeVictim reqIndex
  let s ← p.scheduler.preemptRequest victim p.scheduler.config.requiresKvDelivery
  pure (victim, { p with scheduler := s, preemptedReqs := p.preemptedReqs ++ [victim] }, reqIndex)

section Loops
variable [DecidableEq η] (p : Pass η)

/-- The `while True` loop around `allocate_slots`: preempt until the request fits or is preempted itself.
Every round takes a request from `running`, so its length is enough fuel. -/
def allocateLoop (r : RequestId) (numNewTokens : Nat) :
    Nat → Pass η → Nat → Except Err (Option (List (List BlockId)) × Pass η × Nat)
  | 0, _, _ => .error .indexError
  | fuel + 1, p, reqIndex => do
    let request ← p.scheduler.getRequest r
    let (newBlocks, kv) ← p.scheduler.kvCacheManager.allocateSlots request
      { numNewTokens, numLookaheadTokens := p.scheduler.config.numLookaheadTokens }
    let p := { p with scheduler := { p.scheduler with kvCacheManager := kv } }
    match newBlocks with
    | some blocks => pure (some blocks, p, reqIndex)
    | none => do
      let (victim, p, reqIndex) ← p.preemptOne reqIndex
      if victim = r then pure (none, p, reqIndex) else allocateLoop r numNewTokens fuel p reqIndex

/-- The draft tokens that fit into the scheduled ones; the others are dropped. -/
def recordDrafts (r : RequestId) (request : Request η) (numNewTokens : Nat) : Pass η :=
  if request.specTokenIds = [] then p
  else
    let n := (numNewTokens : Int) + request.numComputedTokens - request.numTokens - request.numOutputPlaceholders
    let spec := request.specTokenIds.take n.toNat
    let p := if n > 0 then
        { p with
          scheduledSpecDecodeTokens := p.scheduledSpecDecodeTokens.set r spec
          scheduledSpecDecodeStepIds :=
            match request.specTokenIdsStepId with
            | some step => if spec.any fun t => decide (t < 0) then p.scheduledSpecDecodeStepIds.set r step
                else p.scheduledSpecDecodeStepIds
            | none => p.scheduledSpecDecodeStepIds }
      else p
    { p with scheduler := p.scheduler.setRequest r { request with specTokenIds := [], specTokenIdsStepId := none } }

def recordRunning (r : RequestId) (newBlocks : List (List BlockId)) (numNewTokens : Nat) (plan : EncoderPlan) :
    Except Err (Pass η) := do
  let request ← p.scheduler.getRequest r
  let p := { p with
    scheduledRunningReqs := p.scheduledRunningReqs ++ [r]
    prefillScheduled := p.prefillScheduled || request.isPrefillChunk
    reqToNewBlocks := p.reqToNewBlocks.set r newBlocks
    numScheduledTokens := p.numScheduledTokens.set r numNewTokens
    tokenBudget := p.tokenBudget - numNewTokens
    inputBudget := p.inputBudget - (numNewTokens + p.draftSlots) }
  (p.recordDrafts r request numNewTokens).recordEncoder r request plan

/-- The loop over `running`. Every round moves the cursor towards the end of the list, so the length of
the list is enough fuel. -/
def runningLoop (env : ScheduleEnv) : Nat → Pass η → Nat → Except Err (Pass η)
  | 0, p, _ => .ok p
  | fuel + 1, p, reqIndex =>
    match p.scheduler.running[reqIndex]? with
    | none => .ok p
    | some r =>
      if p.tokenBudget ≤ 0 ∨ p.inputBudget ≤ p.draftSlots then .ok p
      else do
        let request ← p.scheduler.getRequest r
        if p.skipsRunning env request then runningLoop env fuel p (reqIndex + 1)
        else do
          let (n, p) := p.runningNumNewTokens request
          let (plan, p) ← p.planEncoder env request request.numComputedTokens n
          let n := p.scheduler.reservePrefillLookahead request request.numComputedTokens plan.numNewTokens
          if n = 0 then runningLoop env fuel p (reqIndex + 1)
          else do
            let (newBlocks, p, reqIndex) ← allocateLoop r n p.scheduler.running.length p reqIndex
            match newBlocks with
            | none => pure p
            | some blocks => do
              let p ← p.recordRunning r blocks n plan
              runningLoop env fuel p (reqIndex + 1)

end Loops

def recordLoras : Except Err (Pass η) :=
  match p.scheduler.config.maxLoras with
  | none => .ok p
  | some maxLoras => do
    let loras := p.scheduledRunningReqs.foldl (fun ls r =>
      match (p.scheduler.requests.get? r).bind fun q => q.loraRequest with
      | some l => if l.adapterId > 0 then insertNew l.adapterId ls else ls
      | none => ls) []
    Except.ensure (loras.length ≤ maxLoras) (.assertionError "len(scheduled_loras) <= self.lora_config.max_loras")
    pure { p with scheduledLoras := loras }

end Pass

end VllmCore
