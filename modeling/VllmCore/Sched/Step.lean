import VllmCore.Sched.Admission

/-! # A whole scheduling step

`Scheduler.schedule` from its first line to the output it emits, with the bookkeeping of
`_update_after_schedule` and the parts that `AsyncScheduler` adds. -/

namespace VllmCore
open Except
variable {η : Type}

/-- The part of `SchedulerOutput` that the scheduler or the modelled workers read. -/
structure SchedulerOutput where
  scheduledNewReqs : List RequestId
  scheduledResumedReqs : List RequestId
  scheduledRunningReqs : List RequestId
  numScheduledTokens : Dict RequestId Nat
  totalNumScheduledTokens : Nat
  scheduledSpecDecodeTokens : Dict RequestId (List TokenId)
  scheduledSpecDecodeStepIds : Dict RequestId Nat
  scheduledEncoderInputs : Dict RequestId (List Nat)
  /-- the items the EC connector loads in this step -/
  ecLoads : List Nat
  preemptedReqIds : List RequestId
  finishedReqIds : List RequestId
  freeEncoderMmHashes : List Nat
  newBlockIdsToZero : Option (List (List BlockId))
  kvCacheBlockCopies : List (BlockId × BlockId)
  hasSyncKvLoads : Bool
  numSpecTokensToSchedule : Nat
  schedulerStepId : Nat

namespace Scheduler
variable (s : Scheduler η)

/-! ### Before the loops -/

/-- `AsyncScheduler.schedule`: move the decodes of a pipeline to one phase. -/
def alignDecodes : Scheduler η :=
  if s.config.asyncScheduling && s.config.alignHybridDecodes then
    let decodes := s.running.filterMap fun r => (s.requests.get? r).bind fun request =>
      if request.isPrefillChunk then none else some (r, request)
    match (decodes.map fun e => e.2.nextDecodeEligibleStep).min? with
    | none => { s with decodePhase := none }
    | some first =>
      let pp := s.config.ppSize
      let phase := s.decodePhase.getD (first % pp)
      { s with
        decodePhase := some phase
        requests := decodes.foldl (fun d e => d.set e.1 { e.2 with
          nextDecodeEligibleStep := e.2.nextDecodeEligibleStep +
            (((phase : Int) - e.2.nextDecodeEligibleStep) % pp).toNat }) s.requests }
  else s

/-- With a limited number of cache tokens and no connector, completed windows are released first. -/
def recycleWindows : Except Err (Scheduler η) :=
  if s.config.kvCacheTokens && s.config.connector.isNone then
    s.running.foldlM (fun s r => do
      let request ← s.getRequest r
      let kv ← s.kvCacheManager.recycleSlidingWindows request
      pure { s with kvCacheManager := kv }) s
  else .ok s

def anyDecoding : Bool :=
  s.running.any fun r => (s.requests.get? r).any fun request =>
    decide (request.numComputedTokens ≥ request.numPromptTokens)

/-- Prefills are deferred on a throttled step that has something else to run. -/
def defersPrefills (env : ScheduleEnv) : Bool :=
  env.throttlePrefills && !s.prefillCapacityBound &&
    s.running.any fun r => (s.requests.get? r).any fun request => !request.isPrefillChunk

def startPass (env : ScheduleEnv) : Pass η :=
  let exl3 := s.config.exl3PrefillAuto
  let small := exl3 && s.anyDecoding
  let tokens : Int := s.config.maxNumScheduledTokens
  let inputs : Int := s.config.maxNumBatchedTokens
  { scheduler := { s with
      currentStep := s.currentStep + 1
      exl3Int8PrefillRequests :=
        if exl3 then s.exl3Int8PrefillRequests.filter fun r => s.requests.contains r else s.exl3Int8PrefillRequests
      kvCacheManager := s.kvCacheManager.newStepStarts }
    tokenBudget := if s.pauseState = .pausedAll then 0 else if small then min tokens 2048 else tokens
    inputBudget := if small then min inputs 2048 else inputs
    encoderComputeBudget := s.config.maxNumEncoderInputTokens
    deferPrefills := s.defersPrefills env
    stepSkippedWaiting := { policy := s.config.policy } }

/-! ### After the loops -/

def checkPass (p : Pass η) : Except Err Unit := do
  ensure ((p.numScheduledTokens.total fun _ n => n) ≤ p.scheduler.config.maxNumScheduledTokens)
    (.assertionError "total_num_scheduled_tokens <= self.max_num_scheduled_tokens")
  ensure (p.tokenBudget ≥ 0) (.assertionError "token_budget >= 0")
  ensure (p.inputBudget ≥ 0) (.assertionError "input_budget >= 0")
  ensure (p.scheduler.running.length ≤ p.scheduler.config.maxNumRunningReqs)
    (.assertionError "len(self.running) <= self.max_num_running_reqs")
  ensure (p.scheduledNewReqs.length + p.scheduledResumedReqs.length + p.scheduledRunningReqs.length ≤
    p.scheduler.running.length) (.assertionError "len(scheduled reqs) <= len(self.running)")

/-- Drain the pending copies; their endpoints are released once the copies have run. -/
def takeCopies : Except Err (List (BlockId × BlockId) × Scheduler η) := do
  let (copies, retained, kv) := s.kvCacheManager.takeKvCacheBlockCopies
  let s := { s with kvCacheManager := kv }
  if copies = [] then pure ([], s)
  else do
    let s ← s.freeCowRetainedBlocks retained (s.schedStepSeq + 1)
    pure (copies, s)

def numSpecTokensToSchedule (env : ScheduleEnv) (numReqs : Nat) : Except Err Nat :=
  match env.adaptiveDrafts, s.config.dynamicSdLookup with
  | some n, _ => .ok n
  | none, some lookup =>
    if numReqs = 0 then .ok s.config.numSpecTokens
    else match lookup[numReqs]? with
      | some n => .ok n
      | none => .error .indexError
  | none, none => .ok s.config.numSpecTokens

def getNewBlockIdsToZero : Option (List (List BlockId)) × Scheduler η :=
  let (ids, kv) := s.kvCacheManager.takeNewBlockIds
  let s := { s with kvCacheManager := kv }
  if !s.needsKvCacheZeroing then (none, s)
  else
    let ids := ((List.range ids.length).zip ids).map fun (g, bs) =>
      bs.filter fun b => b ∉ s.skipZeroBlockIds.getD g []
    (if ids.all List.isEmpty then none else some ids, { s with skipZeroBlockIds := Dict.empty })

/-- `_update_after_schedule` for one request. -/
def advance (request : Request η) (n : Nat) : Request η :=
  let computed := request.numComputedTokens + n
  { request with
    numComputedTokens := computed
    numInFlightTokens := request.numInFlightTokens + n
    lastSchedSeq := if s.config.deferBlockFree then s.schedStepSeq else request.lastSchedSeq
    isPrefillChunk := decide ((computed : Int) < request.numTokens + request.numOutputPlaceholders) }

def advanceRequest (e : RequestId × Nat) : Except Err (Scheduler η) := do
  let request ← s.getRequest e.1
  let request := s.advance request e.2
  let s := s.setRequest e.1 request
  pure { s with
    inflightPrefills :=
      if request.isPrefillChunk then s.inflightPrefills else s.inflightPrefills.filter fun q => q ≠ e.1 }

/-- `AsyncScheduler._update_after_schedule` for one request: placeholders for what the step will sample. -/
def addPlaceholders (out : SchedulerOutput) (s : Scheduler η) (r : RequestId) : Except Err (Scheduler η) := do
  let request ← s.getRequest r
  if request.isPrefillChunk then pure s
  else
    let drafts := (out.scheduledSpecDecodeTokens.getD r []).length
    let placeholders : List TokenId := List.replicate out.numSpecTokensToSchedule (-1)
    pure (s.setRequest r { request with
      numOutputPlaceholders := request.numOutputPlaceholders + (s.config.numSampledTokensPerStep + drafts : Nat)
      specTokenIds := placeholders
      specTokenIdsStepId :=
        if s.config.useV2ModelRunner && request.structuredOutputRequest && !placeholders.isEmpty then
          some out.schedulerStepId
        else none
      nextDecodeEligibleStep :=
        if s.config.useV2ModelRunner then s.currentStep + s.config.ppSize else request.nextDecodeEligibleStep })

def asyncPlaceholders (out : SchedulerOutput) : Except Err (Scheduler η) :=
  if s.config.asyncScheduling then out.numScheduledTokens.keys.foldlM (addPlaceholders out) s else .ok s

def updateAfterSchedule (out : SchedulerOutput) : Except Err (Scheduler η) := do
  let s ← out.numScheduledTokens.entries.foldlM advanceRequest s
  asyncPlaceholders { s with finishedReqIds := [], resetPreemptedReqIds := [] } out

def emit (env : ScheduleEnv) (p : Pass η) : Except Err (SchedulerOutput × Scheduler η) := do
  checkPass p
  let s := { p.scheduler with kvCacheManager := p.scheduler.kvCacheManager.takeBoundaryStateOffloads.2 }
  let (copies, s) ← s.takeCopies
  let numSpecTokensToSchedule ← s.numSpecTokensToSchedule env p.numScheduledTokens.entries.length
  let (freed, encoder) := s.encoderCacheManager.getFreedMmHashes
  let (newBlockIdsToZero, s) := { s with encoderCacheManager := encoder }.getNewBlockIdsToZero
  let total := p.numScheduledTokens.total fun _ n => n
  let out : SchedulerOutput :=
    { scheduledNewReqs := p.scheduledNewReqs
      scheduledResumedReqs := p.scheduledResumedReqs
      scheduledRunningReqs := p.scheduledRunningReqs
      numScheduledTokens := p.numScheduledTokens
      totalNumScheduledTokens := total
      scheduledSpecDecodeTokens := p.scheduledSpecDecodeTokens
      scheduledSpecDecodeStepIds := p.scheduledSpecDecodeStepIds
      scheduledEncoderInputs := p.scheduledEncoderInputs
      ecLoads := p.ecLoads
      preemptedReqIds := s.resetPreemptedReqIds
      finishedReqIds := s.finishedReqIds
      freeEncoderMmHashes := freed
      newBlockIdsToZero
      kvCacheBlockCopies := copies
      hasSyncKvLoads := p.hasSyncKvLoads
      numSpecTokensToSchedule
      schedulerStepId := s.currentStep }
  -- only steps that write KV move the fence
  let s := { s with
    schedStepSeq := if s.config.deferBlockFree && decide (0 < total) then s.schedStepSeq + 1 else s.schedStepSeq }
  let s ← s.updateAfterSchedule out
  pure (out, s)

def schedule [DecidableEq η] (s : Scheduler η) (env : ScheduleEnv) : Except Err (SchedulerOutput × Scheduler η) := do
  let s ← s.alignDecodes.recycleWindows
  let p ← Pass.runningLoop env s.running.length (s.startPass env) 0
  let p ← p.recordLoras
  let p ← p.scheduleWaiting env
  emit env p

end Scheduler

end VllmCore
