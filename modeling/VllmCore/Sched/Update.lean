import VllmCore.Sched.InvalidBlocks
import VllmCore.Sched.Step

/-! # `update_from_output`

What the scheduler does with the outputs of an executed step. Tokens, pooled outputs, grammar verdicts and
connector reports are arguments. -/

namespace VllmCore
open Except
variable {η : Type}

/-! ### Stop conditions -/

/-- `_has_repeating_pattern`: the last `patternLen` tokens repeat in the groups before them. -/
def hasRepeatingPattern (tokenIds : List TokenId) (patternLen repetitionMinCount : Nat) : Bool :=
  let back := tokenIds.reverse
  (List.range' 1 patternLen).all fun n => (List.range' 1 (repetitionMinCount - 1)).all fun m =>
    back[patternLen * m + n - 1]? == back[n - 1]?

def checkSequenceRepetition (tokenIds : List TokenId) (params : RepetitionDetectionParams) : Bool :=
  let minPatternSize := if params.minPatternSize ≤ 0 then 1 else params.minPatternSize
  if params.maxPatternSize ≤ 0 ∨ params.minCount < 2 ∨ minPatternSize > params.maxPatternSize then false
  else
    let sizes := List.range' minPatternSize.toNat (params.maxPatternSize + 1 - minPatternSize).toNat
    (sizes.takeWhile fun len => decide (len * params.minCount.toNat ≤ tokenIds.length)).any fun len =>
      hasRepeatingPattern tokenIds len params.minCount.toNat

/-- `check_stop`: the status of a request that stops. -/
def checkStop (request : Request η) (maxModelLen : Nat) : Except Err (Option RequestStatus) :=
  match request.poolingParams, request.samplingParams, request.outputTokenIds.getLast? with
  | some _, _, _ => .error (.assertionError "not request.pooling_params")
  | none, none, _ => .error (.assertionError "sampling_params is not None")
  | none, some _, none => .error .indexError
  | none, some params, some lastTokenId =>
    if params.eosTokenId = some lastTokenId then .ok (some .finishedStopped)
    else if lastTokenId ∈ params.stopTokenIds then .ok (some .finishedStopped)
    else if request.numTokens ≥ maxModelLen ∨ request.numOutputTokens ≥ request.maxTokens then
      .ok (some .finishedLengthCapped)
    else if request.numOutputTokens < params.minTokens then .ok none
    else if params.repetitionDetection.any fun d => checkSequenceRepetition request.outputTokenIds d then
      .ok (some .finishedRepetition)
    else .ok none

/-- The loop of `_update_request_with_output`: tokens behind the one that stops are trimmed. -/
def appendUntilStop (maxModelLen : Nat) : List TokenId → Request η → Except Err (List TokenId × Bool × Request η)
  | [], request => .ok ([], false, request)
  | t :: ts, request => do
    let request := request.appendOutputTokenIds [t]
    match ← checkStop request maxModelLen with
    | some status => pure ([t], true, { request with status })
    | none => do
      let (newTokenIds, stopped, request) ← appendUntilStop maxModelLen ts request
      pure (t :: newTokenIds, stopped, request)

/-! ### Model outputs -/

structure KVConnectorOutput where
  invalidBlockIds : List BlockId := []
  finishedRecving : List RequestId := []
  finishedSending : List RequestId := []

/-- The outputs of a step, and what others answer while they are processed. -/
structure ModelRunnerOutput where
  sampledTokenIds : RequestId → List TokenId := fun _ => []
  poolerOutput : RequestId → Bool := fun _ => false
  /-- the grammar of the request is advanced by the tokens and rejects them -/
  grammarRejects : RequestId → List TokenId → Bool := fun _ _ => false
  kvConnectorOutput : Option KVConnectorOutput := none
  /-- requests whose encoder inputs the EC connector can no longer obtain -/
  unavailableRequests : List RequestId := []
  finishEnv : Scheduler.FinishEnv := {}

structure EngineCoreOutput where
  requestId : RequestId
  newTokenIds : List TokenId
  /-- the status that `get_finished_reason` is taken from -/
  finishReason : Option RequestStatus
deriving DecidableEq, Repr

namespace Scheduler
variable (s : Scheduler η)

/-! ### Failed loads -/

def setRequests (requests : List (Request η)) : Scheduler η :=
  requests.foldl (fun s request => s.setRequest request.requestId request) s

/-- `_update_requests_with_invalid_blocks` on requests of the scheduler. -/
def updateInvalid (invalidBlockIds : List BlockId) (numScheduledTokens : Dict RequestId Nat) (ids : List RequestId)
    (evictBlocks : Bool) : Except Err (InvalidBlocks.InvalidScan × Scheduler η) := do
  let requests ← ids.mapM s.getRequest
  let (requests, scan) ← InvalidBlocks.updateRequestsWithInvalidBlocks s.config.blockSize invalidBlockIds evictBlocks
    numScheduledTokens s.kvCacheManager requests {}
  pure (scan, s.setRequests requests)

def loadingReqs : List RequestId :=
  (s.skippedWaiting.iter s.before).filter fun r =>
    (s.requests.get? r).any fun request => request.status == .waitingForRemoteKvs

section Failures
variable [DecidableEq η] (s : Scheduler η)

/-- `_handle_invalid_blocks`: the requests to leave out of the main loop. -/
def handleInvalidBlocks (invalidBlockIds : List BlockId) (numScheduledTokens : Dict RequestId Nat) :
    Except Err (List RequestId × Scheduler η) := do
  let (loads, s) ← s.updateInvalid invalidBlockIds numScheduledTokens s.loadingReqs false
  let (sync, s) ← s.updateInvalid invalidBlockIds numScheduledTokens s.running true
  if loads.affectedReqIds = [] ∧ sync.affectedReqIds = [] then pure ([], s)
  else if s.config.recomputeKvLoadFailures then
    -- failed loads are retried once loading completes
    pure (sync.affectedReqIds,
      { s with failedRecvingKvReqIds := InvalidBlocks.updateSet s.failedRecvingKvReqIds loads.affectedReqIds })
  else do
    let kv ← s.kvCacheManager.evictBlocks sync.blocksToEvict
    pure (InvalidBlocks.updateSet loads.affectedReqIds sync.affectedReqIds, { s with kvCacheManager := kv })

/-- Failed loads come first, if any are reported. -/
def handleFailures (out : SchedulerOutput) (mro : ModelRunnerOutput) : Except Err (List RequestId × Scheduler η) :=
  match mro.kvConnectorOutput with
  | some report =>
    if report.invalidBlockIds = [] then .ok ([], s)
    else s.handleInvalidBlocks report.invalidBlockIds out.numScheduledTokens
  | none => .ok ([], s)

end Failures

/-! ### One request's output -/

/-- Tokens leave flight, and with them a stale share. -/
def landTokens (request : Request η) (n : Nat) : Except Err (Bool × Request η) :=
  let request := { request with numInFlightTokens := request.numInFlightTokens - n }
  if request.numStaleOutputTokens > 0 then do
    let request := { request with numStaleOutputTokens := request.numStaleOutputTokens - n }
    ensure (request.numStaleOutputTokens ≥ 0) (.assertionError "request.num_stale_output_tokens >= 0")
    pure (true, request)
  else .ok (false, request)

/-- Rejected draft tokens are not computed. A stale count predates the rollback of the preemption. -/
def rollbackRejected (out : SchedulerOutput) (generated : List TokenId) (stale : Bool) (request : Request η) :
    Request η :=
  let drafts := out.scheduledSpecDecodeTokens.getD request.requestId []
  if drafts = [] ∨ (generated = [] ∧ s.config.numSampledTokensPerStep ≠ 0) ∨ stale then request
  else
    let accepted := generated.length - s.config.numSampledTokensPerStep
    let rejected : Int := (drafts.length : Int) - accepted
    { request with
      numComputedTokens :=
        if request.numComputedTokens > 0 then ((request.numComputedTokens : Int) - rejected).toNat
        else request.numComputedTokens
      numOutputPlaceholders :=
        if request.numOutputPlaceholders > 0 then request.numOutputPlaceholders - rejected
        else request.numOutputPlaceholders }

/-- The encoder inputs that no token of the request refers to any more. -/
def passedInputs (request : Request η) : List Nat :=
  (s.encoderCacheManager.getCachedInputIds request).filter fun i =>
    (request.mmFeatures[i]?).any fun f =>
      (s.config.isEncoderDecoder && decide (request.numComputedTokens > 0)) ||
      decide ((f.mmPosition.offset + f.mmPosition.length + s.config.numPrefillLookahead : Int) ≤
        request.numComputedTokens - request.numOutputPlaceholders)

def freeEncoderInputs (request : Request η) : Except Err (Scheduler η) := do
  let encoder ← (s.passedInputs request).foldlM (fun c i => c.freeEncoderInput request i) s.encoderCacheManager
  pure { s with encoderCacheManager := encoder }

section Tokens
variable [DecidableEq η] (s : Scheduler η)

/-- What `AsyncScheduler` adds to `_update_request_with_output`: placeholders are used up, and the tokens
of a running request are cached. -/
def settlePlaceholders (statusBefore : RequestStatus) (stale : Bool) (numNew : Nat) (request : Request η) :
    Except Err (Request η × Scheduler η) := do
  let request := { request with
    numOutputPlaceholders := if stale then request.numOutputPlaceholders else request.numOutputPlaceholders - numNew }
  ensure (stale ∨ request.numOutputPlaceholders ≥ 0) (.assertionError "request.num_output_placeholders >= 0")
  if statusBefore = .running then do
    let kv ← s.kvCacheManager.cacheBlocks request
      ((request.numComputedTokens : Int) - request.numOutputPlaceholders).toNat
    pure (request, { s with kvCacheManager := kv })
  else pure (request, s)

def updateRequestWithOutput (request : Request η) (tokens : List TokenId) (stale : Bool) :
    Except Err (List TokenId × Bool × Request η × Scheduler η) := do
  let (newTokenIds, stopped, updated) ← appendUntilStop s.config.maxModelLen tokens request
  if s.config.asyncScheduling then do
    let (updated, s) ← s.settlePlaceholders request.status stale newTokenIds.length updated
    pure (newTokenIds, stopped, updated, s)
  else pure (newTokenIds, stopped, updated, s)

def stopOrAppend (mro : ModelRunnerOutput) (request : Request η) (stale : Bool) :
    Except Err (List TokenId × Bool × Request η × Scheduler η) :=
  let tokens := mro.sampledTokenIds request.requestId
  if tokens ≠ [] then s.updateRequestWithOutput request tokens stale
  else if request.poolingParams.isSome && mro.poolerOutput request.requestId then
    .ok ([], true, { request with status := .finishedStopped }, s)
  else if s.config.isMmEncoderOnly && decide (request.numComputedTokens ≥ request.numPromptTokens) then
    .ok ([], true, { request with status := .finishedStopped }, s)
  else .ok ([], false, request, s)

end Tokens

variable (mro : ModelRunnerOutput)

def applyGrammar (newTokenIds : List TokenId) (stopped : Bool) (request : Request η) : Bool × Request η :=
  if newTokenIds ≠ [] && mro.grammarRejects request.requestId newTokenIds then
    (true, { request with status := .finishedError, resumable := false })
  else (stopped, request)

/-- `_handle_stopped_request`: `true` if the request is finished; a session waits for, or takes, its next
input. -/
def handleStoppedRequest (r : RequestId) : Except Err (Bool × Scheduler η) := do
  let request ← s.getRequest r
  if !request.resumable then pure (true, s)
  else
    match request.streamingQueue.getD [] with
    | none :: rest => pure (true, s.setRequest r { request with streamingQueue := some rest })
    | some u :: rest => do
      let s ← (s.setRequest r { request with streamingQueue := some rest }).updateRequestAsSession r u
      pure (false, s.enqueueWaitingRequest r .waiting)
    | [] =>
      let s := s.setRequest r { request with status := .waitingForStreamingReq }
      pure (false,
        { s with numWaitingForStreamingInput := s.numWaitingForStreamingInput + 1 }.enqueueWaitingRequest r
          .waitingForStreamingReq)

def freeIfFinished (env : FinishEnv) (r : RequestId) (finished : Bool) : Except Err (Scheduler η) :=
  if finished then s.freeRequest env r false else .ok s

structure UpdateState (η : Type) where
  scheduler : Scheduler η
  stoppedRunningReqs : List RequestId := []
  stoppedPreemptedReqs : List RequestId := []
  outputs : List EngineCoreOutput := []

namespace UpdateState

def finishStopped (u : UpdateState η) (env : FinishEnv) (r : RequestId) (statusBefore : RequestStatus) :
    Except Err (UpdateState η) := do
  let (finished, s) ← u.scheduler.handleStoppedRequest r
  let s ← s.freeIfFinished env r finished
  pure { u with
    scheduler := s
    stoppedRunningReqs :=
      if statusBefore = .running then insertNew r u.stoppedRunningReqs else u.stoppedRunningReqs
    stoppedPreemptedReqs :=
      if statusBefore = .running then u.stoppedPreemptedReqs else insertNew r u.stoppedPreemptedReqs }

def finishIfStopped (u : UpdateState η) (env : FinishEnv) (r : RequestId) (statusBefore : RequestStatus)
    (stopped : Bool) : Except Err (UpdateState η) :=
  if stopped then u.finishStopped env r statusBefore else .ok u

section Loop
variable [DecidableEq η]

/-- A round for an output that is neither dropped nor of a finished request. -/
def deliver (out : SchedulerOutput) (mro : ModelRunnerOutput) (u : UpdateState η) (r : RequestId)
    (request : Request η) (stale : Bool) : Except Err (UpdateState η) := do
  let generated := mro.sampledTokenIds r
  let request := u.scheduler.rollbackRejected out generated stale request
  let s ← u.scheduler.freeEncoderInputs request
  let statusBefore := request.status
  let (newTokenIds, stopped, request, s) ← s.stopOrAppend mro request stale
  let (stopped, request) := applyGrammar mro newTokenIds stopped request
  let u ← { u with scheduler := s.setRequest r request }.finishIfStopped mro.finishEnv r statusBefore stopped
  if newTokenIds ≠ [] ∨ mro.poolerOutput r ∨ stopped then
    pure { u with outputs := u.outputs ++
      [{ requestId := r, newTokenIds, finishReason := if stopped then some request.status else none }] }
  else pure u

/-- One round of the main loop, for a request and its scheduled tokens. -/
def processOutput (out : SchedulerOutput) (mro : ModelRunnerOutput) (failed : List RequestId) (u : UpdateState η)
    (e : RequestId × Nat) : Except Err (UpdateState η) := do
  ensure (0 < e.2) (.assertionError "num_tokens_scheduled > 0")
  match u.scheduler.requests.get? e.1 with
  | none => pure u
  | some request => do
    let (stale, request) ← landTokens request e.2
    let u := { u with scheduler := u.scheduler.setRequest e.1 request }
    if e.1 ∈ failed then pure u
    else if request.isFinished then pure u
    -- output of a request that was resumed in the meantime
    else if stale && request.dropStaleOutput then pure u
    else u.deliver out mro e.1 request stale

end Loop

def removeStopped (u : UpdateState η) : Scheduler η :=
  let s := u.scheduler
  { s with
    running := removeAll s.running u.stoppedRunningReqs
    waiting :=
      if u.stoppedPreemptedReqs = [] then s.waiting else s.waiting.removeRequests s.before u.stoppedPreemptedReqs
    skippedWaiting :=
      if u.stoppedPreemptedReqs = [] then s.skippedWaiting
      else s.skippedWaiting.removeRequests s.before u.stoppedPreemptedReqs }

end UpdateState

/-- `_update_from_kv_xfer_finished` for a request whose load is done. -/
def finishRecving (r : RequestId) : Except Err (Scheduler η) :=
  match s.requests.get? r with
  | none => .ok s
  | some request =>
    if request.status = .waitingForRemoteKvs then
      .ok { s with finishedRecvingKvReqIds := insertNew r s.finishedRecvingKvReqIds }
    else if request.isFinished then s.freeBlocks r
    else .ok s

/-- The same for a request whose blocks have been sent. -/
def finishSending (r : RequestId) : Except Err (Scheduler η) :=
  match s.requests.get? r with
  | none => .ok s
  | some _ => s.freeBlocks r

def updateFromKvXferFinished : Except Err (Scheduler η) :=
  match mro.kvConnectorOutput with
  | none => .ok s
  | some report => do
    let s ← report.finishedRecving.foldlM finishRecving s
    report.finishedSending.foldlM finishSending s

def errorReqIds (failed : List RequestId) : List RequestId :=
  s.grammarCompileErrorReqs ++ (if s.config.recomputeKvLoadFailures then [] else failed) ++
    (if s.config.ecConnector then mro.unavailableRequests else [])

def finishErrors (failed : List RequestId) : Except Err (Scheduler η) :=
  { s with grammarCompileErrorReqs := [] }.finishRequests mro.finishEnv (s.errorReqIds mro failed) .finishedError

/-- Blocks put aside for this step or an earlier one are safe to free. -/
def drainFrees (out : SchedulerOutput) : Except Err (Scheduler η) :=
  if s.config.deferBlockFree ∧ 0 < out.totalNumScheduledTokens then
    let s := { s with processedStepSeq := s.processedStepSeq + 1 }
    s.drainDeferredFrees s.deferredFrees
  else .ok s

def updateFromOutput [DecidableEq η] (s : Scheduler η) (out : SchedulerOutput) (mro : ModelRunnerOutput) :
    Except Err (List EngineCoreOutput × Scheduler η) := do
  let s ← s.drainFrees out
  let (failed, s) ← s.handleFailures out mro
  let u ← out.numScheduledTokens.entries.foldlM (UpdateState.processOutput out mro failed) { scheduler := s }
  let s ← u.removeStopped.finishErrors mro failed
  let s ← s.updateFromKvXferFinished mro
  pure (u.outputs, s)

/-- `update_draft_token_ids` for one request: `validated` are the drafts that its grammar allows. A stale
producer's drafts are kept elsewhere and change no request. -/
def updateDraftTokenIds (producerStepId : Option Nat) (r : RequestId) (validated : List TokenId) : Scheduler η :=
  match s.requests.get? r with
  | none => s
  | some request =>
    if request.isFinished then s
    else if request.isPrefillChunk then
      if producerStepId.isNone ∨ request.specTokenIdsStepId = producerStepId then
        s.setRequest r { request with specTokenIds := [], specTokenIdsStepId := none }
      else s
    else if producerStepId.isNone then
      s.setRequest r { request with specTokenIds := validated, specTokenIdsStepId := none }
    else if request.status ≠ .running ∨ !request.structuredOutputRequest then s
    else if request.specTokenIdsStepId = producerStepId then s.setRequest r { request with specTokenIds := validated }
    else s

end Scheduler

end VllmCore
