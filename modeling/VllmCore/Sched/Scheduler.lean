import VllmCore.Core.EncoderCache
import VllmCore.Core.KVCacheManager
import VllmCore.Sched.RequestQueue
import VllmCore.Sched.Session

/-! # The scheduler: state and request lifecycle

`scheduler.py` without `schedule` and `update_from_output`: what the scheduler keeps, and the methods that
add, preempt, finish and free requests. Queues and sets hold requests by id, and the request itself is
found in `requests`. A connector's answers are arguments of the calls that ask it. Statistics, events,
logging and the payloads for the workers are left out. -/

namespace VllmCore
variable {η : Type}

inductive PauseState where
  | unpaused
  | pausedNew
  | pausedAll
deriving DecidableEq, Repr

/-- What the scheduler takes from its KV connector and `kv_transfer_config` at construction. -/
structure KVConnectorConfig where
  requiresKvDelivery : Bool := false
  recomputeKvLoadFailures : Bool := true
  /-- several batches in flight and a consuming connector -/
  deferBlockFree : Bool := false
  isKvProducer : Bool := false
  supportsDivergentLocalHybridHits : Bool := false
deriving DecidableEq, Repr

structure SchedulerConfig where
  policy : SchedulingPolicy := .fcfs
  maxNumRunningReqs : Nat
  maxNumScheduledTokens : Nat
  maxNumBatchedTokens : Nat
  maxModelLen : Nat
  maxInFlightTokens : Nat
  /-- the scheduler block size, and `cache_config.block_size` -/
  blockSize : Nat
  cacheBlockSize : Nat
  hashBlockSize : Nat
  enablePrefixCaching : Bool := true
  enableKvCacheEvents : Bool := false
  enableMambaFineGrainedPrefixCache : Bool := false
  mambaCacheMode : MambaCacheMode := .none
  minPrefillTokens : Nat := 1
  watermarkBlocks : Nat := 0
  /-- `kv_cache_tokens is not None` -/
  kvCacheTokens : Bool := false
  enableChunkedPrefill : Bool := true
  disableChunkedMmInput : Bool := false
  longPrefillTokenThreshold : Nat := 0
  schedulerReserveFullIsl : Bool := false
  exl3PrefillAuto : Bool := false
  maxLoras : Option Nat := none
  -- speculative decoding
  numSampledTokensPerStep : Nat := 1
  numSpecTokens : Nat := 0
  numLookaheadTokens : Nat := 0
  numPrefillLookahead : Nat := 0
  maxNumNewSlotsForDrafting : Nat := 0
  useEagleBlockDrop : Bool := false
  dynamicSdLookup : Option (List Nat) := none
  -- encoders
  isEncoderDecoder : Bool := false
  isMmEncoderOnly : Bool := false
  maxNumEncoderInputTokens : Nat := 0
  encoderCacheSize : Nat := 0
  -- connectors
  connector : Option KVConnectorConfig := none
  ecConnector : Bool := false
  -- `AsyncScheduler`
  asyncScheduling : Bool := false
  useV2ModelRunner : Bool := false
  ppSize : Nat := 1
  alignHybridDecodes : Bool := false

namespace SchedulerConfig
variable (c : SchedulerConfig)

def requiresKvDelivery : Bool := c.connector.any fun k => k.requiresKvDelivery

def deferBlockFree : Bool := c.connector.any fun k => k.deferBlockFree

def recomputeKvLoadFailures : Bool := c.connector.all fun k => k.recomputeKvLoadFailures

def kvCacheOptions : Coordinator.KVCacheOptions where
  maxModelLen := c.maxModelLen
  maxInFlightTokens := c.maxInFlightTokens
  useEagle := c.useEagleBlockDrop
  enableCaching := c.enablePrefixCaching
  enableKvCacheEvents := c.enableKvCacheEvents
  schedulerBlockSize := c.blockSize
  hashBlockSize := c.hashBlockSize
  numPrefillLookahead := c.numPrefillLookahead
  minPrefillTokens := c.minPrefillTokens

end SchedulerConfig

/-- What `__init__` derives for chunking the prefill of Mamba models. -/
structure MambaSplit where
  needMambaBlockAlignedSplit : Bool := false
  prefillCheckpointAlignment : Option { n : Nat // 0 < n } := none
  hasPrefillCheckpointBlocks : Bool := false
  partialCacheHit : Bool := false
  fineGrainedPrefixCache : Bool := false

structure Scheduler (η : Type) where
  config : SchedulerConfig
  mamba : MambaSplit
  needsKvCacheZeroing : Bool
  kvCacheManager : KVCacheManager η
  encoderCacheManager : EncoderCache
  requests : Dict RequestId (Request η) := Dict.empty
  waiting : RequestQueue
  /-- requests skipped in the waiting flow: they wait for something, or could not be admitted -/
  skippedWaiting : RequestQueue
  running : List RequestId := []
  finishedReqIds : List RequestId := []
  resetPreemptedReqIds : List RequestId := []
  numWaitingForStreamingInput : Int := 0
  finishedRecvingKvReqIds : List RequestId := []
  failedRecvingKvReqIds : List RequestId := []
  grammarCompileErrorReqs : List RequestId := []
  exl3Int8PrefillRequests : List RequestId := []
  /-- requests still prefilling, or loading KV -/
  inflightPrefills : List RequestId := []
  currentStep : Nat := 0
  prefillCapacityBound : Bool := false
  skipZeroBlockIds : Dict Nat (List BlockId) := Dict.empty
  schedStepSeq : Nat := 0
  processedStepSeq : Nat := 0
  deferredFrees : List (Nat × List BlockId) := []
  pauseState : PauseState := .unpaused
  decodePhase : Option Nat := none

namespace Scheduler
variable (s : Scheduler η)

def init (config : SchedulerConfig) (kvCacheConfig : Coordinator.KVCacheConfig) : Except Err (Scheduler η) := do
  let kv ← KVCacheManager.init kvCacheConfig config.kvCacheOptions config.watermarkBlocks
    config.enableMambaFineGrainedPrefixCache
  let specs := kvCacheConfig.groups.map fun g => g.spec
  let hasMambaLayers := specs.any fun s => s.isMamba
  let need := hasMambaLayers && config.mambaCacheMode == .align
  let partialHit := need && decide (config.hashBlockSize < config.blockSize) && kv.coordinator.enablePartialHashHits
  pure
    { config
      mamba :=
        { needMambaBlockAlignedSplit := need
          prefillCheckpointAlignment := (specs.findSome? fun s => match s.kind with
            | .mamba ms => some ms.prefillCheckpointAlignment
            | _ => none).join
          hasPrefillCheckpointBlocks := hasMambaLayers && specs.all fun s => match s.kind with
            | .mamba ms => decide (0 < ms.numPrefillCheckpointBlocks)
            | _ => true
          partialCacheHit := partialHit
          fineGrainedPrefixCache := partialHit && kv.mambaFineGrainedPrefixCache }
      needsKvCacheZeroing := kvCacheConfig.needsKvCacheZeroing
      kvCacheManager := kv
      encoderCacheManager := .init config.isEncoderDecoder config.encoderCacheSize
      waiting := { policy := config.policy }
      skippedWaiting := { policy := config.policy } }

variable (r : RequestId)

def getRequest : Except Err (Request η) :=
  match s.requests.get? r with
  | some request => .ok request
  | none => .error .keyError

def setRequest (request : Request η) : Scheduler η := { s with requests := s.requests.set r request }

/-- `Request.__lt__` between requests of the scheduler. -/
def before (a b : RequestId) : Bool :=
  match s.requests.get? a, s.requests.get? b with
  | some r, some q => r.lt q
  | _, _ => false

def isBlockedWaitingStatus (status : RequestStatus) : Bool :=
  status == .waitingForStructuredOutputGrammar || status == .waitingForRemoteKvs || status == .waitingForStreamingReq

def enqueueWaitingRequest (status : RequestStatus) : Scheduler η :=
  if isBlockedWaitingStatus status then { s with skippedWaiting := s.skippedWaiting.addRequest s.before r }
  else { s with waiting := s.waiting.addRequest s.before r }

/-- `remove_all`, for a set given as a list without duplicates: one item is removed in place. -/
def removeAll (lst itemsToRemove : List RequestId) : List RequestId :=
  match itemsToRemove with
  | [] => lst
  | [item] => lst.erase item
  | _ => lst.filter fun r => r ∉ itemsToRemove

/-! ### Returning blocks -/

/-- `_free_request_blocks`: blocks that a step in flight may still write are put aside. -/
def freeRequestBlocks (request : Request η) : Except Err (Scheduler η) :=
  if !s.config.deferBlockFree || request.lastSchedSeq ≤ s.processedStepSeq then do
    let kv ← s.kvCacheManager.free request.requestId
    pure { s with kvCacheManager := kv }
  else
    let (blocks, kv) := s.kvCacheManager.popBlocksForFree request.requestId
    .ok { s with
      kvCacheManager := kv
      deferredFrees := if blocks = [] then s.deferredFrees else s.deferredFrees ++ [(s.schedStepSeq, blocks)] }

def freeCowRetainedBlocks (blocks : List BlockId) (fenceSeq : Nat) : Except Err (Scheduler η) :=
  if !s.config.deferBlockFree || fenceSeq ≤ s.processedStepSeq then do
    let kv ← s.kvCacheManager.freeBlocks blocks
    pure { s with kvCacheManager := kv }
  else .ok { s with deferredFrees := s.deferredFrees ++ [(fenceSeq, blocks.reverse)] }

/-- The loop of `_drain_deferred_frees`, over the lists that are put aside. -/
def drainDeferredFrees (s : Scheduler η) : List (Nat × List BlockId) → Except Err (Scheduler η)
  | [] => .ok { s with deferredFrees := [] }
  | (fence, blocks) :: rest =>
    if fence > s.processedStepSeq then .ok { s with deferredFrees := (fence, blocks) :: rest }
    else do
      let kv ← s.kvCacheManager.freeBlocks blocks.reverse
      drainDeferredFrees { s with kvCacheManager := kv } rest

/-! ### Preemption -/

/-- The request as `_preempt_request` leaves it: output in flight becomes stale. -/
def preempted (request : Request η) (dropStaleOutput : Bool) : Request η :=
  { request with
    status := .preempted
    numComputedTokens := 0
    specTokenIds := []
    specTokenIdsStepId := none
    dropStaleOutput := dropStaleOutput || (request.dropStaleOutput && decide (request.numStaleOutputTokens > 0))
    numStaleOutputTokens := request.numInFlightTokens
    numOutputPlaceholders := 0
    numPreemptions := request.numPreemptions + 1 }

/-- `_preempt_request`. The caller has taken the request from `running`. -/
def preemptRequest (dropStaleOutput : Bool) : Except Err (Scheduler η) := do
  let request ← s.getRequest r
  Except.ensure (request.status = .running) (.assertionError "Only running requests can be preempted")
  let s ← s.freeRequestBlocks request
  let encoder ← s.encoderCacheManager.free request
  let s := s.setRequest r (preempted request dropStaleOutput)
  pure { s with
    encoderCacheManager := encoder
    inflightPrefills := s.inflightPrefills.filter fun q => q ≠ r
    exl3Int8PrefillRequests := s.exl3Int8PrefillRequests.filter fun q => q ≠ r
    waiting := s.waiting.prependRequest s.before r
    resetPreemptedReqIds := insertNew r s.resetPreemptedReqIds }

/-! ### Finishing -/

/-- What the connectors answer when a request finishes: whether its blocks have to stay. -/
structure FinishEnv where
  requestFinished : RequestId → Bool := fun _ => false
  ecRequestFinished : RequestId → Bool := fun _ => false

variable (env : FinishEnv)

/-- `_connector_finished`: out-of-window blocks are freed before the connector sees the table. -/
def connectorFinished (request : Request η) : Except Err (Bool × Scheduler η) :=
  match s.config.connector with
  | none => .ok (false, s)
  | some conn => do
    let kv := if conn.isKvProducer then (s.kvCacheManager.finalizePartialTailOffloads request).2 else s.kvCacheManager
    let kv ← kv.removeSkippedBlocks request.requestId
      ((request.numComputedTokens : Int) - request.numInFlightTokens).toNat (some request.numPromptTokens)
    pure (env.requestFinished request.requestId, { s with kvCacheManager := kv })

def freeBlocks : Except Err (Scheduler η) := do
  let request ← s.getRequest r
  Except.ensure request.isFinished (.assertionError "request.is_finished()")
  let s ← s.freeRequestBlocks request
  pure { s with requests := s.requests.erase r }

def freeRequest (r : RequestId) (delayFreeBlocks : Bool) : Except Err (Scheduler η) := do
  let request ← s.getRequest r
  Except.ensure request.isFinished (.assertionError "request.is_finished()")
  let (connectorDelay, s) ← s.connectorFinished env request
  let encoder ← s.encoderCacheManager.free request
  let s := { s with
    exl3Int8PrefillRequests := s.exl3Int8PrefillRequests.filter fun q => q ≠ r
    inflightPrefills := s.inflightPrefills.filter fun q => q ≠ r
    encoderCacheManager := encoder
    finishedReqIds := insertNew r s.finishedReqIds }
  if delayFreeBlocks || connectorDelay || (s.config.ecConnector && env.ecRequestFinished r) then pure s
  else s.freeBlocks r

def validRequests (requestIds : List RequestId) : List (RequestId × Request η) :=
  requestIds.filterMap fun r => (s.requests.get? r).bind fun request =>
    if request.isFinished then none else some (r, request)

/-- The second pass of `finish_requests` for one request. Blocks that a KV load still writes stay. -/
def finishRequest (finishedStatus : RequestStatus) (s : Scheduler η) (r : RequestId) : Except Err (Scheduler η) := do
  let request ← s.getRequest r
  let loading := request.status == .waitingForRemoteKvs
  let delay := loading && decide (r ∉ s.finishedRecvingKvReqIds)
  let s := { s with
    finishedRecvingKvReqIds :=
      if loading then s.finishedRecvingKvReqIds.filter fun q => q ≠ r else s.finishedRecvingKvReqIds
    failedRecvingKvReqIds :=
      if loading then s.failedRecvingKvReqIds.filter fun q => q ≠ r else s.failedRecvingKvReqIds }
  (s.setRequest r { request with status := finishedStatus }).freeRequest env r delay

/-- The first pass of `finish_requests`: take the requests from their queues. -/
def dequeueFinished (valid : List (RequestId × Request η)) : Scheduler η :=
  let running := (valid.filter fun e => e.2.status == .running).map Prod.fst
  let waiting := (valid.filter fun e => e.2.status != .running).map Prod.fst
  { s with
    running := removeAll s.running running
    waiting := if waiting = [] then s.waiting else s.waiting.removeRequests s.before waiting
    skippedWaiting := if waiting = [] then s.skippedWaiting else s.skippedWaiting.removeRequests s.before waiting
    numWaitingForStreamingInput := s.numWaitingForStreamingInput -
      (valid.countP fun e => e.2.status == .waitingForStreamingReq) }

def finishRequests (requestIds : List RequestId) (finishedStatus : RequestStatus) : Except Err (Scheduler η) := do
  Except.ensure finishedStatus.isFinished (.assertionError "RequestStatus.is_finished(finished_status)")
  let valid := s.validRequests requestIds.dedup
  (valid.map Prod.fst).foldlM (finishRequest env finishedStatus) (s.dequeueFinished valid)

/-! ### Adding -/

def updateRequestAsSession (u : StreamingUpdate) : Except Err (Scheduler η) := do
  let session ← s.getRequest r
  let updated ← session.updateAsSession u
  let s := s.setRequest r updated
  pure { s with
    exl3Int8PrefillRequests := s.exl3Int8PrefillRequests.filter fun q => q ≠ r
    numWaitingForStreamingInput :=
      if session.status = .waitingForStreamingReq then s.numWaitingForStreamingInput - 1
      else s.numWaitingForStreamingInput }

/-- `StreamingUpdate.from_request`; `none` says that the client has finished. -/
def streamingUpdate (request : Request η) : Option StreamingUpdate :=
  if request.resumable then
    some
      { mmFeatures := request.mmFeatures
        promptTokenIds := request.promptTokenIds
        maxTokens := request.maxTokens
        arrivalTime := request.arrivalTime
        samplingParams := request.samplingParams }
  else none

/-- `add_request`: a new request, or the next input of a session. -/
def addRequest (request : Request η) : Except Err (Scheduler η) :=
  let r := request.requestId
  match s.requests.get? r with
  | some existing =>
    let update := streamingUpdate request
    if existing.status ≠ .waitingForStreamingReq then
      match existing.streamingQueue with
      | none => .error (.assertionError "duplicate request id")
      | some queue => .ok (s.setRequest r { existing with streamingQueue := some (queue ++ [update]) })
    else
      match update with
      | some u => s.updateRequestAsSession r u
      | none => s.finishRequests env [r] .finishedAborted
  | none =>
    let request := if request.resumable then { request with streamingQueue := some [] } else request
    .ok ((s.setRequest r request).enqueueWaitingRequest r request.status)

/-! ### Resets -/

/-- The loop of `reset_prefix_cache` that preempts everything, last first. -/
def preemptAll : List RequestId → Scheduler η → Except Err (Scheduler η)
  | [], s => .ok s
  | r :: rest, s => do
    let s ← { s with running := s.running.dropLast }.preemptRequest r true
    preemptAll rest s

def preemptForReset (resetRunningRequests : Bool) : Except Err (Scheduler η) :=
  if resetRunningRequests then preemptAll s.running.reverse s else .ok s

/-- `reset_prefix_cache`: the answer, or the error it raises after the requests were preempted. -/
def resetPrefixCache (resetRunningRequests resetConnector connectorResets : Bool) :
    Except Err (Except Err Bool × Scheduler η) := do
  let s ← s.preemptForReset resetRunningRequests
  let (ok, kv) := s.kvCacheManager.resetPrefixCache
  let s := { s with kvCacheManager := kv }
  if resetRunningRequests && !ok then
    pure (.error (.runtimeError ("Failed to reset KV cache even when all the running requests are " ++
      "preempted and moved to the waiting queue. This is likely due to " ++
      "the presence of running requests waiting for remote KV transfer, " ++ "which is not supported yet.")), s)
  else if resetConnector then pure (.ok ((s.config.connector.isNone || connectorResets) && ok), s)
  else pure (.ok ok, s)

def resetEncoderCache : Scheduler η := { s with encoderCacheManager := s.encoderCacheManager.reset }

def setPauseState (pauseState : PauseState) : Scheduler η := { s with pauseState }

end Scheduler

end VllmCore
