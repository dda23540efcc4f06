import VllmCore.Sched.Schedule

/-! # Admitting waiting requests

The second loop of `schedule`. A round looks at the head of one of the two waiting queues and either puts
it aside for this pass, ends the loop, starts an asynchronous load for it, or moves it to `running`. -/

namespace VllmCore
open Except
variable {η : Type}

inductive WaitingQueue where
  | waiting
  | skipped
deriving DecidableEq, Repr

namespace Scheduler
variable (s : Scheduler η)

def queue : WaitingQueue → RequestQueue
  | .waiting => s.waiting
  | .skipped => s.skippedWaiting

def setQueue : WaitingQueue → RequestQueue → Scheduler η
  | .waiting, q => { s with waiting := q }
  | .skipped, q => { s with skippedWaiting := q }

def selectWaitingQueue : Option WaitingQueue :=
  match s.config.policy, s.waiting.items, s.skippedWaiting.items with
  | _, [], [] => none
  | .fcfs, _, _ :: _ => some .skipped
  | .priority, w :: _, k :: _ => if s.before w k then some .waiting else some .skipped
  | _, [], _ :: _ => some .skipped
  | _, _ :: _, [] => some .waiting

section Promotion
variable [DecidableEq η] (s : Scheduler η)

/-- What a finished load leaves in the cache. After a failure the valid tokens are registered, and the
blocks behind them are zeroed before they are computed; without any the blocks go back. -/
def cacheLoaded (r : RequestId) (request : Request η) : Except Err (KVCacheManager η) :=
  if r ∈ s.failedRecvingKvReqIds then
    if request.numComputedTokens ≠ 0 then do
      let kv ← s.kvCacheManager.cacheBlocks request request.numComputedTokens
      if s.needsKvCacheZeroing then kv.recordBlocksForZeroing r request.numComputedTokens else pure kv
    else s.kvCacheManager.free r
  else s.kvCacheManager.cacheBlocks request request.numComputedTokens

/-- `_update_waiting_for_remote_kv`. On a full hit the last token is computed again. -/
def updateWaitingForRemoteKv (r : RequestId) (request : Request η) : Except Err (Request η × Scheduler η) := do
  ensure s.config.connector.isSome (.assertionError "self.connector is not None")
  let kv ← s.cacheLoaded r request
  let failed := decide (r ∈ s.failedRecvingKvReqIds)
  let request :=
    if !failed && request.numComputedTokens == request.numTokens then
      { request with numComputedTokens := request.numTokens - 1 }
    else request
  pure (request, { s with
    kvCacheManager := kv
    failedRecvingKvReqIds := s.failedRecvingKvReqIds.filter fun q => q ≠ r
    finishedRecvingKvReqIds := s.finishedRecvingKvReqIds.filter fun q => q ≠ r })

def tryPromoteBlockedWaitingRequest (env : ScheduleEnv) (r : RequestId) (request : Request η) :
    Except Err (Bool × Scheduler η) :=
  match request.status with
  | .waitingForRemoteKvs =>
    if r ∉ s.finishedRecvingKvReqIds then .ok (false, s)
    else do
      let (request, s) ← s.updateWaitingForRemoteKv r request
      pure (true, s.setRequest r
        { request with status := if request.numPreemptions ≠ 0 then .preempted else .waiting })
  | .waitingForStructuredOutputGrammar =>
    match env.grammar r with
    | .missing => .ok (false, s)
    | .failed => .ok (false, { s with grammarCompileErrorReqs := insertNew r s.grammarCompileErrorReqs })
    | .ready => .ok (true, s.setRequest r { request with status := .waiting })
  | .waitingForStreamingReq => do
    ensure (request.streamingQueue.getD [] |>.isEmpty) (.assertionError "not request.streaming_queue")
    pure (false, s)
  | _ => .error (.assertionError "Unexpected blocked waiting status in promotion")

/-- Promote a blocked request; any other is fine as it is. -/
def promote (env : ScheduleEnv) (r : RequestId) : Except Err (Bool × Scheduler η) := do
  let request ← s.getRequest r
  if isBlockedWaitingStatus request.status then s.tryPromoteBlockedWaitingRequest env r request else pure (true, s)

end Promotion

structure Lookup where
  newComputedBlocks : Option (List (List BlockId)) := none
  numNewLocalComputedTokens : Nat := 0
  numExternalComputedTokens : Nat := 0
  numComputedTokens : Nat
  loadKvAsync : Bool := false

section Lookup
variable [DecidableEq η] (s : Scheduler η)

def getLocalPrefixCacheHit (request : Request η) : Except Err (Option (List (List BlockId)) × Nat × Nat × Bool) :=
  if s.config.connector.any fun k => k.supportsDivergentLocalHybridHits then
    s.kvCacheManager.getComputedBlocksForConnector request
  else do
    let (blocks, numLocal, boundary) ← s.kvCacheManager.getComputedBlocks request
    pure (blocks, numLocal, boundary, false)

/-- How a remote hit combines with the local one. The connector is shown a block-aligned local hit; a
remote hit that exceeds the local tail replaces it. -/
def combineHits (env : ScheduleEnv) (request : Request η) (blocks : Option (List (List BlockId))) (numLocal : Nat) :
    Except Err (Option Lookup) :=
  let partialTail := numLocal % s.config.blockSize
  let aligned := numLocal - partialTail
  match env.getNumNewMatchedTokens request.requestId aligned with
  | (none, _) => .ok none
  | (some ext, loadKvAsync) =>
    if partialTail ≠ 0 ∧ ext > partialTail then do
      let truncated ← s.kvCacheManager.truncateComputedBlocks blocks aligned
      pure (some { newComputedBlocks := truncated, numNewLocalComputedTokens := aligned,
                   numExternalComputedTokens := ext, numComputedTokens := aligned + ext, loadKvAsync })
    else if partialTail ≠ 0 then
      pure (some { newComputedBlocks := blocks, numNewLocalComputedTokens := numLocal, numComputedTokens := numLocal })
    else
      pure (some { newComputedBlocks := blocks, numNewLocalComputedTokens := numLocal,
                   numExternalComputedTokens := ext, numComputedTokens := numLocal + ext, loadKvAsync })

/-- A diverged hit that no external token backs is looked up again. -/
def reconcile (r : RequestId) (request : Request η) (diverged : Bool) (found : Lookup) :
    Except Err (Lookup × Scheduler η) :=
  if diverged && found.numExternalComputedTokens == 0 then do
    let (blocks, numLocal, boundary) ← s.kvCacheManager.getComputedBlocks request
    pure ({ found with
        newComputedBlocks := blocks, numNewLocalComputedTokens := numLocal, numComputedTokens := numLocal },
      s.setRequest r { request with sharedPrefixBoundary := boundary })
  else .ok (found, s)

/-- The local and external hits of a request without computed tokens; `none` if the connector cannot say
yet. -/
def lookupHits (env : ScheduleEnv) (r : RequestId) (request : Request η) :
    Except Err (Option Lookup × Scheduler η) := do
  let (blocks, numLocal, boundary, diverged) ← s.getLocalPrefixCacheHit request
  let request := { request with sharedPrefixBoundary := boundary }
  let s := s.setRequest r request
  if s.config.connector.isNone then
    pure (some { newComputedBlocks := blocks, numNewLocalComputedTokens := numLocal, numComputedTokens := numLocal }, s)
  else do
    match ← s.combineHits env request blocks numLocal with
    | none => pure (none, s)
    | some found => do
      let (found, s) ← s.reconcile r request diverged found
      pure (some found, s)

/-- The computed tokens of a waiting request: those it has, or those of its hits. `none` puts the request
aside. -/
def lookupComputed (env : ScheduleEnv) (r : RequestId) : Except Err (Option Lookup × Scheduler η) := do
  let request ← s.getRequest r
  if request.numComputedTokens = 0 then do
    match ← s.lookupHits env r request with
    | (none, s) => pure (none, s)
    | (some found, s) => do
      ensure (found.numComputedTokens ≤ request.numTokens)
        (.assertionError "num_computed_tokens <= request.num_tokens")
      pure (some found, s)
  else pure (some { numComputedTokens := request.numComputedTokens }, s)

end Lookup

def ecTransferPending (env : ScheduleEnv) (request : Request η) (numComputedTokens : Nat) : Bool :=
  s.config.ecConnector && !request.mmFeatures.isEmpty &&
    !env.ensureCacheAvailable request.requestId numComputedTokens

/-- A request that cannot be admitted gives up its references to encoder outputs. -/
def untouchEncoder (r : RequestId) : Except Err (Scheduler η) := do
  let request ← s.getRequest r
  if request.hasEncoderInputs then do
    let encoder ← s.encoderCacheManager.free request
    pure { s with encoderCacheManager := encoder }
  else pure s

section Reservation
variable [DecidableEq η] (s : Scheduler η)

/-- `_inflight_prefill_reserved_blocks`: what the prefills in flight still need. The count of each opens
the request's tables. -/
def inflightPrefillReservedBlocks : Except Err (Int × Scheduler η) :=
  s.inflightPrefills.foldlM (fun (acc : Int × Scheduler η) r => do
    let (n, s) := acc
    let request ← s.getRequest r
    let full := min request.numTokens s.config.maxModelLen
    let (m, c) ← s.kvCacheManager.coordinator.getNumBlocksToAllocate r full s.kvCacheManager.emptyKvCacheBlocks 0
      request.numComputedTokens request.numComputedTokens full true
    pure (n + m, { s with kvCacheManager := { s.kvCacheManager with coordinator := c } })) (0, s)

/-- Only an asynchronous load makes room for the others. -/
def reservedBlocksFor (loadKvAsync : Bool) : Except Err (Int × Scheduler η) :=
  if loadKvAsync then s.inflightPrefillReservedBlocks else .ok (0, s)

end Reservation

end Scheduler

namespace Pass
open Scheduler
variable (p : Pass η)

/-- A request of this shape pads to the uniform size of speculative decoding. -/
def padsSpecDecode (numComputedTokens : Nat) (numNewTokens : Int) : Bool :=
  let c := p.scheduler.config
  decide (0 < c.numSpecTokens) && c.dynamicSdLookup.isNone && decide (0 < c.numSampledTokensPerStep) &&
    decide (numNewTokens = 1) && !p.prefillScheduled &&
    (!p.scheduledRunningReqs.isEmpty || decide (0 < numComputedTokens)) &&
    decide (numComputedTokens + (1 + c.numSpecTokens) + c.numSampledTokensPerStep ≤ c.maxModelLen)

structure Share where
  numNewTokens : Nat
  plan : EncoderPlan
  padSpecDecode : Bool := false

/-- The chunk of a waiting request under its budget, before its encoder inputs are looked at; `none` ends
the loop. -/
def waitingNumNewTokens (request : Request η) (found : Lookup) : Except Err (Option (Int × Bool)) := do
  let c := p.scheduler.config
  let budget := min p.tokenBudget (p.inputBudget - p.draftSlots)
  let n : Int := request.numTokens - found.numComputedTokens
  let pads := p.padsSpecDecode found.numComputedTokens n
  -- rather not scheduled than scheduled without its padding
  if pads && decide ((1 + c.numSpecTokens : Nat) > budget) then pure none
  else do
    let n := p.scheduler.capLongPrefill (if pads then (1 + c.numSpecTokens : Nat) else n)
    if !c.enableChunkedPrefill && decide (n > budget) then pure none
    else do
      let n := min n budget
      ensure (n > 0) (.assertionError "num_new_tokens > 0")
      if p.scheduler.mamba.needMambaBlockAlignedSplit then
        let n := p.scheduler.mambaBlockAlignedSplit request n found.numNewLocalComputedTokens
          found.numExternalComputedTokens
        if n = 0 then pure none
        -- the padded rows must be complete
        else if pads && decide (n ≠ (1 + c.numSpecTokens : Nat)) then pure (some (1, false))
        else pure (some (n, pads))
      else pure (some (n, pads))

/-- The share of a waiting request; `none` ends the loop. -/
def shareOf (env : ScheduleEnv) (request : Request η) (found : Lookup) : Except Err (Option Share × Pass η) :=
  if found.loadKvAsync then do
    ensure (0 < found.numExternalComputedTokens) (.assertionError "num_external_computed_tokens > 0")
    pure (some ⟨0, { numNewTokens := 0, encoderComputeBudget := p.encoderComputeBudget }, false⟩, p)
  else if p.deferPrefills && decide ((found.numComputedTokens : Int) < request.numTokens - 1) then .ok (none, p)
  else do
    let p := p.applyExl3 request found.numComputedTokens
    match ← p.waitingNumNewTokens request found with
    | none => pure (none, p)
    | some (n, pads) => do
      let (plan, p) ← p.planEncoder env request found.numComputedTokens n
      let n := p.scheduler.reservePrefillLookahead request found.numComputedTokens plan.numNewTokens
      if n = 0 then pure (none, p) else pure (some ⟨n, plan, pads⟩, p)

def exceedsLoras (request : Request η) : Bool :=
  match p.scheduler.config.maxLoras, request.loraRequest with
  | some maxLoras, some l => p.scheduledLoras.length == maxLoras && decide (l.adapterId ∉ p.scheduledLoras)
  | _, _ => false

/-- Put the head of a queue aside until the end of the pass. -/
def skipWaiting (side : WaitingQueue) : Except Err (Pass η) := do
  let (r, q) ← (p.scheduler.queue side).popRequest p.scheduler.before
  pure { p with
    scheduler := p.scheduler.setQueue side q
    stepSkippedWaiting := p.stepSkippedWaiting.prependRequest p.scheduler.before r }

def numEncoderTokens (request : Request η) (plan : EncoderPlan) : Except Err Nat :=
  if p.scheduler.config.isEncoderDecoder && request.hasEncoderInputs then do
    let embeds ← plan.encoderInputsToSchedule.mapM fun i => request.getNumEncoderEmbeds i
    pure embeds.sum
  else .ok 0

section Admit
variable [DecidableEq η] (p : Pass η)

def allocateWaiting (r : RequestId) (found : Lookup) (share : Share) :
    Except Err (Option (List (List BlockId)) × Pass η) := do
  let request ← p.scheduler.getRequest r
  let numEncoderTokens ← p.numEncoderTokens request share.plan
  let (reserved, s) ← p.scheduler.reservedBlocksFor found.loadKvAsync
  let (newBlocks, kv) ← s.kvCacheManager.allocateSlots request
    { numNewTokens := share.numNewTokens
      numNewComputedTokens := found.numNewLocalComputedTokens
      newComputedBlocks := found.newComputedBlocks
      -- look-ahead slots of a load are allocated later, so that block counts match the remote ones
      numLookaheadTokens := if found.loadKvAsync then 0 else s.config.numLookaheadTokens
      numExternalComputedTokens := found.numExternalComputedTokens
      delayCacheBlocks := found.loadKvAsync
      numEncoderTokens
      fullSequenceMustFit := s.config.schedulerReserveFullIsl
      reservedBlocks := reserved.toNat
      hasScheduledReqs := !s.running.isEmpty }
  pure (newBlocks, { p with scheduler := { s with kvCacheManager := kv } })

/-- A request whose blocks will be loaded waits in the pass's own queue. -/
def startLoad (r : RequestId) (found : Lookup) : Except Err (Pass η) := do
  let request ← p.scheduler.getRequest r
  let s := p.scheduler.setRequest r
    { request with status := .waitingForRemoteKvs, numComputedTokens := found.numComputedTokens }
  let zeroed := s.kvCacheManager.getZeroingBlockIdsInRange r found.numNewLocalComputedTokens found.numComputedTokens
  pure { p with
    stepSkippedWaiting := p.stepSkippedWaiting.prependRequest s.before r
    scheduler := { s with
      inflightPrefills := insertNew r s.inflightPrefills
      skipZeroBlockIds :=
        if s.needsKvCacheZeroing then
          ((List.range zeroed.length).zip zeroed).foldl (fun d e =>
            if e.2 = [] then d else d.set e.1 (e.2.foldl (fun s b => insertNew b s) (d.getD e.1 []))) s.skipZeroBlockIds
        else s.skipZeroBlockIds } }

def recordAdmitted (r : RequestId) (status : RequestStatus) : Except Err (Pass η) :=
  match status with
  | .waiting => .ok { p with scheduledNewReqs := p.scheduledNewReqs ++ [r] }
  | .preempted => .ok { p with scheduledResumedReqs := p.scheduledResumedReqs ++ [r] }
  | _ => .error (.runtimeError "Invalid request status")

def startRunning (r : RequestId) (found : Lookup) (share : Share) : Except Err (Pass η) := do
  let request ← p.scheduler.getRequest r
  let p := { p with
    scheduler := { p.scheduler with running := p.scheduler.running ++ [r] }
    hasSyncKvLoads := p.hasSyncKvLoads || decide (0 < found.numExternalComputedTokens) }
  let p ← p.recordAdmitted r request.status
  let n := share.numNewTokens
  let s := p.scheduler.setRequest r
    { request with status := .running, numComputedTokens := found.numComputedTokens }
  let p := { p with
    scheduler := { s with
      inflightPrefills :=
        if found.numComputedTokens + n < request.numTokens then insertNew r s.inflightPrefills else s.inflightPrefills }
    scheduledLoras :=
      match p.scheduler.config.maxLoras, request.loraRequest with
      | some _, some l => insertNew l.adapterId p.scheduledLoras
      | _, _ => p.scheduledLoras
    reqToNewBlocks := p.reqToNewBlocks.set r (s.kvCacheManager.getBlockIds r)
    numScheduledTokens := p.numScheduledTokens.set r n
    tokenBudget := p.tokenBudget - n
    inputBudget := p.inputBudget - (n + p.draftSlots)
    scheduledSpecDecodeTokens :=
      if share.padSpecDecode then
        p.scheduledSpecDecodeTokens.set r (List.replicate p.scheduler.config.numSpecTokens (-1))
      else p.scheduledSpecDecodeTokens }
  ensure (share.padSpecDecode → n = 1 + p.scheduler.config.numSpecTokens)
    (.assertionError "num_new_tokens == 1 + self.num_spec_tokens")
  p.recordEncoder r request share.plan

/-- The end of a round for a request that has its share: allocate, and leave the queue. `true` ends the
loop. -/
def admitWaiting (side : WaitingQueue) (r : RequestId) (found : Lookup) (share : Share) :
    Except Err (Bool × Pass η) := do
  match ← p.allocateWaiting r found share with
  | (none, p) => do
    let s ← p.scheduler.untouchEncoder r
    pure (true, { p with scheduler := s })
  | (some _, p) => do
    let (r, q) ← (p.scheduler.queue side).popRequest p.scheduler.before
    let p := { p with scheduler := p.scheduler.setQueue side q }
    if found.loadKvAsync then do
      let p ← p.startLoad r found
      pure (false, p)
    else do
      let p ← p.startRunning r found share
      pure (false, p)

/-- The middle of a round: stale output and LoRAs, computed tokens, encoder transfers. -/
def considerWaiting (env : ScheduleEnv) (side : WaitingQueue) (r : RequestId) : Except Err (Bool × Pass η) := do
  let request ← p.scheduler.getRequest r
  if (decide (request.numStaleOutputTokens > 0) && !request.dropStaleOutput) || p.exceedsLoras request then do
    let p ← p.skipWaiting side
    pure (false, p)
  else do
    match ← p.scheduler.lookupComputed env r with
    | (none, s) => do
      let p ← { p with scheduler := s }.skipWaiting side
      pure (false, p)
    | (some found, s) => do
      let p := { p with scheduler := s }
      let request ← s.getRequest r
      if s.ecTransferPending env request found.numComputedTokens then do
        let p ← p.skipWaiting side
        pure (false, p)
      else do
        match ← p.shareOf env request found with
        | (none, p) => pure (true, p)
        | (some share, p) => p.admitWaiting side r found share

/-- One round; `true` ends the loop. -/
def waitingRound (env : ScheduleEnv) (side : WaitingQueue) : Except Err (Bool × Pass η) := do
  let r ← (p.scheduler.queue side).peekRequest
  match ← p.scheduler.promote env r with
  | (false, s) => do
    let p ← { p with scheduler := s }.skipWaiting side
    pure (false, p)
  | (true, s) =>
    let p := { p with scheduler := s }
    p.considerWaiting env side r

/-- The loop over the waiting queues. Every round that does not end it takes a request from a queue, so
their length is enough fuel. -/
def waitingLoop (env : ScheduleEnv) : Nat → Pass η → Except Err (Pass η)
  | 0, p => .ok p
  | fuel + 1, p =>
    match p.scheduler.selectWaitingQueue with
    | none => .ok p
    | some side =>
      if p.tokenBudget ≤ 0 ∨ p.inputBudget ≤ p.draftSlots then .ok p
      -- paused sessions hold a slot of the model runner
      else if (p.scheduler.running.length : Int) + p.scheduler.numWaitingForStreamingInput ≥
          p.scheduler.config.maxNumRunningReqs then .ok p
      else do
        let (stop, p) ← p.waitingRound env side
        if stop then pure p else waitingLoop env fuel p

/-- The waiting phase: it is skipped if a request was preempted or scheduling is paused. Requests put
aside go in front of the skipped ones. -/
def scheduleWaiting (env : ScheduleEnv) : Except Err (Pass η) :=
  if p.preemptedReqs = [] ∧ p.scheduler.pauseState = .unpaused then do
    let p ← waitingLoop env (p.scheduler.waiting.length + p.scheduler.skippedWaiting.length) p
    let s := p.scheduler
    pure { p with
      stepSkippedWaiting := { p.stepSkippedWaiting with items := [] }
      scheduler := { s with
        skippedWaiting :=
          if p.stepSkippedWaiting.isEmpty then s.skippedWaiting
          else s.skippedWaiting.prependRequests s.before p.stepSkippedWaiting
        prefillCapacityBound := if p.deferPrefills then s.prefillCapacityBound else !s.waiting.isEmpty } }
  else .ok p

end Admit

end Pass

end VllmCore
