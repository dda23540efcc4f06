import VllmCore.Core.Coordinator

/-! # The KV-cache manager

`kv_cache_manager.py`: the interface the scheduler uses. The statistics it keeps are left out. A
`KVCacheBlocks` value is the list of block ids of each group; `none` stands for the shared empty value,
which `allocate_slots` compares by identity. -/

namespace VllmCore
variable {η : Type}

structure KVCacheManager (η : Type) where
  coordinator : Coordinator η
  maxModelLen : Nat
  minPrefillTokens : Nat
  enableCaching : Bool
  /-- `int(watermark * num_blocks)` -/
  watermarkBlocks : Nat
  mambaFineGrainedPrefixCache : Bool := false

structure AllocArgs where
  numNewTokens : Nat
  numNewComputedTokens : Nat := 0
  newComputedBlocks : Option (List (List BlockId)) := none
  numLookaheadTokens : Nat := 0
  numExternalComputedTokens : Nat := 0
  delayCacheBlocks : Bool := false
  numEncoderTokens : Nat := 0
  fullSequenceMustFit : Bool := false
  reservedBlocks : Nat := 0
  hasScheduledReqs : Bool := true

namespace KVCacheManager
variable (k : KVCacheManager η) (request : Request η)

def init (cfg : Coordinator.KVCacheConfig) (o : Coordinator.KVCacheOptions) (watermarkBlocks : Nat)
    (enableMambaFineGrainedPrefixCache : Bool := false) : Except Err (KVCacheManager η) := do
  let o := { o with minPrefillTokens := max 1 o.minPrefillTokens }
  let c ← Coordinator.init cfg o
  let fine := enableMambaFineGrainedPrefixCache && !c.eagleGroupIds.isEmpty && c.enablePartialHashHits &&
    c.numReprefillableTokens == 0
  pure
    { coordinator := { c with managers := c.managers.map fun m =>
        { m with fineGrainedPrefixCache := fine && m.spec.isMamba } }
      maxModelLen := o.maxModelLen
      minPrefillTokens := o.minPrefillTokens
      enableCaching := o.enableCaching
      watermarkBlocks
      mambaFineGrainedPrefixCache := fine }

def pool : BlockPool η := k.coordinator.pool

def emptyKvCacheBlocks : List (List BlockId) := k.coordinator.managers.map fun _ => []

def createKvCacheBlocks (blocks : List (List BlockId)) : Option (List (List BlockId)) :=
  if blocks.all List.isEmpty then none else some blocks

def prefixCacheLookupEnabled : Bool := k.enableCaching && !request.skipReadingPrefixCache

/-- The watermark holds back waiting and preempted requests while others are scheduled. -/
def watermarkFor (a : AllocArgs) : Nat :=
  if a.hasScheduledReqs ∧ (request.status = .waiting ∨ request.status = .preempted) then k.watermarkBlocks else 0

def numLocalComputedTokens (a : AllocArgs) : Nat := request.numComputedTokens + a.numNewComputedTokens

def totalComputedTokens (a : AllocArgs) : Nat :=
  min (numLocalComputedTokens request a + a.numExternalComputedTokens) k.maxModelLen

def numTokensMainModel (a : AllocArgs) : Nat := k.totalComputedTokens request a + a.numNewTokens

def numTokensNeedSlot (a : AllocArgs) : Nat := min (k.numTokensMainModel request a + a.numLookaheadTokens) k.maxModelLen

section Methods
variable [DecidableEq η] (k : KVCacheManager η) (request : Request η)

/-- The cached blocks of a request, the length of the hit, and the boundary of a shared prefix that some
group has not cached. At least the last token is computed again. -/
def getComputedBlocks : Except Err (Option (List (List BlockId)) × Nat × Nat) :=
  if k.prefixCacheLookupEnabled request then do
    let (blocks, n, uncached) ← k.coordinator.findLongestCacheHit request.blockHashes
      (request.numTokens - k.minPrefillTokens)
    pure (createKvCacheBlocks blocks, n, if uncached = 0 then 0 else n + uncached)
  else .ok (none, 0, 0)

/-- The admission gate: the whole sequence has to fit. -/
def fullSequenceFits (a : AllocArgs) (hits : List (List BlockId)) : Except Err (Bool × Coordinator η) :=
  if a.fullSequenceMustFit then do
    let n := min request.numTokens k.maxModelLen
    let (required, c) ← k.coordinator.getNumBlocksToAllocate request.requestId n hits a.numEncoderTokens
      (k.totalComputedTokens request a) (numLocalComputedTokens request a) n true
    pure (decide (required + k.watermarkFor request a ≤ k.pool.getNumFreeBlocks), c)
  else .ok (true, k.coordinator)

/-- The blocks of hits and of external tokens; a request without either skips this. -/
def allocateComputed (c : Coordinator η) (request : Request η) (a : AllocArgs) (hits : List (List BlockId)) :
    Except Err (Coordinator η) :=
  if a.newComputedBlocks.isSome ∨ a.numExternalComputedTokens > 0 then
    c.allocateNewComputedBlocks request.requestId hits (numLocalComputedTokens request a) a.numExternalComputedTokens
  else .ok c

/-- Register what is final: draft tokens beyond the request's tokens are not. -/
def cacheAllocated (c : Coordinator η) (request : Request η) (a : AllocArgs) : Except Err (Coordinator η) :=
  if !k.enableCaching || a.delayCacheBlocks then .ok c
  else c.cacheBlocks request (min (k.totalComputedTokens request a + a.numNewTokens) request.numTokens)

/-- `allocate_slots`; `none` when the request does not fit. -/
def allocateSlots (a : AllocArgs) : Except Err (Option (List (List BlockId)) × KVCacheManager η) := do
  Except.ensure (¬ (a.numNewTokens = 0 ∧ a.numExternalComputedTokens = 0))
    (.valueError "num_new_tokens must be greater than 0 when there are no external computed tokens")
  let hits := a.newComputedBlocks.getD k.emptyKvCacheBlocks
  let (fits, c) ← k.fullSequenceFits request a hits
  if !fits then pure (none, { k with coordinator := c })
  else do
    -- skipped blocks are freed even when the request does not fit, up to what has been processed
    let processed := ((k.totalComputedTokens request a : Int) - request.numInFlightTokens).toNat
    let c ← c.removeSkippedBlocks request.requestId processed (some request.numPromptTokens)
    let (required, c) ← c.getNumBlocksToAllocate request.requestId (k.numTokensNeedSlot request a) hits
      a.numEncoderTokens (numLocalComputedTokens request a + a.numExternalComputedTokens)
      (numLocalComputedTokens request a) (k.numTokensMainModel request a) false
    if required + k.watermarkFor request a > (c.pool.getNumFreeBlocks : Int) - a.reservedBlocks then
      pure (none, { k with coordinator := c })
    else do
      let c ← allocateComputed c request a hits
      let (newBlocks, c) ← c.allocateNewBlocks request.requestId (k.numTokensNeedSlot request a)
        (k.numTokensMainModel request a) a.numEncoderTokens
      let c ← k.cacheAllocated c request a
      pure (some newBlocks, { k with coordinator := c })

def evictBlocks (blockIds : List BlockId) : Except Err (KVCacheManager η) := do
  let pool ← k.pool.evictBlocks blockIds
  pure { k with coordinator := { k.coordinator with pool } }

def cacheBlocks (numComputedTokens : Nat) : Except Err (KVCacheManager η) :=
  if k.enableCaching then do
    let c ← k.coordinator.cacheBlocks request numComputedTokens
    pure { k with coordinator := c }
  else .ok k

/-- `get_computed_blocks_for_connector`: the full-attention hit, even if a Mamba group lags behind it; the
last component says that one does. A group that runs ahead falls back to the boundary all agree on. -/
def getComputedBlocksForConnector : Except Err (Option (List (List BlockId)) × Nat × Nat × Bool) :=
  match k.coordinator.fullAttentionGroupId with
  | some g =>
    if !(k.coordinator.managers.any fun m => m.spec.isMamba) then do
      let (blocks, n, boundary) ← k.getComputedBlocks request
      pure (blocks, n, boundary, false)
    else if !k.prefixCacheLookupEnabled request then .ok (none, 0, 0, false)
    else do
      let (computed, perGroupHits) ←
        k.coordinator.findLongestCacheHitPerGroup request.blockHashes (request.numTokens - 1)
      let numLocal := perGroupHits.getD g 0
      if perGroupHits.any fun hit => decide (hit > numLocal) then do
        let (blocks, n, boundary) ← k.getComputedBlocks request
        pure (blocks, n, boundary, false)
      else pure (createKvCacheBlocks computed, numLocal, 0, perGroupHits.any fun hit => decide (hit < numLocal))
  | none => do
    let (blocks, n, boundary) ← k.getComputedBlocks request
    pure (blocks, n, boundary, false)

end Methods

def free (r : RequestId) : Except Err (KVCacheManager η) := do
  let c ← k.coordinator.free r
  pure { k with coordinator := c }

def removeSkippedBlocks (r : RequestId) (processedComputedTokens : Nat) (numPromptTokens : Option Nat) :
    Except Err (KVCacheManager η) := do
  let c ← k.coordinator.removeSkippedBlocks r processedComputedTokens numPromptTokens
  pure { k with coordinator := c }

def popBlocksForFree (r : RequestId) : List BlockId × KVCacheManager η :=
  let (blocks, c) := k.coordinator.popBlocksForFree r
  (blocks, { k with coordinator := c })

def freeBlocks (blocks : List BlockId) : Except Err (KVCacheManager η) := do
  let pool ← k.pool.freeBlocks blocks
  pure { k with coordinator := { k.coordinator with pool } }

def resetPrefixCache : Bool × KVCacheManager η :=
  let (ok, pool) := k.pool.resetPrefixCache
  (ok, { k with coordinator := { k.coordinator with pool } })

/-- Drain the pending copies; the answer also has their endpoints, which stay referenced until the copies
have run. -/
def takeKvCacheBlockCopies : List (BlockId × BlockId) × List BlockId × KVCacheManager η :=
  let copies := k.coordinator.managers.flatMap fun m => m.takePendingCowCopies.1
  (copies, copies.flatMap fun c => [c.1, c.2],
    { k with coordinator := { k.coordinator with
      managers := k.coordinator.managers.map fun m => m.takePendingCowCopies.2 } })

def newStepStarts : KVCacheManager η := { k with coordinator := k.coordinator.newStepStarts }

def getBlockIds (r : RequestId) : List (List BlockId) := k.coordinator.getBlocks r

/-- Release the completed windows of a request; tokens in flight still attend to theirs. -/
def recycleSlidingWindows : Except Err (KVCacheManager η) := do
  let processed := ((request.numComputedTokens : Int) - request.numInFlightTokens).toNat
  let c ← k.coordinator.forManagers fun _ m p =>
    match m.spec.kind with
    | .slidingWindow .. | .chunkedLocal _ => m.removeSkippedBlocks p request.requestId processed none
    | _ => .ok (m, p)
  pure { k with coordinator := c }

def truncateGroup (m : Manager η) (blocks : List BlockId) (numComputedTokens : Nat) : Except Err (List BlockId) :=
  if !m.spec.prefixCacheable then do
    Except.ensure (blocks = []) (.assertionError "not group_blocks")
    pure []
  else do
    Except.ensure (numComputedTokens % m.blockSize = 0)
      (.assertionError "num_computed_tokens % manager.block_size == 0")
    let n := numComputedTokens / m.blockSize
    Except.ensure (m.spec.isMamba ∨ n ≤ blocks.length) (.assertionError "num_blocks <= len(group_blocks)")
    pure (blocks.take n)

/-- `truncate_computed_blocks`: cut a lookup result at an aligned endpoint. -/
def truncateComputedBlocks (blocks : Option (List (List BlockId))) (numComputedTokens : Nat) :
    Except Err (Option (List (List BlockId))) := do
  let truncated ← (k.coordinator.managers.zip (blocks.getD k.emptyKvCacheBlocks)).mapM fun (m, bs) =>
    truncateGroup m bs numComputedTokens
  pure (createKvCacheBlocks truncated)

def mapManagers (f : Manager η → Manager η) : KVCacheManager η :=
  { k with coordinator := { k.coordinator with managers := k.coordinator.managers.map f } }

def takeNewBlockIds : List (List BlockId) × KVCacheManager η :=
  (k.coordinator.managers.map fun m => m.takeNewBlockIds.1, k.mapManagers fun m => m.takeNewBlockIds.2)

def takeBoundaryStateOffloads : List (RequestId × Nat × BlockId × Nat) × KVCacheManager η :=
  (k.coordinator.managers.flatMap fun m => m.takePendingBoundaryStateOffloads.1,
    k.mapManagers fun m => m.takePendingBoundaryStateOffloads.2)

def finalizePartialTailOffloads : List (Nat × BlockId × Nat) × KVCacheManager η :=
  let finalize := fun m : Manager η =>
    m.finalizePartialTailOffload request.requestId request.numComputedTokens request.numInFlightTokens.toNat
  (k.coordinator.managers.filterMap fun m => (finalize m).1, k.mapManagers fun m => (finalize m).2)

/-- The blocks of a request over `[startToken, endToken)` in the groups whose new blocks are zeroed. -/
def getZeroingBlockIdsInRange (r : RequestId) (startToken endToken : Nat) : List (List BlockId) :=
  k.coordinator.managers.map fun m =>
    if m.recordNewBlockIds then
      ((m.blocksOf r).take (cdiv endToken m.blockSize)).drop (startToken / m.blockSize)
    else []

/-- `record_blocks_for_zeroing`: blocks that a failed load left unwritten. -/
def recordBlocksForZeroing (r : RequestId) (startToken : Nat) : Except Err (KVCacheManager η) := do
  Except.ensure (∀ m ∈ k.coordinator.managers, m.recordNewBlockIds → startToken % m.blockSize = 0)
    (.assertionError "start_token % mgr.block_size == 0")
  pure (k.mapManagers fun m =>
    if m.recordNewBlockIds then
      { m with newBlockIds := m.newBlockIds ++ (m.blocksOf r).drop (startToken / m.blockSize) }
    else m)

end KVCacheManager

end VllmCore
