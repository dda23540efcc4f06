import VllmCore.Core.BlockPool
import VllmCore.Core.Spec

/-! # Single-type managers

`single_type_kv_cache_manager.py`. The classes of the source differ in the methods they override; here
one record carries the fields of all of them and each method dispatches on the kind of the spec, with
the overriding bodies as functions of their own. The shared block pool is passed along.

A `defaultdict` read creates the missing entry: `openTable`. Sets are lists without duplicates. -/

namespace VllmCore
open Except
variable {η : Type}

structure Manager (η : Type) where
  spec : KVCacheSpec
  enableCaching : Bool
  kvCacheGroupId : Nat
  schedulerBlockSize : Nat
  cacheHitAlignmentTokens : Nat
  maxAdmissionBlocksPerRequest : Option Nat
  recordNewBlockIds : Bool
  useEagle : Bool := false
  fineGrainedPrefixCache : Bool := false
  newBlockIds : List BlockId := []
  reqToBlocks : Dict RequestId (List BlockId) := Dict.empty
  numCachedBlock : Dict RequestId Nat := Dict.empty
  /-- the index and the shared block of a partial hit that waits for its copy -/
  partialHitReqs : Dict RequestId (Nat × BlockId) := Dict.empty
  pendingCowCopies : List (BlockId × BlockId) := []
  pendingBoundaryStateOffloads : List (RequestId × Nat × BlockId × Nat) := []
  -- Mamba only
  dropEagleCheckpointBlock : Bool := false
  cachedBlocksThisStep : List (BlockHashWithGroupId η) := []
  nextStateToFree : Dict RequestId Nat := Dict.empty
  allocatedBlockReqs : List RequestId := []
  checkpoints : Dict RequestId (Nat × Nat) := Dict.empty
  producerPartialTailReqs : Dict RequestId (BlockId × Nat) := Dict.empty

def insertNew {α : Type} [DecidableEq α] (a : α) (s : List α) : List α := if a ∈ s then s else s ++ [a]

namespace Manager
variable (m : Manager η) (p : BlockPool η)

def blockSize (m : Manager η) : Nat := m.spec.blockSize

/-- `get_manager_for_kv_cache_spec`. -/
def init (spec : KVCacheSpec) (maxInFlightTokens maxModelLen : Nat) (enableCaching : Bool)
    (kvCacheGroupId schedulerBlockSize : Nat) (needsKvCacheZeroing : Bool) : Manager η where
  spec := spec
  enableCaching := enableCaching
  kvCacheGroupId := kvCacheGroupId
  schedulerBlockSize := schedulerBlockSize
  cacheHitAlignmentTokens := schedulerBlockSize
  maxAdmissionBlocksPerRequest := spec.maxAdmissionBlocksPerRequest maxInFlightTokens maxModelLen
  recordNewBlockIds := needsKvCacheZeroing && spec.recordsNewBlockIds

def blocksOf (r : RequestId) : List BlockId := m.reqToBlocks.getD r []

def setBlocks (r : RequestId) (bs : List BlockId) : Manager η := { m with reqToBlocks := m.reqToBlocks.set r bs }

def openTable (r : RequestId) : Manager η := m.setBlocks r (m.blocksOf r)

/-- Tokens before the attention window. For Mamba the source answers `-1` on no tokens; every caller
treats that like zero. -/
def getNumSkippedTokens (numComputedTokens : Nat) : Nat :=
  match m.spec.kind with
  | .slidingWindow w extra => numComputedTokens + 1 - w - extra
  | .chunkedLocal c => numComputedTokens / c * c
  | .mamba _ => numComputedTokens - 1
  | .fullAttention | .rswa _ | .circularBuffer _ | .crossAttention => 0

def hasPartialLocalHit (newComputedBlocks : List BlockId) (numLocalComputedTokens : Nat) : Bool :=
  decide (newComputedBlocks.length > 0) && decide (numLocalComputedTokens % m.blockSize ≠ 0)

def getNumEvictableBlocks (blocks : List BlockId) : Nat :=
  blocks.countP fun b => decide ((p.blocks b).refCnt = 0) && !isNull b

/-! ### Prediction -/

/-- `SingleTypeKVCacheManager.get_num_blocks_to_allocate`. -/
def baseNumBlocksToAllocate (r : RequestId) (numTokens : Nat) (newComputedBlocks : List BlockId)
    (totalComputedTokens numLocalComputedTokens : Nat) (applyAdmissionCap : Bool) : Except Err Nat :=
  let uncapped := cdiv numTokens m.blockSize
  let numRequiredBlocks := match applyAdmissionCap, m.maxAdmissionBlocksPerRequest with
    | true, some cap => min uncapped cap
    | _, _ => uncapped
  let numReqBlocks := (m.blocksOf r).length
  if m.numCachedBlock.contains r then do
    -- a running request has no new hits
    ensure (newComputedBlocks = []) (.assertionError "len(new_computed_blocks) == 0")
    pure (numRequiredBlocks - numReqBlocks)
  else
    let numSkippedBlocks := m.getNumSkippedTokens totalComputedTokens / m.blockSize
    let numNewBlocks := numRequiredBlocks - max numSkippedBlocks (newComputedBlocks.length + numReqBlocks)
    let numEvictableBlocks := getNumEvictableBlocks p (newComputedBlocks.drop (numSkippedBlocks - numReqBlocks))
    .ok (numNewBlocks + (if m.hasPartialLocalHit newComputedBlocks numLocalComputedTokens then 1 else 0) +
      numEvictableBlocks)

def needsInternalCheckpoint (s : MambaSpec) (r : RequestId) (queryStart queryEnd checkpointPosition : Nat) : Bool :=
  let blocks := m.blocksOf r
  let checkpointIdx := cdiv queryEnd m.blockSize - 2
  decide (s.mambaCacheMode = .align ∧ 0 < s.numPrefillCheckpointBlocks) &&
    isMambaPrefillCheckpointValid queryStart queryEnd checkpointPosition p.hashBlockSize m.blockSize
      s.prefillCheckpointAlignment &&
    decide (2 ≤ cdiv queryEnd m.blockSize) &&
    (decide (checkpointIdx ≥ blocks.length) || (blocks[checkpointIdx]?).any isNull ||
      (m.allocatedBlockReqs.contains r && decide (checkpointIdx + s.numSpeculativeBlocks ≥ blocks.length)))

/-- The checkpoint of the coming allocation: position and block index. -/
def plannedCheckpoint (s : MambaSpec) (r : RequestId) (totalComputedTokens numTokens : Nat) : Option (Nat × Nat) :=
  let position := getMambaPrefillCheckpointPosition numTokens p.hashBlockSize m.dropEagleCheckpointBlock
  if m.needsInternalCheckpoint p s r totalComputedTokens numTokens position && decide (0 < position) then
    some (position, cdiv numTokens m.blockSize - 2)
  else none

/-- The align-mode branch of `MambaManager.get_num_blocks_to_allocate`. -/
def alignNumBlocksToAllocate (s : MambaSpec) (r : RequestId) (newComputedBlocks : List BlockId)
    (totalComputedTokens numLocalComputedTokens numTokens : Nat) (applyAdmissionCap : Bool) : Int × Manager η :=
  let numRequiredBlocks := cdiv numTokens m.blockSize + s.numSpeculativeBlocks
  let missing : Int := (numRequiredBlocks : Int) - newComputedBlocks.length - (m.blocksOf r).length
  let hasPartialHit := m.hasPartialLocalHit newComputedBlocks numLocalComputedTokens || m.partialHitReqs.contains r
  let missing := if hasPartialHit then max missing 0 + 1 else missing
  let checkpoint := m.plannedCheckpoint p s r totalComputedTokens numTokens
  let checkpointBlock : Nat := if checkpoint.isSome then 1 else 0
  let blocksAllocated := m.allocatedBlockReqs.contains r
  let numNewBlocks : Int :=
    if missing > 0 ∧ ¬ (checkpoint.isSome ∧ blocksAllocated) then
      1 + (if hasPartialHit then 1 else 0) + checkpointBlock + (if blocksAllocated then 0 else s.numSpeculativeBlocks)
    else missing
  let checkpoints := match applyAdmissionCap, checkpoint with
    | true, _ => m.checkpoints
    | false, some c => m.checkpoints.set r c
    | false, none => m.checkpoints.erase r
  (numNewBlocks + getNumEvictableBlocks p newComputedBlocks, { m.openTable r with checkpoints })

/-- `get_num_blocks_to_allocate`; the align mode of Mamba also plans its checkpoint. -/
def getNumBlocksToAllocate [DecidableEq η] (m : Manager η) (p : BlockPool η) (r : RequestId) (numTokens : Nat)
    (newComputedBlocks : List BlockId) (totalComputedTokens numLocalComputedTokens numTokensMainModel : Nat)
    (applyAdmissionCap : Bool) : Except Err (Int × Manager η) :=
  match m.spec.kind with
  | .circularBuffer _ => .ok (if m.blocksOf r = [] then 1 else 0, m)
  | .mamba s =>
    -- a state written in this very step cannot be read yet: ask for more than there is
    if (newComputedBlocks.getLast?.bind fun b => (p.blocks b).blockHash).any (· ∈ m.cachedBlocksThisStep) then
      .ok (p.numGpuBlocks + 1, m)
    else if s.mambaCacheMode = .align then
      .ok (m.alignNumBlocksToAllocate p s r newComputedBlocks totalComputedTokens numLocalComputedTokens
        numTokensMainModel applyAdmissionCap)
    else do
      let n ← m.baseNumBlocksToAllocate p r (numTokens + m.blockSize * s.numSpeculativeBlocks) newComputedBlocks
        totalComputedTokens numLocalComputedTokens applyAdmissionCap
      pure ((n : Int), m)
  | .fullAttention | .rswa _ | .slidingWindow .. | .chunkedLocal _ | .crossAttention => do
    let n ← m.baseNumBlocksToAllocate p r numTokens newComputedBlocks totalComputedTokens numLocalComputedTokens
      applyAdmissionCap
    pure ((n : Int), m)

/-! ### Allocation -/

section Allocation
variable [DecidableEq η] (m : Manager η) (p : BlockPool η)
variable (r : RequestId)

def appendNewBlocks (n : Nat) : Except Err (List BlockId × Manager η × BlockPool η) := do
  let (bs, p) ← p.getNewBlocks n
  let m := m.setBlocks r (m.blocksOf r ++ bs)
  pure (bs, if m.recordNewBlockIds then { m with newBlockIds := m.newBlockIds ++ bs } else m, p)

/-- Hits are touched only with caching on; otherwise there must be none. -/
def touchHits (hits : List BlockId) : Except Err (BlockPool η) :=
  if m.enableCaching then p.touch hits
  else if hits = [] then .ok p
  else .error (.assertionError "Computed blocks should be empty when prefix caching is disabled")

/-- Note a hit that ends inside a block, for the redirect in `allocate_new_blocks`. -/
def notePartialHit (hits : List BlockId) (numLocalComputedTokens : Nat) : Manager η :=
  match m.hasPartialLocalHit hits numLocalComputedTokens, hits.getLast? with
  | true, some b =>
    let blockIdx := numLocalComputedTokens / m.blockSize
    { m with
      partialHitReqs := m.partialHitReqs.set r (blockIdx, b)
      numCachedBlock := m.numCachedBlock.set r blockIdx }
  | _, _ => m

/-- `SingleTypeKVCacheManager.add_local_computed_blocks`. -/
def baseAddLocalComputedBlocks (newComputedBlocks : List BlockId)
    (numLocalComputedTokens numExternalComputedTokens : Nat) : Except Err (Manager η × BlockPool η) := do
  ensure (m.blocksOf r = []) (.assertionError "len(req_blocks) == 0")
  let numSkippedBlocks :=
    m.getNumSkippedTokens (numLocalComputedTokens + numExternalComputedTokens) / m.blockSize
  let hits := newComputedBlocks.drop numSkippedBlocks
  let p ← m.touchHits p hits
  let reqBlocks := List.replicate numSkippedBlocks nullBlock ++ hits
  let m := { m.setBlocks r reqBlocks with numCachedBlock := m.numCachedBlock.set r reqBlocks.length }
  pure (m.notePartialHit r hits numLocalComputedTokens, p)

def addLocalComputedBlocks (newComputedBlocks : List BlockId) (numLocalComputedTokens numExternalComputedTokens : Nat) :
    Except Err (Manager η × BlockPool η) :=
  match m.spec.kind with
  | .circularBuffer _ => .ok (m, p)
  | .crossAttention =>
    if newComputedBlocks = [] then .ok (m, p)
    else .error (.assertionError "len(new_computed_blocks) == 0")
  | _ => m.baseAddLocalComputedBlocks p r newComputedBlocks numLocalComputedTokens numExternalComputedTokens

def claimRingBlock : Except Err (List BlockId × Manager η × BlockPool η) :=
  if m.blocksOf r = [] then m.appendNewBlocks p r 1 else .ok ([], m, p)

/-- `SingleTypeKVCacheManager.allocate_external_computed_blocks`. -/
def baseAllocateExternalComputedBlocks (numLocalComputedTokens numExternalComputedTokens : Nat) :
    Except Err (Manager η × BlockPool η) :=
  let total := numLocalComputedTokens + numExternalComputedTokens
  let numSkippedTokens := m.getNumSkippedTokens total
  let external := if numSkippedTokens > 0 then min (total - numSkippedTokens) numExternalComputedTokens
    else numExternalComputedTokens
  if external = 0 then .ok (m, p)
  else do
    let (_, m, p) ← m.appendNewBlocks p r (cdiv total m.blockSize - (m.blocksOf r).length)
    pure (m, p)

def allocateExternalComputedBlocks (numLocalComputedTokens numExternalComputedTokens : Nat) :
    Except Err (Manager η × BlockPool η) :=
  match m.spec.kind with
  | .circularBuffer _ => do
    let (_, m, p) ← m.claimRingBlock p r
    pure (m, p)
  | .crossAttention => .ok (m, p)
  | _ => m.baseAllocateExternalComputedBlocks p r numLocalComputedTokens numExternalComputedTokens

/-- `_apply_cow`: the request moves to its private copy. The source keeps the reference of the hit for
the pending pair, the copy gets one more. -/
def applyCow (blockIdx : Nat) (source cow : BlockId) : Except Err (Manager η × BlockPool η) := do
  ensure ((m.blocksOf r)[blockIdx]? = some source)
    (.assertionError "req_blocks[block_idx] is source_block")
  ensure (source ≠ nullBlock ∧ (p.blocks source).refCnt > 0)
    (.assertionError "not source_block.is_null and source_block.ref_cnt > 0")
  let m := m.setBlocks r ((m.blocksOf r).set blockIdx cow)
  pure ({ m with pendingCowCopies := m.pendingCowCopies ++ [(source, cow)] }, p.addRef cow 1)

/-- The first part of `allocate_new_blocks`: redirect a partial hit to a copy. -/
def redirectPartialHit : Except Err (List BlockId × Manager η × BlockPool η) :=
  match m.partialHitReqs.get? r with
  | none => .ok ([], m, p)
  | some (blockIdx, source) => do
    let (new, p) ← p.getNewBlocks 1
    match new with
    | [] => .error .indexError
    | cow :: _ => do
      let (m, p) ← { m with partialHitReqs := m.partialHitReqs.erase r }.applyCow p r blockIdx source cow
      pure ([cow], { m with newBlockIds := m.newBlockIds ++ [cow] }, p)

/-- `SingleTypeKVCacheManager.allocate_new_blocks`. -/
def baseAllocateNewBlocks (numTokens : Nat) : Except Err (List BlockId × Manager η × BlockPool η) := do
  let (cowBlocks, m, p) ← m.redirectPartialHit p r
  let numNewBlocks := cdiv numTokens m.blockSize - (m.blocksOf r).length
  if numNewBlocks = 0 then pure (cowBlocks, m.openTable r, p)
  else do
    let (newBlocks, m, p) ← m.appendNewBlocks p r numNewBlocks
    pure (cowBlocks ++ newBlocks, m, p)

def relocateSpeculativeBlock (reqBlocks : List BlockId) (blockIdx : Nat) : Except Err (List BlockId) :=
  match reqBlocks[blockIdx]? with
  | none => .error .indexError
  | some b => do
    ensure (p.isBlockWritable b)
      (.assertionError "Speculative Mamba blocks must be exclusively owned and unhashed before relocation")
    pure ((reqBlocks ++ [b]).set blockIdx nullBlock)

/-- The relocation loop, up to the first block that is not skipped. The indices count up, so that is
the part of the range below `numSkippedBlocks`. -/
def relocateSpeculativeBlocks (reqBlocks : List BlockId) (first last numSkippedBlocks : Nat) :
    Except Err (List BlockId) :=
  ((List.range (min last numSkippedBlocks)).drop first).foldlM (relocateSpeculativeBlock p) reqBlocks

/-- The copy for a partial tail of a request that runs already. Its worker table is append-only, so the
request stays on `source` and the cache entry moves to `cow`. -/
def privatizeTail (reqBlocks : List BlockId) (blockIdx : Nat) (source cow : BlockId) :
    Except Err (Manager η × BlockPool η) := do
  ensure (reqBlocks[blockIdx]? = some source) (.assertionError "req_blocks[block_idx] is source_block")
  let p ← p.moveBlockHashes source cow
  ensure (∀ t ∈ m.producerPartialTailReqs.get? r, t.1 = source)
    (.assertionError "marker_block is source_block")
  let offload := match m.producerPartialTailReqs.get? r with
    | none => []
    | some (_, boundaryTokens) => [(r, m.kvCacheGroupId, cow, boundaryTokens)]
  let cached := match (p.blocks cow).blockHash with
    | none => m.cachedBlocksThisStep
    | some key => insertNew key m.cachedBlocksThisStep
  pure
    ({ m with
        pendingCowCopies := m.pendingCowCopies ++ [(source, cow)]
        producerPartialTailReqs := m.producerPartialTailReqs.erase r
        pendingBoundaryStateOffloads := m.pendingBoundaryStateOffloads ++ offload
        cachedBlocksThisStep := cached },
      p.addRef source 1)

/-- The treatment of a partial hit in align mode: the first new block is the copy. The answer also has
the blocks to return before the rest. -/
def alignPartialHit (reqBlocks newBlocks : List BlockId) :
    Except Err (List BlockId × List BlockId × Manager η × BlockPool η) :=
  match m.partialHitReqs.get? r with
  | none => .ok ([], newBlocks, m.setBlocks r reqBlocks, p)
  | some (blockIdx, source) =>
    match newBlocks with
    | [] => .error .indexError
    | cow :: newBlocks =>
      if m.allocatedBlockReqs.contains r then do
        let (m, p) ← m.privatizeTail p r reqBlocks blockIdx source cow
        pure ([], newBlocks, m.setBlocks r reqBlocks, p)
      else do
        let (m, p) ← (m.setBlocks r reqBlocks).applyCow p r blockIdx source cow
        pure ([cow], newBlocks, m, p)

/-- Null padding up to the column of the new state; the column of a checkpoint is left free. -/
def padWithNull (reqBlocks : List BlockId) (numSkippedBlocks checkpointBlock : Nat) : List BlockId :=
  if reqBlocks.length < numSkippedBlocks then
    reqBlocks ++ List.replicate (numSkippedBlocks - checkpointBlock - reqBlocks.length) nullBlock
  else reqBlocks

def checkpointBlock : Nat := if m.checkpoints.contains r then 1 else 0

def partialHitBlock : Nat := if m.partialHitReqs.contains r then 1 else 0

/-- Speculative blocks are allocated with the first blocks of a request and with a checkpoint; otherwise
they are relocated. -/
def relocates : Bool := m.allocatedBlockReqs.contains r && !m.checkpoints.contains r

/-- The table of an align-mode request before new blocks come in: padded, and with the speculative blocks
of a request that has been allocated before moved to the end. -/
def alignTable (s : MambaSpec) (r : RequestId) (numSkippedBlocks : Nat) : Except Err (List BlockId) :=
  let reqBlocks := m.blocksOf r
  let padded := padWithNull reqBlocks numSkippedBlocks (m.checkpointBlock r)
  if m.relocates r then
    relocateSpeculativeBlocks p padded (reqBlocks.length - s.numSpeculativeBlocks) reqBlocks.length numSkippedBlocks
  else .ok padded

/-- `num_new_blocks` of the align mode, for a table of the given length. -/
def alignNumNewBlocks (s : MambaSpec) (r : RequestId) (numTokens len : Nat) : Nat :=
  cdiv numTokens m.blockSize + s.numSpeculativeBlocks - len + m.partialHitBlock r

def alignMaxNewBlocks (s : MambaSpec) (r : RequestId) : Nat :=
  1 + m.partialHitBlock r + m.checkpointBlock r + if m.relocates r then 0 else s.numSpeculativeBlocks

/-- The align-mode branch of `MambaManager.allocate_new_blocks`. -/
def alignAllocateNewBlocks (s : MambaSpec) (r : RequestId) (numTokens : Nat) :
    Except Err (List BlockId × Manager η × BlockPool η) :=
  let prevBlockLen := (m.blocksOf r).length
  let numRequiredBlocks := cdiv numTokens m.blockSize + s.numSpeculativeBlocks
  if numRequiredBlocks ≤ prevBlockLen ∧ m.partialHitBlock r = 0 ∧ m.checkpointBlock r = 0 then
    .ok ([], { m.openTable r with allocatedBlockReqs := insertNew r m.allocatedBlockReqs }, p)
  else do
    let reqBlocks ← m.alignTable p s r (numRequiredBlocks - s.numSpeculativeBlocks - 1)
    let numNewBlocks := m.alignNumNewBlocks s r numTokens reqBlocks.length
    ensure (numNewBlocks ≤ m.alignMaxNewBlocks s r) (.assertionError "num_new_blocks <= max_new_blocks")
    let (newBlocks, p) ← p.getNewBlocks numNewBlocks
    let (cowBlocks, newBlocks, m, p) ← m.alignPartialHit p r reqBlocks newBlocks
    let m := m.setBlocks r (m.blocksOf r ++ newBlocks)
    pure (cowBlocks ++ reqBlocks.drop prevBlockLen ++ newBlocks,
      { m with
        allocatedBlockReqs := insertNew r m.allocatedBlockReqs
        partialHitReqs := m.partialHitReqs.erase r }, p)

def allocateNewBlocks (numTokens numTokensMainModel : Nat) : Except Err (List BlockId × Manager η × BlockPool η) :=
  match m.spec.kind with
  | .circularBuffer _ => m.claimRingBlock p r
  | .mamba s =>
    -- lookahead tokens would break the alignment, and draft models have no state of this kind
    if s.mambaCacheMode = .align then m.alignAllocateNewBlocks p s r numTokensMainModel
    else m.baseAllocateNewBlocks p r (numTokens + m.blockSize * s.numSpeculativeBlocks)
  | .fullAttention | .rswa _ | .slidingWindow .. | .chunkedLocal _ | .crossAttention =>
    m.baseAllocateNewBlocks p r numTokens

end Allocation

/-! ### Which blocks are worth caching -/

def contiguousBlocksForHit (windowSize blockSize : Nat) (useEagle : Bool) : Nat :=
  cdiv (windowSize - 1) blockSize + if useEagle then 1 else 0

def inTail (need e i : Nat) : Bool := decide (e - need ≤ i) && decide (i < e)

/-- `SlidingWindowManager.reachable_block_mask`. The loops of the source only set entries, so the mask
is the disjunction of what they set. -/
def slidingWindowBlockMask (windowSize blockSize startBlock endBlock : Nat) (alignmentTokens : Option Nat)
    (useEagle : Bool) (retentionInterval : Option Nat) (reachableBoundaries : List Nat)
    (finalSegmentEndBlock : Option Nat) : Option (List Bool) :=
  match alignmentTokens with
  | none => none
  | some alignment =>
    if alignment % blockSize ≠ 0 then none
    else
      let need := contiguousBlocksForHit windowSize blockSize useEagle
      -- with EAGLE the matched run ends one block past the boundary
      let shift := if useEagle then 1 else 0
      let segmentTokens : Option Nat := match retentionInterval with
        | none => some alignment
        | some 0 => none
        | some t => some t
      let boundaryTail (i : Nat) : Bool := retentionInterval.isSome && reachableBoundaries.any fun t =>
        inTail need (t / alignment * alignment / blockSize + shift) i
      match segmentTokens with
      | none => some ((List.range (endBlock - startBlock)).map fun j => boundaryTail (startBlock + j))
      | some t =>
        let perSegment := t / blockSize
        if need ≥ perSegment then none
        else
          let segmentTail (i : Nat) : Bool :=
            decide (shift ≤ i) && decide ((i - shift) % perSegment ≥ perSegment - need)
          let finalTail (i : Nat) : Bool := match finalSegmentEndBlock with
            | some e => !useEagle && decide (e % perSegment ≠ 0) &&
                decide (max (e - e % perSegment) (e - need) ≤ i) && decide (i < e)
            | none => false
          some ((List.range (endBlock - startBlock)).map fun j =>
            segmentTail (startBlock + j) || finalTail (startBlock + j) || boundaryTail (startBlock + j))

/-- `MambaManager.reachable_block_mask`: a hit needs exactly the state that ends on the boundary. -/
def mambaBlockMask (blockSize startBlock endBlock : Nat) (alignmentTokens retentionInterval : Option Nat)
    (reachableBoundaries : List Nat) : Option (List Bool) :=
  match retentionInterval, alignmentTokens with
  | some interval, some alignment =>
    let perSegment := interval / blockSize
    let boundary (i : Nat) : Bool := reachableBoundaries.any fun t =>
      t / alignment * alignment / blockSize == i + 1
    if interval = 0 then some ((List.range (endBlock - startBlock)).map fun j => boundary (startBlock + j))
    else if perSegment ≤ 1 then none
    else some ((List.range (endBlock - startBlock)).map fun j =>
      (startBlock + j + 1) % perSegment == 0 || boundary (startBlock + j))
  | _, _ => none

/-- `reachable_block_mask`; no mask means every block. -/
def reachableBlockMask (s : KVCacheSpec) (startBlock endBlock : Nat) (alignmentTokens : Option Nat)
    (useEagle : Bool) (retentionInterval : Option Nat) (reachableBoundaries : List Nat)
    (finalSegmentEndBlock : Option Nat := none) : Option (List Bool) :=
  match s.kind with
  | .slidingWindow w _ => slidingWindowBlockMask w s.blockSize startBlock endBlock alignmentTokens useEagle
      retentionInterval reachableBoundaries finalSegmentEndBlock
  | .mamba _ => mambaBlockMask s.blockSize startBlock endBlock alignmentTokens retentionInterval reachableBoundaries
  | _ => none

/-! ### Caching -/

section Caching
variable [DecidableEq η] (m : Manager η) (p : BlockPool η)
variable (request : Request η)

/-- `SingleTypeKVCacheManager.cache_blocks`. -/
def baseCacheBlocks (numTokens : Nat) (retentionInterval : Option Nat) (replayBoundaries : List Nat) :
    Except Err (Manager η × BlockPool η) :=
  let r := request.requestId
  let numCachedBlocks := m.numCachedBlock.getD r 0
  let numFullBlocks := numTokens / m.blockSize
  if numCachedBlocks ≥ numFullBlocks then .ok (m, p)
  else
    let boundaries := replayBoundaries ++
      if request.sharedPrefixBoundary = 0 then [] else [request.sharedPrefixBoundary]
    let mask := reachableBlockMask m.spec numCachedBlocks numFullBlocks (some m.cacheHitAlignmentTokens) m.useEagle
      retentionInterval boundaries
    do
      let p ← p.cacheFullBlocks request (m.blocksOf r) numCachedBlocks numFullBlocks m.blockSize m.kvCacheGroupId mask
      pure ({ m.openTable r with numCachedBlock := m.numCachedBlock.set r numFullBlocks }, p)

/-- `FullAttentionManager._cache_partial_tail_block`: only the last hash boundary of the prompt is
registered. -/
def fullCachePartialTailBlock (numTokens : Nat) : Except Err (Manager η × BlockPool η) :=
  let boundaryTokens := request.numPromptTokens / p.hashBlockSize * p.hashBlockSize
  if boundaryTokens = 0 ∨ boundaryTokens > numTokens ∨ boundaryTokens % m.blockSize = 0 then .ok (m, p)
  else
    match (m.blocksOf request.requestId)[boundaryTokens / m.blockSize]? with
    | none => .ok (m.openTable request.requestId, p)
    | some b => do
      let (_, p) ← p.cachePartialBlock request b boundaryTokens m.kvCacheGroupId m.blockSize false
      pure (m.openTable request.requestId, p)

def fullCacheBlocks (numTokens : Nat) (retentionInterval : Option Nat) (replayBoundaries : List Nat) :
    Except Err (Manager η × BlockPool η) := do
  let (m, p) ← m.baseCacheBlocks p request numTokens retentionInterval replayBoundaries
  if m.blockSize = p.hashBlockSize then pure (m, p)
  else m.fullCachePartialTailBlock p request numTokens

/-- The position at which a chunk of a Mamba prompt leaves a partial entry: the last hash boundary of the
prompt (one unit lower with EAGLE), or the junction with a sibling, inside the prompt chunk being
computed. -/
def isMambaTail (numTokens : Nat) : Bool :=
  let latest := request.numPromptTokens / p.hashBlockSize * p.hashBlockSize -
    if m.useEagle then p.hashBlockSize else 0
  decide (m.blockSize ≠ p.hashBlockSize ∧ numTokens % m.blockSize ≠ 0 ∧ numTokens % p.hashBlockSize = 0) &&
    (decide (numTokens = latest) ||
      (m.fineGrainedPrefixCache && decide (numTokens = request.sharedPrefixBoundary) &&
        decide (request.numComputedTokens < numTokens ∧ numTokens ≤ request.numPromptTokens)))

/-- `MambaManager._cache_partial_tail_block`. A planned checkpoint re-keys its block instead. -/
def mambaCachePartialTailBlock (numTokens : Nat) :
    Except Err (Option (BlockHashWithGroupId η) × Manager η × BlockPool η) :=
  let r := request.requestId
  match m.checkpoints.get? r with
  | some (position, idx) =>
    match (m.blocksOf r)[idx]? with
    | none => .error (.assertionError "0 <= checkpoint_idx < len(blocks)")
    | some b =>
      if (p.blocks b).blockHashNumTokens = some position then .ok (none, m, p)
      else do
        let (key, p) ← p.cachePartialBlock request b position m.kvCacheGroupId m.blockSize true
        pure (key, m, p)
  | none =>
    if m.isMambaTail p request numTokens then
      let blockIdx := numTokens / m.blockSize
      match (m.blocksOf r)[blockIdx]? with
      | none => .ok (none, m.openTable r, p)
      | some b =>
        if isNull b then .ok (none, m, p)
        else do
          let (key, p) ← p.cachePartialBlock request b numTokens m.kvCacheGroupId m.blockSize false
          pure (key, { m with
            partialHitReqs := m.partialHitReqs.set r (blockIdx, b)
            numCachedBlock := m.numCachedBlock.set r blockIdx
            producerPartialTailReqs := m.producerPartialTailReqs.set r (b, numTokens) }, p)
    else .ok (none, m, p)

/-- The states cached between two counts, with the number of tokens each stands for. -/
def newlyCached (r : RequestId) (before after : Nat) : List (BlockHashWithGroupId η × BlockId × Option Nat) :=
  (((m.blocksOf r).take after).drop before).filterMap fun b =>
    match isNull b, (p.blocks b).blockHash with
    | false, some key => some (key, b, (p.blocks b).blockHashNumTokens)
    | _, _ => none

def mambaTail (s : MambaSpec) (request : Request η) (numTokens : Nat) : Except Err (Manager η × BlockPool η) :=
  if s.mambaCacheMode = .align then do
    let (key, m, p) ← m.mambaCachePartialTailBlock p request numTokens
    pure ({ m with cachedBlocksThisStep := key.elim m.cachedBlocksThisStep (insertNew · m.cachedBlocksThisStep) }, p)
  else .ok (m, p)

def mambaCacheBlocks (s : MambaSpec) (request : Request η) (numTokens : Nat) (retentionInterval : Option Nat)
    (replayBoundaries : List Nat) : Except Err (Manager η × BlockPool η) := do
  let r := request.requestId
  let before := m.numCachedBlock.getD r 0
  let (m, p) ← m.baseCacheBlocks p request numTokens retentionInterval replayBoundaries
  let after := m.numCachedBlock.getD r 0
  let (m, p) ← m.mambaTail p s request numTokens
  ensure (before < after → after ≤ (m.blocksOf r).length) .indexError
  let new := m.newlyCached p r before after
  let m := { m with cachedBlocksThisStep := new.foldl (fun c e => insertNew e.1 c) m.cachedBlocksThisStep }
  if s.mambaCacheMode = .align then do
    ensure (∀ e ∈ new, e.2.2.isSome) (.assertionError "block.block_hash_num_tokens is not None")
    pure ({ m with
      pendingBoundaryStateOffloads := m.pendingBoundaryStateOffloads ++
        new.map fun e => (r, m.kvCacheGroupId, e.2.1, e.2.2.getD 0) }, p)
  else pure (m, p)

def cacheBlocks (numTokens : Nat) (retentionInterval : Option Nat) (replayBoundaries : List Nat) :
    Except Err (Manager η × BlockPool η) :=
  match m.spec.kind with
  | .fullAttention | .rswa _ => m.fullCacheBlocks p request numTokens retentionInterval replayBoundaries
  | .slidingWindow .. | .chunkedLocal _ => m.baseCacheBlocks p request numTokens retentionInterval replayBoundaries
  | .circularBuffer _ => .ok (m, p)
  | .mamba s => m.mambaCacheBlocks p s request numTokens retentionInterval replayBoundaries
  | .crossAttention => .error (.valueError "Should not be called as prefix caching is disabled.")

end Caching

/-! ### Freeing -/

/-- The loop of `_remove_blocks_in_range` from index `i - 1` down to `first`, which stops at a null
block. The answer is the freed blocks and the table. -/
def removeLoop (first : Nat) : Nat → List BlockId → List BlockId × List BlockId
  | 0, blocks => ([], blocks)
  | i + 1, blocks =>
    match decide (first ≤ i), blocks[i]? with
    | true, some b =>
      if isNull b then ([], blocks)
      else
        let (freed, blocks) := removeLoop first i (blocks.set i nullBlock)
        (b :: freed, blocks)
    | _, _ => ([], blocks)

def removeBlocksInRange (r : RequestId) (firstBlock lastBlock : Nat) : Except Err (Manager η × BlockPool η) :=
  match m.reqToBlocks.get? r with
  | none => .ok (m, p)
  | some blocks => do
    let (freed, blocks) := removeLoop firstBlock (min lastBlock blocks.length) blocks
    let p ← p.freeBlocks freed
    pure (m.setBlocks r blocks, p)

/-- `SingleTypeKVCacheManager.remove_skipped_blocks`. -/
def baseRemoveSkippedBlocks (r : RequestId) (processedComputedTokens : Nat) : Except Err (Manager η × BlockPool η) :=
  let numSkippedTokens := m.getNumSkippedTokens processedComputedTokens
  if numSkippedTokens = 0 then .ok (m, p)
  else (m.openTable r).removeBlocksInRange p r 0 (numSkippedTokens / m.blockSize)

/-- The align-mode branch of `MambaManager.remove_skipped_blocks`: sparse states have null gaps between
them, so the walk does not stop at a gap. -/
def alignRemoveSkippedBlocks (r : RequestId) (processedComputedTokens : Nat) : Except Err (Manager η × BlockPool η) :=
  let blocks := m.blocksOf r
  let stop := min ((processedComputedTokens - 1) / m.blockSize) blocks.length
  let start := m.nextStateToFree.getD r 0
  if stop ≤ start then .ok (m.openTable r, p)
  else do
    let p ← p.freeBlocks (((blocks.take stop).drop start).filter fun b => !isNull b)
    pure ({ m.setBlocks r (blocks.take start ++ List.replicate (stop - start) nullBlock ++ blocks.drop stop) with
      nextStateToFree := m.nextStateToFree.set r stop }, p)

/-- `remove_skipped_blocks`. The prompt length matters to R-SWA only, which frees the gap between the
prompt and the decode window. -/
def removeSkippedBlocks (r : RequestId) (processedComputedTokens : Nat) (numPromptTokens : Option Nat) :
    Except Err (Manager η × BlockPool η) :=
  match m.spec.kind, numPromptTokens with
  | .circularBuffer _, _ => .ok (m, p)
  | .rswa w, some prompt =>
    m.removeBlocksInRange p r (cdiv prompt m.blockSize) (max prompt (processedComputedTokens - w) / m.blockSize)
  | .mamba s, _ =>
    if s.mambaCacheMode = .align then m.alignRemoveSkippedBlocks p r processedComputedTokens
    else m.baseRemoveSkippedBlocks p r processedComputedTokens
  | _, _ => m.baseRemoveSkippedBlocks p r processedComputedTokens

/-- `MambaManager.pop_blocks_for_free` drops the align-mode state first. -/
def dropAlignState (r : RequestId) : Manager η :=
  { m with
    allocatedBlockReqs := m.allocatedBlockReqs.filter fun x => x ≠ r
    nextStateToFree := m.nextStateToFree.erase r
    checkpoints := m.checkpoints.erase r
    producerPartialTailReqs := m.producerPartialTailReqs.erase r
    pendingBoundaryStateOffloads := m.pendingBoundaryStateOffloads.filter fun e => e.1 ≠ r }

/-- `pop_blocks_for_free`: forget the request and return its blocks in allocation order. -/
def popBlocksForFree (r : RequestId) : List BlockId × Manager η :=
  let m' := if m.spec.isMambaAlign then m.dropAlignState r else m
  (m.blocksOf r,
    { m' with
      reqToBlocks := m.reqToBlocks.erase r
      numCachedBlock := m.numCachedBlock.erase r
      partialHitReqs := m.partialHitReqs.erase r })

/-- `free`: tail blocks first. -/
def free (r : RequestId) : Except Err (Manager η × BlockPool η) := do
  let (blocks, m) := m.popBlocksForFree r
  let p ← p.freeBlocks blocks.reverse
  pure (m, p)

def takePendingCowCopies : List (BlockId × BlockId) × Manager η :=
  (m.pendingCowCopies, { m with pendingCowCopies := [] })

def takeNewBlockIds : List BlockId × Manager η := (m.newBlockIds, { m with newBlockIds := [] })

def takePendingBoundaryStateOffloads : List (RequestId × Nat × BlockId × Nat) × Manager η :=
  (m.pendingBoundaryStateOffloads, { m with pendingBoundaryStateOffloads := [] })

/-- `finalize_partial_tail_offload`: the tail can be offloaded if no later token was forwarded. -/
def finalizePartialTailOffload (r : RequestId) (numComputedTokens numInFlightTokens : Nat) :
    Option (Nat × BlockId × Nat) × Manager η :=
  if m.spec.isMambaAlign then
    ((m.producerPartialTailReqs.get? r).bind fun (source, boundaryTokens) =>
        if numInFlightTokens ≠ 0 ∨ numComputedTokens ≠ boundaryTokens then none
        else some (m.kvCacheGroupId, source, boundaryTokens),
      { m with producerPartialTailReqs := m.producerPartialTailReqs.erase r })
  else (none, m)

def newStepStarts : Manager η :=
  match m.spec.kind with
  | .mamba _ => { m with cachedBlocksThisStep := [] }
  | _ => m

end Manager

end VllmCore
