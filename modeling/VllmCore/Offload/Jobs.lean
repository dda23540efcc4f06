import VllmCore.Core.Manager
import VllmCore.Offload.Transfer

/-! # Store and load jobs

The scheduler side of the offloading connector, `offloading/scheduler.py`, as far as one request's jobs
go: which chunks `_build_store_jobs` offers to the offloading manager, the flat list of source blocks it
hands to the worker, and the load that `update_state_after_alloc` builds. The offloading manager is
given by its answers. Blocks are `0` where the window has passed or the id was found to be stale. -/

namespace VllmCore.Offload
open Except
variable {η : Type} [DecidableEq η]

/-- `make_offload_key`: a block hash, packed with the index of its group. -/
structure OffloadKey (η : Type) where
  blockHash : η
  groupIdx : Nat
deriving DecidableEq, Repr

structure GroupOffloadConfig where
  groupIdx : Nat
  tokensPerBlock : Nat
  tokensPerChunk : Nat
  hashesPerChunk : Nat
  /-- `none` is full attention -/
  slidingWindowSizeInChunks : Option Nat
  kvCacheSpec : KVCacheSpec
  requiresCowSource : Bool := false
  isEagleGroup : Bool := false

/-- `SchedulerOffloadConfig`, with what `from_spec` makes of the sizes. -/
structure SchedulerOffloadConfig where
  kvGroupConfigs : List GroupOffloadConfig
  blocksPerChunk : Nat
  tokensPerHash : Nat
  numWorkers : Nat := 1
  offloadPromptOnly : Bool := false
  alignmentTokens : Option Nat := none
  retentionInterval : Option Nat := none
  blocksPerChunk_pos : 0 < blocksPerChunk
  tokensPerBlock_pos : ∀ g ∈ kvGroupConfigs, 0 < g.tokensPerBlock
  tokensPerChunk_eq : ∀ g ∈ kvGroupConfigs, g.tokensPerChunk = g.tokensPerBlock * blocksPerChunk
  slidingWindow_pos : ∀ g ∈ kvGroupConfigs, ∀ w ∈ g.slidingWindowSizeInChunks, 0 < w
  groupIdx_eq : kvGroupConfigs.map GroupOffloadConfig.groupIdx = List.range kvGroupConfigs.length

structure RequestGroupState (η : Type) where
  offloadKeys : List (OffloadKey η) := []
  blockIds : List BlockId := []
  nextStoredChunkIdx : Nat := 0

inductive OffloadPolicy where
  | chunkLevel
  | requestLevel
deriving DecidableEq, Repr

/-- `RequestOffloadState`, with the request as it is when the state is read. -/
structure RequestOffloadState (η : Type) where
  req : Request η
  groupStates : List (RequestGroupState η)
  maxOffloadTokens : Option Nat := none
  policy : OffloadPolicy := .chunkLevel
  numLocallyComputedTokens : Nat := 0
  partialTailBoundary : Option Nat := none
  transferJobs : List Nat := []

/-- The answer of `prepare_store`: the keys to store and, in the same order, the chunks for them. -/
structure PrepareStoreOutput (η : Type) where
  keysToStore : List (OffloadKey η)
  chunkIds : List Nat

/-! ### Which chunks are stored -/

section Store

def calcNumOffloadableTokens (cfg : SchedulerOffloadConfig) (st : RequestOffloadState η)
    (numComputedTokens : Nat) : Nat :=
  let num := min numComputedTokens st.req.numTokens
  let num := match st.maxOffloadTokens with
    | some m => min num m
    | none => num
  if cfg.offloadPromptOnly then min num st.req.numPromptTokens else num

def storableChunks (cfg : SchedulerOffloadConfig) (st : RequestOffloadState η) (g : GroupOffloadConfig)
    (gs : RequestGroupState η) (numOffloadableTokens : Nat) : Nat :=
  let numChunks := numOffloadableTokens / g.tokensPerChunk
  let isDecoding := decide (numOffloadableTokens > st.req.numPromptTokens)
  -- the trailing chunk of a draft group may still be rewritten
  let numChunks := if g.isEagleGroup && isDecoding && !st.req.isFinished then numChunks - 1 else numChunks
  min (min numChunks (gs.blockIds.length / cfg.blocksPerChunk)) gs.offloadKeys.length

/-- `isinstance(kv_cache_spec, SlidingWindowSpec)`. -/
def isSlidingWindowSpec (s : KVCacheSpec) : Bool :=
  match s.kind with
  | .slidingWindow .. | .circularBuffer true => true
  | _ => false

def finalSwaAlignmentBlocks (cfg : SchedulerOffloadConfig) (g : GroupOffloadConfig) : Option Nat :=
  match cfg.alignmentTokens with
  | none => none
  | some alignment =>
    if g.isEagleGroup || !isSlidingWindowSpec g.kvCacheSpec || decide (alignment % g.tokensPerBlock ≠ 0) then none
    else some (alignment / g.tokensPerBlock)

def numTokensAfterBatch (req : Request η) (numScheduledTokens : Nat) : Nat :=
  if req.status = .finishedAborted then req.numComputedTokens
  -- the slot of the last sampled token is never committed
  else if req.isFinished then max req.numPromptTokens (req.numTokens - 1)
  else req.numComputedTokens + numScheduledTokens

structure Horizon where
  numOffloadableTokens : Nat
  promptOffloadableTokens : Nat

def horizon (cfg : SchedulerOffloadConfig) (st : RequestOffloadState η) (numScheduledTokens : Nat) : Horizon where
  numOffloadableTokens := calcNumOffloadableTokens cfg st (numTokensAfterBatch st.req numScheduledTokens)
  promptOffloadableTokens := calcNumOffloadableTokens cfg st st.req.numPromptTokens

variable (cfg : SchedulerOffloadConfig) (st : RequestOffloadState η) (hz : Horizon)
variable (g : GroupOffloadConfig) (gs : RequestGroupState η)

def reconsiderFinalSwaTail : Bool :=
  st.req.isFinished &&
    decide (storableChunks cfg st g gs hz.numOffloadableTokens ≠ hz.promptOffloadableTokens / g.tokensPerChunk) &&
    cfg.retentionInterval.isNone && (finalSwaAlignmentBlocks cfg g).isSome

def storeRange : Nat × Nat :=
  let numChunks := storableChunks cfg st g gs hz.numOffloadableTokens
  match reconsiderFinalSwaTail cfg st hz g gs, finalSwaAlignmentBlocks cfg g with
  | true, some alignmentBlocks =>
    let horizonBlocks := numChunks * cfg.blocksPerChunk
    let partialSegmentStartBlock := horizonBlocks - horizonBlocks % alignmentBlocks
    (min gs.nextStoredChunkIdx (partialSegmentStartBlock / cfg.blocksPerChunk), numChunks)
  | _, _ => (gs.nextStoredChunkIdx, numChunks)

def storeHorizonChunks : Option Nat :=
  let numChunks := storableChunks cfg st g gs hz.numOffloadableTokens
  let promptHorizonChunks := hz.promptOffloadableTokens / g.tokensPerChunk
  if cfg.retentionInterval.isSome || g.isEagleGroup then none
  else if st.req.isFinished then some numChunks
  else if numChunks ≤ promptHorizonChunks then some promptHorizonChunks
  -- an active decode frontier is not a final request boundary
  else none

/-- `reachable_boundaries`. Without prompt tokens the first is `-1`, which has no tail. -/
def reachableBoundaries : List Nat :=
  if cfg.retentionInterval.isSome then
    (if st.req.numPromptTokens = 0 then [] else [st.req.numPromptTokens - 1]) ++
      if st.req.sharedPrefixBoundary = 0 then [] else [st.req.sharedPrefixBoundary]
  else []

def reachableStoreBlockMask (startChunkIdx endChunkIdx : Nat) (finalSegmentEndChunkIdx : Option Nat) :
    Option (List Bool) :=
  Manager.reachableBlockMask g.kvCacheSpec (startChunkIdx * cfg.blocksPerChunk) (endChunkIdx * cfg.blocksPerChunk)
    cfg.alignmentTokens g.isEagleGroup cfg.retentionInterval (reachableBoundaries cfg st)
    (finalSegmentEndChunkIdx.map (· * cfg.blocksPerChunk))

def chunkInMask (mask : List Bool) (keyIdx : Nat) : Bool :=
  (List.range cfg.blocksPerChunk).any fun b => mask.getD (keyIdx * cfg.blocksPerChunk + b) false

/-- The two tests of the loop over a group's chunks that let `chunkIdx` pass. -/
def offersChunk (chunkIdx : Nat) : Bool :=
  let (startChunkIdx, numChunks) := storeRange cfg st hz g gs
  let mask := reachableStoreBlockMask cfg st g startChunkIdx numChunks (storeHorizonChunks cfg st hz g gs)
  let promptMask := reachableStoreBlockMask cfg st g startChunkIdx numChunks
    (some (hz.promptOffloadableTokens / g.tokensPerChunk))
  let offeredBefore := reconsiderFinalSwaTail cfg st hz g gs && decide (chunkIdx < gs.nextStoredChunkIdx) &&
    match promptMask with
    | none => true
    | some m => chunkInMask cfg m (chunkIdx - startChunkIdx)
  let reachable := match mask with
    | none => true
    | some m => chunkInMask cfg m (chunkIdx - startChunkIdx)
  !offeredBefore && reachable

/-- The last block of the chunk stands for it: a chunk is skipped when that block is missing. -/
def lastBlock (chunkIdx : Nat) : BlockId :=
  gs.blockIds.getD (chunkIdx * cfg.blocksPerChunk + cfg.blocksPerChunk - 1) 0

/-- The part of `new_offload_keys` that a group contributes. Keys and blocks reach up to the end of the
range, by `storableChunks`. -/
def groupOffloadKeys : List (OffloadKey η) :=
  let (startChunkIdx, numChunks) := storeRange cfg st hz g gs
  if g.requiresCowSource then []
  else (List.range' startChunkIdx (numChunks - startChunkIdx)).filterMap fun c =>
    if lastBlock cfg gs c = 0 then none
    else if offersChunk cfg st hz g gs c then gs.offloadKeys[c]? else none

def newOffloadKeys : List (OffloadKey η) :=
  (cfg.kvGroupConfigs.zip st.groupStates).flatMap fun e => groupOffloadKeys cfg st hz e.1 e.2

end Store

/-! ### The source list of a store job -/

structure GroupSource where
  srcBlockIds : List BlockId := []
  startGpuBlockIdx : Option Nat := none

def GroupSource.addBlock (s : GroupSource) (blockIdx : Nat) (b : BlockId) : GroupSource :=
  if b = 0 then s
  else { srcBlockIds := s.srcBlockIds ++ [b], startGpuBlockIdx := s.startGpuBlockIdx <|> some blockIdx }

def chunkBlocks (blocksPerChunk : Nat) (blockIds : List BlockId) (chunkIdx : Nat) : List (Nat × BlockId) :=
  (List.range blocksPerChunk).map fun i =>
    (chunkIdx * blocksPerChunk + i, blockIds.getD (chunkIdx * blocksPerChunk + i) 0)

def storedChunks (keysToStore : List (OffloadKey η)) (gs : RequestGroupState η) (range : Nat × Nat) : List Nat :=
  (List.range' range.1 (range.2 - range.1)).filter fun c =>
    match gs.offloadKeys[c]? with
    | some k => decide (k ∈ keysToStore)
    | none => false

def groupSource (blocksPerChunk : Nat) (keysToStore : List (OffloadKey η)) (gs : RequestGroupState η)
    (range : Nat × Nat) : GroupSource :=
  (storedChunks keysToStore gs range).foldl (fun s c =>
    (chunkBlocks blocksPerChunk gs.blockIds c).foldl (fun s e => s.addBlock e.1 e.2) s) {}

/-- A job of `_build_store_jobs`, with the blocks it is to be fenced by at once and at the finish. -/
structure StoreJob (η : Type) where
  srcSpec : GPULoadStoreSpec
  chunkIds : List Nat
  keys : List (OffloadKey η)
  fencedBlockIds : List BlockId
  deferredFenceBlockIds : List BlockId

/-- The index of the next chunk to store never moves back. -/
def RequestGroupState.advanceTo (gs : RequestGroupState η) (numChunks : Nat) : RequestGroupState η :=
  { gs with nextStoredChunkIdx := max gs.nextStoredChunkIdx numChunks }

def RequestOffloadState.advanceStoredIdx (cfg : SchedulerOffloadConfig) (st : RequestOffloadState η)
    (numOffloadableTokens : Nat) : RequestOffloadState η :=
  { st with groupStates := (cfg.kvGroupConfigs.zip st.groupStates).map fun e =>
      e.2.advanceTo (storableChunks cfg st e.1 e.2 numOffloadableTokens) }

def storeGroups (cfg : SchedulerOffloadConfig) (st : RequestOffloadState η) (hz : Horizon)
    (keysToStore : List (OffloadKey η)) : List (Bool × List BlockId × Nat) :=
  (cfg.kvGroupConfigs.zip st.groupStates).map fun e =>
    let source := groupSource cfg.blocksPerChunk keysToStore e.2 (storeRange cfg st hz e.1 e.2)
    (e.1.slidingWindowSizeInChunks.isSome, source.srcBlockIds, source.startGpuBlockIdx.getD 0)

def storeJob (cfg : SchedulerOffloadConfig) (st : RequestOffloadState η) (hz : Horizon)
    (output : PrepareStoreOutput η) : StoreJob η :=
  let groups := storeGroups cfg st hz output.keysToStore
  { srcSpec := GPULoadStoreSpec.ofGroups (groups.map Prod.snd)
    chunkIds := output.chunkIds
    keys := output.keysToStore
    fencedBlockIds := (groups.filter Prod.fst).flatMap fun g => g.2.1
    deferredFenceBlockIds := (groups.filter fun g => !g.1).flatMap fun g => g.2.1 }

/-- The round of `_build_store_jobs` for one request, given the answer of `prepare_store`. -/
def buildStoreJob (cfg : SchedulerOffloadConfig) (st : RequestOffloadState η) (numScheduledTokens : Nat)
    (prepareStore : List (OffloadKey η) → Option (PrepareStoreOutput η)) :
    RequestOffloadState η × Option (StoreJob η) :=
  let hz := horizon cfg st numScheduledTokens
  let keys := newOffloadKeys cfg st hz
  if keys = [] then (st.advanceStoredIdx cfg hz.numOffloadableTokens, none)
  else match prepareStore keys with
    -- nothing moves, so that the chunks are offered again
    | none => (st, none)
    | some output =>
      if output.keysToStore = [] then (st.advanceStoredIdx cfg hz.numOffloadableTokens, none)
      else
        ({ st with groupStates := (cfg.kvGroupConfigs.zip st.groupStates).map fun e =>
              e.2.advanceTo (storeRange cfg st hz e.1 e.2).2 },
          some (storeJob cfg st hz output))

/-! ### Loads -/

structure GroupLoad (η : Type) where
  keys : List (OffloadKey η)
  dstBlockIds : List BlockId
  loadStartGpuBlockIdx : Nat
  numChunks : Nat

/-- The first block from the computed boundary on that is neither null nor hashed. -/
def loadStart (hashed : BlockId → Bool) (blocks : List BlockId) (firstFresh numGpuBlocks : Nat) : Nat :=
  ((List.range' firstFresh (numGpuBlocks - firstFresh)).find? fun i =>
    (blocks[i]?).any fun b => !isNull b && !hashed b).getD numGpuBlocks

/-- The keys of a group's load: the complete chunks, and the boundary key of a partial tail. -/
def loadKeys (cfg : SchedulerOffloadConfig) (st : RequestOffloadState η) (g : GroupOffloadConfig)
    (gs : RequestGroupState η) (startChunkIdx numChunks : Nat) : Except Err (List (OffloadKey η)) :=
  match st.partialTailBoundary with
  | none =>
    if gs.offloadKeys.length < numChunks then .error (.assertionError "len(offload_keys) >= end_chunk_idx")
    else .ok ((gs.offloadKeys.drop startChunkIdx).take (numChunks - startChunkIdx))
  | some boundary =>
    if gs.offloadKeys.length < numChunks - 1 then .error (.assertionError "len(offload_keys) >= end_chunk_idx")
    else match st.req.blockHashes[boundary / cfg.tokensPerHash - 1]? with
      | none => .error .indexError
      | some h => .ok ((gs.offloadKeys.drop startChunkIdx).take (numChunks - 1 - startChunkIdx) ++
          [⟨h, g.groupIdx⟩])

/-- Nothing is read where no block is pending. -/
def pendingLoadKeys (cfg : SchedulerOffloadConfig) (st : RequestOffloadState η) (g : GroupOffloadConfig)
    (gs : RequestGroupState η) (numPendingGpuBlocks startChunkIdx numChunks : Nat) : Except Err (List (OffloadKey η)) :=
  if numPendingGpuBlocks = 0 then .ok [] else loadKeys cfg st g gs startChunkIdx numChunks

/-- The round of `update_state_after_alloc` for one group. -/
def loadGroup (cfg : SchedulerOffloadConfig) (st : RequestOffloadState η) (hashed : BlockId → Bool)
    (numCachedTokens : Nat) (g : GroupOffloadConfig) (gs : RequestGroupState η) (blocks : List BlockId) :
    Except Err (GroupLoad η) := do
  let numGpuBlocks := cdiv numCachedTokens g.tokensPerBlock
  ensure (numGpuBlocks ≤ blocks.length) (.assertionError "len(group_blocks) >= num_gpu_blocks")
  let start := loadStart hashed blocks (cdiv st.numLocallyComputedTokens g.tokensPerBlock) numGpuBlocks
  ensure (st.numLocallyComputedTokens % g.tokensPerBlock = 0)
    (.assertionError "num_locally_computed_tokens % tokens_per_block == 0")
  let numPendingGpuBlocks := numGpuBlocks - start
  ensure (∀ w ∈ g.slidingWindowSizeInChunks, numPendingGpuBlocks ≤ w * cfg.blocksPerChunk + 1)
    (.assertionError "num_pending_gpu_blocks <= sliding_window_size_in_chunks * blocks_per_chunk + 1")
  let numChunks := cdiv numCachedTokens g.tokensPerChunk
  let keys ← pendingLoadKeys cfg st g gs numPendingGpuBlocks (start / cfg.blocksPerChunk) numChunks
  pure { keys, dstBlockIds := (blocks.drop start).take (numGpuBlocks - start), loadStartGpuBlockIdx := start
         numChunks }

/-- The load job: the keys whose chunks are read, and the blocks that are written. -/
structure LoadJob (η : Type) where
  keysToLoad : List (OffloadKey η)
  dstSpec : GPULoadStoreSpec

/-- `update_state_after_alloc`, where tokens are to be loaded. -/
def updateStateAfterAlloc (cfg : SchedulerOffloadConfig) (st : RequestOffloadState η) (hashed : BlockId → Bool)
    (blocks : List (List BlockId)) (numExternalTokens : Nat) : Except Err (RequestOffloadState η × LoadJob η) := do
  let numCachedTokens := st.numLocallyComputedTokens + numExternalTokens
  ensure (∀ b ∈ st.partialTailBoundary, b = numCachedTokens)
    (.assertionError "partial_tail_boundary == num_cached_tokens")
  let loads ← (cfg.kvGroupConfigs.zip (st.groupStates.zip blocks)).mapM fun e =>
    loadGroup cfg st hashed numCachedTokens e.1 e.2.1 e.2.2
  ensure (st.transferJobs = []) (.assertionError "not req_status.transfer_jobs")
  let groupStates := match st.policy with
    | .requestLevel => st.groupStates
    | .chunkLevel => (st.groupStates.zip loads).map fun e => { e.1 with nextStoredChunkIdx := e.2.numChunks }
  pure ({ st with groupStates, partialTailBoundary := none },
    { keysToLoad := loads.flatMap GroupLoad.keys
      dstSpec := GPULoadStoreSpec.ofGroups (loads.map fun l => (l.dstBlockIds, l.loadStartGpuBlockIdx)) })

end VllmCore.Offload
