import VllmCore.Core.FreeQueue
import VllmCore.Lib.Dict

/-! # The block pool

`BlockPool` of `block_pool.py`: block metadata, the free queue, the map from block hashes to blocks, and
the event queue. Blocks are ids into `blocks`; the null block is block `0`, which the constructor pops
from the fresh queue, and its reference count is not maintained. -/

namespace VllmCore
open Except
variable {η : Type}

structure BlockHashWithGroupId (η : Type) where
  blockHash : η
  groupId : Nat
deriving DecidableEq, Repr

instance [DecidableEq η] : LawfulBEq (BlockHashWithGroupId η) := inferInstance

structure KVCacheBlock (η : Type) where
  refCnt : Int := 0
  blockHash : Option (BlockHashWithGroupId η) := none
  blockHashNumTokens : Option Nat := none

/-- The placeholder block popped by `BlockPool.__init__`. -/
def nullBlock : BlockId := 0

def isNull (b : BlockId) : Bool := b == nullBlock

inductive KVCacheEvent (η : Type) where
  | blockStored (blockHashes : List η) (parentBlockHash : Option η) (tokenIds : List TokenId)
      (blockSize : Nat) (lora : Option LoRARequest) (extraKeys : Option (List (Option (List ExtraKey))))
      (groupIdx : Nat) (sessionId : Option Nat)
  | blockRemoved (blockHashes : List η) (groupIdx : Nat)
  | allBlocksCleared

/-! ### The hash index -/

/-- The value of an index entry: a single block, or a dict of blocks in insertion order. -/
inductive CachedBlocks where
  | one (b : BlockId)
  | dict (bs : List BlockId)
deriving DecidableEq, Repr

abbrev BlockHashToBlockMap (η : Type) := Dict (BlockHashWithGroupId η) CachedBlocks

namespace BlockHashToBlockMap
variable [DecidableEq η] (m : BlockHashToBlockMap η)
variable (key : BlockHashWithGroupId η)

def getOneBlock : Option BlockId :=
  match m.get? key with
  | none => none
  | some (.one b) => some b
  | some (.dict bs) => bs.head?

def contain (b : BlockId) : Bool :=
  match m.get? key with
  | none => false
  | some (.one b') => b' == b
  | some (.dict bs) => bs.contains b

/-- Writing a block id that a dict holds already keeps its place. -/
def insert (b : BlockId) : BlockHashToBlockMap η :=
  match m.get? key with
  | none => m.set key (.one b)
  | some (.one b') => m.set key (.dict (if b' = b then [b] else [b', b]))
  | some (.dict bs) => m.set key (.dict (if b ∈ bs then bs else bs ++ [b]))

/-- Remove `b` from the entry of `key`; the answer is whether it was there. An entry that stays is
written back, and so moves to the end of the dict. -/
def pop (b : BlockId) : Bool × BlockHashToBlockMap η :=
  match m.get? key with
  | none => (false, m)
  | some (.one b') =>
    if b' = b then (true, m.erase key) else (false, (m.erase key).set key (.one b'))
  | some (.dict bs) =>
    let rest := bs.filter fun x => x ≠ b
    (bs.contains b, if rest = [] then m.erase key else (m.erase key).set key (.dict rest))

end BlockHashToBlockMap

/-! ### Block-hash views -/

/-- `resolve_block_hashes` without fine-grained lookup: the hashes at the granularity of `blockSize`.
The hash at the last fine boundary of a block chains over its whole prefix. -/
def resolveBlockHashes (blockHashes : List η) (hashBlockSize blockSize : Nat) : Except Err (List η) :=
  if blockSize = hashBlockSize then .ok blockHashes
  else if blockSize % hashBlockSize = 0 then
    let scaleFactor := blockSize / hashBlockSize
    .ok ((List.range (blockHashes.length / scaleFactor)).filterMap fun i =>
      blockHashes[(i + 1) * scaleFactor - 1]?)
  else .error (.assertionError "block_size % hash_block_size == 0")

/-! ### The pool -/

structure BlockPool (η : Type) where
  numGpuBlocks : Nat
  enableCaching : Bool
  hashBlockSize : Nat
  blocks : BlockId → KVCacheBlock η
  freeBlockQueue : FreeKVCacheBlockQueue
  cachedBlockHashToBlock : BlockHashToBlockMap η
  /-- the further keys of a block, besides its own `blockHash` -/
  cachedBlockHashesByBlock : Dict BlockId (List (BlockHashWithGroupId η))
  enableKvCacheEvents : Bool
  kvEventQueue : List (KVCacheEvent η)

namespace BlockPool
variable (p : BlockPool η)

def init (numGpuBlocks : Nat) (enableCaching : Bool) (hashBlockSize : Nat)
    (enableKvCacheEvents : Bool := false) : Except Err (BlockPool η) := do
  ensure (0 < numGpuBlocks) (.assertionError "num_gpu_blocks > 0")
  let (_, queue) ← (FreeKVCacheBlockQueue.init (List.range numGpuBlocks)).popleft
  pure
    { numGpuBlocks, enableCaching, hashBlockSize
      blocks := fun _ => {}
      freeBlockQueue := queue
      cachedBlockHashToBlock := Dict.empty
      cachedBlockHashesByBlock := Dict.empty
      enableKvCacheEvents
      kvEventQueue := [] }

def getNumFreeBlocks : Nat := p.freeBlockQueue.numFreeBlocks

variable (b : BlockId)

def setBlock (blk : KVCacheBlock η) : BlockPool η :=
  { p with blocks := fun x => if x = b then blk else p.blocks x }

def addRef (n : Int) : BlockPool η := p.setBlock b { p.blocks b with refCnt := (p.blocks b).refCnt + n }

def resetHash : BlockPool η :=
  p.setBlock b { p.blocks b with blockHash := none, blockHashNumTokens := none }

def setBlockHash (key : BlockHashWithGroupId η) (numTokens : Option Nat) : Except Err (BlockPool η) := do
  ensure ((p.blocks b).blockHash.isNone ∧ (p.blocks b).blockHashNumTokens.isNone)
    (.assertionError "The block already has a hash. This should not happen.")
  pure (p.setBlock b { p.blocks b with blockHash := some key, blockHashNumTokens := numTokens })

section Hashes
variable [DecidableEq η] (p : BlockPool η)

/-- One block for each group, or nothing if a group misses. -/
def getCachedBlock (blockHash : η) (groupIds : List Nat) : Option (List BlockId) :=
  groupIds.mapM fun g => BlockHashToBlockMap.getOneBlock p.cachedBlockHashToBlock ⟨blockHash, g⟩

/-- The loop over the keys of a block: drop each from the index, keep those that were there. -/
def popKeys (m : BlockHashToBlockMap η) (b : BlockId) :
    List (BlockHashWithGroupId η) → List (BlockHashWithGroupId η) × BlockHashToBlockMap η
  | [] => ([], m)
  | key :: keys =>
    let (found, m) := BlockHashToBlockMap.pop m key b
    let (removed, m) := popKeys m b keys
    (if found then key :: removed else removed, m)

def removeCachedBlockHashes (b : BlockId) : List (BlockHashWithGroupId η) × BlockPool η :=
  let keys := (p.blocks b).blockHash.toList ++ p.cachedBlockHashesByBlock.getD b []
  let p := { p with cachedBlockHashesByBlock := p.cachedBlockHashesByBlock.erase b }
  if keys = [] then ([], p)
  else
    let (removed, m) := popKeys p.cachedBlockHashToBlock b keys
    (removed, { p with cachedBlockHashToBlock := m }.resetHash b)

def emitBlockRemovedEvents (keys : List (BlockHashWithGroupId η)) : BlockPool η :=
  if p.enableKvCacheEvents then
    { p with kvEventQueue := p.kvEventQueue ++ keys.map fun k => .blockRemoved [k.blockHash] k.groupId }
  else p

def dropHashes (b : BlockId) : BlockPool η :=
  let (removed, p) := p.removeCachedBlockHashes b
  p.emitBlockRemovedEvents removed

/-- The first key of a block is its own hash, later ones are kept beside it. -/
def recordKey (key : BlockHashWithGroupId η) (b : BlockId) (numTokens : Option Nat) : Except Err (BlockPool η) :=
  if (p.blocks b).blockHash.isNone then p.setBlockHash b key numTokens
  else
    let more := p.cachedBlockHashesByBlock.getD b []
    .ok { p with cachedBlockHashesByBlock :=
      p.cachedBlockHashesByBlock.set b (if key ∈ more then more else more ++ [key]) }

def insertBlockHash (key : BlockHashWithGroupId η) (b : BlockId) (numTokens : Option Nat) : Except Err (BlockPool η) :=
  if (p.blocks b).blockHash = some key then .ok p
  else if BlockHashToBlockMap.contain p.cachedBlockHashToBlock key b then .ok p
  else do
    let p ← p.recordKey key b numTokens
    pure { p with cachedBlockHashToBlock := BlockHashToBlockMap.insert p.cachedBlockHashToBlock key b }

variable (r : Request η)

def buildBlockStoredEvent (blockHashes : List η) (parent : Option η) (start stop : Nat) (blockSize groupId : Nat)
    (extraKeys : List (Option (List ExtraKey))) : KVCacheEvent η :=
  .blockStored blockHashes parent ((r.allTokenIds.take stop).drop start) blockSize r.loraRequest
    (if extraKeys = [] then none else some extraKeys) groupId r.sessionId

/-- The block is left out by the mask, which is aligned with the new full blocks. -/
def masked (mask : Option (List Bool)) (i : Nat) : Bool :=
  match mask with
  | none => false
  | some m => !m.getD i true

/-- A new full block that has a hash already is a partial entry promoted to a full one: its old keys go. -/
def promote (b : BlockId) (numHashTokens : Nat) : Except Err (BlockPool η) :=
  if (p.blocks b).blockHash.isNone then .ok p
  else do
    ensure (∃ n ∈ (p.blocks b).blockHashNumTokens, n < numHashTokens)
      (.assertionError "blk.block_hash_num_tokens < num_hash_tokens")
    pure (p.dropHashes b)

/-- One round of the loop of `cache_full_blocks`, for the `i`-th new full block. -/
def cacheFullBlock (blockSize groupId numCachedBlocks : Nat) (mask : Option (List Bool)) (newHashes : List η)
    (st : BlockPool η × List η) (ib : Nat × BlockId) : Except Err (BlockPool η × List η) :=
  let (i, b) := ib
  let (p, stored) := st
  if isNull b || masked mask i then .ok st
  else match newHashes[i]? with
    | none => .error .indexError
    | some blockHash => do
      let numHashTokens := (numCachedBlocks + i + 1) * blockSize
      let p ← p.promote b numHashTokens
      let p ← p.insertBlockHash ⟨blockHash, groupId⟩ b (some numHashTokens)
      pure (p, stored ++ [blockHash])

/-- The keys reported with the new full blocks; null and masked blocks have none. -/
def storedExtraKeys (r : Request η) (blocks : List BlockId) (blockSize : Nat) (mask : Option (List Bool))
    (numCachedBlocks : Nat) : List Nat → Int → Except Err (List (Option (List ExtraKey)))
  | [], _ => .ok []
  | i :: is, currMmIdx =>
    match blocks[i]? with
    | none => .error .indexError
    | some b =>
      if isNull b || masked mask (i - numCachedBlocks) then
        storedExtraKeys r blocks blockSize mask numCachedBlocks is currMmIdx
      else do
        let (keys, idx) := generateBlockHashExtraKeys r (i * blockSize) (i * blockSize + blockSize) currMmIdx
        let rest ← storedExtraKeys r blocks blockSize mask numCachedBlocks is idx
        pure (keys :: rest)

def cacheFullBlocks (blocks : List BlockId) (numCachedBlocks numFullBlocks blockSize groupId : Nat)
    (mask : Option (List Bool)) : Except Err (BlockPool η) :=
  if numCachedBlocks ≥ numFullBlocks then .ok p
  else do
    let newFullBlocks := (blocks.take numFullBlocks).drop numCachedBlocks
    ensure (∀ m ∈ mask, m.length = newFullBlocks.length)
      (.assertionError "len(block_mask) == len(new_full_blocks)")
    let blockHashes ← resolveBlockHashes r.blockHashes p.hashBlockSize blockSize
    let newHashes := blockHashes.drop numCachedBlocks
    let (p, stored) ← ((List.range newFullBlocks.length).zip newFullBlocks).foldlM
      (cacheFullBlock blockSize groupId numCachedBlocks mask newHashes) (p, [])
    if p.enableKvCacheEvents then do
      let extraKeys ← storedExtraKeys r blocks blockSize mask numCachedBlocks
        ((List.range numFullBlocks).drop numCachedBlocks) 0
      let parent := if numCachedBlocks = 0 then none else blockHashes[numCachedBlocks - 1]?
      pure { p with kvEventQueue := p.kvEventQueue ++
        [buildBlockStoredEvent r stored parent (numCachedBlocks * blockSize) (numFullBlocks * blockSize)
          blockSize groupId extraKeys] }
    else pure p

/-- The keys reported with the blocks of a cache hit. -/
def cachedExtraKeys (r : Request η) (blockSize : Nat) : List Nat → Int → List (Option (List ExtraKey))
  | [], _ => []
  | i :: is, currMmIdx =>
    let (keys, idx) := generateBlockHashExtraKeys r (i * blockSize) (i * blockSize + blockSize) currMmIdx
    keys :: cachedExtraKeys r blockSize is idx

/-- Report the blocks of a cache hit again; the pool itself does not change. -/
def emitCachedBlockEvents (numCachedBlocks blockSize groupId : Nat) : Except Err (BlockPool η) :=
  if !p.enableKvCacheEvents || numCachedBlocks == 0 then .ok p
  else do
    let blockHashes ← resolveBlockHashes r.blockHashes p.hashBlockSize blockSize
    if blockHashes.length < numCachedBlocks then .error .indexError
    else pure { p with kvEventQueue := p.kvEventQueue ++
      [buildBlockStoredEvent r (blockHashes.take numCachedBlocks) none 0 (numCachedBlocks * blockSize) blockSize
        groupId (cachedExtraKeys r blockSize (List.range numCachedBlocks) 0)] }

def getPartialBlockHash (numTokens : Nat) : Except Err η := do
  ensure (numTokens % p.hashBlockSize = 0)
    (.assertionError "num_tokens % self.hash_block_size == 0")
  let n := numTokens / p.hashBlockSize
  match n, r.blockHashes[n - 1]? with
  | _ + 1, some h => .ok h
  | _, _ => .error (.assertionError "0 < num_hash_blocks <= len(request.block_hashes)")

def hasShorterHash (b : BlockId) (n : Nat) : Bool :=
  (p.blocks b).blockHash.isSome && (p.blocks b).blockHashNumTokens.any (· < n)

/-- The event of a partial entry covers the last fine block only. -/
def buildPartialStoredEvent (blockHash : η) (numTokens groupId hashBlockSize : Nat) : KVCacheEvent η :=
  let n := numTokens / hashBlockSize
  let parent := if n > 1 then r.blockHashes[n - 2]? else none
  let start := (n - 1) * hashBlockSize
  let (keys, _) := generateBlockHashExtraKeys r start numTokens (if start > 0 then -1 else 0)
  .blockStored [blockHash] parent ((r.allTokenIds.take numTokens).drop start) (numTokens - start)
    r.loraRequest (some [keys]) groupId r.sessionId

def cachePartialBlock (b : BlockId) (numTokens groupId blockSize : Nat) (replaceExistingHashes : Bool) :
    Except Err (Option (BlockHashWithGroupId η) × BlockPool η) :=
  if isNull b then .ok (none, p)
  else do
    ensure (blockSize % p.hashBlockSize = 0) (.assertionError "block_size % self.hash_block_size == 0")
    ensure (replaceExistingHashes ∨ (blockSize > p.hashBlockSize ∧ numTokens % blockSize ≠ 0))
      (.assertionError "replace_existing_hashes or partial within the block")
    let blockHash ← p.getPartialBlockHash r numTokens
    let hashTokens := numTokens / p.hashBlockSize * p.hashBlockSize
    let key : BlockHashWithGroupId η := ⟨blockHash, groupId⟩
    let cached := (p.blocks b).blockHash = some key ||
      BlockHashToBlockMap.contain p.cachedBlockHashToBlock key b
    let p := if replaceExistingHashes || (!cached && p.hasShorterHash b hashTokens) then p.dropHashes b else p
    let p ← p.insertBlockHash key b (some hashTokens)
    pure (some key,
      if p.enableKvCacheEvents && !(cached && !replaceExistingHashes) then
        { p with kvEventQueue := p.kvEventQueue ++
          [buildPartialStoredEvent r blockHash numTokens groupId p.hashBlockSize] }
      else p)

/-- Point the entries of `src` to `dst`; the number of tokens goes to the first insertion. -/
def moveBlockHashes (src dst : BlockId) : Except Err (BlockPool η) := do
  ensure (p.blocks dst).blockHash.isNone (.assertionError "dst_block.block_hash is None")
  ensure (p.cachedBlockHashesByBlock.contains dst = false)
    (.assertionError "dst_block.block_id not in self.cached_block_hashes_by_block")
  let numTokens := (p.blocks src).blockHashNumTokens
  let (removed, p) := p.removeCachedBlockHashes src
  removed.foldlM (fun p key => p.insertBlockHash key dst numTokens) p

def maybeEvictCachedBlock (b : BlockId) : Bool × BlockPool η :=
  let (evicted, p) := p.removeCachedBlockHashes b
  if evicted = [] then (false, p) else (true, p.emitBlockRemovedEvents evicted)

/-- What `get_new_blocks` does to each popped block. -/
def takeBlock (b : BlockId) : Except Err (BlockPool η) := do
  let p := if p.enableCaching then (p.maybeEvictCachedBlock b).2 else p
  ensure ((p.blocks b).refCnt = 0) (.assertionError "block.ref_cnt == 0")
  pure (p.addRef b 1)

def getNewBlocks (numBlocks : Nat) : Except Err (List BlockId × BlockPool η) := do
  ensure (numBlocks ≤ p.getNumFreeBlocks)
    (.valueError s!"Cannot get {numBlocks} free blocks from the pool")
  let (ret, queue) ← p.freeBlockQueue.popleftN numBlocks
  let p ← ret.foldlM takeBlock { p with freeBlockQueue := queue }
  pure (ret, p)

def evictBlocks (blockIds : List BlockId) : Except Err (BlockPool η) :=
  blockIds.foldlM (fun p b => do
    ensure (b < p.numGpuBlocks) (.assertionError s!"Invalid block_id {b} >= {p.numGpuBlocks}.")
    pure (p.maybeEvictCachedBlock b).2) p

end Hashes

/-- `touch` on one block: a block without references leaves the free queue. -/
def touchBlock : Except Err (BlockPool η) :=
  if (p.blocks b).refCnt = 0 && !isNull b then do
    let queue ← p.freeBlockQueue.remove b
    pure ({ p with freeBlockQueue := queue }.addRef b 1)
  else .ok (p.addRef b 1)

def touch (blocks : List BlockId) : Except Err (BlockPool η) := blocks.foldlM touchBlock p

def isBlockWritable : Bool :=
  !isNull b && decide ((p.blocks b).refCnt = 1) && (p.blocks b).blockHash.isNone

/-- The loop of `free_blocks`: drop one reference of each block, and sort those that have none left into
the ones to reuse first (not cached) and last (cached). -/
def dropRefs (p : BlockPool η) : List BlockId → BlockPool η × List BlockId × List BlockId
  | [] => (p, [], [])
  | b :: bs =>
    let p := p.addRef b (-1)
    let (q, first, last) := p.dropRefs bs
    if (p.blocks b).refCnt = 0 && !isNull b then
      if (p.blocks b).blockHash.isNone || !p.enableCaching then (q, b :: first, last)
      else (q, first, b :: last)
    else (q, first, last)

def freeBlocks (orderedBlocks : List BlockId) : Except Err (BlockPool η) := do
  let (p, first, last) := p.dropRefs orderedBlocks
  let queue ← p.freeBlockQueue.prependN first
  let queue ← queue.appendN last
  pure { p with freeBlockQueue := queue }

/-- Only the null block may be in use. -/
def resetPrefixCache : Bool × BlockPool η :=
  if p.numGpuBlocks ≠ p.getNumFreeBlocks + 1 then (false, p)
  else
    (true, { p with
      cachedBlockHashToBlock := Dict.empty
      cachedBlockHashesByBlock := Dict.empty
      blocks := fun b => { p.blocks b with blockHash := none, blockHashNumTokens := none }
      kvEventQueue := if p.enableKvCacheEvents then p.kvEventQueue ++ [.allBlocksCleared] else p.kvEventQueue })

def takeEvents : List (KVCacheEvent η) × BlockPool η :=
  if p.enableKvCacheEvents then (p.kvEventQueue, { p with kvEventQueue := [] }) else ([], p)

end BlockPool

end VllmCore
