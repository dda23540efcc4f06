import VllmCore.Core.Manager

/-! # Longest cache hits

The `find_longest_cache_hit` class methods. Groups with one spec are looked up together: a column is the
block of each group at one position, and the columns of a hit are turned into one list per group at the
end. -/

namespace VllmCore
open Except

namespace CacheHit
variable {η : Type} [DecidableEq η] (p : BlockPool η)

/-- The highest index below `i` and not below `lo` at which `f` answers. -/
def findDown {α : Type} (f : Nat → Option α) (lo : Nat) : Nat → Option (Nat × α)
  | 0 => none
  | i + 1 =>
    if i < lo then none
    else match f i with
      | some a => some (i, a)
      | none => findDown f lo i

def perGroup (numGroups : Nat) (columns : List (List BlockId)) : List (List BlockId) :=
  (List.range numGroups).map fun g => columns.map fun col => col.getD g nullBlock

def nullColumn (groupIds : List Nat) : List BlockId := groupIds.map fun _ => nullBlock

/-- The longest run of cached blocks from the start. -/
def takeCached (p : BlockPool η) (groupIds : List Nat) : List η → List (List BlockId)
  | [] => []
  | h :: hs =>
    match p.getCachedBlock h groupIds with
    | none => []
    | some col => col :: takeCached p groupIds hs

/-- Hits may end inside a block: the alignment is finer than the block size. -/
def fineGrained (alignmentTokens blockSize : Nat) : Bool :=
  decide (alignmentTokens < blockSize) && blockSize % alignmentTokens == 0

variable (s : KVCacheSpec)

/-- Fine-grained lookup keeps the raw hashes. -/
def resolve (blockHashes : List η) (alignmentTokens : Nat) : Except Err (List η) :=
  if s.supportsFineGrainedHashLookup && fineGrained alignmentTokens s.blockSize then .ok blockHashes
  else resolveBlockHashes blockHashes p.hashBlockSize s.blockSize

/-- Extend a hit into the first block that is not full, longest first. -/
def extendPartial (blockSize : Nat) (blockHashes : List η) (maxLength : Nat) (groupIds : List Nat)
    (alignmentTokens : Nat) (columns : List (List BlockId)) : List (List BlockId) × Nat :=
  let scaleFactor := blockSize / alignmentTokens
  let first := columns.length * scaleFactor
  let last := min (first + scaleFactor - 1) (min (maxLength / alignmentTokens) blockHashes.length)
  match findDown (fun i => (blockHashes[i]?).bind fun h => p.getCachedBlock h groupIds) first last with
  | none => (columns, columns.length * blockSize)
  | some (i, col) => (columns ++ [col], (i + 1) * alignmentTokens)

/-- `FullAttentionManager.find_longest_cache_hit`. -/
def fullAttention (blockHashes : List η) (maxLength : Nat) (groupIds : List Nat) (dropEagleBlock : Bool)
    (alignmentTokens : Nat) : Except Err (List (List BlockId) × Nat) := do
  let hashes ← resolve p s blockHashes alignmentTokens
  let fine := fineGrained alignmentTokens s.blockSize
  let full ← (if fine then resolveBlockHashes hashes alignmentTokens s.blockSize else .ok hashes : Except Err (List η))
  let columns := takeCached p groupIds (full.take (maxLength / s.blockSize))
  let (columns, hitLength) :=
    if fine then extendPartial p s.blockSize hashes maxLength groupIds alignmentTokens columns
    else (columns, columns.length * s.blockSize)
  -- the tokens right before the generation point are recomputed for EAGLE
  let hitLength := hitLength - if dropEagleBlock then min alignmentTokens s.blockSize else 0
  let hitLength := hitLength - hitLength % alignmentTokens
  pure (columns.take (cdiv hitLength s.blockSize), hitLength)

/-- The right-to-left scan of `SlidingWindowManager.find_longest_cache_hit`, from index `i - 1` on. It
stops at a run of `need` cached blocks whose end is aligned; the answer says whether it found one, and
how long the run is that it ended in. -/
def slidingScan (p : BlockPool η) (blockSize : Nat) (hashes : List η) (groupIds : List Nat) (dropEagleBlock : Bool)
    (alignmentTokens need : Nat) : Nat → List (List BlockId) → Nat → Except Err (List (List BlockId) × Nat × Bool)
  | 0, columns, run => .ok (columns, run, false)
  | i + 1, columns, run =>
    match hashes[i]? with
    | none => .error .indexError
    | some h =>
      match p.getCachedBlock h groupIds with
      | none => slidingScan p blockSize hashes groupIds dropEagleBlock alignmentTokens need i columns 0
      | some col =>
        if run = 0 ∧ blockSize ≠ alignmentTokens ∧
            (if dropEagleBlock then i else i + 1) * blockSize % alignmentTokens ≠ 0 then
          slidingScan p blockSize hashes groupIds dropEagleBlock alignmentTokens need i columns run
        else if run + 1 ≥ need then .ok ((columns.set i col).take (i + (run + 1)), run + 1, true)
        else slidingScan p blockSize hashes groupIds dropEagleBlock alignmentTokens need i (columns.set i col) (run + 1)

/-- The largest aligned number of blocks up to `n`. -/
def popToAlignment (blockSize alignmentTokens : Nat) : Nat → Nat
  | 0 => 0
  | n + 1 => if (n + 1) * blockSize % alignmentTokens = 0 then n + 1 else popToAlignment blockSize alignmentTokens n

/-- `SlidingWindowManager.find_longest_cache_hit`. -/
def slidingWindow (windowSize : Nat) (blockHashes : List η) (maxLength : Nat) (groupIds : List Nat)
    (dropEagleBlock : Bool) (alignmentTokens : Nat) : Except Err (List (List BlockId) × Nat) := do
  let hashes ← resolve p s blockHashes alignmentTokens
  let need := Manager.contiguousBlocksForHit windowSize s.blockSize dropEagleBlock
  let maxNumBlocks := maxLength / s.blockSize
  let (columns, run, found) ← slidingScan p s.blockSize hashes groupIds dropEagleBlock alignmentTokens need maxNumBlocks
    (List.replicate maxNumBlocks (nullColumn groupIds)) 0
  -- a shorter run at the very start is a hit too
  let n := if found then columns.length else popToAlignment s.blockSize alignmentTokens run
  let n := if dropEagleBlock ∧ 0 < n then popToAlignment s.blockSize alignmentTokens (n - 1) else n
  pure (columns.take n, n * s.blockSize)

/-- `ChunkedLocalAttentionManager.find_longest_cache_hit`: blocks before the chunk count as computed. -/
def chunkedLocal (chunkSize : Nat) (blockHashes : List η) (maxLength : Nat) (groupIds : List Nat)
    (dropEagleBlock : Bool) (alignmentTokens : Nat) : Except Err (List (List BlockId) × Nat) := do
  ensure (dropEagleBlock = false)
    (.assertionError "Hybrid KV cache is not supported for eagle + chunked local attention.")
  ensure (s.blockSize = alignmentTokens)
    (.assertionError "KV cache groups with different block sizes are not compatible with chunked local attention now")
  let hashes ← resolve p s blockHashes alignmentTokens
  let maxNumBlocks := maxLength / s.blockSize
  let start := maxLength / chunkSize * chunkSize / s.blockSize
  let columns := List.replicate start (nullColumn groupIds) ++
    takeCached p groupIds ((hashes.take maxNumBlocks).drop start)
  -- the scan runs off the hashes only when it has met no miss before
  ensure (maxNumBlocks ≤ start ∨ maxNumBlocks ≤ hashes.length ∨ columns.length < hashes.length) .indexError
  pure (columns, columns.length * s.blockSize)

/-- `MambaManager.find_longest_cache_hit`: the last state is enough. -/
def mamba (blockHashes : List η) (maxLength : Nat) (groupIds : List Nat) (alignmentTokens : Nat) :
    Except Err (List (List BlockId) × Nat) := do
  let hashes ← resolve p s blockHashes alignmentTokens
  if fineGrained alignmentTokens s.blockSize then
    let units := min (maxLength / alignmentTokens) hashes.length
    match findDown (fun i => (hashes[i]?).bind fun h => p.getCachedBlock h groupIds) 0 units with
    | none => pure ([], 0)
    | some (i, col) =>
      pure (List.replicate (i / (s.blockSize / alignmentTokens)) (nullColumn groupIds) ++ [col],
        (i + 1) * alignmentTokens)
  else
    let maxNumBlocks := maxLength / s.blockSize
    ensure (maxNumBlocks ≤ hashes.length) .indexError
    let aligned (i : Nat) : Bool := s.blockSize == alignmentTokens || (i + 1) * s.blockSize % alignmentTokens == 0
    match findDown (fun i => if aligned i then (hashes[i]?).bind fun h => p.getCachedBlock h groupIds else none)
        0 maxNumBlocks with
    | none => pure ([], 0)
    | some (i, col) => pure (List.replicate i (nullColumn groupIds) ++ [col], (i + 1) * s.blockSize)

/-- `find_longest_cache_hit` of the manager class of a spec: the blocks of each group, and the length of
the hit in tokens. -/
def findLongestCacheHit (blockHashes : List η) (maxLength : Nat) (groupIds : List Nat) (dropEagleBlock : Bool)
    (alignmentTokens : Nat) : Except Err (List (List BlockId) × Nat) := do
  let (columns, hitLength) ← (match s.kind with
    | .fullAttention | .rswa _ =>
      fullAttention p s blockHashes maxLength groupIds dropEagleBlock alignmentTokens
    | .slidingWindow w _ => slidingWindow p s w blockHashes maxLength groupIds dropEagleBlock alignmentTokens
    | .chunkedLocal c => chunkedLocal p s c blockHashes maxLength groupIds dropEagleBlock alignmentTokens
    | .mamba _ => mamba p s blockHashes maxLength groupIds alignmentTokens
    | .circularBuffer _ => .ok ([], 0)
    | .crossAttention => .error (.notImplementedError "CrossAttentionManager does not support caching") :
    Except Err (List (List BlockId) × Nat))
  pure (perGroup groupIds.length columns, hitLength)

end CacheHit

end VllmCore
