import VllmCore.Core.CacheHit

/-! # Coordinators

`kv_cache_coordinator.py`: one manager per KV-cache group over a shared block pool. The three classes
differ in the lookup of hits and in how much `cache_blocks` registers. -/

namespace VllmCore
open Except
variable {η : Type}

inductive CoordinatorKind where
  | noPrefixCache
  | unitary
  | hybrid
deriving DecidableEq, Repr

structure SpecGroup where
  spec : KVCacheSpec
  groupIds : List Nat
  useEagle : Bool

structure Coordinator (η : Type) where
  kind : CoordinatorKind
  managers : List (Manager η)
  pool : BlockPool η
  schedulerBlockSize : Nat
  hashBlockSize : Nat
  numReprefillableTokens : Nat
  minPrefillTokens : Nat
  eagleGroupIds : List Nat
  retentionInterval : Option Nat
  enablePartialHashHits : Bool := false
  attentionGroups : List SpecGroup := []

namespace Coordinator
variable (c : Coordinator η)

/-- Run a method of every manager in turn, over the shared pool. -/
def traverse {α : Type} (f : Nat → Manager η → BlockPool η → Except Err (α × Manager η × BlockPool η)) :
    Nat → List (Manager η) → BlockPool η → Except Err (List α × List (Manager η) × BlockPool η)
  | _, [], p => .ok ([], [], p)
  | i, m :: ms, p => do
    let (a, m, p) ← f i m p
    let (as, ms, p) ← traverse f (i + 1) ms p
    pure (a :: as, m :: ms, p)

variable (f : Nat → Manager η → BlockPool η → Except Err (Manager η × BlockPool η))

def each (i : Nat) (m : Manager η) (p : BlockPool η) : Except Err (Unit × Manager η × BlockPool η) := do
  let (m, p) ← f i m p
  pure ((), m, p)

def forManagers : Except Err (Coordinator η) := do
  let (_, managers, pool) ← traverse (each f) 0 c.managers c.pool
  pure { c with managers, pool }

/-- The hits of a group; a missing group is an `IndexError`. -/
def hitsOf (newComputedBlocks : List (List BlockId)) (i : Nat) : Except Err (List BlockId) :=
  match newComputedBlocks[i]? with
  | some bs => .ok bs
  | none => .error .indexError

section Methods
variable [DecidableEq η] (c : Coordinator η)

/-- What one manager needs. Cross-attention is sized by the encoder input. -/
def managerNumBlocksToAllocate (r : RequestId) (numTokens : Nat) (newComputedBlocks : List (List BlockId))
    (numEncoderTokens totalComputedTokens numLocalComputedTokens numTokensMainModel : Nat) (applyAdmissionCap : Bool)
    (i : Nat) (m : Manager η) (p : BlockPool η) : Except Err (Int × Manager η × BlockPool η) :=
  if m.spec.isCrossAttention then do
    let (n, m) ← m.getNumBlocksToAllocate p r numEncoderTokens [] 0 0 numEncoderTokens applyAdmissionCap
    pure (n, m, p)
  else do
    let hits ← hitsOf newComputedBlocks i
    let (n, m) ← m.getNumBlocksToAllocate p r numTokens hits totalComputedTokens numLocalComputedTokens
      numTokensMainModel applyAdmissionCap
    pure (n, m, p)

def getNumBlocksToAllocate (r : RequestId) (numTokens : Nat) (newComputedBlocks : List (List BlockId))
    (numEncoderTokens totalComputedTokens numLocalComputedTokens numTokensMainModel : Nat) (applyAdmissionCap : Bool) :
    Except Err (Int × Coordinator η) := do
  let (ns, managers, pool) ← traverse (managerNumBlocksToAllocate r numTokens newComputedBlocks numEncoderTokens
    totalComputedTokens numLocalComputedTokens numTokensMainModel applyAdmissionCap) 0 c.managers c.pool
  pure (ns.sum, { c with managers, pool })

/-- First touch the hits of every group, then allocate for external tokens: a group's new blocks cannot
evict another group's hits. -/
def allocateNewComputedBlocks (r : RequestId) (newComputedBlocks : List (List BlockId))
    (numLocalComputedTokens numExternalComputedTokens : Nat) : Except Err (Coordinator η) :=
  if c.managers.any fun m => m.numCachedBlock.contains r then
    if newComputedBlocks.all List.isEmpty then .ok c
    else .error (.assertionError "all(len(blocks) == 0 for blocks in new_computed_blocks)")
  else do
    let c ← c.forManagers fun i m p => do
      let hits ← hitsOf newComputedBlocks i
      m.addLocalComputedBlocks p r hits numLocalComputedTokens numExternalComputedTokens
    if numExternalComputedTokens = 0 then pure c
    else c.forManagers fun _ m p =>
      m.allocateExternalComputedBlocks p r numLocalComputedTokens numExternalComputedTokens

def allocateNewBlocks (r : RequestId) (numTokens numTokensMainModel numEncoderTokens : Nat) :
    Except Err (List (List BlockId) × Coordinator η) := do
  let (blocks, managers, pool) ← traverse (fun _ m p =>
    m.allocateNewBlocks p r (if m.spec.isCrossAttention then numEncoderTokens else numTokens) numTokensMainModel)
    0 c.managers c.pool
  pure (blocks, { c with managers, pool })

/-- Positions at which a later request that replays the prompt can resume. -/
def getReplayBoundaries (request : Request η) : List Nat :=
  let resendLimit := request.numPromptTokens - c.minPrefillTokens
  if c.eagleGroupIds = [] then
    if c.minPrefillTokens = 1 then [resendLimit] else [resendLimit, request.numPromptTokens]
  else
    let block := c.schedulerBlockSize
    let resend := resendLimit / block * block - block
    let extension := request.numPromptTokens / block * block - block
    if resend = extension then [resend] else [min resend extension, max resend extension]

def alignCacheable (numTokens : Nat) : Nat :=
  if c.enablePartialHashHits then numTokens else numTokens / c.schedulerBlockSize * c.schedulerBlockSize

/-- How many tokens a manager registers. Tokens that a multi-module draft can prefill again are not
final. A hybrid coordinator registers aligned prefixes, and for EAGLE groups the block above. -/
def numTokensToCache (m : Manager η) (numComputedTokens : Nat) : Nat :=
  let finalized := numComputedTokens - c.numReprefillableTokens
  match c.kind with
  | .hybrid =>
    let cached := c.alignCacheable numComputedTokens
    if m.useEagle ∧ 0 < cached then min finalized (c.alignCacheable finalized + m.blockSize) else cached
  | _ => finalized

def cacheBlocks (request : Request η) (numComputedTokens : Nat) : Except Err (Coordinator η) :=
  c.forManagers fun _ m p => m.cacheBlocks p request (c.numTokensToCache m numComputedTokens) c.retentionInterval
    (c.getReplayBoundaries request)

def free (r : RequestId) : Except Err (Coordinator η) := c.forManagers fun _ m p => m.free p r

def popBlocksForFree (r : RequestId) : List BlockId × Coordinator η :=
  (c.managers.flatMap fun m => (m.popBlocksForFree r).1,
    { c with managers := c.managers.map fun m => (m.popBlocksForFree r).2 })

def removeSkippedBlocks (r : RequestId) (processedComputedTokens : Nat) (numPromptTokens : Option Nat) :
    Except Err (Coordinator η) :=
  c.forManagers fun _ m p => m.removeSkippedBlocks p r processedComputedTokens numPromptTokens

def getBlocks (r : RequestId) : List (List BlockId) := c.managers.map fun m => m.blocksOf r

def newStepStarts : Coordinator η := { c with managers := c.managers.map Manager.newStepStarts }

/-! ### Hit lookup -/

def cacheHitAlignmentTokens : Nat := if c.enablePartialHashHits then c.hashBlockSize else c.schedulerBlockSize

/-- The variables of the fixed-point loop of `HybridKVCacheCoordinator.find_longest_cache_hit`. -/
structure HitSearch where
  currHitLength : Nat
  longestHitLength : Nat
  hitBlocksByGroup : Nat → Option (List BlockId)
  hitLengthByGroup : Nat → Nat
  eagleVerified : List Nat

def HitSearch.store (st : HitSearch) (groupIds : List Nat) (blocks : List (List BlockId)) (n : Nat) : HitSearch :=
  { st with
    hitBlocksByGroup := fun g => match (groupIds.zip blocks).lookup g with
      | some bs => some bs
      | none => st.hitBlocksByGroup g
    hitLengthByGroup := fun g => if g ∈ groupIds then n else st.hitLengthByGroup g }

/-- EAGLE matches one drop unit more than the candidate, except for Mamba, whose lookup never drops. -/
def maxLookupLength (g : SpecGroup) (dropEagleBlock : Bool) (curr maxCacheHitLength : Nat) : Nat :=
  if dropEagleBlock ∧ ¬ g.spec.isMamba then
    let margin :=
      if c.enablePartialHashHits ∧ g.spec.supportsFineGrainedHashLookup ∧ g.spec.blockSize > c.hashBlockSize then
        c.hashBlockSize
      else g.spec.blockSize
    min (curr + margin) maxCacheHitLength
  else curr

def searchGroup (blockHashes : List η) (maxCacheHitLength : Nat) (st : HitSearch) (ig : Nat × SpecGroup) :
    Except Err HitSearch :=
  let (idx, g) := ig
  match g.groupIds with
  | [] => .error .indexError
  | first :: _ =>
    if g.spec.isFullAttention ∧ (st.hitBlocksByGroup first).isSome then
      -- full attention is downward-closed: one lookup is enough
      .ok { st with currHitLength := min st.currHitLength (st.hitLengthByGroup first) }
    else do
      let dropEagleBlock := g.useEagle && !st.eagleVerified.contains idx
      let (blocks, n) ← CacheHit.findLongestCacheHit c.pool g.spec blockHashes
        (c.maxLookupLength g dropEagleBlock st.currHitLength maxCacheHitLength) g.groupIds dropEagleBlock
        c.cacheHitAlignmentTokens
      let eagleVerified :=
        if dropEagleBlock then insertNew idx st.eagleVerified
        else if n < st.currHitLength then []
        else st.eagleVerified
      pure ({ st with eagleVerified, currHitLength := n, longestHitLength := max st.longestHitLength n }.store
        g.groupIds blocks n)

/-- The `while True` loop. A round that does not end it lowers the candidate, so one round more than the
first candidate is enough. -/
def searchLoop (c : Coordinator η) (blockHashes : List η) (maxCacheHitLength : Nat) (simple : Bool) :
    Nat → Nat → HitSearch → Except Err (Nat × HitSearch)
  | 0, hitLength, st => .ok (hitLength, st)
  | fuel + 1, hitLength, st => do
    let groups := (List.range c.attentionGroups.length).zip c.attentionGroups
    let st ← groups.foldlM (c.searchGroup blockHashes maxCacheHitLength) { st with currHitLength := hitLength }
    if st.currHitLength ≥ hitLength then pure (hitLength, st)
    else if simple then pure (st.currHitLength, st)
    else c.searchLoop blockHashes maxCacheHitLength simple fuel st.currHitLength st

/-- `HybridKVCacheCoordinator.find_longest_cache_hit`. -/
def hybridFindLongestCacheHit (blockHashes : List η) (maxCacheHitLength : Nat) :
    Except Err (List (List BlockId) × Nat × Nat) := do
  let simple := c.attentionGroups.length == 2 && (c.attentionGroups.head?.any fun g => g.spec.isFullAttention)
  let (hitLength, st) ← c.searchLoop blockHashes maxCacheHitLength simple (maxCacheHitLength + 1) maxCacheHitLength
    { currHitLength := maxCacheHitLength, longestHitLength := 0, hitBlocksByGroup := fun _ => none
      hitLengthByGroup := fun _ => 0, eagleVerified := [] }
  let blocks := (List.range c.managers.length).map fun i =>
    match st.hitBlocksByGroup i, c.attentionGroups.find? fun g => g.groupIds.contains i with
    | none, _ => []
    | some bs, some g => if g.spec.isFullAttention then bs.take (cdiv hitLength g.spec.blockSize) else bs
    | some bs, none => bs
  pure (blocks, hitLength, st.longestHitLength - hitLength)

def fullAttentionGroupId : Option Nat :=
  match c.attentionGroups with
  | g :: _ => if c.kind = .hybrid ∧ g.spec.isFullAttention then g.groupIds.head? else none
  | [] => none

/-- `find_longest_cache_hit_per_group`: the hit of every group on its own, and its length. -/
def findLongestCacheHitPerGroup (blockHashes : List η) (maxCacheHitLength : Nat) :
    Except Err (List (List BlockId) × List Nat) := do
  let hits ← c.attentionGroups.mapM fun g =>
    CacheHit.findLongestCacheHit c.pool g.spec blockHashes maxCacheHitLength g.groupIds g.useEagle
      c.cacheHitAlignmentTokens
  let found := (c.attentionGroups.zip hits).flatMap fun (g, blocks, n) => g.groupIds.zip (blocks.map fun bs => (bs, n))
  let ids := List.range c.managers.length
  pure (ids.map fun i => ((found.lookup i).map Prod.fst).getD [],
    ids.map fun i => ((found.lookup i).map Prod.snd).getD 0)

/-- `find_longest_cache_hit`: the hit of each group, its length, and how much longer the longest hit of a
single group was. -/
def findLongestCacheHit (blockHashes : List η) (maxCacheHitLength : Nat) :
    Except Err (List (List BlockId) × Nat × Nat) :=
  match c.kind, c.managers with
  | .noPrefixCache, ms => .ok (ms.map fun _ => [], 0, 0)
  | .unitary, m :: _ => do
    let (blocks, n) ← CacheHit.findLongestCacheHit c.pool m.spec blockHashes maxCacheHitLength [0]
      (c.eagleGroupIds.contains 0) m.blockSize
    pure (blocks, n, 0)
  | .unitary, [] => .error .indexError
  | .hybrid, _ => c.hybridFindLongestCacheHit blockHashes maxCacheHitLength

end Methods

/-! ### Construction -/

structure KVCacheGroupSpec where
  spec : KVCacheSpec
  isEagleGroup : Bool := false

structure KVCacheConfig where
  numBlocks : Nat
  groups : List KVCacheGroupSpec
  needsKvCacheZeroing : Bool := false
  prefixCacheRetentionInterval : Option Int := none

structure KVCacheOptions where
  maxModelLen : Nat
  maxInFlightTokens : Nat
  useEagle : Bool := false
  enableCaching : Bool := true
  enableKvCacheEvents : Bool := false
  schedulerBlockSize : Nat
  hashBlockSize : Nat
  numPrefillLookahead : Nat := 0
  minPrefillTokens : Nat := 1

def isSlidingOrMamba (s : KVCacheSpec) : Bool :=
  match s.kind with
  | .slidingWindow .. | .mamba _ | .circularBuffer true => true
  | _ => false

/-- `_validate_prefix_cache_retention_interval`. -/
def validateRetentionInterval (interval : Option Int) (schedulerBlockSize : Nat) (specs : List KVCacheSpec) :
    Except Err (Option Nat) :=
  match interval with
  | none => .ok none
  | some n =>
    if specs.any isSlidingOrMamba then
      if n < 0 ∨ n % schedulerBlockSize ≠ 0 then
        .error (.valueError
          "prefix_cache_retention_interval must be non-negative and a multiple of scheduler_block_size")
      else .ok (some n.toNat)
    else if n = 0 then .ok (some 0)
    else .error (.valueError
      ("prefix_cache_retention_interval is set but this model has no sliding-window or Mamba KV cache " ++
        "group, so retention has no effect."))

/-- Add group `i` to the spec groups of `verify_and_split_kv_cache_groups`. -/
def addToSpecGroups (groups : List SpecGroup) (i : Nat) (spec : KVCacheSpec) (useEagle : Bool) : List SpecGroup :=
  match groups with
  | [] => [⟨spec, [i], useEagle⟩]
  | g :: gs =>
    if g.spec = spec then { g with groupIds := g.groupIds ++ [i], useEagle := g.useEagle || useEagle } :: gs
    else g :: addToSpecGroups gs i spec useEagle

/-- The spec groups in order of appearance, full attention first. Scratch groups take no part. -/
def splitKvCacheGroups (specs : List KVCacheSpec) (eagleGroupIds : List Nat) : List SpecGroup :=
  let groups := ((List.range specs.length).zip specs).foldl (fun gs is =>
    if is.2.prefixCacheable then addToSpecGroups gs is.1 is.2 (eagleGroupIds.contains is.1) else gs) []
  groups.filter (fun g => g.spec.isFullAttention) ++ groups.filter (fun g => !g.spec.isFullAttention)

/-- Fine-grained hits need an align-mode Mamba group with blocks larger than the hash blocks, and no
participating manager that looks up whole blocks of another size only. -/
def partialHashHits (specs : List KVCacheSpec) (hashBlockSize : Nat) : Bool :=
  (specs.any fun s => s.isMambaAlign && decide (s.blockSize > hashBlockSize)) &&
    specs.all fun s => !s.prefixCacheable || s.supportsFineGrainedHashLookup || s.blockSize == hashBlockSize

/-- The groups that drop the last block for EAGLE; all of them when none is flagged. -/
def eagleGroups (cfg : KVCacheConfig) (useEagle : Bool) : List Nat :=
  let flagged := ((List.range cfg.groups.length).zip cfg.groups).filterMap fun (i, g) =>
    if g.isEagleGroup then some i else none
  if useEagle && flagged.isEmpty then List.range cfg.groups.length else flagged

/-- Which class `get_kv_cache_coordinator` picks. -/
def kindFor (cfg : KVCacheConfig) (enableCaching : Bool) : CoordinatorKind :=
  if !enableCaching then .noPrefixCache
  else if cfg.groups.length = 1 then .unitary
  else .hybrid

def initManagers (cfg : KVCacheConfig) (o : KVCacheOptions) (eagleGroupIds : List Nat) (alignmentTokens : Nat)
    (attentionGroups : List SpecGroup) : List (Manager η) :=
  ((List.range cfg.groups.length).zip cfg.groups).map fun (i, g) =>
    { Manager.init g.spec o.maxInFlightTokens o.maxModelLen o.enableCaching i o.schedulerBlockSize
        cfg.needsKvCacheZeroing with
      dropEagleCheckpointBlock := o.useEagle && g.spec.isMamba
      cacheHitAlignmentTokens := alignmentTokens
      useEagle := match kindFor cfg o.enableCaching with
        | .noPrefixCache => false
        | .unitary => eagleGroupIds.contains i
        | .hybrid => attentionGroups.any fun g => g.useEagle && g.groupIds.contains i }

def checkKind (kind : CoordinatorKind) (specs : List KVCacheSpec) (hashBlockSize : Nat)
    (attentionGroups : List SpecGroup) : Except Err Unit :=
  match kind with
  | .noPrefixCache => .ok ()
  | .unitary => ensure (∀ s ∈ specs, s.blockSize = hashBlockSize)
      (.assertionError "UnitaryKVCacheCoordinator assumes hash_block_size == block_size")
  | .hybrid => do
    ensure (∀ s ∈ specs, s.prefixCacheable → s.blockSize % hashBlockSize = 0)
      (.assertionError "Each KV cache group's real block_size must be divisible by hash_block_size.")
    ensure (attentionGroups ≠ []) (.assertionError "HybridKVCacheCoordinator requires at least one cacheable group.")

/-- `get_kv_cache_coordinator`. -/
def init (cfg : KVCacheConfig) (o : KVCacheOptions) : Except Err (Coordinator η) := do
  let specs := cfg.groups.map fun g => g.spec
  ensure (o.schedulerBlockSize % o.hashBlockSize = 0 ∧ ∀ s ∈ specs, o.schedulerBlockSize % s.blockSize = 0)
    (.assertionError "scheduler_block_size is a multiple of hash_block_size and of every block size")
  let pool ← BlockPool.init cfg.numBlocks o.enableCaching o.hashBlockSize o.enableKvCacheEvents
  let eagleGroupIds := eagleGroups cfg o.useEagle
  ensure (¬ (o.enableCaching ∧ eagleGroupIds ≠ [] ∧ o.schedulerBlockSize < o.numPrefillLookahead))
    (.valueError "Multi-module MTP with prefix caching requires scheduler_block_size >= num_speculative_tokens")
  let retentionInterval ← validateRetentionInterval cfg.prefixCacheRetentionInterval o.schedulerBlockSize specs
  let kind := kindFor cfg o.enableCaching
  let attentionGroups := if kind = .hybrid then splitKvCacheGroups specs eagleGroupIds else []
  checkKind kind specs o.hashBlockSize attentionGroups
  let enablePartialHashHits := decide (kind = .hybrid) && partialHashHits specs o.hashBlockSize
  let alignmentTokens := if enablePartialHashHits then o.hashBlockSize else o.schedulerBlockSize
  pure
    { kind, pool, eagleGroupIds, retentionInterval, enablePartialHashHits, attentionGroups
      managers := initManagers cfg o eagleGroupIds alignmentTokens attentionGroups
      schedulerBlockSize := o.schedulerBlockSize
      hashBlockSize := o.hashBlockSize
      numReprefillableTokens := o.numPrefillLookahead - 1
      minPrefillTokens := o.minPrefillTokens }

end Coordinator

end VllmCore
