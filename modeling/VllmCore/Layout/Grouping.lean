import VllmCore.Layout.LayerSpec
import VllmCore.Lib.Slices

/-! # KV-cache groups

`get_kv_cache_groups` and the grouping strategies it tries in turn (`kv_cache_utils.py`): layers with one
spec, layers of one type, the layout shared by Mamba and latent attention, packed groups for
block-outermost layouts, groups of one page size, and the fallback that allocates local attention like
full attention. -/

namespace VllmCore
open Except

structure GroupingConfig where
  disableHybridKvCacheManager : Bool := false
  layout : KVCacheLayout := .LBNHC
  /-- a drafter whose last block is dropped (`use_eagle_block_drop`) -/
  useEagleBlockDrop : Bool := false
  /-- `_is_deepseek_v4_eagle` -/
  deepseekV4Eagle : Bool := false
  /-- the hidden layers `[start, end)` of each pipeline stage -/
  ppStages : List (Nat × Nat) := [(0, 0)]
  extractLayerIndex : LayerName → Nat := id
  /-- the layers whose spec is marked `is_draft` -/
  isDraft : LayerName → Bool := fun _ => false

/-- The spec of a group: one for all its layers, or `UniformTypeKVCacheSpecs` with one for each. -/
inductive GroupSpec where
  | single (spec : LayerSpec)
  | uniformType (blockSize : Nat) (kvCacheSpecs : LayerSpecs)
deriving DecidableEq

structure KVCacheGroupSpec where
  layerNames : List LayerName
  kvCacheSpec : GroupSpec
  isEagleGroup : Bool := false
deriving DecidableEq

namespace GroupSpec

def iterLayerSpecs : GroupSpec → List LayerSpec
  | .single s => [s]
  | .uniformType _ specs => specs.map Prod.snd

def blockSize : GroupSpec → Nat
  | .single s => s.blockSize
  | .uniformType b _ => b

def pageSize : GroupSpec → Nat
  | .single s => s.pageSize
  | .uniformType _ specs => (specs.map fun e => e.2.pageSize).sum

def fromSpecs (specs : LayerSpecs) : Except Err (Option GroupSpec) := do
  if ← LayerSpec.isUniformType (specs.map Prod.snd) then
    match specs with
    | [] => .error (.runtimeError "StopIteration")
    | (_, first) :: _ => pure (some (.uniformType first.blockSize specs))
  else pure none

end GroupSpec

def KVCacheGroupSpec.perLayerSpec (g : KVCacheGroupSpec) (name : LayerName) : Option LayerSpec :=
  match g.kvCacheSpec with
  | .single s => some s
  | .uniformType _ specs => specs.lookup name

namespace Grouping
variable (specs : LayerSpecs) (cfg : GroupingConfig)

def getSpec (name : LayerName) : Except Err LayerSpec :=
  match specs.lookup name with
  | some s => .ok s
  | none => .error .keyError

/-! ### Groups with one spec -/

def createKvCacheGroupSpec (names : List LayerName) : Except Err KVCacheGroupSpec := do
  match ← names.mapM (getSpec specs) with
  | [] => .error .indexError
  | first :: rest => do
    let merged ← first.merge rest
    pure { layerNames := names, kvCacheSpec := .single merged }

def createKvCacheGroupSpecs (groupedLayerNames : List (List LayerName)) : Except Err (List KVCacheGroupSpec) :=
  groupedLayerNames.mapM (createKvCacheGroupSpec specs)

def isKvCacheSpecUniform : Except Err Bool :=
  match specs.map Prod.snd with
  | [] => .ok true
  | first :: rest => match first.merge rest with
    | .ok _ => .ok true
    | .error (.assertionError _) => .ok false
    | .error e => .error e

/-- `is_kv_cache_spec_uniform(...) or UniformTypeKVCacheSpecs.is_uniform_type(...)`. -/
def isUnified : Except Err Bool := do
  if ← isKvCacheSpecUniform specs then pure true else LayerSpec.isUniformType (specs.map Prod.snd)

def getKvCacheGroupsUniformSpec : Except Err (List KVCacheGroupSpec) :=
  createKvCacheGroupSpecs specs [specs.map Prod.fst]

/-! ### Full allocation for local attention -/

def promotedPageSizePadded (fields : AttentionSpec) (blockSize : Nat) : Option Nat :=
  fields.pageSizePadded.map fun padded =>
    max padded (fields.unpaddedPageSizeBytes * blockSize / fields.blockSize)

/-- One layer of `_promote_local_kv_cache_specs`: local attention becomes the full-attention class that
records its window. -/
def promote (fullAttentionBlockSize : Option Nat) : LayerSpec → LayerSpec
  | .mamba m => .mamba m
  | .attention ⟨fields, cls, noV⟩ =>
    let blockSize := (fullAttentionBlockSize.filter (· ≠ 0)).getD fields.blockSize
    let promoted := { fields with blockSize, pageSizePadded := promotedPageSizePadded fields blockSize }
    match cls with
    | .slidingWindowMla w m => .attention (.build promoted
        (.mla { slidingWindow := some w.slidingWindow }
          { cacheDtypeStr := m.cacheDtypeStr, alignment := m.alignment, modelVersion := m.modelVersion })
            fun _ => noV rfl)
    | .slidingWindow w | .kpoolTail w =>
      .attention (.build promoted (.fullAttention { slidingWindow := some w.slidingWindow })
        (by simp [AttentionClass.isLatent]))
    | .chunkedLocal c => .attention (.build promoted (.fullAttention { attentionChunkSize := some c })
        (by simp [AttentionClass.isLatent]))
    | cls => .attention ⟨fields, cls, noV⟩

def promoteLocalKvCacheSpecs : Except Err LayerSpecs := do
  if ← isUnified specs then pure specs
  else
    let full := (specs.filter fun e => e.2.full?.isSome).map Prod.snd
    let fullAttentionBlockSize := match (full.map LayerSpec.blockSize).dedup with
      | [b] => some b
      | _ => none
    let promoted :=
      if full ≠ [] ∧ specs.any fun e => e.2.window?.isSome || e.2.isChunkedLocal then
        specs.map fun e => (e.1, promote fullAttentionBlockSize e.2)
      else specs
    if ← isUnified promoted then pure promoted
    else .error (.valueError "Failed to promote local KV cache specs to one unified type.")

def unifyHybridKvCacheSpecs : Except Err LayerSpecs := do
  if ← isUnified specs then pure specs else promoteLocalKvCacheSpecs specs

/-- `_try_get_full_allocation_fallback_groups`, with the promoted specs. -/
def tryGetFullAllocationFallbackGroups : Except Err (Option (LayerSpecs × List KVCacheGroupSpec)) :=
  if specs.any fun e => e.2.isHiddenState || e.2.isSlidingWindowMla || e.2.isChunkedLocal then .ok none
  else if !((specs.any fun e => e.2.mla?.isSome) && specs.any fun e => e.2.window?.isSome) then .ok none
  else match promoteLocalKvCacheSpecs specs with
    | .error (.valueError _) => .ok none
    | .error e => .error e
    | .ok promoted => do
      match ← GroupSpec.fromSpecs promoted with
      | none => pure none
      | some spec => pure (some (promoted, [{ layerNames := promoted.map Prod.fst, kvCacheSpec := spec }]))

/-! ### Mamba states and scratch tails in the slots of latent attention -/

def ppBalancedMambaGroupCount (mambaLayerNames mlaLayerNames : List LayerName) : Option Nat :=
  let numGroups := cdiv mambaLayerNames.length mlaLayerNames.length
  if cfg.ppStages.length = 1 then some numGroups
  else cfg.ppStages.foldlM (fun numGroups stage =>
    let inStage := fun name =>
      decide (stage.1 ≤ cfg.extractLayerIndex name ∧ cfg.extractLayerIndex name < stage.2)
    let numMamba := mambaLayerNames.countP inStage
    let numMla := mlaLayerNames.countP inStage
    if numMamba = 0 then some numGroups
    else if numMla = 0 then none
    else some (max numGroups (cdiv numMamba numMla))) numGroups

def tailGroups (paddedTailSpecs : LayerSpecs) : Except Err (List KVCacheGroupSpec) :=
  if paddedTailSpecs = [] then .ok []
  else do
    let some tailUniform ← GroupSpec.fromSpecs paddedTailSpecs
      | .error (.assertionError "tail_uniform is not None")
    pure [{ layerNames := paddedTailSpecs.map Prod.fst, kvCacheSpec := tailUniform }]

/-- The groups over slots of `mlaPage` bytes for attention and Mamba, the tails being padded already. -/
def sharedSlotGroups (attnSpecs paddedTailSpecs mambaSpecs : LayerSpecs) (anyMamba : LayerSpec)
    (mlaNames : List LayerName) (mlaPage : Nat) : Except Err (LayerSpecs × List KVCacheGroupSpec) := do
  let some uniformSpec ← GroupSpec.fromSpecs attnSpecs
    | .error (.assertionError "uniform_spec is not None")
  let tail ← tailGroups paddedTailSpecs
  ensure (∀ e ∈ mambaSpecs, e.2 = anyMamba) (.assertionError "spec == any_mamba")
  ensure (anyMamba.realPageSizeBytes ≤ mlaPage)
    (.valueError ("the mamba state page does not fit the MLA page; increase tensor parallelism " ++
      "or use a wider KV cache dtype"))
  let paddedSpecs := mambaSpecs.map fun e => (e.1, anyMamba.withPageSizePadded mlaPage)
  let mambaNames := mambaSpecs.map Prod.fst
  let some numGroups := ppBalancedMambaGroupCount cfg mambaNames mlaNames
    | .error (.valueError ("a pipeline stage has mamba layers but no MLA layer to share slots with; " ++
        "realign the stage boundaries (VLLM_PP_LAYER_PARTITION)"))
  let mambaGroups ← createKvCacheGroupSpecs paddedSpecs
    ((List.range numGroups).map fun i => mambaNames.strided i numGroups)
  pure (attnSpecs ++ (paddedTailSpecs ++ paddedSpecs),
    { layerNames := attnSpecs.map Prod.fst, kvCacheSpec := uniformSpec } :: (tail ++ mambaGroups))

/-- `_get_kv_cache_groups_glm5_next`, with the padded specs. -/
def getKvCacheGroupsGlm5Next (specs : LayerSpecs) : Except Err (Option (LayerSpecs × List KVCacheGroupSpec)) :=
  let mambaSpecs := specs.filter fun e => e.2.isMamba
  let tailSpecs := specs.filter fun e => e.2.isKpoolTail
  let attnSpecs := specs.filter fun e => !e.2.isMamba && !e.2.isKpoolTail
  match mambaSpecs.head? with
  | none => .ok none
  | some (_, anyMamba) =>
    if ¬∀ e ∈ attnSpecs, e.2.isExactlyMla then .ok none
    else
      let idxSpecs := attnSpecs.filter fun e => e.2.tokensPerState?.any fun t => t.den < t.num
      match (idxSpecs.map fun e => e.2.pageSize).dedup with
      | [] => .ok none
      | idxPage :: idxPages => do
        ensure (∀ e ∈ attnSpecs, e.2.pageSizePadded = none)
          (.assertionError "spec.page_size_padded is None")
        ensure (idxPages = []) (.assertionError "len(idx_pages) == 1")
        let mlaSpecs := attnSpecs.filter fun e => e.2.tokensPerState?.any fun t => t.num = t.den
        match (mlaSpecs.map fun e => e.2.pageSize).dedup with
        | [mlaPage] => do
          let groups ← sharedSlotGroups cfg attnSpecs (tailSpecs.map fun e => (e.1, e.2.withPageSizePadded idxPage))
            mambaSpecs anyMamba (mlaSpecs.map Prod.fst) mlaPage
          pure (some groups)
        | _ => .error (.assertionError "len(mla_pages) == 1")

/-! ### Groups of one page size -/

/-- The spec that takes up a page of `maxPageSize` bytes: a padded page for Mamba, a larger block where the
page divides it, else a padded page, which latent attention does not support. -/
def enlarged (maxPageSize : Nat) (s : LayerSpec) : Except Err LayerSpec :=
  if s.isMamba then .ok (s.withPageSizePadded maxPageSize)
  else if s.pageSize = 0 then .error (.runtimeError "integer modulo by zero")
  else if maxPageSize % s.pageSize = 0 then .ok (s.withBlockSize (s.blockSize * (maxPageSize / s.pageSize)))
  else if s.mla?.isNone then .ok (s.withPageSizePadded maxPageSize)
  else .error (.notImplementedError
    ("page size is not divisible by the maximum page size and cannot be padded. " ++
      "Padding is only supported for non-MLA attention layers."))

def unifyPageSize (maxPageSize : Nat) (s : LayerSpec) : Except Err LayerSpec :=
  if s.pageSize = maxPageSize then .ok s
  else do
    let new ← enlarged maxPageSize s
    let page ← new.pageSizeBytes
    ensure (page = maxPageSize) (.assertionError "new_spec.page_size_bytes == max_page_size")
    pure new

def unifyKvCacheSpecPageSize : Except Err LayerSpecs := do
  let pageSizes ← specs.mapM fun e => e.2.pageSizeBytes
  if pageSizes.dedup.length ≤ 1 then pure specs
  else specs.mapM fun e => do
    let s ← unifyPageSize (pageSizes.max?.getD 0) e.2
    pure (e.1, s)

structure MergeBucket where
  names : List LayerName
  specs : List LayerSpec

/-- The first bucket that the spec can be merged into takes its layers. -/
def addToBuckets (layerSpec : LayerSpec) (layerNames : List LayerName) : List MergeBucket →
    Except Err (List MergeBucket)
  | [] => .ok [⟨layerNames, [layerSpec]⟩]
  | b :: bs => match b.specs with
    | [] => .error .indexError
    | first :: rest => match first.merge (rest ++ [layerSpec]) with
      | .ok _ => .ok (⟨b.names ++ layerNames, b.specs ++ [layerSpec]⟩ :: bs)
      | .error (.assertionError _) | .error (.valueError _) => do
        let bs ← addToBuckets layerSpec layerNames bs
        pure (b :: bs)
      | .error e => .error e

def uniformGroupSize (layerBuckets : List MergeBucket) : Except Err Nat :=
  let sizes := layerBuckets.map fun b => b.names.length
  match sizes.min?, sizes.max? with
  | some minNumLayers, some maxNumLayers =>
    -- `max_num_layers < min_num_layers * 1.5`
    .ok (if 2 * maxNumLayers < 3 * minNumLayers then maxNumLayers else minNumLayers)
  | _, _ => .error (.valueError "min() arg is an empty sequence")

def getKvCacheGroupsUniformPageSize : Except Err (List KVCacheGroupSpec) := do
  let sameTypeLayers := Dict.groupBy Prod.snd Prod.fst specs
  let layerBuckets ← sameTypeLayers.entries.foldlM (fun buckets e => addToBuckets e.1 e.2 buckets) []
  let groupSize ← uniformGroupSize layerBuckets
  createKvCacheGroupSpecs specs (layerBuckets.flatMap fun b =>
    let numGroups := cdiv b.names.length groupSize
    (List.range numGroups).map fun i => b.names.strided i numGroups)

/-! ### Packed groups -/

def approximateGcd (values : List Nat) (lowerBound : Nat) : Except Err Nat := do
  ensure (values ≠ []) (.valueError "values must be non-empty")
  ensure (∀ x ∈ values, 0 < x) (.valueError "values must be positive")
  let minD := max 1 lowerBound
  let maxD := values.max?.getD 0
  if maxD < minD then pure minD
  else
    let best := (List.range' minD (maxD + 1 - minD)).foldl (fun (best : Nat × Option Nat) d =>
      let pad := (values.map fun x => (d - x % d) % d).sum
      if best.2.all fun p => pad < p ∨ pad = p ∧ best.1 < d then (d, some pad) else best) (minD, none)
    pure best.1

variable (bucket : LayerSpecs)

def pageSizeLayers : Dict Nat (List LayerName) :=
  Dict.groupBy (fun e => e.2.pageSize) Prod.fst bucket

def balanced : Bool :=
  ((pageSizeLayers bucket).values.map List.length).dedup.length = 1

def getMaxLayersPerPageSize : Nat :=
  ((pageSizeLayers bucket).values.map List.length).max?.getD 0

/-- `is_uniform_type({**bucket, name: spec})`: the first bucket that the layer keeps uniform takes it. -/
def addToUniformBuckets (e : LayerName × LayerSpec) : List LayerSpecs → Except Err (List LayerSpecs)
  | [] => .ok [[e]]
  | b :: bs => do
    if ← LayerSpec.isUniformType ((b ++ [e]).map Prod.snd) then pure ((b ++ [e]) :: bs)
    else do
      let bs ← addToUniformBuckets e bs
      pure (b :: bs)

def uniformBuckets : Except Err (List LayerSpecs) := specs.foldlM (fun buckets e => addToUniformBuckets e buckets) []

def repeatsPerGroup (buckets : List LayerSpecs) : Except Err (Option Nat) :=
  let mixed := buckets.filter fun b => balanced b && decide (1 < (pageSizeLayers b).values.length)
  match (mixed.map getMaxLayersPerPageSize).max?.getD 0 with
  | 0 => .ok none
  | minRepeatsPerGroup => do
    let d ← approximateGcd ((buckets.filter balanced).map getMaxLayersPerPageSize) minRepeatsPerGroup
    pure (some d)

def numGroupsFor (repeats : Option Nat) (bucket : LayerSpecs) : Nat :=
  match repeats with
  | some r => if balanced bucket then cdiv (getMaxLayersPerPageSize bucket) r else 1
  | none => 1

def widestGroupBytes (n : Nat) : Nat :=
  ((pageSizeLayers bucket).entries.map fun e => cdiv e.2.length n * e.1).sum

def isStateBucket (repeats : Option Nat) (bucket : LayerSpecs) : Bool :=
  bucket.head?.any fun e =>
    e.2.isMamba || e.2.isCircularBuffer || (repeats.isNone && e.2.window?.isSome)

/-- The bytes that a block holds however the state buckets end up split. -/
def anchorBytes (repeats : Option Nat) (buckets : List LayerSpecs) : Nat :=
  ((buckets.map fun b =>
    widestGroupBytes b (if isStateBucket repeats b then b.length else numGroupsFor repeats b)).max?).getD 0

/-- The layers of a state bucket that fit the block, or `ZeroDivisionError`. -/
def statesPerBlock (anchor : Nat) (bucket : LayerSpecs) : Except Err Nat :=
  match bucket.head? with
  | none => .error (.runtimeError "StopIteration")
  | some (_, first) =>
    if first.pageSize = 0 then .error (.runtimeError "integer division by zero")
    else .ok (max (anchor / first.pageSize) 1)

def numGroups (repeats : Option Nat) (anchor : Nat) (bucket : LayerSpecs) : Except Err Nat :=
  if anchor ≠ 0 ∧ isStateBucket repeats bucket then do
    let states ← statesPerBlock anchor bucket
    pure (max (numGroupsFor repeats bucket) (cdiv bucket.length states))
  else .ok (numGroupsFor repeats bucket)

def createUniformGroup (names : List LayerName) : Except Err KVCacheGroupSpec := do
  let specs ← names.mapM fun name => do
    let s ← getSpec bucket name
    pure (name, s)
  let some spec ← GroupSpec.fromSpecs specs | .error (.assertionError "group_spec is not None")
  pure { layerNames := names, kvCacheSpec := spec }

def splitBucket (repeats : Option Nat) (anchor : Nat) (bucket : LayerSpecs) : Except Err (List KVCacheGroupSpec) := do
  let some spec ← GroupSpec.fromSpecs bucket | .error (.assertionError "uniform_spec is not None")
  let n ← numGroups repeats anchor bucket
  if n = 1 then pure [{ layerNames := bucket.map Prod.fst, kvCacheSpec := spec }]
  else
    let patternRepeats := List.zipAll (pageSizeLayers bucket).values
    (List.range n).mapM fun i => createUniformGroup bucket (patternRepeats.strided i n).flatten

def packs (specs : LayerSpecs) : Bool :=
  cfg.layout.isBlockOutermost && decide (1 < (specs.map fun e => e.2.pageSize).dedup.length)

def packedGroups : Except Err (List KVCacheGroupSpec) := do
  let buckets ← uniformBuckets specs
  let repeats ← repeatsPerGroup buckets
  let groups ← buckets.mapM (splitBucket repeats (anchorBytes repeats buckets))
  pure groups.flatten

/-! ### Draft layers -/

def annotateEagleGroups (specs : LayerSpecs) (useDeepseekV4Fallback : Bool) (groups : List KVCacheGroupSpec) :
    List KVCacheGroupSpec :=
  if !cfg.useEagleBlockDrop then groups
  else
    let groups := groups.map fun g =>
      if g.layerNames.any cfg.isDraft || g.kvCacheSpec.iterLayerSpecs.any fun s =>
          s.mla?.any MlaFields.nonCausalMultiTokenDecode then { g with isEagleGroup := true }
      else g
    if !useDeepseekV4Fallback then groups
    else
      -- the first group that holds the last registered layer
      match specs.getLast? with
      | none => groups
      | some (lastLayer, _) =>
        let i := groups.findIdx fun g => lastLayer ∈ g.layerNames
        groups.modify i fun g => { g with isEagleGroup := true }

/-! ### The strategies in turn -/

def largestDivisorAtMost (value limit : Nat) : Nat :=
  (((List.range' 1 (min value limit)).reverse).find? fun c => value % c = 0).getD 1

/-- The hidden-state layers, one group each, with their page aligned to the common page. -/
def alignHiddenSpecs (groups : List KVCacheGroupSpec) (hiddenSpecs : LayerSpecs) : Except Err LayerSpecs :=
  if hiddenSpecs = [] then .ok []
  else match (groups.map fun g => g.kvCacheSpec.pageSize).dedup with
    | [commonPage] =>
      let groupBlockSize := (groups.map fun g => g.kvCacheSpec.blockSize).foldl Nat.gcd 0
      hiddenSpecs.mapM fun e => match e.2 with
        | .mamba _ => .error .keyError
        | .attention a => do
          let perToken := a.fields.numKvHeads * a.fields.headSize * a.fields.dtype.itemsize
          ensure (perToken ≠ 0) (.runtimeError "integer division by zero")
          let newBs := largestDivisorAtMost groupBlockSize (max (commonPage / perToken) 1)
          ensure (commonPage ≠ 0) (.runtimeError "float division by zero")
          pure (e.1, (LayerSpec.attention
            (.build { a.fields with blockSize := newBs, pageSizePadded := some commonPage } a.cls a.noV)))
    | _ => .error (.assertionError "len(page_sizes) == 1")

def singletonGroups : List KVCacheGroupSpec := specs.map fun e => { layerNames := [e.1], kvCacheSpec := .single e.2 }

/-- The strategies for the whole model: one spec, one type, or the shared slots. -/
def wholeModelGroups (specs : LayerSpecs) : Except Err (Option (LayerSpecs × List KVCacheGroupSpec)) := do
  if ← isKvCacheSpecUniform specs then
    let groups ← getKvCacheGroupsUniformSpec specs
    pure (some (specs, groups))
  else match ← GroupSpec.fromSpecs specs with
    | some spec => pure (some (specs, [{ layerNames := specs.map Prod.fst, kvCacheSpec := spec }]))
    | none => getKvCacheGroupsGlm5Next cfg specs

def hybridGroups (specs : LayerSpecs) : Except Err (LayerSpecs × List KVCacheGroupSpec) := do
  let hiddenSpecs := specs.filter fun e => e.2.isHiddenState
  let filteredSpec := specs.filter fun e => !e.2.isHiddenState
  let _ ← filteredSpec.mapM fun e => e.2.pageSizeBytes
  if packs cfg filteredSpec then
    let packed ← packedGroups filteredSpec
    pure (specs, annotateEagleGroups cfg filteredSpec cfg.deepseekV4Eagle packed ++ singletonGroups hiddenSpecs)
  else match unifyKvCacheSpecPageSize filteredSpec with
    | .error (.notImplementedError msg) => do
      match ← tryGetFullAllocationFallbackGroups specs with
      | none => .error (.notImplementedError msg)
      | some (promoted, groups) => pure (promoted, annotateEagleGroups cfg specs false groups)
    | .error e => .error e
    | .ok filteredSpec => do
      let groups ← getKvCacheGroupsUniformPageSize filteredSpec
      let aligned ← alignHiddenSpecs groups hiddenSpecs
      pure (filteredSpec ++ aligned, annotateEagleGroups cfg specs false (groups ++ singletonGroups aligned))

/-- The specs after `unify_hybrid_kv_cache_specs`, which runs if the hybrid manager is disabled. -/
def hybridUnified (specs : LayerSpecs) : Except Err LayerSpecs :=
  if cfg.disableHybridKvCacheManager then unifyHybridKvCacheSpecs specs else .ok specs

/-- `get_kv_cache_groups`. Beside the groups stand the specs that they were built from: the given ones
after the unification steps. -/
def getKvCacheGroups (kvCacheSpec : Dict LayerName LayerSpec) : Except Err (LayerSpecs × List KVCacheGroupSpec) := do
  let specs ← hybridUnified cfg kvCacheSpec.entries
  if specs = [] then pure ([], [])
  else match ← wholeModelGroups cfg specs with
    | some (unified, groups) => pure (unified, annotateEagleGroups cfg specs false groups)
    | none => hybridGroups cfg specs

end Grouping

end VllmCore
