import VllmCore.Layout.Grouping

/-! # The memory plan of the KV cache

All groups are laid over one allocation. `get_kv_cache_config_from_groups` places the layers of each
group in it (`kv_cache_utils.py`), `compute_layout_strides` turns a layout into byte strides
(`kv_cache_interface.py`), and `resolve_kv_cache_layout` picks the layout (`attention/backends/utils.py`).
Views are those of whole blocks: splitting a block into kernel blocks is not modelled. -/

namespace VllmCore
open Except

/-- Placement of a set of same-shaped layers in the allocation. -/
structure KVCacheTensor where
  size : Nat
  layers : List LayerName
  layerStride : Nat
  blockStride : Nat
  offset : Nat
deriving DecidableEq

structure KVCacheConfig where
  numBlocks : Nat
  kvCacheTensors : List KVCacheTensor
  kvCacheGroups : List KVCacheGroupSpec

/-! ### Strides -/

/-- The logical shape, content in bytes (`compute_layer_kv_cache_shape_bytes`). -/
def LayerSpec.shape (s : LayerSpec) (numBlocks numLayers : Nat) : Axis → Nat
  | .L => numLayers
  | .B => numBlocks
  | .H => s.numHeads
  | .N => s.numStates
  | .C => s.stateContentSizeBytes

/-- `max(order.index(L), order.index(B)) + 1`. -/
def KVCacheLayout.pageGridEnd (layout : KVCacheLayout) : Nat :=
  max (layout.strideOrder.idxOf .L) (layout.strideOrder.idxOf .B) + 1

/-- The padded page widens the innermost axis of the page grid. -/
def paddedStride (s : LayerSpec) (layout : KVCacheLayout) (physicalIdx currentStride : Nat) : Except Err Nat :=
  match s.pageSizePadded with
  | none => .ok currentStride
  | some padded =>
    if physicalIdx = layout.pageGridEnd - 1 then do
      ensure (padded ≠ 0) (.runtimeError "integer modulo by zero")
      ensure (max currentStride padded % padded = 0) (.assertionError "current_stride % padded_page_size == 0")
      pure (max currentStride padded)
    else .ok currentStride

/-- One round of the loop over the axes, innermost first: the stride of the axis and that of the next one. -/
def strideStep (s : LayerSpec) (numBlocks numLayers : Nat) (layout : KVCacheLayout) (fixed : Axis → Option Nat)
    (acc : (Axis → Nat) × Nat) (dim : Axis × Nat) : Except Err ((Axis → Nat) × Nat) := do
  let currentStride ← paddedStride s layout dim.2 acc.2
  let stride := (fixed dim.1).getD currentStride
  pure (Function.update acc.1 dim.1 stride, stride * s.shape numBlocks numLayers dim.1)

/-- `compute_layout_strides`: byte strides in logical axis order. -/
def computeLayoutStrides (s : LayerSpec) (numBlocks numLayers : Nat) (layout : KVCacheLayout)
    (fixed : Axis → Option Nat) : Except Err (Axis → Nat) := do
  ensure (∀ a ∈ [Axis.L, .B, .H, .N, .C], ∀ n ∈ fixed a, 0 < n)
    (.assertionError "stride is None or stride > 0")
  let shape := s.shape numBlocks numLayers
  ensure (s.pageSizePadded.isSome →
      ((layout.strideOrder.take layout.pageGridEnd).map shape).prod = numLayers * numBlocks)
    (.assertionError "Page padding requires dimensions outside the page tail to be L, B, or singleton")
  let (strides, _) ← layout.strideOrder.zipIdx.reverse.foldlM
    (strideStep s numBlocks numLayers layout fixed) (fun _ => 0, 1)
  pure strides

/-- `fixed_strides=(layer, block, None, None, None)`. -/
def fixedStrides (layer block : Option Nat) : Axis → Option Nat
  | .L => layer
  | .B => block
  | _ => none

/-- The strides of the view that `create_kv_cache_views` makes of a tensor. -/
def KVCacheTensor.viewStrides (t : KVCacheTensor) (s : LayerSpec) (numBlocks : Nat) (layout : KVCacheLayout) :
    Except Err (Axis → Nat) :=
  computeLayoutStrides s numBlocks t.layers.length layout (fixedStrides t.layerStride t.blockStride)

namespace MemoryPlan

variable (g : KVCacheGroupSpec)

def layerSpecs : List LayerSpec := g.layerNames.filterMap g.perLayerSpec

/-! ### Shared slots -/

def uniformSpecs? : Option LayerSpecs :=
  match g.kvCacheSpec with
  | .uniformType _ specs => some specs
  | .single _ => none

def mambaSpec? : Option LayerSpec :=
  match g.kvCacheSpec with
  | .single s => if s.isMamba then some s else none
  | .uniformType .. => none

def isAttnGroup : Bool := (uniformSpecs? g).any fun specs => specs.all fun e => e.2.isExactlyMla

def isTailGroup : Bool :=
  !isAttnGroup g && (uniformSpecs? g).any fun specs => specs.all fun e => e.2.isKpoolTail

structure SharedSlots where
  mla : LayerSpecs
  idx : LayerSpecs
  mambaGroups : List (List LayerName × LayerSpec)
  mlaPage : Nat
  idxPage : Nat
  tailNames : List LayerName

variable (groups : List KVCacheGroupSpec)

/-- The names of the tails, if they can share the slots of the indexer, one for each. -/
def findTails (numIdx idxPage : Nat) : Option (List LayerName) :=
  match (groups.filter isTailGroup).getLast? with
  | none => some []
  | some g => match (((uniformSpecs? g).getD []).map fun e => e.2.realPageSizeBytes).dedup with
    | [tailPage] => if g.layerNames.length = numIdx ∧ tailPage ≤ idxPage then some g.layerNames else none
    | _ => none

/-- `_glm5_next_tensor_layout`. -/
def sharedSlots : Except Err (Option SharedSlots) :=
  let mambaGroups := groups.filterMap fun g => (mambaSpec? g).map fun s => (g.layerNames, s)
  match (groups.filter isAttnGroup).getLast? with
  | none => .ok none
  | some attnGroup =>
    let mlaInner := (uniformSpecs? attnGroup).getD []
    if mambaGroups = [] ∨ (groups.filter fun g => (uniformSpecs? g).isSome).length + mambaGroups.length ≠
      groups.length ∨
        ¬∀ e ∈ mlaInner, e.2.pageSizePadded = none then .ok none
    else do
      let attn ← attnGroup.layerNames.mapM fun name => do
        let s ← Grouping.getSpec mlaInner name
        pure (name, s)
      let mla := attn.filter fun e => e.2.tokensPerState?.any fun t => t.num = t.den
      let idx := attn.filter fun e => e.2.tokensPerState?.any fun t => t.den < t.num
      match (mla.map fun e => e.2.pageSize).dedup, (idx.map fun e => e.2.pageSize).dedup with
      | [mlaPage], [idxPage] => do
        let mambaPages ← mambaGroups.mapM fun e => e.2.pageSizeBytes
        if ∀ p ∈ mambaPages, p = mlaPage then
          pure ((findTails groups idx.length idxPage).map fun tailNames => ⟨mla, idx, mambaGroups,
            mlaPage, idxPage, tailNames⟩)
        else pure none
      | _, _ => pure none

/-- `add_tensor`: a layer of its own, block after block. -/
def addTensor (size numBlocks : Nat) (name : LayerName) (s : LayerSpec) (offset : Nat) : Except Err KVCacheTensor := do
  let page ← s.pageSizeBytes
  pure { size, layers := [name], layerStride := page * numBlocks, blockStride := page, offset }

def mlaSlot (slots : SharedSlots) (size numBlocks : Nat) (e : (LayerName × LayerSpec) × Nat) :
    Except Err (List KVCacheTensor) := do
  let offset := e.2 * slots.mlaPage * numBlocks
  let attn ← addTensor size numBlocks e.1.1 e.1.2 offset
  let mamba ← (slots.mambaGroups.filterMap fun g => g.1[e.2]?.map fun name => (name, g.2)).mapM fun m =>
    addTensor size numBlocks m.1 m.2 offset
  pure (attn :: mamba)

/-- The spec of a tail, looked up in the first group that has the layer. -/
def tailSpec (name : LayerName) : Except Err LayerSpec :=
  match (groups.find? fun g => name ∈ g.layerNames).map uniformSpecs? with
  | none => .error (.runtimeError "StopIteration")
  | some none => .error (.runtimeError "AttributeError")
  | some (some specs) => Grouping.getSpec specs name

def idxSlot (slots : SharedSlots) (size numBlocks : Nat) (e : (LayerName × LayerSpec) × Nat) :
    Except Err (List KVCacheTensor) := do
  let offset := slots.mla.length * slots.mlaPage * numBlocks + e.2 * slots.idxPage * numBlocks
  let idx ← addTensor size numBlocks e.1.1 e.1.2 offset
  if slots.tailNames = [] then pure [idx]
  else match slots.tailNames[e.2]? with
    | none => .error .indexError
    | some tailName => do
      let s ← tailSpec groups tailName
      let tail ← addTensor size numBlocks tailName s offset
      pure [idx, tail]

/-- `available_memory // bytes_per_block`, unless `num_gpu_blocks_override` is set. -/
def numBlocksFor (numGpuBlocksOverride : Option Nat) (availableMemory bytesPerBlock : Nat) : Except Err Nat := do
  ensure (bytesPerBlock ≠ 0) (.runtimeError "integer division by zero")
  pure (numGpuBlocksOverride.getD (availableMemory / bytesPerBlock))

def sharedSlotConfig (numGpuBlocksOverride : Option Nat) (groups : List KVCacheGroupSpec) (availableMemory : Nat)
    (slots : SharedSlots) : Except Err KVCacheConfig := do
  let bytesPerBlock := slots.mla.length * slots.mlaPage + slots.idx.length * slots.idxPage
  let numBlocks ← numBlocksFor numGpuBlocksOverride availableMemory bytesPerBlock
  let size := bytesPerBlock * numBlocks
  let mla ← slots.mla.zipIdx.mapM (mlaSlot slots size numBlocks)
  let idx ← slots.idx.zipIdx.mapM (idxSlot groups slots size numBlocks)
  pure { numBlocks, kvCacheTensors := mla.flatten ++ idx.flatten, kvCacheGroups := groups }

/-! ### One region for each spec -/

/-- The largest group's bytes per block (`_get_kv_cache_bytes_per_block`, without shared slots). -/
def bytesPerBlock : Nat :=
  ((groups.map fun g => ((layerSpecs g).map LayerSpec.pageSize).sum).max?).getD 0

variable (layout : KVCacheLayout)

def validateKvCacheLayout (groups : List KVCacheGroupSpec) : Except Err Unit := do
  ensure (∀ g ∈ groups, ∀ name ∈ g.layerNames, (g.perLayerSpec name).isSome) .keyError
  let pageSizes ← (groups.flatMap layerSpecs).mapM LayerSpec.pageSizeBytes
  ensure (pageSizes.dedup.length = 1 ∨ layout.isBlockCompact ∧ ¬(1 < groups.length ∧ layout.isLayerCompact))
    (.valueError ("KV cache layout cannot express this model's mixed page sizes; a backend should " ++
      "declare block-outermost supported layouts (e.g. BLHNC), or set VLLM_KV_CACHE_LAYOUT=BLHNC."))

def layersBySpec : List (LayerSpec × List LayerName) :=
  if g.layerNames = [] then []
  else match g.kvCacheSpec with
    | .single s => [(s, g.layerNames)]
    | .uniformType _ specs => (Dict.groupBy Prod.snd Prod.fst specs).entries

/-- A set of same-shaped layers with the bytes that stand before it in a block. -/
structure Region where
  spec : LayerSpec
  layers : List LayerName
  byteOffset : Nat

def Region.bytes (r : Region) : Nat := r.layers.length * r.spec.pageSize

def regionsFrom (byteOffset : Nat) : List (LayerSpec × List LayerName) → List Region
  | [] => []
  | (spec, layers) :: l => ⟨spec, layers, byteOffset⟩ :: regionsFrom (byteOffset + layers.length * spec.pageSize) l

def placeRegion (interleavedBlockStride : Option Nat) (size numBlocks : Nat) (r : Region) :
    Except Err KVCacheTensor := do
  let strides ← computeLayoutStrides r.spec numBlocks r.layers.length layout (fixedStrides none interleavedBlockStride)
  ensure (r.spec.pageSize ≠ 0) (.runtimeError "integer division by zero")
  pure {
    size
    layers := r.layers
    layerStride := strides .L
    blockStride := strides .B
    offset := r.byteOffset * max (strides .L) r.spec.pageSize / r.spec.pageSize }

def regionConfig (numGpuBlocksOverride : Option Nat) (groups : List KVCacheGroupSpec) (availableMemory : Nat) :
    Except Err KVCacheConfig := do
  validateKvCacheLayout layout groups
  let bytesPerBlock := bytesPerBlock groups
  ensure (0 < bytesPerBlock) (.assertionError "bytes_per_block > 0")
  let interleavedBlockStride := if layout.isBlockOutermost then some bytesPerBlock else none
  let numBlocks ← numBlocksFor numGpuBlocksOverride availableMemory bytesPerBlock
  let size := bytesPerBlock * numBlocks
  let tensors ← (groups.flatMap fun g => regionsFrom 0 (layersBySpec g)).mapM
    (placeRegion layout interleavedBlockStride size numBlocks)
  pure { numBlocks, kvCacheTensors := tensors, kvCacheGroups := groups }

def getKvCacheConfigFromGroups (numGpuBlocksOverride : Option Nat) (groups : List KVCacheGroupSpec)
    (availableMemory : Nat) : Except Err KVCacheConfig :=
  if groups = [] then .ok { numBlocks := 1, kvCacheTensors := [], kvCacheGroups := [] }
  else do
    match ← sharedSlots groups with
    | some slots => sharedSlotConfig numGpuBlocksOverride groups availableMemory slots
    | none => regionConfig layout numGpuBlocksOverride groups availableMemory

/-! ### The layout -/

def allLayouts : List KVCacheLayout := [.LBHNC, .LBNHC, .LHBNC, .BLHNC, .BLNHC, .BHLNC]

/-- `_get_common_kv_cache_layouts`: the layouts in every list, those that most lists prefer first. -/
def getCommonKvCacheLayouts (supported : List (List KVCacheLayout)) : Except Err (List KVCacheLayout) :=
  match supported with
  | [] => .error .indexError
  | first :: rest =>
    if ∀ l ∈ rest, l = first then .ok first
    else
      let priority (l : KVCacheLayout) := supported.countP fun ls => ls.head? = some l
      let candidates := (allLayouts.filter fun l => supported.all fun ls => l ∈ ls).mergeSort fun a b =>
        decide (priority b ≤ priority a)
      if candidates = [] then .error (.valueError "No KV cache layout satisfies every supported set")
      else .ok candidates

/-- The sizes by which specs must agree unless every page is one run of bytes. -/
def hncShape (s : LayerSpec) : Nat × Nat × Nat := (s.numHeads, s.numStates, s.pageSize)

/-- What a resolution reads besides the specs: the layouts that the workers support, whether they are
stages of a pipeline, the requested layout and the connector's preference. -/
structure LayoutRequest where
  supportedLayouts : List (List KVCacheLayout)
  pipelineParallelSize : Nat := 1
  requested : Option KVCacheLayout := none
  connector : Option KVCacheLayout := none

/-- `resolve_kv_cache_layout`, where none has been recorded yet. -/
def resolveKvCacheLayout (req : LayoutRequest) (specs : List LayerSpec) : Except Err KVCacheLayout := do
  ensure (req.supportedLayouts ≠ [] ∧ ∀ l ∈ req.supportedLayouts, l ≠ [])
    (.assertionError "No worker reported supported KV cache layouts.")
  ensure ((∀ l ∈ req.supportedLayouts, some l = req.supportedLayouts.head?) ∨ 1 < req.pipelineParallelSize)
    (.assertionError "Workers disagree on supported KV cache layouts")
  let common ← getCommonKvCacheLayouts req.supportedLayouts
  let _ ← specs.mapM LayerSpec.pageSizeBytes
  let candidates := if 1 < (specs.map hncShape).dedup.length then common.filter KVCacheLayout.isBlockCompact else common
  match candidates with
  | [] => .error (.valueError
      "Specs with mixed HNC shapes need a block-compact layout, but none is in every supported set")
  | first :: _ => match req.requested, req.connector with
    | some layout, _ =>
      if layout ∈ candidates then pure layout
      else .error (.valueError "VLLM_KV_CACHE_LAYOUT does not satisfy every supported set")
    | none, some layout => pure (if layout ∈ candidates then layout else first)
    | none, none => pure first

end MemoryPlan

end VllmCore
