import VllmCore.Core.Spec

/-! # The specs of single layers

The spec classes of `kv_cache_interface.py` with all the fields that grouping and memory planning read:
a dataclass becomes a constructor with its own fields, `isinstance` a predicate that holds of the
subclasses too. `is_draft` is excluded from comparisons and is kept beside the specs, in the
configuration. The class constants of the source (`head_size_v = 0` of the latent caches, the single head
and single state of a Mamba page) are no fields here. -/

namespace VllmCore
open Except

abbrev LayerName := Nat

structure Dtype where
  name : String
  itemsize : Nat
deriving DecidableEq, Repr

inductive KVQuantMode where
  | none
  | fp8PerTensor
  | int8PerTokenHead
  | fp8PerTokenHead
  | int4PerTokenHead
  | nvfp4
  | turboquantK8v4
  | turboquant4bitNc
  | turboquantK3v4Nc
  | turboquant3bitNc
  | nvfp4DsMla
deriving DecidableEq, Repr

inductive MambaType where
  | mamba1
  | mamba2
  | shortConv
  | linear
  | gdnAttn
  | custom
deriving DecidableEq, Repr

/-- Tokens covered by one stored state, `num / den` in lowest terms: an integer, or a fraction below one
where a token has several states. -/
structure TokensPerState where
  num : Nat := 1
  den : Nat := 1
  num_pos : 0 < num := by first | exact Nat.one_pos | decide
  den_pos : 0 < den := by first | exact Nat.one_pos | decide
deriving Repr

instance : DecidableEq TokensPerState := fun s t =>
  decidable_of_iff (s.num = t.num ∧ s.den = t.den) (by cases s; cases t; simp)

def roundUp (x y : Nat) : Nat := (x + y - 1) / y * y

/-! ### Layouts -/

/-- The axes of the logical shape: layers, blocks, heads, states, content. -/
inductive Axis where
  | L | B | H | N | C
deriving DecidableEq, Repr

/-- The layouts of `kv_cache_layout.py`, named by their physical order of the axes. -/
inductive KVCacheLayout where
  | LBHNC | LBNHC | LHBNC | BLHNC | BLNHC | BHLNC
deriving DecidableEq, Repr

namespace KVCacheLayout

def strideOrder : KVCacheLayout → List Axis
  | .LBHNC => [.L, .B, .H, .N, .C]
  | .LBNHC => [.L, .B, .N, .H, .C]
  | .LHBNC => [.L, .H, .B, .N, .C]
  | .BLHNC => [.B, .L, .H, .N, .C]
  | .BLNHC => [.B, .L, .N, .H, .C]
  | .BHLNC => [.B, .H, .L, .N, .C]

def isLayerCompact (l : KVCacheLayout) : Bool := l.strideOrder.head? = some .L
def isBlockCompact (l : KVCacheLayout) : Bool :=
  l.strideOrder.take 2 = [.L, .B] || l.strideOrder.take 2 = [.B, .L]
def isBlockOutermost (l : KVCacheLayout) : Bool := l.strideOrder.head? = some .B

end KVCacheLayout

/-! ### Fields -/

/-- The compared fields of `AttentionSpec`. -/
structure AttentionSpec where
  blockSize : Nat
  numKvHeads : Nat
  headSize : Nat
  headSizeV : Nat
  dtype : Dtype
  kvQuantMode : KVQuantMode := .none
  pageSizePadded : Option Nat := none
  numHeadSlots : Option Nat := none
  stateContentBytes : Option Nat := none
  tokensPerState : TokensPerState := {}
deriving DecidableEq, Repr

namespace AttentionSpec

def numHeads (a : AttentionSpec) : Nat := a.numHeadSlots.getD a.numKvHeads

def numStates (a : AttentionSpec) : Nat := a.blockSize * a.tokensPerState.den / a.tokensPerState.num

def stateContentSizeBytes (a : AttentionSpec) : Nat :=
  a.stateContentBytes.getD ((a.headSize + a.headSizeV) * a.dtype.itemsize)

def unpaddedPageSizeBytes (a : AttentionSpec) : Nat := a.numHeads * a.numStates * a.stateContentSizeBytes

end AttentionSpec

structure FullFields where
  slidingWindow : Option Nat := none
  attentionChunkSize : Option Nat := none
  nonCausal : Bool := false
deriving DecidableEq, Repr

structure MlaFields where
  cacheDtypeStr : Option String := none
  alignment : Option Nat := none
  modelVersion : Option String := none
  storageBlockSize : Option Nat := none
  nonCausalMultiTokenDecode : Bool := false
deriving DecidableEq, Repr

structure WindowFields where
  slidingWindow : Nat
  extraRetainedTokens : Nat := 0
deriving DecidableEq, Repr

structure WindowMlaFields where
  cacheDtypeStr : Option String := none
  alignment : Option Nat := none
  modelVersion : Option String := none
deriving DecidableEq, Repr

/-- The subclasses of `AttentionSpec`, with the fields each adds. -/
inductive AttentionClass where
  | fullAttention (full : FullFields)
  | mla (full : FullFields) (mla : MlaFields)
  | hiddenState (full : FullFields) (mla : MlaFields)
  | rswa (full : FullFields) (rswaWindow : Nat)
  | sinkFullAttention (full : FullFields) (sinkLen : Option Nat)
  | chunkedLocal (attentionChunkSize : Nat)
  | slidingWindow (window : WindowFields)
  | slidingWindowMla (window : WindowFields) (mla : WindowMlaFields)
  | kpoolTail (window : WindowFields)
  | circularBuffer
  | encoderOnly
  | crossAttention
deriving DecidableEq, Repr

namespace AttentionClass

def isLatent : AttentionClass → Bool
  | .mla .. | .hiddenState .. | .slidingWindowMla .. => true
  | _ => false

/-- The fields of `FullAttentionSpec`, if the class is one of its subclasses. -/
def full? : AttentionClass → Option FullFields
  | .fullAttention f | .mla f _ | .hiddenState f _ | .rswa f _ | .sinkFullAttention f _ => some f
  | _ => none

def mla? : AttentionClass → Option MlaFields
  | .mla _ m | .hiddenState _ m => some m
  | _ => none

def window? : AttentionClass → Option WindowFields
  | .slidingWindow w | .slidingWindowMla w _ | .kpoolTail w => some w
  | _ => none

def alignment : AttentionClass → Option Nat
  | .mla _ m | .hiddenState _ m => m.alignment
  | .slidingWindowMla _ m => m.alignment
  | _ => none

end AttentionClass

structure AttentionLayer where
  fields : AttentionSpec
  cls : AttentionClass
  /-- there is no separate V beside a latent vector -/
  noV : cls.isLatent → fields.headSizeV = 0 := by simp [AttentionClass.isLatent]
deriving DecidableEq

structure MambaLayer where
  blockSize : Nat
  shapes : List (List Nat)
  dtypes : List Dtype
  pageSizePadded : Option Nat := none
  mambaType : MambaType := .mamba2
  mambaCacheMode : MambaCacheMode := .none
  numSpeculativeBlocks : Nat := 0
  numPrefillCheckpointBlocks : Nat := 0
  prefillCheckpointAlignment : Option Nat := none
  tpReplicated : Bool := false
deriving DecidableEq, Repr

def MambaLayer.stateContentSizeBytes (m : MambaLayer) : Nat :=
  ((m.shapes.zip m.dtypes).map fun e => e.1.prod * e.2.itemsize).sum

inductive LayerSpec where
  | attention (a : AttentionLayer)
  | mamba (m : MambaLayer)
deriving DecidableEq

/-- The specs of a model's layers, in registration order. -/
abbrev LayerSpecs := List (LayerName × LayerSpec)

/-- The class that a spec is registered under for grouping (`uniform_type_base_spec`). -/
inductive UniformTypeBase where
  | fullAttention
  | slidingWindow
  | circularBuffer
  | slidingWindowMla
  | kpoolTail
  | mamba
  | chunkedLocal
  | crossAttention
deriving DecidableEq, Repr

namespace LayerSpec

def blockSize : LayerSpec → Nat
  | .attention a => a.fields.blockSize
  | .mamba m => m.blockSize

def numHeads : LayerSpec → Nat
  | .attention a => a.fields.numHeads
  | .mamba _ => 1

def numStates : LayerSpec → Nat
  | .attention a => a.fields.numStates
  | .mamba _ => 1

def stateContentSizeBytes : LayerSpec → Nat
  | .attention a => a.fields.stateContentSizeBytes
  | .mamba m => m.stateContentSizeBytes

def pageSizePadded : LayerSpec → Option Nat
  | .attention a => a.fields.pageSizePadded
  | .mamba m => m.pageSizePadded

/-- `real_page_size_bytes`, `unpadded_page_size_bytes`. -/
def realPageSizeBytes : LayerSpec → Nat
  | .attention a => a.fields.unpaddedPageSizeBytes
  | .mamba m => m.stateContentSizeBytes

variable (s : LayerSpec)

def pageSize : Nat := s.pageSizePadded.getD s.realPageSizeBytes

/-- `page_size_bytes`: reading it asserts that the padding holds the content. -/
def pageSizeBytes : Except Err Nat := do
  ensure (∀ p ∈ s.pageSizePadded, s.realPageSizeBytes ≤ p)
    (.assertionError "self.page_size_padded >= self.unpadded_page_size_bytes")
  pure s.pageSize

def cls? : LayerSpec → Option AttentionClass
  | .attention a => some a.cls
  | .mamba _ => none

def fields? : LayerSpec → Option AttentionSpec
  | .attention a => some a.fields
  | .mamba _ => none

def full? (s : LayerSpec) : Option FullFields := s.cls?.bind AttentionClass.full?
def mla? (s : LayerSpec) : Option MlaFields := s.cls?.bind AttentionClass.mla?
def window? (s : LayerSpec) : Option WindowFields := s.cls?.bind AttentionClass.window?

def tokensPerState? : Option TokensPerState := s.fields?.map AttentionSpec.tokensPerState

def isMamba : LayerSpec → Bool
  | .mamba _ => true
  | .attention _ => false

def isHiddenState : Bool := s.cls?.any fun | .hiddenState .. => true | _ => false
def isKpoolTail : Bool := s.cls?.any fun | .kpoolTail _ => true | _ => false
def isCircularBuffer : Bool := s.cls?.any fun | .circularBuffer => true | _ => false
def isSlidingWindowMla : Bool := s.cls?.any fun | .slidingWindowMla .. => true | _ => false
def isChunkedLocal : Bool := s.cls?.any fun | .chunkedLocal _ => true | _ => false

/-- `type(spec) is MLAAttentionSpec`. -/
def isExactlyMla : Bool := s.cls?.any fun | .mla .. => true | _ => false

/-- `KVCacheSpecRegistry.get_uniform_type_base_spec`; encoder-only layers are not registered. -/
def uniformTypeBase : LayerSpec → Option UniformTypeBase
  | .mamba _ => some .mamba
  | .attention a => match a.cls with
    | .fullAttention _ | .mla .. | .hiddenState .. | .rswa .. | .sinkFullAttention .. => some .fullAttention
    | .chunkedLocal _ => some .chunkedLocal
    | .slidingWindow _ => some .slidingWindow
    | .slidingWindowMla .. => some .slidingWindowMla
    | .kpoolTail _ => some .kpoolTail
    | .circularBuffer => some .circularBuffer
    | .crossAttention => some .crossAttention
    | .encoderOnly => none

end LayerSpec

/-! ### `dataclasses.replace` -/

/-- The constructor of an attention spec: `__post_init__` pads a latent page to its alignment. -/
def AttentionLayer.build (fields : AttentionSpec) (cls : AttentionClass)
    (noV : cls.isLatent → fields.headSizeV = 0) : AttentionLayer :=
  match cls.alignment with
  | none => ⟨fields, cls, noV⟩
  | some alignment =>
    let padded := roundUp fields.unpaddedPageSizeBytes alignment
    if padded = fields.unpaddedPageSizeBytes then ⟨fields, cls, noV⟩
    else ⟨{ fields with pageSizePadded := some padded }, cls, noV⟩

namespace LayerSpec

def withBlockSize (b : Nat) : LayerSpec → LayerSpec
  | .attention a => .attention (.build { a.fields with blockSize := b } a.cls a.noV)
  | .mamba m => .mamba { m with blockSize := b }

def withPageSizePadded (p : Nat) : LayerSpec → LayerSpec
  | .attention a => .attention (.build { a.fields with pageSizePadded := some p } a.cls a.noV)
  | .mamba m => .mamba { m with pageSizePadded := some p }

/-! ### `merge` -/

def mergeEqual (first : LayerSpec) (rest : List LayerSpec) : Except Err LayerSpec := do
  ensure (∀ s ∈ rest, s = first)
    (.assertionError "All layers in the same KV cache group must be the same.")
  pure first

def mergeWindowSizes (windowSizes : List Nat) : Except Err (Option Nat) :=
  match windowSizes.dedup with
  | [] => .ok none
  | [w] => .ok (some w)
  | _ => .error (.valueError
      "All attention layers in the same KV cache group must have the same window size.")

/-- What the merges of the full-attention classes share: all attention fields must be those of `merged`,
windows and chunk sizes must not conflict. -/
def mergeFull (merged : AttentionSpec) (specs : List LayerSpec) : Except Err FullFields := do
  ensure (∀ s ∈ specs, s.full?.isSome)
    (.assertionError "All attention layers in the same KV cache group must be FullAttentionSpec.")
  ensure (∀ s ∈ specs, s.mla?.isNone)
    (.assertionError "MLAAttentionSpec should be merged in MLAAttentionSpec.merge")
  let full := specs.filterMap full?
  let slidingWindow ← mergeWindowSizes (full.filterMap FullFields.slidingWindow)
  let attentionChunkSize ← mergeWindowSizes (full.filterMap FullFields.attentionChunkSize)
  ensure (∀ s ∈ specs, s.fields? = some merged)
    (.assertionError "All attention layers in the same KV cache group must have the same attention spec.")
  ensure (¬(slidingWindow.isSome ∧ attentionChunkSize.isSome))
    (.assertionError "Model with both sliding window layers and chunked local attention layers is not supported.")
  pure { slidingWindow, attentionChunkSize, nonCausal := full.any FullFields.nonCausal }

def mergeMla (fields : AttentionSpec) (mla : MlaFields) (specs : List LayerSpec) : Except Err MlaFields := do
  ensure (∀ s ∈ specs, s.mla?.isSome)
    (.assertionError "All attention layers in the same KV cache group must be MLAAttentionSpec.")
  let mlas := specs.filterMap mla?
  ensure ((∀ m ∈ mlas, m.cacheDtypeStr = mla.cacheDtypeStr ∧ m.modelVersion = mla.modelVersion ∧
      m.storageBlockSize = mla.storageBlockSize) ∧ ∀ s ∈ specs, s.tokensPerState? = some fields.tokensPerState)
    (.assertionError ("All attention layers in the same KV cache group must use the same quantization method, " ++
      "tokens per state, model version, and storage block size."))
  ensure (∀ s ∈ specs, s.fields? = some fields)
    (.assertionError "All attention layers in the same KV cache group must have the same attention spec.")
  pure {
    cacheDtypeStr := mla.cacheDtypeStr
    modelVersion := mla.modelVersion
    storageBlockSize := mla.storageBlockSize
    nonCausalMultiTokenDecode := mlas.any MlaFields.nonCausalMultiTokenDecode }

/-- `RSWASpec.merge`, before it delegates to its parent. -/
def checkRswa (rswaWindow : Nat) (specs : List LayerSpec) : Except Err Unit := do
  let windows := specs.map fun s => s.cls?.bind fun | .rswa _ w => some w | _ => none
  ensure (∀ w ∈ windows, w.isSome)
    (.assertionError "All attention layers in the same KV cache group must be RSWASpec.")
  ensure (∀ w ∈ windows, w = some rswaWindow)
    (.assertionError "All R-SWA layers must share the same rswa_window")

/-- The checks of `SlidingWindowMLASpec.merge`. The attention fields are not compared. -/
def checkWindowMla (fields : AttentionSpec) (window : WindowFields) (mla : WindowMlaFields)
    (specs : List LayerSpec) : Except Err Unit := do
  let members := specs.map fun s => s.cls?.bind fun | .slidingWindowMla w m => some (w, m) | _ => none
  ensure (∀ e ∈ members, e.isSome)
    (.assertionError "All attention layers in the same KV cache group must be SlidingWindowMLASpec.")
  ensure ((∀ e ∈ members, ∀ m ∈ e, m.1 = window ∧ m.2.cacheDtypeStr = mla.cacheDtypeStr ∧
      m.2.modelVersion = mla.modelVersion) ∧ ∀ s ∈ specs, s.tokensPerState? = some fields.tokensPerState)
    (.assertionError ("All attention layers in the same KV cache group must use the same quantization method, " ++
      "tokens per state, model version, sliding window size, and retained token count."))

/-- `type(first).merge([first, *rest])`. -/
def merge (first : LayerSpec) (rest : List LayerSpec) : Except Err LayerSpec :=
  let specs := first :: rest
  match first with
  | .mamba _ => mergeEqual first rest
  | .attention ⟨fields, cls, noV⟩ => match cls with
    | .fullAttention _ => do
      let full ← mergeFull fields specs
      pure (.attention { fields, cls := .fullAttention full })
    | .rswa _ rswaWindow => do
      checkRswa rswaWindow specs
      let full ← mergeFull fields specs
      pure (.attention { fields, cls := .rswa full rswaWindow })
    | .sinkFullAttention _ sinkLen => do
      -- `tokens_per_state` is left at its default here
      let fields := { fields with tokensPerState := {} }
      let full ← mergeFull fields specs
      pure (.attention { fields, cls := .sinkFullAttention full sinkLen })
    | .mla _ m => do
      let mla ← mergeMla fields m specs
      pure (.attention { fields, cls := .mla {} mla, noV })
    | .hiddenState _ m => do
      let mla ← mergeMla fields m specs
      pure (.attention { fields, cls := .hiddenState {} mla, noV })
    | .slidingWindowMla w m => do
      checkWindowMla fields w m specs
      pure (.attention {
        fields := { fields with kvQuantMode := .none }
        cls := .slidingWindowMla w { m with alignment := none }
        noV })
    | _ => mergeEqual first rest

/-! ### Uniform types -/

def isUniformWithCollection (self : LayerSpec) (specs : List LayerSpec) : Except Err Bool :=
  match self with
  | .mamba m => specs.allM fun
    | .mamba m' =>
      if m'.numSpeculativeBlocks = m.numSpeculativeBlocks ∧
          m'.numPrefillCheckpointBlocks = m.numPrefillCheckpointBlocks ∧
          m'.prefillCheckpointAlignment = m.prefillCheckpointAlignment then do
        let page ← (LayerSpec.mamba m').pageSizeBytes
        let page' ← (LayerSpec.mamba m).pageSizeBytes
        pure (page == page' && m'.tpReplicated == m.tpReplicated)
      else pure false
    | .attention _ => pure false
  | .attention a => match a.cls with
    | .chunkedLocal c => pure (specs.all fun s => s.cls? = some (.chunkedLocal c))
    | .slidingWindow w => pure (specs.all fun s => s.window?.map WindowFields.slidingWindow = some w.slidingWindow)
    | .slidingWindowMla w _ => pure (specs.all fun s =>
        s.isSlidingWindowMla && s.window?.map WindowFields.slidingWindow = some w.slidingWindow)
    | .kpoolTail _ => pure (specs.all isKpoolTail)
    | .circularBuffer => pure (specs.all isCircularBuffer)
    | .crossAttention => pure (specs.all fun s => s.cls? = some .crossAttention)
    | .encoderOnly => .error (.assertionError "Unsupported KV cache spec type")
    | .fullAttention _ | .mla .. | .hiddenState .. | .rswa .. | .sinkFullAttention .. =>
      pure (specs.all fun s => s.full?.isSome)

def isUniformType (specs : List LayerSpec) : Except Err Bool :=
  match specs with
  | [] => .error (.runtimeError "StopIteration")
  | first :: rest =>
    if ∀ s ∈ rest, s.blockSize = first.blockSize then isUniformWithCollection first specs else .ok false

end LayerSpec

end VllmCore
