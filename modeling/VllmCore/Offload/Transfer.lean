import VllmCore.Core.Request

/-! # The copies of one transfer

`SingleDirectionOffloadingHandler.transfer_async` of `gpu_worker.py`. A CPU chunk holds
`blocksPerChunk` sub-blocks of the size of a GPU block, and a transfer is a flat list of ids on each
side, cut into KV-cache groups. What the worker computes are byte addresses; `transferMoves` says which
sub-block goes where, and `transferAsync_eq` that the addresses are those of the moves. -/

namespace VllmCore.Offload
open Except List

/-! ### Addresses -/

structure SubBlock where
  row : Nat
  sub : Nat
deriving DecidableEq, Repr

/-- The sub-blocks of `rows`, without the first `skip`, at most `count` of them. -/
def subBlocks (rows : List Nat) (perRow skip count : Nat) : List SubBlock :=
  ((rows.flatMap fun r => (List.range perRow).map (SubBlock.mk r)).drop skip).take count

/-- A two-dimensional tensor of bytes: `data_ptr()`, `stride(0)` and `shape[1]`. -/
structure Tensor where
  dataPtr : Nat
  rowStride : Nat
  rowSize : Nat
deriving DecidableEq, Repr

def Tensor.ptr (t : Tensor) (perRow : Nat) (s : SubBlock) : Nat :=
  t.dataPtr + s.row * t.rowStride + s.sub * (t.rowSize / perRow)

/-- `output[:] = values`: a single value is broadcast. -/
def assignAll (numOutputs : Nat) (values : List Nat) : Except Err (List Nat) :=
  if values.length = numOutputs then .ok values
  else match values with
    | [v] => .ok (List.replicate numOutputs v)
    | _ => .error (.valueError "could not broadcast input array")

def computeSubBlockPtrs (blockIds : List Nat) (blocksPerChunk numSubBlocks : Nat) (t : Tensor)
    (skipCount : Nat) : Except Err (List Nat) :=
  if ¬ skipCount < blocksPerChunk then .error (.assertionError "skip_count < blocks_per_chunk")
  else if blocksPerChunk = 1 then
    assignAll numSubBlocks ((blockIds.take numSubBlocks).map fun b => t.dataPtr + b * t.rowStride)
  else if t.rowSize % blocksPerChunk ≠ 0 then
    .error (.assertionError "tensor.shape[1] % blocks_per_chunk == 0")
  else
    let blockPageSize := t.rowSize / blocksPerChunk
    let flat := blockIds.flatMap fun b =>
      (List.range blocksPerChunk).map fun j => t.dataPtr + b * t.rowStride + j * blockPageSize
    assignAll numSubBlocks ((flat.drop skipCount).take numSubBlocks)

def canonicalPageIds (blockIds : List Nat) (blocksPerChunk count skipCount : Nat) : List Nat :=
  if blocksPerChunk = 1 then blockIds.take count
  else ((blockIds.flatMap fun b => (List.range blocksPerChunk).map fun j => b * blocksPerChunk + j).drop
    skipCount).take count

/-! ### The handler -/

structure CopyRun where
  numFragments : Nat
  localOffset : Nat
  localStride : Nat
  canonicalOffset : Nat
  canonicalStride : Nat
  fragmentSize : Nat
deriving DecidableEq, Repr

structure CanonicalPageMapping where
  runs : List CopyRun
  numWriters : Nat
  writerIndex : Nat
deriving DecidableEq, Repr

/-- `CanonicalKVCacheRef`: one layer's data in a tensor. -/
structure DataRef where
  tensorIdx : Nat
  pageSizeBytes : Nat
  mapping : Option CanonicalPageMapping := none
deriving DecidableEq, Repr

/-- One entry of a `CopyPlan`: offsets from the base addresses of a block on the two sides. -/
structure Fragment where
  src : Nat
  dst : Nat
  size : Nat
deriving DecidableEq, Repr

def CanonicalPageMapping.copyPlan (m : CanonicalPageMapping) (gpuToCpu : Bool) : List Fragment :=
  m.runs.flatMap fun run => (List.range run.numFragments).map fun i =>
    let ofLocal := run.localOffset + i * run.localStride
    let canonical := run.canonicalOffset + i * run.canonicalStride
    if gpuToCpu then ⟨ofLocal, canonical, run.fragmentSize⟩ else ⟨canonical, ofLocal, run.fragmentSize⟩

structure CopyOp where
  src : Nat
  dst : Nat
  size : Nat
deriving DecidableEq, Repr

/-- `SingleDirectionOffloadingHandler`, with what its constructor asserts. -/
structure Handler where
  gpuTensors : List Tensor
  cpuTensors : List Tensor
  blocksPerChunk : Nat
  layerRefsPerGroup : List (List DataRef)
  gpuToCpu : Bool
  canonicalLayout : Bool := false
  blocksPerChunk_pos : 0 < blocksPerChunk
  tensors_length : gpuTensors.length = cpuTensors.length
  /-- a CPU row is `blocksPerChunk` pages of the GPU, or of the canonical layout -/
  cpuRows : ∀ t ∈ cpuTensors, t.rowSize % blocksPerChunk = 0
  refs_tensor : ∀ refs ∈ layerRefsPerGroup, ∀ ref ∈ refs, ref.tensorIdx < gpuTensors.length
  /-- `_build_copy_plan` asserts the mapping of every ref -/
  refs_mapping : canonicalLayout = true → ∀ refs ∈ layerRefsPerGroup, ∀ ref ∈ refs, ref.mapping.isSome

namespace Handler
variable (h : Handler)

def srcTensors : List Tensor := if h.gpuToCpu then h.gpuTensors else h.cpuTensors

def dstTensors : List Tensor := if h.gpuToCpu then h.cpuTensors else h.gpuTensors

def srcBlocksPerChunk : Nat := if h.gpuToCpu then 1 else h.blocksPerChunk

def dstBlocksPerChunk : Nat := if h.gpuToCpu then h.blocksPerChunk else 1

structure GroupSlice where
  src : List Nat
  dst : List Nat
  size : Nat
  srcSkip : Nat
  dstSkip : Nat

/-- The base addresses of the group's blocks in the tensors of `ref`. -/
def basePtrs (ref : DataRef) (s : GroupSlice) : Except Err (List Nat × List Nat) :=
  match h.srcTensors[ref.tensorIdx]?, h.dstTensors[ref.tensorIdx]? with
  | some srcTensor, some dstTensor => do
    let src ← computeSubBlockPtrs s.src h.srcBlocksPerChunk s.size srcTensor s.srcSkip
    let dst ← computeSubBlockPtrs s.dst h.dstBlocksPerChunk s.size dstTensor s.dstSkip
    pure (src, dst)
  | _, _ => .error .indexError

/-- The round of `_fill_direct_ops` for one ref: whole pages. -/
def fillDirectRef (s : GroupSlice) (ref : DataRef) : Except Err (List CopyOp) := do
  let (src, dst) ← h.basePtrs ref s
  pure ((src.zip dst).map fun p => ⟨p.1, p.2, ref.pageSizeBytes⟩)

/-- `_filter_writer_blocks`, applied where the ranks take turns. -/
def filterWriterBlocks (m : CanonicalPageMapping) (s : GroupSlice) (bases : List (Nat × Nat)) : List (Nat × Nat) :=
  if h.gpuToCpu ∧ m.numWriters > 1 then
    ((bases.zip (canonicalPageIds s.dst h.dstBlocksPerChunk s.size s.dstSkip)).filter fun e =>
      e.2 % m.numWriters = m.writerIndex).map Prod.fst
  else bases

/-- The round of `_fill_canonical_ops` for one ref: the fragments of the blocks this rank writes. -/
def fillCanonicalRef (s : GroupSlice) (ref : DataRef) : Except Err (List CopyOp) :=
  match ref.mapping with
  | none => .error (.assertionError "mapping is not None")
  | some m =>
    let plan := m.copyPlan h.gpuToCpu
    if plan.length = 0 then .ok []
    else do
      let (src, dst) ← h.basePtrs ref s
      pure ((h.filterWriterBlocks m s (src.zip dst)).flatMap fun p =>
        plan.map fun f => ⟨p.1 + f.src, p.2 + f.dst, f.size⟩)

def fillGroupOps (refs : List DataRef) (s : GroupSlice) : Except Err (List CopyOp) := do
  let ops ← refs.mapM (if h.canonicalLayout then h.fillCanonicalRef s else h.fillDirectRef s)
  pure ops.flatten

/-- The loop of `transfer_async` over the groups, from the two offsets on. -/
def transferGroups (h : Handler) (srcBlocks dstBlocks : List Nat) :
    List (List DataRef × Nat × Nat) → Nat → Nat → Except Err (List CopyOp)
  | [], srcOffset, dstOffset =>
    if srcOffset ≠ srcBlocks.length then .error (.assertionError "src_offset == num_src_blocks")
    else if dstOffset ≠ dstBlocks.length then .error (.assertionError "dst_offset == num_dst_blocks")
    else .ok []
  | (refs, groupSize, blockIdx) :: rest, srcOffset, dstOffset =>
    if groupSize = 0 then transferGroups h srcBlocks dstBlocks rest srcOffset dstOffset
    else
      let srcSkip := blockIdx % h.srcBlocksPerChunk
      let dstSkip := blockIdx % h.dstBlocksPerChunk
      let dstEndOffset := dstOffset + cdiv (groupSize + dstSkip) h.dstBlocksPerChunk
      let srcEndOffset := srcOffset + cdiv (groupSize + srcSkip) h.srcBlocksPerChunk
      if dstEndOffset > dstBlocks.length then .error (.assertionError "dst_end_offset <= num_dst_blocks")
      else if srcEndOffset > srcBlocks.length then .error (.assertionError "src_end_offset <= num_src_blocks")
      else do
        let ops ← h.fillGroupOps refs
          { src := (srcBlocks.drop srcOffset).take (srcEndOffset - srcOffset)
            dst := (dstBlocks.drop dstOffset).take (dstEndOffset - dstOffset)
            size := groupSize, srcSkip, dstSkip }
        let more ← transferGroups h srcBlocks dstBlocks rest srcEndOffset dstEndOffset
        pure (ops ++ more)

end Handler

structure GPULoadStoreSpec where
  blockIds : List Nat
  groupSizes : List Nat
  blockIndices : List Nat
  groupSizes_sum : groupSizes.sum = blockIds.length
  blockIndices_length : blockIndices.length = groupSizes.length

/-- The spec of a list of groups, each with its ids and the logical index of the first. -/
def GPULoadStoreSpec.ofGroups (groups : List (List Nat × Nat)) : GPULoadStoreSpec where
  blockIds := groups.flatMap Prod.fst
  groupSizes := groups.map fun g => g.1.length
  blockIndices := groups.map Prod.snd
  groupSizes_sum := by simp [length_flatMap]
  blockIndices_length := by simp

/-- The id lists of the two sides of a transfer between GPU blocks and CPU chunks. -/
def Handler.transferAsync (h : Handler) (gpuSpec : GPULoadStoreSpec) (chunkIds : List Nat) : Except Err (List CopyOp) :=
  if gpuSpec.groupSizes.length ≠ h.layerRefsPerGroup.length then
    .error (.assertionError "len(group_sizes) == len(self.layer_refs_per_group)")
  else
    h.transferGroups (if h.gpuToCpu then gpuSpec.blockIds else chunkIds)
      (if h.gpuToCpu then chunkIds else gpuSpec.blockIds)
      (h.layerRefsPerGroup.zip (gpuSpec.groupSizes.zip gpuSpec.blockIndices)) 0 0

/-! ### The moves behind the addresses -/

structure Move where
  src : SubBlock
  dst : SubBlock
deriving DecidableEq, Repr

def groupMoves (srcPer dstPer : Nat) (src dst : List Nat) (size blockIdx : Nat) : List Move :=
  ((subBlocks src srcPer (blockIdx % srcPer) size).zip (subBlocks dst dstPer (blockIdx % dstPer) size)).map
    fun p => ⟨p.1, p.2⟩

/-- The moves of every group, each taken from the front of what the groups before it have left; nothing
when an assertion fails. -/
def transferMoves (srcPer dstPer : Nat) : List (Nat × Nat) → List Nat → List Nat → Option (List (List Move))
  | [], src, dst => if src = [] ∧ dst = [] then some [] else none
  | (size, blockIdx) :: rest, src, dst =>
    if size = 0 then (transferMoves srcPer dstPer rest src dst).map ([] :: ·)
    else
      let srcCount := cdiv (size + blockIdx % srcPer) srcPer
      let dstCount := cdiv (size + blockIdx % dstPer) dstPer
      if dstCount > dst.length ∨ srcCount > src.length then none
      else (transferMoves srcPer dstPer rest (src.drop srcCount) (dst.drop dstCount)).map
        (groupMoves srcPer dstPer (src.take srcCount) (dst.take dstCount) size blockIdx :: ·)

/-- Whether this rank writes the destination: replicated ranks take turns by canonical page. -/
def Handler.writes (h : Handler) (m : CanonicalPageMapping) (move : Move) : Bool :=
  !(h.gpuToCpu && decide (m.numWriters > 1)) ||
    decide ((move.dst.row * h.dstBlocksPerChunk + move.dst.sub) % m.numWriters = m.writerIndex)

/-- The descriptors of `moves` between the tensors of `ref`. -/
def Handler.refOps (h : Handler) (moves : List Move) (ref : DataRef) : List CopyOp :=
  match h.srcTensors[ref.tensorIdx]?, h.dstTensors[ref.tensorIdx]? with
  | some srcTensor, some dstTensor =>
    let src (m : Move) := srcTensor.ptr h.srcBlocksPerChunk m.src
    let dst (m : Move) := dstTensor.ptr h.dstBlocksPerChunk m.dst
    match h.canonicalLayout, ref.mapping with
    | true, some mapping => (moves.filter (h.writes mapping)).flatMap fun m =>
        (mapping.copyPlan h.gpuToCpu).map fun f => ⟨src m + f.src, dst m + f.dst, f.size⟩
    | true, none => []
    | false, _ => moves.map fun m => ⟨src m, dst m, ref.pageSizeBytes⟩
  | _, _ => []

/-! ### The addresses are those of the moves -/

theorem length_rows {perRow : Nat} (rows : List Nat) :
    (rows.flatMap fun r => (List.range perRow).map (SubBlock.mk r)).length = rows.length * perRow := by
  induction rows with
  | nil => simp
  | cons r rows ih =>
    rw [flatMap_cons, length_append, ih]
    simp [Nat.add_mul, Nat.add_comm]

theorem le_cdiv_mul {a b : Nat} (hb : 0 < b) : a ≤ cdiv a b * b := by
  have := Nat.div_add_mod (a + b - 1) b
  have := Nat.mod_lt (a + b - 1) hb
  unfold cdiv
  rw [Nat.mul_comm]
  omega

variable {rows : List Nat}

theorem length_subBlocks {perRow skip count : Nat} (hper : 0 < perRow)
    (hrows : rows.length = cdiv (count + skip) perRow) : (subBlocks rows perRow skip count).length = count := by
  have := le_cdiv_mul (a := count + skip) hper
  rw [subBlocks, length_take, length_drop, length_rows, hrows]
  omega

theorem assignAll_length {values : List Nat} {n : Nat} (h : values.length = n) :
    assignAll n values = .ok values := if_pos h

variable {t : Tensor}

theorem computeSubBlockPtrs_eq {perRow skip count : Nat} (hper : 0 < perRow) (hskip : skip < perRow)
    (hrows : rows.length = cdiv (count + skip) perRow) (ht : t.rowSize % perRow = 0) :
    computeSubBlockPtrs rows perRow count t skip = .ok ((subBlocks rows perRow skip count).map (t.ptr perRow)) := by
  have hlen := length_subBlocks hper hrows
  unfold computeSubBlockPtrs
  rw [if_neg (by omega)]
  by_cases hone : perRow = 1
  · subst hone
    obtain rfl : skip = 0 := by omega
    have heq : (rows.take count).map (fun b => t.dataPtr + b * t.rowStride) =
        (subBlocks rows 1 0 count).map (t.ptr 1) := by
      simp only [subBlocks, drop_zero, range_one, map_cons, map_nil, map_take,
        ← map_eq_flatMap, map_map]
      simp [Tensor.ptr, Function.comp_def]
    rw [if_pos rfl, heq, assignAll_length (by rw [length_map, hlen])]
  · have heq : ((rows.flatMap fun b => (List.range perRow).map fun j =>
        t.dataPtr + b * t.rowStride + j * (t.rowSize / perRow)).drop skip).take count =
        (subBlocks rows perRow skip count).map (t.ptr perRow) := by
      simp only [subBlocks, map_take, map_drop, map_flatMap, map_map]
      rfl
    rw [if_neg hone, if_neg (by omega)]
    simp only [heq]
    rw [assignAll_length (by rw [length_map, hlen])]

namespace Handler

/-- The slice of a group in a transfer, as `transfer_async` cuts it. -/
structure GroupSlice.Cut (h : Handler) (s : GroupSlice) (blockIdx : Nat) : Prop where
  srcSkip : s.srcSkip = blockIdx % h.srcBlocksPerChunk
  dstSkip : s.dstSkip = blockIdx % h.dstBlocksPerChunk
  src : s.src.length = cdiv (s.size + s.srcSkip) h.srcBlocksPerChunk
  dst : s.dst.length = cdiv (s.size + s.dstSkip) h.dstBlocksPerChunk

def sliceMoves (h : Handler) (s : GroupSlice) : List Move :=
  ((subBlocks s.src h.srcBlocksPerChunk s.srcSkip s.size).zip
    (subBlocks s.dst h.dstBlocksPerChunk s.dstSkip s.size)).map fun p => ⟨p.1, p.2⟩

variable {h : Handler} {s : GroupSlice} {blockIdx : Nat} {ref : DataRef} {ops : List CopyOp}

theorem srcBlocksPerChunk_pos (h : Handler) : 0 < h.srcBlocksPerChunk := by
  unfold srcBlocksPerChunk
  split
  · exact Nat.one_pos
  · exact h.blocksPerChunk_pos

theorem dstBlocksPerChunk_pos (h : Handler) : 0 < h.dstBlocksPerChunk := by
  unfold dstBlocksPerChunk
  split
  · exact h.blocksPerChunk_pos
  · exact Nat.one_pos

theorem srcTensors_rows (ht : t ∈ h.srcTensors) : t.rowSize % h.srcBlocksPerChunk = 0 := by
  cases hdir : h.gpuToCpu with
  | true => simp [srcBlocksPerChunk, hdir, Nat.mod_one]
  | false =>
    simp only [srcTensors, hdir] at ht
    simpa [srcBlocksPerChunk, hdir] using h.cpuRows t ht

theorem dstTensors_rows (ht : t ∈ h.dstTensors) : t.rowSize % h.dstBlocksPerChunk = 0 := by
  cases hdir : h.gpuToCpu with
  | false => simp [dstBlocksPerChunk, hdir, Nat.mod_one]
  | true =>
    simp only [dstTensors, hdir] at ht
    simpa [dstBlocksPerChunk, hdir] using h.cpuRows t ht

theorem tensors_some (href : ref.tensorIdx < h.gpuTensors.length) :
    ∃ srcTensor dstTensor, h.srcTensors[ref.tensorIdx]? = some srcTensor ∧
      h.dstTensors[ref.tensorIdx]? = some dstTensor := by
  have hcpu := h.tensors_length ▸ href
  unfold srcTensors dstTensors
  split
  · exact ⟨_, _, getElem?_eq_getElem href, getElem?_eq_getElem hcpu⟩
  · exact ⟨_, _, getElem?_eq_getElem hcpu, getElem?_eq_getElem href⟩

theorem basePtrs_eq (hcut : s.Cut h blockIdx) {srcTensor dstTensor : Tensor}
    (hsrc : h.srcTensors[ref.tensorIdx]? = some srcTensor) (hdst : h.dstTensors[ref.tensorIdx]? = some dstTensor) :
    h.basePtrs ref s = .ok ((subBlocks s.src h.srcBlocksPerChunk s.srcSkip s.size).map
        (srcTensor.ptr h.srcBlocksPerChunk),
      (subBlocks s.dst h.dstBlocksPerChunk s.dstSkip s.size).map (dstTensor.ptr h.dstBlocksPerChunk)) := by
  have hs := computeSubBlockPtrs_eq h.srcBlocksPerChunk_pos
    (by rw [hcut.srcSkip]; exact Nat.mod_lt _ h.srcBlocksPerChunk_pos) hcut.src
    (srcTensors_rows (mem_of_getElem? hsrc))
  have hd := computeSubBlockPtrs_eq h.dstBlocksPerChunk_pos
    (by rw [hcut.dstSkip]; exact Nat.mod_lt _ h.dstBlocksPerChunk_pos) hcut.dst
    (dstTensors_rows (mem_of_getElem? hdst))
  simp only [basePtrs, hsrc, hdst, hs, hd, ok_bind]
  rfl

theorem zip_basePtrs (srcTensor dstTensor : Tensor) :
    ((subBlocks s.src h.srcBlocksPerChunk s.srcSkip s.size).map (srcTensor.ptr h.srcBlocksPerChunk)).zip
      ((subBlocks s.dst h.dstBlocksPerChunk s.dstSkip s.size).map (dstTensor.ptr h.dstBlocksPerChunk)) =
    (h.sliceMoves s).map fun m =>
      (srcTensor.ptr h.srcBlocksPerChunk m.src, dstTensor.ptr h.dstBlocksPerChunk m.dst) := by
  rw [zip_map, sliceMoves, map_map]
  rfl

section
variable (hcut : s.Cut h blockIdx)
include hcut

theorem sliceMoves_dst : (h.sliceMoves s).map Move.dst = subBlocks s.dst h.dstBlocksPerChunk s.dstSkip s.size := by
  have hsrc := length_subBlocks h.srcBlocksPerChunk_pos hcut.src
  have hdst := length_subBlocks h.dstBlocksPerChunk_pos hcut.dst
  rw [sliceMoves, map_map]
  exact map_snd_zip (by omega)

theorem canonicalPageIds_eq : canonicalPageIds s.dst h.dstBlocksPerChunk s.size s.dstSkip =
      (h.sliceMoves s).map fun m => m.dst.row * h.dstBlocksPerChunk + m.dst.sub := by
  have hmoves : (h.sliceMoves s).map (fun m => m.dst.row * h.dstBlocksPerChunk + m.dst.sub) =
      (subBlocks s.dst h.dstBlocksPerChunk s.dstSkip s.size).map
        fun b => b.row * h.dstBlocksPerChunk + b.sub := by
    rw [← sliceMoves_dst hcut, map_map]
    rfl
  rw [hmoves]
  unfold canonicalPageIds
  by_cases hone : h.dstBlocksPerChunk = 1
  · have hskip : s.dstSkip = 0 := by rw [hcut.dstSkip, hone, Nat.mod_one]
    rw [if_pos hone, hone, hskip]
    simp only [subBlocks, drop_zero, range_one, map_cons, map_nil, map_take,
      ← map_eq_flatMap, map_map]
    simp [Function.comp_def]
  · rw [if_neg hone]
    simp only [subBlocks, map_take, map_drop, map_flatMap, map_map]
    rfl

theorem filterWriterBlocks_eq {m : CanonicalPageMapping} {base : Move → Nat × Nat} :
    h.filterWriterBlocks m s ((h.sliceMoves s).map base) = ((h.sliceMoves s).filter (h.writes m)).map base := by
  unfold filterWriterBlocks
  by_cases hturns : h.gpuToCpu ∧ m.numWriters > 1
  · have hwrites : h.writes m = fun move =>
        decide ((move.dst.row * h.dstBlocksPerChunk + move.dst.sub) % m.numWriters = m.writerIndex) := by
      funext move
      simp [writes, hturns.1, hturns.2]
    rw [if_pos hturns, canonicalPageIds_eq hcut, hwrites, zip_map', filter_map, map_map]
    rfl
  · have hwrites : h.writes m = fun _ => true := by
      funext move
      rw [not_and] at hturns
      cases hdir : h.gpuToCpu with
      | true => simp [writes, hdir, hturns hdir]
      | false => simp [writes, hdir]
    rw [if_neg hturns, hwrites, filter_true]

theorem fillRef_eq (htensor : ref.tensorIdx < h.gpuTensors.length)
    (hmapping : h.canonicalLayout = true → ref.mapping.isSome) :
    (if h.canonicalLayout then h.fillCanonicalRef s else h.fillDirectRef s) ref =
      .ok (h.refOps (h.sliceMoves s) ref) := by
  obtain ⟨srcTensor, dstTensor, hsrc, hdst⟩ := tensors_some htensor
  have hbase := basePtrs_eq hcut hsrc hdst
  cases hlayout : h.canonicalLayout with
  | false =>
    rw [if_neg Bool.false_ne_true, fillDirectRef, hbase, ok_bind]
    simp only [refOps, hsrc, hdst, hlayout, zip_basePtrs, map_map]
    rfl
  | true =>
    obtain ⟨mapping, hm⟩ := Option.isSome_iff_exists.1 (hmapping hlayout)
    by_cases hplan : (mapping.copyPlan h.gpuToCpu).length = 0
    · have hnil := length_eq_zero_iff.1 hplan
      simp [fillCanonicalRef, refOps, hsrc, hdst, hlayout, hm, hnil]
    · rw [if_pos rfl, fillCanonicalRef, hm]
      simp only [if_neg hplan, hbase, ok_bind]
      simp only [refOps, hsrc, hdst, hlayout, hm, zip_basePtrs, filterWriterBlocks_eq hcut, flatMap_map]
      rfl

theorem fillGroupOps_eq {refs : List DataRef} (hrefs : refs ∈ h.layerRefsPerGroup) :
    h.fillGroupOps refs s = .ok (refs.flatMap (h.refOps (h.sliceMoves s))) := by
  have hall : refs.mapM (if h.canonicalLayout then h.fillCanonicalRef s else h.fillDirectRef s) =
      .ok (refs.map (h.refOps (h.sliceMoves s))) := by
    rw [mapM_eq_ok, forall₂_map_right_iff, forall₂_same]
    intro ref href
    exact fillRef_eq hcut (h.refs_tensor refs hrefs ref href) fun hc => h.refs_mapping hc refs hrefs ref href
  rw [fillGroupOps, hall, ok_bind, ← flatMap_def]
  rfl

end

def opsOf (h : Handler) (groups : List (List DataRef)) (moves : List (List Move)) : List CopyOp :=
  (groups.zip moves).flatMap fun e => e.1.flatMap (h.refOps e.2)

theorem refOps_nil : h.refOps [] ref = [] := by
  unfold refOps
  split
  · cases h.canonicalLayout <;> cases ref.mapping <;> rfl
  · rfl

theorem opsOf_cons (refs : List DataRef) (groups : List (List DataRef)) (moves : List Move) (rest : List (List Move)) :
    h.opsOf (refs :: groups) (moves :: rest) = refs.flatMap (h.refOps moves) ++ h.opsOf groups rest := by
  rw [opsOf, zip_cons_cons, flatMap_cons]
  rfl

theorem transferGroups_eq_ok {srcBlocks dstBlocks : List Nat} :
    ∀ {groups : List (List DataRef × Nat × Nat)} {srcOffset dstOffset : Nat},
    (∀ g ∈ groups, g.1 ∈ h.layerRefsPerGroup) → srcOffset ≤ srcBlocks.length → dstOffset ≤ dstBlocks.length →
    (h.transferGroups srcBlocks dstBlocks groups srcOffset dstOffset = .ok ops ↔
      ∃ moves, transferMoves h.srcBlocksPerChunk h.dstBlocksPerChunk (groups.map Prod.snd)
          (srcBlocks.drop srcOffset) (dstBlocks.drop dstOffset) = some moves ∧
        ops = h.opsOf (groups.map Prod.fst) moves) := by
  intro groups
  induction groups generalizing ops with
  | nil =>
    intro srcOffset dstOffset _ hsrc hdst
    simp only [transferGroups, transferMoves, map_nil, drop_eq_nil_iff]
    by_cases hs : srcOffset = srcBlocks.length
    · by_cases hd : dstOffset = dstBlocks.length
      · subst hs hd
        simp [opsOf, eq_comm]
      · rw [if_neg (by omega), if_pos hd, if_neg (by omega)]
        simp
    · rw [if_pos hs, if_neg (by omega)]
      simp
  | cons g groups ih =>
    obtain ⟨refs, size, blockIdx⟩ := g
    intro srcOffset dstOffset hmem hsrc hdst
    have hrest : ∀ g ∈ groups, g.1 ∈ h.layerRefsPerGroup := fun g hg => hmem g (mem_cons_of_mem _ hg)
    by_cases hsize : size = 0
    · simp only [transferGroups, transferMoves, map_cons, if_pos hsize, Option.map_eq_some_iff]
      rw [ih hrest hsrc hdst]
      have hnil : refs.flatMap (h.refOps []) = [] := flatMap_eq_nil_iff.2 fun ref _ => refOps_nil
      constructor
      · rintro ⟨moves, hmoves, rfl⟩
        exact ⟨_, ⟨moves, hmoves, rfl⟩, by rw [opsOf_cons, hnil, nil_append]⟩
      · rintro ⟨_, ⟨moves, hmoves, rfl⟩, rfl⟩
        exact ⟨moves, hmoves, by rw [opsOf_cons, hnil, nil_append]⟩
    · simp only [transferGroups, transferMoves, map_cons, if_neg hsize, length_drop]
      by_cases hd : dstOffset + cdiv (size + blockIdx % h.dstBlocksPerChunk) h.dstBlocksPerChunk > dstBlocks.length
      · rw [if_pos hd, if_pos (Or.inl (by omega))]
        simp
      by_cases hs : srcOffset + cdiv (size + blockIdx % h.srcBlocksPerChunk) h.srcBlocksPerChunk > srcBlocks.length
      · rw [if_neg hd, if_pos hs, if_pos (Or.inr (by omega))]
        simp
      rw [if_neg hd, if_neg hs, if_neg (by omega)]
      simp only [Nat.add_sub_cancel_left, drop_drop, Option.map_eq_some_iff]
      rw [fillGroupOps_eq (show GroupSlice.Cut h _ blockIdx from ⟨rfl, rfl, by simp; omega, by simp; omega⟩)
        (hmem _ (mem_cons_self ..)), ok_bind, bind_eq_ok]
      constructor
      · rintro ⟨more, hmore, hops⟩
        obtain ⟨moves, hmoves, rfl⟩ := (ih hrest (by omega) (by omega)).1 hmore
        cases hops
        exact ⟨_, ⟨moves, hmoves, rfl⟩, by rw [opsOf_cons]; rfl⟩
      · rintro ⟨_, ⟨moves, hmoves, rfl⟩, rfl⟩
        refine ⟨_, (ih hrest (by omega) (by omega)).2 ⟨moves, hmoves, rfl⟩, ?_⟩
        rw [opsOf_cons]
        rfl

/-- The worker copies what the moves say, and raises when there are none. -/
theorem transferAsync_eq_ok {gpuSpec : GPULoadStoreSpec} {chunkIds : List Nat}
    (hgroups : gpuSpec.groupSizes.length = h.layerRefsPerGroup.length) : h.transferAsync gpuSpec chunkIds = .ok ops ↔
      ∃ moves, transferMoves h.srcBlocksPerChunk h.dstBlocksPerChunk (gpuSpec.groupSizes.zip gpuSpec.blockIndices)
          (if h.gpuToCpu then gpuSpec.blockIds else chunkIds)
          (if h.gpuToCpu then chunkIds else gpuSpec.blockIds) = some moves ∧
        ops = h.opsOf h.layerRefsPerGroup moves := by
  have hlen := gpuSpec.blockIndices_length
  rw [transferAsync, if_neg (by omega),
    transferGroups_eq_ok (fun g hg => (of_mem_zip hg).1) (Nat.zero_le _) (Nat.zero_le _),
    map_snd_zip (by simp; omega), map_fst_zip (by simp; omega), drop_zero, drop_zero]

end Handler

end VllmCore.Offload
