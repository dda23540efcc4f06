import VllmCore.Layout.MemoryPlan
import VllmCore.Layout.MergeSpecs

/-! # No overlap in the memory plan

Every byte that a view addresses has a normal form: with the blocks outermost it is a number of whole
blocks plus a place inside the block, with the layers outermost a number of rows of one slot per block.
Reading the digits of the normal form gives back the block, and inside one group the layer. -/

namespace VllmCore.MemoryPlan
open Except List Dict
variable {items : List (LayerSpec × List LayerName)} {o p : Nat}

/-! ### Digits -/

theorem digits_inj {a a' q q' w : Nat} (hq : q < w) (hq' : q' < w) (h : a * w + q = a' * w + q') : a = a' ∧ q = q' := by
  have hdiv : ∀ a q, q < w → (a * w + q) / w = a := fun a q hq => by
    rw [Nat.mul_comm, Nat.mul_add_div (by omega), Nat.div_eq_of_lt hq, Nat.add_zero]
  obtain rfl : a = a' := by rw [← hdiv a q hq, h, hdiv a' q' hq']
  exact ⟨rfl, by omega⟩

theorem digits_lt {a q m w : Nat} (ha : a < m) (hq : q < w) : a * w + q < m * w :=
  calc a * w + q < a * w + w := by omega
    _ = (a + 1) * w := by ring
    _ ≤ m * w := Nat.mul_le_mul_right w ha

/-! ### Strides -/

def widened (s : LayerSpec) (n : Nat) : Nat := (s.pageSizePadded.map (max n)).getD n

section Strides
variable {s : LayerSpec} {nb m : Nat} {layout : KVCacheLayout} {fixed : Axis → Option Nat}

theorem paddedStride_ok {i n : Nat} (h : paddedStride s layout i n = .ok m) :
    m = if i = layout.pageGridEnd - 1 then widened s n else n := by
  unfold paddedStride at h
  unfold widened
  split at h
  · next hp =>
    cases h
    simp [hp]
  · next p hp =>
    split_ifs at h ⊢
    · simp only [do_eq_ok] at h
      obtain ⟨-, -, -, -, rfl⟩ := h
      simp [hp]
    · cases h
      rfl

def stridesAfter (s : LayerSpec) (nb m : Nat) (layout : KVCacheLayout) (fixed : Axis → Option Nat)
    (acc : (Axis → Nat) × Nat) (dim : Axis × Nat) : (Axis → Nat) × Nat :=
  let stride := (fixed dim.1).getD (if dim.2 = layout.pageGridEnd - 1 then widened s acc.2 else acc.2)
  (Function.update acc.1 dim.1 stride, stride * s.shape nb m dim.1)

def stridesOf (s : LayerSpec) (nb m : Nat) (layout : KVCacheLayout) (fixed : Axis → Option Nat) : Axis → Nat :=
  (layout.strideOrder.zipIdx.reverse.foldl (stridesAfter s nb m layout fixed) (fun _ => 0, 1)).1

theorem foldlM_strideStep_ok {dims : List (Axis × Nat)} {acc acc' : (Axis → Nat) × Nat}
    (h : dims.foldlM (strideStep s nb m layout fixed) acc = .ok acc') :
    acc' = dims.foldl (stridesAfter s nb m layout fixed) acc := by
  induction dims generalizing acc with
  | nil => exact (pure_eq_ok.1 h).symm
  | cons dim dims ih =>
    rw [foldlM_cons, bind_eq_ok] at h
    obtain ⟨acc₁, h₁, h⟩ := h
    simp only [strideStep, do_eq_ok] at h₁
    obtain ⟨cur, hcur, rfl⟩ := h₁
    rw [ih h, foldl_cons, stridesAfter, ← paddedStride_ok hcur]

theorem computeLayoutStrides_ok {st : Axis → Nat} (h : computeLayoutStrides s nb m layout fixed = .ok st) :
    st = stridesOf s nb m layout fixed ∧ (s.pageSizePadded.isSome →
      ((layout.strideOrder.take layout.pageGridEnd).map (s.shape nb m)).prod = m * nb) := by
  simp only [computeLayoutStrides, do_eq_ok] at h
  obtain ⟨-, -, _, hpad, acc, hacc, rfl⟩ := h
  exact ⟨congrArg Prod.fst (foldlM_strideStep_ok hacc), hpad⟩

/-! ### Pages -/

def Sound (s : LayerSpec) : Prop := ∀ p ∈ s.pageSizePadded, s.realPageSizeBytes ≤ p

theorem sound_of_pageSizeBytes (h : s.pageSizeBytes = .ok p) : Sound s ∧ p = s.pageSize := by
  simp only [LayerSpec.pageSizeBytes, do_eq_ok] at h
  obtain ⟨-, hs, rfl⟩ := h
  exact ⟨hs, rfl⟩

theorem realPageSizeBytes_eq (s : LayerSpec) :
    s.realPageSizeBytes = s.numHeads * (s.numStates * s.stateContentSizeBytes) := by
  cases s with
  | attention a =>
    simp only [LayerSpec.realPageSizeBytes, AttentionSpec.unpaddedPageSizeBytes, LayerSpec.numHeads,
      LayerSpec.numStates, LayerSpec.stateContentSizeBytes]
    ring
  | mamba m =>
    simp only [LayerSpec.realPageSizeBytes, LayerSpec.numHeads, LayerSpec.numStates, LayerSpec.stateContentSizeBytes]
    ring

theorem real_le_pageSize (hs : Sound s) : s.realPageSizeBytes ≤ s.pageSize := by
  unfold LayerSpec.pageSize
  cases hp : s.pageSizePadded with
  | none => exact Nat.le_refl _
  | some p => exact hs p hp

theorem widened_real (hs : Sound s) : widened s s.realPageSizeBytes = s.pageSize := by
  unfold widened LayerSpec.pageSize
  cases hp : s.pageSizePadded with
  | none => rfl
  | some p => exact Nat.max_eq_right (hs p hp)

/-- The heads that stand outside the page: none where every page is one run of bytes. -/
def headSlots (layout : KVCacheLayout) (s : LayerSpec) : Nat := if layout.isBlockCompact then 1 else s.numHeads

def slotWidth (layout : KVCacheLayout) (s : LayerSpec) : Nat := s.pageSize / headSlots layout s

/-- Where the heads stand outside, a padded page has a single one, and the slots of all heads make up the page. -/
theorem heads_mul_widened (hs : Sound s) (hm : 0 < m) (hnb : 0 < nb)
    (hpad : s.pageSizePadded.isSome → s.numHeads * (m * nb) = m * nb) :
    s.numHeads * widened s (s.numStates * s.stateContentSizeBytes) = s.pageSize := by
  unfold widened
  cases hp : s.pageSizePadded with
  | none =>
    rw [LayerSpec.pageSize, hp]
    exact (realPageSizeBytes_eq s).symm
  | some p =>
    have hone : s.numHeads = 1 := by
      have := hpad (by rw [hp]; rfl)
      have hpos : 0 < m * nb := Nat.mul_pos hm hnb
      exact Nat.eq_of_mul_eq_mul_right hpos (by omega)
    have hle := hs p hp
    rw [realPageSizeBytes_eq, hone, Nat.one_mul] at hle
    simp [LayerSpec.pageSize, hp, hone, hle]

/-! ### Inside a page -/

variable {st : Axis → Nat} {ls bs h n c : Nat}

theorem stridesOf_fixed (s : LayerSpec) (nb m : Nat) (layout : KVCacheLayout) (ls bs : Nat) :
    stridesOf s nb m layout (fixedStrides ls bs) .L = ls ∧ stridesOf s nb m layout (fixedStrides ls bs) .B = bs := by
  cases layout <;> exact ⟨rfl, rfl⟩

/-- Where every page is one run of bytes, heads, states and content stay inside it. -/
theorem inner_lt_of_compact (hc : layout.isBlockCompact = true)
    (hst : st = stridesOf s nb m layout (fixedStrides ls bs))
    (hh : h < s.numHeads) (hn : n < s.numStates) (hcc : c < s.stateContentSizeBytes) :
    h * st .H + n * st .N + c * st .C < s.realPageSizeBytes := by
  -- the heads outside the states, or the other way round
  have hHN : h * (s.numStates * s.stateContentSizeBytes) + (n * s.stateContentSizeBytes + c) < s.realPageSizeBytes := by
    rw [realPageSizeBytes_eq]
    exact digits_lt hh (digits_lt hn hcc)
  have hNH : n * (s.numHeads * s.stateContentSizeBytes) + (h * s.stateContentSizeBytes + c) < s.realPageSizeBytes := by
    rw [realPageSizeBytes_eq, Nat.mul_left_comm s.numHeads]
    exact digits_lt hn (digits_lt hh hcc)
  have hHN' : h * (1 * s.stateContentSizeBytes * s.numStates) + n * (1 * s.stateContentSizeBytes) + c * 1 =
      h * (s.numStates * s.stateContentSizeBytes) + (n * s.stateContentSizeBytes + c) := by ring
  have hNH' : h * (1 * s.stateContentSizeBytes) + n * (1 * s.stateContentSizeBytes * s.numHeads) + c * 1 =
      n * (s.numHeads * s.stateContentSizeBytes) + (h * s.stateContentSizeBytes + c) := by ring
  subst hst
  cases layout with
  | LBHNC => exact hHN'.symm ▸ hHN
  | BLHNC => exact hHN'.symm ▸ hHN
  | LBNHC => exact hNH'.symm ▸ hNH
  | BLNHC => exact hNH'.symm ▸ hNH
  | LHBNC => cases hc
  | BHLNC => cases hc

/-- Else the heads are a stride of `bs * nb` or of `ls * m` apart. -/
theorem inner_eq_of_not_compact (hc : layout.isBlockCompact = false)
    (hst : st = stridesOf s nb m layout (fixedStrides ls bs)) : h * st .H + n * st .N + c * st .C =
      h * (if layout.isBlockOutermost then ls * m else bs * nb) + (n * s.stateContentSizeBytes + c) := by
  have hring : ∀ x, h * x + n * (1 * s.stateContentSizeBytes) + c * 1 = h * x + (n * s.stateContentSizeBytes + c) := by
    intro x
    ring
  subst hst
  cases layout with
  | LHBNC => exact hring _
  | BHLNC => exact hring _
  | LBHNC => cases hc
  | BLHNC => cases hc
  | LBNHC => cases hc
  | BLNHC => cases hc

theorem plan_strides (hs : Sound s) (hm : 0 < m) (hnb : 0 < nb) {bpb : Nat}
    (hpad : s.pageSizePadded.isSome → ((layout.strideOrder.take layout.pageGridEnd).map (s.shape nb m)).prod = m * nb)
    (hst : st = stridesOf s nb m layout (fixedStrides none (if layout.isBlockOutermost then some bpb else none))) :
    ∃ w, headSlots layout s * w = s.pageSize ∧
      (layout.isBlockCompact = false → s.numStates * s.stateContentSizeBytes ≤ w) ∧
      if layout.isBlockOutermost then st .L = w ∧ st .B = bpb
      else st .L = s.pageSize * nb ∧ st .B = w := by
  have hHN : widened s (1 * s.stateContentSizeBytes * s.numStates * s.numHeads) = s.pageSize := by
    rw [← widened_real hs, realPageSizeBytes_eq]
    congr 1
    ring
  have hNH : widened s (1 * s.stateContentSizeBytes * s.numHeads * s.numStates) = s.pageSize := by
    rw [← hHN, Nat.mul_right_comm]
  have hN : 1 * s.stateContentSizeBytes * s.numStates = s.numStates * s.stateContentSizeBytes := by ring
  have hle : s.numStates * s.stateContentSizeBytes ≤ widened s (s.numStates * s.stateContentSizeBytes) := by
    unfold widened
    cases s.pageSizePadded with
    | none => exact Nat.le_refl _
    | some p => exact Nat.le_max_left _ _
  subst hst
  cases layout with
  | LBHNC => exact ⟨s.pageSize, Nat.one_mul _, nofun, congrArg (· * nb) hHN, hHN⟩
  | LBNHC => exact ⟨s.pageSize, Nat.one_mul _, nofun, congrArg (· * nb) hNH, hNH⟩
  | BLHNC => exact ⟨s.pageSize, Nat.one_mul _, nofun, hHN, rfl⟩
  | BLNHC => exact ⟨s.pageSize, Nat.one_mul _, nofun, hNH, rfl⟩
  | LHBNC =>
    have hheads := heads_mul_widened hs hm hnb fun h =>
      calc s.numHeads * (m * nb) = m * (s.numHeads * (nb * 1)) := by ring
        _ = m * nb := hpad h
    refine ⟨_, hheads, fun _ => hle, ?_, congrArg (widened s) hN⟩
    change widened s (1 * s.stateContentSizeBytes * s.numStates) * nb * s.numHeads = _
    rw [← hheads, hN]
    ring
  | BHLNC =>
    have hheads := heads_mul_widened hs hm hnb fun h =>
      calc s.numHeads * (m * nb) = nb * (s.numHeads * (m * 1)) := by ring
        _ = m * nb := hpad h
    exact ⟨_, hheads, fun _ => hle, congrArg (widened s) hN, rfl⟩

end Strides

/-! ### The normal form of an address -/

section Form
variable {r : Region} {t : KVCacheTensor} {layout : KVCacheLayout} {st : Axis → Nat} {size nb bpb l b h n c : Nat}

/-- The byte of a region for block `b`, layer `l`, head slot `k` and place `q` in the slot. -/
def formByte (layout : KVCacheLayout) (r : Region) (nb bpb l b k q : Nat) : Nat :=
  if layout.isBlockOutermost then
    b * bpb + (r.byteOffset + ((k * r.layers.length + l) * slotWidth layout r.spec + q))
  else r.byteOffset * nb + (((l * headSlots layout r.spec + k) * nb + b) * slotWidth layout r.spec + q)

theorem placeRegion_ok (h : placeRegion layout (if layout.isBlockOutermost then some bpb else none) size nb r = .ok t) :
    ∃ st, st = stridesOf r.spec nb r.layers.length layout
        (fixedStrides none (if layout.isBlockOutermost then some bpb else none)) ∧
      (r.spec.pageSizePadded.isSome →
        ((layout.strideOrder.take layout.pageGridEnd).map (r.spec.shape nb r.layers.length)).prod =
        r.layers.length * nb) ∧
      0 < r.spec.pageSize ∧ t.size = size ∧ t.layers = r.layers ∧ t.layerStride = st .L ∧ t.blockStride = st .B ∧
      t.offset = r.byteOffset * max (st .L) r.spec.pageSize / r.spec.pageSize := by
  simp only [placeRegion, do_eq_ok] at h
  obtain ⟨st, hst, -, hpage, rfl⟩ := h
  obtain ⟨hst, hpad⟩ := computeLayoutStrides_ok hst
  exact ⟨st, hst, hpad, Nat.pos_of_ne_zero hpage, rfl, rfl, rfl, rfl, rfl⟩

theorem headSlots_pos {s : LayerSpec} (hh : h < s.numHeads) : 0 < headSlots layout s := by
  unfold headSlots
  split_ifs <;> omega

theorem address_form (hs : Sound r.spec)
    (hplace : placeRegion layout (if layout.isBlockOutermost then some bpb else none) size nb r = .ok t)
    (hview : t.viewStrides r.spec nb layout = .ok st) (hl : l < r.layers.length) (hb : b < nb)
    (hh : h < r.spec.numHeads) (hn : n < r.spec.numStates) (hc : c < r.spec.stateContentSizeBytes) :
    headSlots layout r.spec * slotWidth layout r.spec = r.spec.pageSize ∧
      ∃ k < headSlots layout r.spec, ∃ q < slotWidth layout r.spec,
        t.offset + l * st .L + b * st .B + (h * st .H + n * st .N + c * st .C) = formByte layout r nb bpb l b k q := by
  obtain ⟨st₀, hst₀, hpad, hpage, -, hlayers, hL, hB, hoff⟩ := placeRegion_ok hplace
  obtain ⟨w, hw, hwle, hstrides⟩ := plan_strides hs (by omega) (by omega) hpad hst₀
  have hview := (computeLayoutStrides_ok hview).1
  rw [hlayers] at hview
  have hpos : 0 < headSlots layout r.spec := headSlots_pos hh
  have hwidth : slotWidth layout r.spec = w := by
    rw [slotWidth, ← hw, Nat.mul_div_cancel_left _ hpos]
  -- the place inside the page, as a head slot and a rest
  obtain ⟨k, hk, q, hq, hinner⟩ : ∃ k < headSlots layout r.spec, ∃ q < w,
      h * st .H + n * st .N + c * st .C =
        k * (if layout.isBlockOutermost then t.layerStride * r.layers.length else t.blockStride * nb) + q := by
    cases hcompact : layout.isBlockCompact with
    | true =>
      have hone : headSlots layout r.spec = 1 := by simp [headSlots, hcompact]
      rw [hone, Nat.one_mul] at hw
      have hlt := inner_lt_of_compact hcompact hview hh hn hc
      refine ⟨0, by omega, _, hlt.trans_le (hw ▸ real_le_pageSize hs), ?_⟩
      rw [Nat.zero_mul, Nat.zero_add]
    | false =>
      have hheads : headSlots layout r.spec = r.spec.numHeads := by simp [headSlots, hcompact]
      exact ⟨h, hheads ▸ hh, _, (digits_lt hn hc).trans_le (hwle hcompact), inner_eq_of_not_compact hcompact hview⟩
  refine ⟨by rw [hwidth, hw], k, hk, q, hwidth ▸ hq, ?_⟩
  obtain ⟨hvL, hvB⟩ := stridesOf_fixed r.spec nb r.layers.length layout t.layerStride t.blockStride
  rw [hinner, hview, hvL, hvB, hoff, formByte, hwidth]
  cases hout : layout.isBlockOutermost with
  | true =>
    simp only [hout, if_true] at hstrides ⊢
    have hle : w ≤ r.spec.pageSize := hw ▸ Nat.le_mul_of_pos_left w hpos
    rw [hL, hB, hstrides.1, hstrides.2, Nat.max_eq_right hle, Nat.mul_div_cancel _ hpage]
    ring
  | false =>
    simp only [hout, Bool.false_eq_true, if_false] at hstrides ⊢
    have hle : r.spec.pageSize ≤ r.spec.pageSize * nb := Nat.le_mul_of_pos_right _ (by omega)
    have hdiv : r.byteOffset * (r.spec.pageSize * nb) / r.spec.pageSize = r.byteOffset * nb := by
      rw [Nat.mul_left_comm, Nat.mul_div_cancel_left _ hpage]
    rw [hL, hB, hstrides.1, hstrides.2, Nat.max_eq_left hle, hdiv, ← hw]
    ring

end Form

/-- `byte` belongs to block `b` of layer `l` of the region. -/
structure Holds (layout : KVCacheLayout) (nb bpb : Nat) (r : Region) (l b byte : Nat) : Prop where
  layer : l < r.layers.length
  block : b < nb
  page : headSlots layout r.spec * slotWidth layout r.spec = r.spec.pageSize
  form : ∃ k < headSlots layout r.spec, ∃ q < slotWidth layout r.spec, byte = formByte layout r nb bpb l b k q

namespace Holds
variable {layout : KVCacheLayout} {nb bpb : Nat} {r r' : Region} {l l' b b' byte : Nat}
variable (h : Holds layout nb bpb r l b byte)
include h

theorem outer (hout : layout.isBlockOutermost = true) :
    ∃ k, ∃ q < slotWidth layout r.spec, (k * r.layers.length + l) * slotWidth layout r.spec + q < r.bytes ∧
      byte = b * bpb + (r.byteOffset + ((k * r.layers.length + l) * slotWidth layout r.spec + q)) := by
  obtain ⟨k, hk, q, hq, rfl⟩ := h.form
  refine ⟨k, q, hq, ?_, by rw [formByte, if_pos hout]⟩
  calc (k * r.layers.length + l) * slotWidth layout r.spec + q
      < headSlots layout r.spec * r.layers.length * slotWidth layout r.spec := digits_lt (digits_lt hk h.layer) hq
    _ = r.bytes := by rw [Region.bytes, ← h.page]; ring

/-- With the layers outermost: the bytes before the region in all blocks, then rows of one slot per block. -/
theorem rows (hout : layout.isBlockOutermost = false) :
    ∃ k < headSlots layout r.spec, ∃ q < slotWidth layout r.spec,
      ((l * headSlots layout r.spec + k) * nb + b) * slotWidth layout r.spec + q < r.bytes * nb ∧
      byte = r.byteOffset * nb + (((l * headSlots layout r.spec + k) * nb + b) * slotWidth layout r.spec + q) := by
  obtain ⟨k, hk, q, hq, rfl⟩ := h.form
  refine ⟨k, hk, q, hq, ?_, by rw [formByte, if_neg (by simp [hout])]⟩
  calc ((l * headSlots layout r.spec + k) * nb + b) * slotWidth layout r.spec + q
      < r.layers.length * headSlots layout r.spec * nb * slotWidth layout r.spec :=
        digits_lt (digits_lt (digits_lt h.layer hk) h.block) hq
    _ = r.bytes * nb := by rw [Region.bytes, ← h.page]; ring

theorem lt_size (hr : r.byteOffset + r.bytes ≤ bpb) : byte < bpb * nb := by
  cases hout : layout.isBlockOutermost with
  | true =>
    obtain ⟨k, q, -, hlt, rfl⟩ := h.outer hout
    rw [Nat.mul_comm bpb]
    exact digits_lt h.block (by omega)
  | false =>
    obtain ⟨k, -, q, -, hlt, rfl⟩ := h.rows hout
    calc r.byteOffset * nb + (((l * headSlots layout r.spec + k) * nb + b) * slotWidth layout r.spec + q)
        < r.byteOffset * nb + r.bytes * nb := by omega
      _ = (r.byteOffset + r.bytes) * nb := (Nat.add_mul ..).symm
      _ ≤ bpb * nb := Nat.mul_le_mul_right nb hr

theorem inj (h' : Holds layout nb bpb r l' b' byte) (hr : r.byteOffset + r.bytes ≤ bpb) : l = l' ∧ b = b' := by
  cases hout : layout.isBlockOutermost with
  | true =>
    obtain ⟨k, q, hq, hlt, hbyte⟩ := h.outer hout
    obtain ⟨k', q', hq', hlt', hbyte'⟩ := h'.outer hout
    obtain ⟨hb, hin⟩ := digits_inj (by omega) (by omega) (hbyte.symm.trans hbyte')
    obtain ⟨hslot, -⟩ := digits_inj hq hq' (Nat.add_left_cancel hin)
    exact ⟨(digits_inj h.layer h'.layer hslot).2, hb⟩
  | false =>
    obtain ⟨k, hk, q, hq, -, hbyte⟩ := h.rows hout
    obtain ⟨k', hk', q', hq', -, hbyte'⟩ := h'.rows hout
    obtain ⟨hslot, -⟩ := digits_inj hq hq' (Nat.add_left_cancel (hbyte.symm.trans hbyte'))
    obtain ⟨hrow, hb⟩ := digits_inj h.block h'.block hslot
    exact ⟨(digits_inj hk hk' hrow).1, hb⟩

variable (h' : Holds layout nb bpb r' l' b' byte)
include h'

theorem not_both (hsep : r.byteOffset + r.bytes ≤ r'.byteOffset) (hr' : r'.byteOffset + r'.bytes ≤ bpb) : False := by
  cases hout : layout.isBlockOutermost with
  | true =>
    obtain ⟨k, q, -, hlt, hbyte⟩ := h.outer hout
    obtain ⟨k', q', -, hlt', hbyte'⟩ := h'.outer hout
    obtain ⟨-, hin⟩ := digits_inj (by omega) (by omega) (hbyte.symm.trans hbyte')
    omega
  | false =>
    obtain ⟨k, -, q, -, hlt, hbyte⟩ := h.rows hout
    obtain ⟨k', -, q', -, -, hbyte'⟩ := h'.rows hout
    have : (r.byteOffset + r.bytes) * nb ≤ r'.byteOffset * nb := Nat.mul_le_mul_right nb hsep
    rw [Nat.add_mul] at this
    omega

theorem block_of_outer (hout : layout.isBlockOutermost = true) (hr : r.byteOffset + r.bytes ≤ bpb)
    (hr' : r'.byteOffset + r'.bytes ≤ bpb) : b = b' := by
  obtain ⟨k, q, -, hlt, hbyte⟩ := h.outer hout
  obtain ⟨k', q', -, hlt', hbyte'⟩ := h'.outer hout
  exact (digits_inj (by omega) (by omega) (hbyte.symm.trans hbyte')).1

/-- With the layers outermost it is one for regions of one page size and one number of head slots that
start at whole pages. -/
theorem block_of_rows (hout : layout.isBlockOutermost = false) (hpage : r.spec.pageSize = r'.spec.pageSize)
    (hheads : headSlots layout r.spec = headSlots layout r'.spec) (hdvd : r.spec.pageSize ∣ r.byteOffset)
    (hdvd' : r'.spec.pageSize ∣ r'.byteOffset) : b = b' := by
  obtain ⟨k, hk, q, hq, -, hbyte⟩ := h.rows hout
  obtain ⟨k', hk', q', hq', -, hbyte'⟩ := h'.rows hout
  have hwidth : slotWidth layout r.spec = slotWidth layout r'.spec := by rw [slotWidth, slotWidth, hpage, hheads]
  obtain ⟨i, hi⟩ := hdvd
  obtain ⟨i', hi'⟩ := hdvd'
  have hform : byte = (((i + l) * headSlots layout r.spec + k) * nb + b) * slotWidth layout r.spec + q := by
    rw [hbyte, hi, ← h.page]; ring
  have hform' : byte = (((i' + l') * headSlots layout r'.spec + k') * nb + b') * slotWidth layout r'.spec + q' := by
    rw [hbyte', hi', ← h'.page]; ring
  rw [← hwidth] at hform' hq'
  exact (digits_inj h.block h'.block (digits_inj hq hq' (hform.symm.trans hform')).1).2

end Holds

/-! ### The regions of a group -/

def totalBytes (items : List (LayerSpec × List LayerName)) : Nat :=
  (items.map fun e => e.2.length * e.1.pageSize).sum

theorem mem_regionsFrom {r : Region} (h : r ∈ regionsFrom o items) :
    (r.spec, r.layers) ∈ items ∧ o ≤ r.byteOffset ∧ r.byteOffset + r.bytes ≤ o + totalBytes items := by
  induction items generalizing o with
  | nil => cases h
  | cons e items ih =>
    have htotal : totalBytes (e :: items) = e.2.length * e.1.pageSize + totalBytes items := by simp [totalBytes]
    rcases mem_cons.1 h with rfl | h
    · refine ⟨mem_cons_self .., Nat.le_refl _, ?_⟩
      simp only [Region.bytes]
      omega
    · obtain ⟨hmem, hle, hend⟩ := ih h
      exact ⟨mem_cons_of_mem _ hmem, by omega, by omega⟩

theorem regionsFrom_apart {r r' : Region} (h : r ∈ regionsFrom o items) (h' : r' ∈ regionsFrom o items) :
    r = r' ∨ r.byteOffset + r.bytes ≤ r'.byteOffset ∨ r'.byteOffset + r'.bytes ≤ r.byteOffset := by
  induction items generalizing o with
  | nil => cases h
  | cons e items ih =>
    rcases mem_cons.1 h with rfl | h
    · rcases mem_cons.1 h' with rfl | h'
      · exact .inl rfl
      · exact .inr (.inl (mem_regionsFrom h').2.1)
    · rcases mem_cons.1 h' with rfl | h'
      · exact .inr (.inr (mem_regionsFrom h).2.1)
      · exact ih h h'

theorem dvd_of_mem_regionsFrom {r : Region} (hp : ∀ e ∈ items, e.1.pageSize = p) (ho : p ∣ o)
    (h : r ∈ regionsFrom o items) : p ∣ r.byteOffset := by
  induction items generalizing o with
  | nil => cases h
  | cons e items ih =>
    rw [forall_mem_cons] at hp
    rcases mem_cons.1 h with rfl | h
    · exact ho
    · exact ih hp.2 (Nat.dvd_add ho (hp.1 ▸ Nat.dvd_mul_left ..)) h

/-! ### Well-formed groups -/

/-- What the lists of groups promise that reach the plan, for a model whose layers have the specs `given`:
every layer is in one group, once; a group that keeps a spec for each layer keeps them for its own layers,
with one block size; the groups have the numbers of heads of the given specs; in the shared slots latent
attention keeps its spec and tails are padded to the page of the indexer. -/
structure WellFormed (given : List LayerSpec) (groups : List KVCacheGroupSpec) : Prop where
  distinct : (groups.flatMap KVCacheGroupSpec.layerNames).Nodup
  uniform : ∀ g ∈ groups, ∀ b specs, g.kvCacheSpec = .uniformType b specs → g.layerNames ≠ [] →
    specs.map Prod.fst = g.layerNames ∧ ∀ e ∈ specs, e.2.blockSize = b
  heads : ∀ g ∈ groups, ∀ s ∈ layerSpecs g, ∃ s₀ ∈ given, s.numHeads = s₀.numHeads
  latent : ∀ slots, sharedSlots groups = .ok (some slots) → ∀ e ∈ slots.mla ++ slots.idx, e.2 ∈ given
  tails : ∀ slots, sharedSlots groups = .ok (some slots) → ∀ name ∈ slots.tailNames, ∀ s,
    tailSpec groups name = .ok s → s.pageSize = slots.idxPage

theorem layersBySpec_ne_nil {g : KVCacheGroupSpec} {e : LayerSpec × List LayerName} (h : e ∈ layersBySpec g) :
    e.2 ≠ [] := by
  unfold layersBySpec at h
  split_ifs at h with hnil
  · cases h
  · split at h
    · obtain rfl := mem_singleton.1 h
      exact hnil
    · exact groupBy_ne_nil _ _ _ e h

namespace WellFormed
variable {given : List LayerSpec} {groups : List KVCacheGroupSpec} {g g' : KVCacheGroupSpec} {name : LayerName}
variable (hwf : WellFormed given groups) {s : LayerSpec}
include hwf

theorem nodup (hg : g ∈ groups) : g.layerNames.Nodup :=
  (nodup_flatMap.1 hwf.distinct).1 g hg

theorem group_unique (hg : g ∈ groups) (hg' : g' ∈ groups) (h : name ∈ g.layerNames) (h' : name ∈ g'.layerNames) :
    g = g' := by
  by_contra hne
  have : Std.Symm (Function.onFun List.Disjoint KVCacheGroupSpec.layerNames) := ⟨fun _ _ h => h.symm⟩
  exact disjoint_left.1 ((nodup_flatMap.1 hwf.distinct).2.forall hg hg' hne) h h'

omit hwf in
theorem lookup_eq {specs : LayerSpecs} (hnodup : (specs.map Prod.fst).Nodup) (h : (name, s) ∈ specs) :
    specs.lookup name = some s :=
  (mem_entries (d := ⟨specs, hnodup⟩)).1 h

theorem mem_layersBySpec (hg : g ∈ groups) {names : List LayerName} (h : (s, names) ∈ layersBySpec g)
    (hname : name ∈ names) : name ∈ g.layerNames ∧ g.perLayerSpec name = some s := by
  unfold layersBySpec at h
  split_ifs at h with hnil
  · cases h
  · split at h
    · next t hspec =>
      obtain ⟨rfl, rfl⟩ := Prod.mk.inj (mem_singleton.1 h)
      exact ⟨hname, by rw [KVCacheGroupSpec.perLayerSpec, hspec]⟩
    · next b specs hspec =>
      obtain ⟨hnames, -⟩ := hwf.uniform g hg b specs hspec hnil
      obtain ⟨e, he, rfl, rfl⟩ := mem_groupBy _ _ _ h hname
      refine ⟨hnames ▸ mem_map_of_mem he, ?_⟩
      rw [KVCacheGroupSpec.perLayerSpec, hspec]
      exact lookup_eq (hnames ▸ hwf.nodup hg) he

theorem totalBytes_layersBySpec (hg : g ∈ groups) :
    totalBytes (layersBySpec g) = ((layerSpecs g).map LayerSpec.pageSize).sum := by
  unfold layersBySpec layerSpecs
  split_ifs with hnil
  · simp [hnil, totalBytes]
  · split
    · next s hspec =>
      have hper : g.perLayerSpec = fun _ => some s := by
        funext name
        rw [KVCacheGroupSpec.perLayerSpec, hspec]
      simp [hper, totalBytes]
    · next b specs hspec =>
      obtain ⟨hnames, -⟩ := hwf.uniform g hg b specs hspec hnil
      have hper : g.layerNames.filterMap g.perLayerSpec = specs.map Prod.snd := by
        rw [← hnames, filterMap_map, ← filterMap_eq_map]
        refine filterMap_congr fun e he => ?_
        rw [Function.comp, Function.comp, KVCacheGroupSpec.perLayerSpec, hspec]
        exact lookup_eq (hnames ▸ hwf.nodup hg) he
      rw [hper, map_map]
      exact total_groupBy Prod.snd Prod.fst LayerSpec.pageSize specs

theorem totalBytes_le (hg : g ∈ groups) : totalBytes (layersBySpec g) ≤ bytesPerBlock groups := by
  rw [hwf.totalBytes_layersBySpec hg, bytesPerBlock]
  cases hmax : (groups.map fun g => ((layerSpecs g).map LayerSpec.pageSize).sum).max? with
  | none => simp [max?_eq_none_iff.1 hmax |> map_eq_nil_iff.1] at hg
  | some m => exact (max?_eq_some_iff.1 hmax).2 _ (mem_map_of_mem hg)

end WellFormed

/-! ### Addresses -/

def specOf (groups : List KVCacheGroupSpec) (name : LayerName) : Option LayerSpec :=
  (groups.find? fun g => name ∈ g.layerNames).bind fun g => g.perLayerSpec name

/-- The view of layer `name` addresses `byte` for the block: the tensor of the layer, with the strides of its
view, at some head, state and place in the content. -/
def Addresses (config : KVCacheConfig) (layout : KVCacheLayout) (name : LayerName) (block byte : Nat) : Prop :=
  ∃ t ∈ config.kvCacheTensors, ∃ first s st l, t.layers.head? = some first ∧
  specOf config.kvCacheGroups first = some s ∧
    t.viewStrides s config.numBlocks layout = .ok st ∧ t.layers[l]? = some name ∧ block < config.numBlocks ∧
    ∃ h < s.numHeads, ∃ n < s.numStates, ∃ c < s.stateContentSizeBytes,
      byte = t.offset + l * st .L + block * st .B + (h * st .H + n * st .N + c * st .C)

section Address
variable {given : List LayerSpec} {groups : List KVCacheGroupSpec} {g : KVCacheGroupSpec} {name : LayerName}
  {req : LayoutRequest}

theorem specOf_eq (hwf : WellFormed given groups) (hg : g ∈ groups) (hname : name ∈ g.layerNames) :
    specOf groups name = g.perLayerSpec name := by
  unfold specOf
  cases hfind : groups.find? fun g => decide (name ∈ g.layerNames) with
  | none =>
    have := find?_eq_none.1 hfind g hg
    exact absurd hname (by simpa using this)
  | some g' =>
    have hmem := find?_some hfind
    obtain rfl := hwf.group_unique hg (mem_of_find?_eq_some hfind) hname (by simpa using hmem)
    rfl

theorem mem_layerSpecs {s : LayerSpec} (hname : name ∈ g.layerNames) (hs : g.perLayerSpec name = some s) :
    s ∈ layerSpecs g :=
  mem_filterMap.2 ⟨name, hname, hs⟩

/-! ### Regions -/

variable {layout : KVCacheLayout} {override : Option Nat} {available : Nat} {config : KVCacheConfig}
  {g' : KVCacheGroupSpec}

theorem regionConfig_ok (h : regionConfig layout override groups available = .ok config) :
    validateKvCacheLayout layout groups = .ok () ∧ config.kvCacheGroups = groups ∧
      ∀ t ∈ config.kvCacheTensors, ∃ g ∈ groups, ∃ r ∈ regionsFrom 0 (layersBySpec g),
        placeRegion layout (if layout.isBlockOutermost then some (bytesPerBlock groups) else none)
          (bytesPerBlock groups * config.numBlocks) config.numBlocks r = .ok t := by
  simp only [regionConfig, do_eq_ok] at h
  obtain ⟨_, hvalid, -, -, nb, -, tensors, htensors, rfl⟩ := h
  refine ⟨hvalid, rfl, fun t ht => ?_⟩
  obtain ⟨r, hr, hplace⟩ := (mapM_eq_ok.1 htensors).exists_left ht
  obtain ⟨g, hg, hr⟩ := mem_flatMap.1 hr
  exact ⟨g, hg, r, hr, hplace⟩

/-- The layouts that pass: one page size, or pages of their own with the layers outermost for one group only. -/
theorem validateKvCacheLayout_ok (h : validateKvCacheLayout layout groups = .ok ()) :
    (∀ g ∈ groups, ∀ s ∈ layerSpecs g, Sound s) ∧
      ((∃ p, ∀ g ∈ groups, ∀ s ∈ layerSpecs g, s.pageSize = p) ∨
        layout.isBlockCompact ∧ ¬(1 < groups.length ∧ layout.isLayerCompact)) := by
  simp only [validateKvCacheLayout, bind_eq_ok, ensure_eq_ok] at h
  obtain ⟨-, -, pages, hpages, hor⟩ := h
  have hpage : ∀ g ∈ groups, ∀ s ∈ layerSpecs g, Sound s ∧ s.pageSize ∈ pages := by
    intro g hg s hs
    obtain ⟨p, hp, hok⟩ := (mapM_eq_ok.1 hpages).exists_right (mem_flatMap.2 ⟨g, hg, hs⟩)
    obtain ⟨hsound, rfl⟩ := sound_of_pageSizeBytes hok
    exact ⟨hsound, hp⟩
  refine ⟨fun g hg s hs => (hpage g hg s hs).1, hor.imp (fun hone => ?_) id⟩
  obtain ⟨p, hp⟩ := length_eq_one_iff.1 hone
  refine ⟨p, fun g hg s hs => ?_⟩
  simpa [hp] using mem_dedup.2 (hpage g hg s hs).2

theorem addresses_region (hwf : WellFormed given groups)
    (hconfig : regionConfig layout override groups available = .ok config)
    {block byte : Nat} (h : Addresses config layout name block byte) :
    ∃ g ∈ groups, ∃ r ∈ regionsFrom 0 (layersBySpec g), ∃ l, r.layers[l]? = some name ∧ r.spec ∈ layerSpecs g ∧
      Holds layout config.numBlocks (bytesPerBlock groups) r l block byte := by
  obtain ⟨hvalid, hgroups, hplaced⟩ := regionConfig_ok hconfig
  obtain ⟨t, ht, first, s, st, l, hfirst, hspec, hview, hl, hb, hh, hhlt, n, hn, c, hc, rfl⟩ := h
  obtain ⟨g, hg, r, hr, hplace⟩ := hplaced t ht
  have hlayers : t.layers = r.layers := (placeRegion_ok hplace).choose_spec.2.2.2.2.1
  rw [hlayers] at hfirst hl
  -- the view is made with the spec of the tensor's first layer, which is that of the region
  obtain ⟨hmem, hper⟩ := hwf.mem_layersBySpec hg (mem_regionsFrom hr).1 (mem_of_mem_head? hfirst)
  rw [hgroups, specOf_eq hwf hg hmem, hper] at hspec
  obtain rfl := Option.some.inj hspec
  have hs := mem_layerSpecs hmem hper
  have hlt := (List.getElem?_eq_some_iff.1 hl).1
  obtain ⟨hpage, hform⟩ := address_form ((validateKvCacheLayout_ok hvalid).1 g hg _ hs) hplace hview hlt hb hhlt hn hc
  exact ⟨g, hg, r, hr, l, hl, hs, hlt, hb, hpage, hform⟩

theorem resolveKvCacheLayout_ok (h : resolveKvCacheLayout req given = .ok layout) :
    layout.isBlockCompact = true ∨ ∀ s ∈ given, ∀ s' ∈ given, hncShape s = hncShape s' := by
  simp only [resolveKvCacheLayout, bind_eq_ok] at h
  obtain ⟨-, -, -, -, common, -, -, -, h⟩ := h
  by_cases hshapes : 1 < (given.map hncShape).dedup.length
  · left
    rw [if_pos hshapes] at h
    have hmem : layout ∈ common.filter KVCacheLayout.isBlockCompact := by
      split at h
      · cases h
      · next first rest hcands =>
        have hfirst : first ∈ common.filter KVCacheLayout.isBlockCompact := hcands ▸ mem_cons_self ..
        split at h
        · split_ifs at h with hin
          · exact pure_eq_ok.1 h ▸ hin
        · obtain rfl := pure_eq_ok.1 h
          split_ifs with hin
          · exact hin
          · exact hfirst
        · exact pure_eq_ok.1 h ▸ hfirst
    exact (mem_filter.1 hmem).2
  · right
    intro s hs s' hs'
    exact Grouping.eq_of_dedup_length_le_one (by omega) (mem_map_of_mem hs) (mem_map_of_mem hs')

theorem headSlots_eq (hwf : WellFormed given groups) (hlayout : resolveKvCacheLayout req given = .ok layout)
    (hg : g ∈ groups) (hg' : g' ∈ groups) {s s' : LayerSpec} (hs : s ∈ layerSpecs g) (hs' : s' ∈ layerSpecs g') :
    headSlots layout s = headSlots layout s' := by
  unfold headSlots
  rcases resolveKvCacheLayout_ok hlayout with hc | hshape
  · rw [if_pos hc, if_pos hc]
  · obtain ⟨s₀, hs₀, heq⟩ := hwf.heads g hg s hs
    obtain ⟨s₁, hs₁, heq'⟩ := hwf.heads g' hg' s' hs'
    have : s₀.numHeads = s₁.numHeads := congrArg Prod.fst (hshape s₀ hs₀ s₁ hs₁)
    rw [heq, heq', this]

/-- A region plan: a byte belongs to one block, and in a group to one layer. -/
theorem regions_noOverlap (hwf : WellFormed given groups) (hlayout : resolveKvCacheLayout req given = .ok layout)
    (hconfig : regionConfig layout override groups available = .ok config) {a b : LayerName} {i j byte : Nat}
    (ha : Addresses config layout a i byte) (hb : Addresses config layout b j byte) :
    i = j ∧ (∀ g ∈ groups, a ∈ g.layerNames → b ∈ g.layerNames → a = b) ∧ ∀ t ∈ config.kvCacheTensors,
    byte < t.size := by
  obtain ⟨hvalid, -, hplaced⟩ := regionConfig_ok hconfig
  obtain ⟨-, hpages⟩ := validateKvCacheLayout_ok hvalid
  obtain ⟨g, hg, r, hr, l, hl, hs, hold⟩ := addresses_region hwf hconfig ha
  obtain ⟨g', hg', r', hr', l', hl', hs', hold'⟩ := addresses_region hwf hconfig hb
  have hin : ∀ {g r}, g ∈ groups → r ∈ regionsFrom 0 (layersBySpec g) →
      r.byteOffset + r.bytes ≤ bytesPerBlock groups := by
    intro g r hg hr
    have hend := (mem_regionsFrom hr).2.2
    have := hwf.totalBytes_le hg
    omega
  -- two regions of one group
  have hsame : g = g' → i = j ∧ a = b := by
    rintro rfl
    rcases regionsFrom_apart hr hr' with rfl | hsep | hsep
    · obtain ⟨rfl, rfl⟩ := hold.inj hold' (hin hg hr)
      exact ⟨rfl, Option.some.inj (hl.symm.trans hl')⟩
    · exact (hold.not_both hold' hsep (hin hg hr')).elim
    · exact (hold'.not_both hold hsep (hin hg hr)).elim
  refine ⟨?_, fun g₀ hg₀ hag hbg => ?_, fun t ht => ?_⟩
  · cases hout : layout.isBlockOutermost with
    | true => exact hold.block_of_outer hold' hout (hin hg hr) (hin hg' hr')
    | false =>
      rcases hpages with ⟨p, hp⟩ | ⟨hcompact, hfew⟩
      · have hdvd : ∀ {g r}, g ∈ groups → r ∈ regionsFrom 0 (layersBySpec g) → p ∣ r.byteOffset := by
          intro g r hg hr
          refine dvd_of_mem_regionsFrom (fun e he => ?_) (Nat.dvd_zero p) hr
          obtain ⟨name, hname⟩ := exists_mem_of_ne_nil e.2 (layersBySpec_ne_nil he)
          obtain ⟨hmem, hper⟩ := hwf.mem_layersBySpec hg he hname
          exact hp g hg _ (mem_layerSpecs hmem hper)
        exact hold.block_of_rows hold' hout ((hp g hg _ hs).trans (hp g' hg' _ hs').symm)
          (headSlots_eq hwf hlayout hg hg' hs hs') (hp g hg _ hs ▸ hdvd hg hr) (hp g' hg' _ hs' ▸ hdvd hg' hr')
      · -- the layers are outermost, so there is one group
        have hlayer : layout.isLayerCompact = true := by
          cases layout <;> first | rfl | cases hout
        have hone : groups.length ≤ 1 := by
          by_contra hlt
          exact hfew ⟨by omega, hlayer⟩
        obtain ⟨m, hm, hgm⟩ := mem_iff_getElem.1 hg
        obtain ⟨m', hm', hgm'⟩ := mem_iff_getElem.1 hg'
        obtain rfl : m = m' := by omega
        exact (hsame (hgm.symm.trans hgm')).1
  · have hname := (hwf.mem_layersBySpec hg (mem_regionsFrom hr).1 (mem_of_getElem? hl)).1
    have hname' := (hwf.mem_layersBySpec hg' (mem_regionsFrom hr').1 (mem_of_getElem? hl')).1
    exact (hsame ((hwf.group_unique hg hg₀ hname hag).trans (hwf.group_unique hg₀ hg' hbg hname'))).2
  · obtain ⟨g₁, hg₁, r₁, hr₁, hplace⟩ := hplaced t ht
    rw [(placeRegion_ok hplace).choose_spec.2.2.2.1]
    exact hold.lt_size (hin hg hr)

end Address

end VllmCore.MemoryPlan
