import VllmCore.Lib.OrderedDict

/-! # The ring buffer in shared memory

The window from `data_buffer_start` to `data_buffer_end` is at most one buffer length long. It is moved
back by whole lengths, while a chunk keeps the address it was allocated at; what stays is how far the
chunk is from the start of the window modulo the length. `free_buf` finds the next start by this
`offset`, and by it the live chunks are ordered. -/

namespace VllmCore
open List Dict

/-- `MD_SIZE`, the bytes for the id and the size in front of the data. -/
def mdSize : Nat := 8

def idMax : Nat := 2 ^ 31

inductive AllocateError where
  | assertionError | memoryError | overflowError

/-- The writer's side, for a buffer of `B` bytes; `sizeAt` is the size in the header at a byte. -/
structure ShmRingBuffer (B : Nat) where
  monotonicIdStart : Nat := 0
  monotonicIdEnd : Nat := 0
  dataBufferStart : Nat := 0
  dataBufferEnd : Nat := 0
  metadata : Dict Nat Nat := .empty
  sizeAt : Nat → Nat := fun _ => 0

structure Chunk where
  id : Nat
  address : Nat
  size : Nat

namespace ShmRingBuffer
variable {B : Nat} (b : ShmRingBuffer B)

/-- Where a chunk is put: at the end, or at the next multiple of the length if it would cross it. -/
def bufferEndReset (size : Nat) : Nat :=
  if B < b.dataBufferEnd % B + size then (b.dataBufferEnd / B + 1) * B else b.dataBufferEnd

/-- `allocate_buf`: the address and the id, and the buffer after the call. -/
def allocateBuf (size : Nat) : Except AllocateError (Nat × Nat) × ShmRingBuffer B :=
  if size = 0 then (.error .assertionError, b)
  else
    let size := size + mdSize
    let stop := b.bufferEndReset size
    if B + b.dataBufferStart < stop + size then (.error .memoryError, b)
    -- `int2byte` refuses the size when the end has already moved
    else if 2 ^ 31 ≤ size then (.error .overflowError, { b with dataBufferEnd := stop })
    else (.ok (stop, b.monotonicIdEnd),
      { b with
        metadata := b.metadata.set (b.monotonicIdEnd % idMax) stop
        sizeAt := Function.update b.sizeAt (stop % B) size
        dataBufferEnd := stop + size
        monotonicIdEnd := (b.monotonicIdEnd + 1) % idMax })

def freeFirst : ShmRingBuffer B :=
  let metadata := b.metadata.erase b.monotonicIdStart
  let monotonicIdStart := (b.monotonicIdStart + 1) % idMax
  match metadata.get? monotonicIdStart with
  | some address =>
    let step := ((address : Int) - b.dataBufferStart) % B
    { b with metadata, monotonicIdStart, dataBufferStart := b.dataBufferStart + step.toNat }
  | none => { b with metadata, monotonicIdStart, dataBufferStart := 0, dataBufferEnd := 0 }

/-- The loop of `free_buf`, with the ids that it deletes. Every round deletes one entry of `metadata`. -/
def freeLoop (isFree : Nat → Bool) (nbytes : Nat) : Nat → Nat → ShmRingBuffer B → List Nat × ShmRingBuffer B
  | 0, _, b => ([], b)
  | fuel + 1, freedBytes, b =>
    match b.metadata.get? b.monotonicIdStart with
    | none => ([], b)
    | some address =>
      if freedBytes < nbytes ∧ isFree b.monotonicIdStart then
        let (freed, b') := freeLoop isFree nbytes fuel (freedBytes + b.sizeAt (address % B)) b.freeFirst
        (b.monotonicIdStart :: freed, b')
      else ([], b)

def rebase : ShmRingBuffer B :=
  if B ≤ b.dataBufferStart then
    { b with dataBufferStart := b.dataBufferStart - B, dataBufferEnd := b.dataBufferEnd - B }
  else b

def idRange (before after : Nat) : List Nat :=
  if before ≤ after then range' before (after - before) else range' before (idMax - before) ++ range after

/-- `free_buf`: the ids that it returns, the ids that it deleted, and the buffer after the call. -/
def freeBuf (isFree : Nat → Bool) (nbytes : Option Nat) : List Nat × List Nat × ShmRingBuffer B :=
  let (freed, b') := freeLoop isFree (nbytes.getD B) b.metadata.entries.length 0 b
  (idRange b.monotonicIdStart b'.monotonicIdStart, freed, b'.rebase)

def allocated (size : Nat) : Except AllocateError (Nat × Nat) → List Chunk
  | .ok (address, id) => [⟨id, address, size + mdSize⟩]
  | .error _ => []

/-! ### Offsets -/

def offset (B start : Nat) (c : Chunk) : Nat := (((c.address : Int) - start) % B).toNat

def Apart (B : Nat) (c d : Chunk) : Prop :=
  c.address % B + c.size ≤ d.address % B ∨ d.address % B + d.size ≤ c.address % B

variable {b} {c d : Chunk} {cs live : List Chunk} {n size start k : Nat}

theorem offset_eq {v : Nat} {k : Int} (hv : v < B) (h : (c.address : Int) = start + v + B * k) :
    offset B start c = v := by
  rw [offset, h, show (start + v + B * k - start : Int) = v + B * k by ring, Int.add_mul_emod_self_left,
    Int.emod_eq_of_lt (by omega) (by omega), Int.toNat_natCast]

section
variable (hB : 0 < B)
include hB

theorem offset_spec (start : Nat) (c : Chunk) :
    offset B start c < B ∧ ∃ k : Int, (c.address : Int) = start + offset B start c + B * k := by
  have h0 := Int.emod_nonneg ((c.address : Int) - start) (by omega : (B : Int) ≠ 0)
  have hlt := Int.emod_lt_of_pos ((c.address : Int) - start) (by omega : 0 < (B : Int))
  have hdiv := Int.emod_add_mul_ediv ((c.address : Int) - start) B
  refine ⟨by unfold offset; omega, ((c.address : Int) - start) / B, ?_⟩
  rw [offset, Int.toNat_of_nonneg h0]
  omega

theorem address_mod (start : Nat) (c : Chunk) : c.address % B = (start + offset B start c) % B := by
  obtain ⟨-, k, hk⟩ := offset_spec hB start c
  have h : (c.address : Int) % B = (start + offset B start c) % B := by
    rw [hk, Int.add_mul_emod_self_left]
  exact_mod_cast h

theorem apart_of_offset (hcd : offset B start c + c.size ≤ offset B start d)
    (hd : offset B start d + d.size ≤ offset B start c + B) : Apart B c d := by
  obtain ⟨t, ht⟩ := Nat.exists_eq_add_of_le (Nat.le_of_add_right_le hcd)
  have hmod : d.address % B = (c.address % B + t) % B := by
    rw [address_mod hB start d, address_mod hB start c, ht, Nat.mod_add_mod, Nat.add_assoc]
  have hlt := Nat.mod_lt c.address hB
  unfold Apart
  rw [hmod]
  by_cases hin : c.address % B + t < B
  · rw [Nat.mod_eq_of_lt hin]
    omega
  · rw [Nat.mod_eq_sub_mod (Nat.le_of_not_lt hin), Nat.mod_eq_of_lt (a := _ - B) (by omega)]
    omega

end

/-! ### The invariant -/

/-- `live` are the chunks that are allocated and not freed, and `n` were freed before. -/
structure Inv (b : ShmRingBuffer B) (live : List Chunk) (n : Nat) : Prop where
  idStart : b.monotonicIdStart = n % idMax
  idEnd : b.monotonicIdEnd = (n + live.length) % idMax
  ids : live.map Chunk.id = (range' n live.length).map (· % idMax)
  metadata : b.metadata.entries = live.map fun c => (c.id, c.address)
  le : b.dataBufferStart ≤ b.dataBufferEnd
  length : b.dataBufferEnd ≤ b.dataBufferStart + B
  fits : ∀ c ∈ live, mdSize < c.size ∧ c.address % B + c.size ≤ B ∧
    b.dataBufferStart + offset B b.dataBufferStart c + c.size ≤ b.dataBufferEnd
  ordered : live.Pairwise fun c d => offset B b.dataBufferStart c + c.size ≤ offset B b.dataBufferStart d

namespace Inv

theorem empty : Inv ({} : ShmRingBuffer B) [] 0 :=
  ⟨rfl, rfl, rfl, rfl, Nat.le_refl _, Nat.zero_le _, (fun _ hm => by cases hm), .nil⟩

theorem get?_first (hids : live.map Chunk.id = (range' n live.length).map (· % idMax)) :
    (live.map fun c => (c.id, c.address)).lookup (n % idMax) = live.head?.map Chunk.address := by
  cases live with
  | nil => rfl
  | cons c cs =>
    obtain ⟨hc, -⟩ := cons.inj hids
    simp [← hc]

theorem nodup (h : Inv b live n) : (live.map Chunk.id).Nodup := by
  have hnd := b.metadata.nodup
  rwa [h.metadata, List.map_map] at hnd

theorem count (h : Inv b live n) : b.dataBufferStart + 9 * live.length ≤ b.dataBufferEnd := by
  have hsum : ∀ (l : List Chunk) (m : Nat), l.Sublist live → (∀ c ∈ l, m ≤ offset B b.dataBufferStart c) →
      b.dataBufferStart + m ≤ b.dataBufferEnd → b.dataBufferStart + m + 9 * l.length ≤ b.dataBufferEnd := by
    intro l
    induction l with
    | nil => exact fun m _ _ hm => hm
    | cons c l ih =>
      intro m hl hlow _
      obtain ⟨hsize, -, hstop⟩ := h.fits c (hl.subset (mem_cons_self ..))
      have hm := hlow c (mem_cons_self ..)
      have hc := (pairwise_cons.1 (h.ordered.sublist hl)).1
      unfold mdSize at hsize
      have hrest := ih (m + 9) ((sublist_cons_self ..).trans hl) (fun d hd => by have := hc d hd; omega) (by omega)
      rw [length_cons]
      omega
  exact hsum live 0 (.refl _) (fun _ _ => Nat.zero_le _) h.le

theorem rebase (h : Inv b live n) : Inv b.rebase live n := by
  unfold ShmRingBuffer.rebase
  split
  · next hwrap =>
    have hle := h.le
    have hlen := h.length
    have hoff : offset B (b.dataBufferStart - B) = offset B b.dataBufferStart := by
      funext c
      rw [offset, Nat.cast_sub hwrap, ← sub_add, Int.add_emod_right, offset]
    refine ⟨h.idStart, h.idEnd, h.ids, h.metadata, by dsimp only; omega, by dsimp only; omega, fun c hc => ?_, ?_⟩
    · obtain ⟨hsize, hfits, hstop⟩ := h.fits c hc
      refine ⟨hsize, hfits, ?_⟩
      dsimp only
      rw [hoff]
      omega
    · dsimp only
      rw [hoff]
      exact h.ordered
  · exact h

variable (hB : 0 < B)
include hB

theorem apart (h : Inv b live n) : live.Pairwise (Apart B) := by
  refine h.ordered.imp_of_mem fun _ hd hcd => ?_
  have hle := (h.fits _ hd).2.2
  have hlen := h.length
  exact apart_of_offset hB hcd (by omega)

theorem bufferEndReset (hle : b.dataBufferStart ≤ b.dataBufferEnd)
    (hfree : ¬ B + b.dataBufferStart < b.bufferEndReset size + size) :
    b.dataBufferEnd ≤ b.bufferEndReset size ∧ b.bufferEndReset size % B + size ≤ B := by
  unfold ShmRingBuffer.bufferEndReset at *
  split at hfree
  · next hreset =>
    have hlt := Nat.lt_mul_div_succ b.dataBufferEnd hB
    rw [Nat.mul_comm] at hlt
    rw [if_pos hreset, Nat.mul_mod_left]
    omega
  · next hfit =>
    rw [if_neg hfit]
    omega

theorem allocateBuf (h : Inv b live n) (hfew : live.length < idMax) (size : Nat) :
    Inv (b.allocateBuf size).2 (live ++ allocated size (b.allocateBuf size).1) n := by
  have hle := h.le
  unfold ShmRingBuffer.allocateBuf
  dsimp only
  split_ifs with hsize hfull hbig
  · exact (append_nil live).symm ▸ h
  · exact (append_nil live).symm ▸ h
  · obtain ⟨hend, -⟩ := bufferEndReset hB hle hfull
    rw [allocated, append_nil]
    refine ⟨h.idStart, h.idEnd, h.ids, h.metadata, hle.trans hend, by dsimp only; omega, fun c hc => ?_, h.ordered⟩
    obtain ⟨hsize, hfits, hstop⟩ := h.fits c hc
    exact ⟨hsize, hfits, hstop.trans hend⟩
  · obtain ⟨hend, hroom⟩ := bufferEndReset hB hle hfull
    generalize b.bufferEndReset (size + mdSize) = stop at *
    have hoff : offset B b.dataBufferStart ⟨b.monotonicIdEnd, stop, size + mdSize⟩ = stop - b.dataBufferStart :=
      offset_eq (k := 0) (by unfold mdSize at *; omega) (by dsimp only; omega)
    have hmod : b.monotonicIdEnd % idMax = b.monotonicIdEnd := by rw [h.idEnd, Nat.mod_mod]
    -- the id is not in use
    have hnew : b.metadata.get? (b.monotonicIdEnd % idMax) = none := by
      have hids : b.metadata.keys = live.map Chunk.id := by rw [Dict.keys, h.metadata, List.map_map]; rfl
      rw [get?_eq_none_iff, hids, h.ids, hmod, h.idEnd, List.mem_map]
      rintro ⟨i, hi, heq⟩
      have hi := mem_range'_1.1 hi
      have := Nat.eq_zero_of_dvd_of_lt (Nat.dvd_of_mod_eq_zero (Nat.sub_mod_eq_zero_of_mod_eq heq.symm)) (by omega)
      omega
    refine ⟨h.idStart, ?_, ?_, ?_, by dsimp only; omega, by dsimp only; omega, ?_, ?_⟩
    · dsimp only
      rw [h.idEnd, Nat.mod_add_mod, allocated, length_append, length_singleton, Nat.add_assoc]
    · rw [allocated, map_append, h.ids, length_append, length_singleton, range'_1_concat, map_append, map_singleton,
        map_singleton, h.idEnd]
    · dsimp only
      rw [entries_set_of_none hnew, h.metadata, map_append, hmod]
      rfl
    · intro c hc
      rcases mem_append.1 hc with hc | hc
      · obtain ⟨hsize, hfits, hstop⟩ := h.fits c hc
        exact ⟨hsize, hfits, hstop.trans (by dsimp only; omega)⟩
      · rw [mem_singleton.1 hc]
        refine ⟨by dsimp only; omega, hroom, ?_⟩
        dsimp only
        rw [hoff]
        omega
    · refine pairwise_append.2 ⟨h.ordered, pairwise_singleton .., fun c hc d hd => ?_⟩
      have hstop := (h.fits c hc).2.2
      rw [mem_singleton.1 hd, hoff]
      dsimp only
      omega

theorem freeFirst (h : Inv b (c :: cs) n) : Inv b.freeFirst cs (n + 1) := by
  obtain ⟨hc, hids⟩ := cons.inj h.ids
  obtain ⟨-, hord⟩ := pairwise_cons.1 h.ordered
  have hmeta : (b.metadata.erase b.monotonicIdStart).entries = cs.map fun c => (c.id, c.address) := by
    have hnd := h.nodup
    rw [map_cons, nodup_cons] at hnd
    show b.metadata.entries.filter _ = _
    rw [h.metadata, h.idStart.trans hc.symm, map_cons, filter_cons_of_neg (by simp), filter_eq_self]
    intro e he
    obtain ⟨d, hd, rfl⟩ := List.mem_map.1 he
    simpa using fun heq : d.id = c.id => hnd.1 (heq ▸ mem_map_of_mem hd)
  have hid : (b.monotonicIdStart + 1) % idMax = (n + 1) % idMax := by rw [h.idStart, Nat.mod_add_mod]
  have hend : b.monotonicIdEnd = (n + 1 + cs.length) % idMax := by
    rw [h.idEnd, length_cons, Nat.add_right_comm, Nat.add_assoc]
  unfold ShmRingBuffer.freeFirst
  dsimp only
  rw [hid, Dict.get?, hmeta, get?_first hids]
  cases cs with
  | nil => exact ⟨rfl, hend, hids, hmeta, Nat.le_refl _, Nat.zero_le _, (fun _ hm => by cases hm), .nil⟩
  | cons d ds =>
    have hlen := h.length
    have hstop := (h.fits d (by simp)).2.2
    -- the start moves by the offset of the next chunk, and so the others come nearer by as much
    have hoff : ∀ e ∈ d :: ds, offset B b.dataBufferStart d ≤ offset B b.dataBufferStart e ∧
        offset B (b.dataBufferStart + offset B b.dataBufferStart d) e =
          offset B b.dataBufferStart e - offset B b.dataBufferStart d := by
      intro e he
      have hle : offset B b.dataBufferStart d ≤ offset B b.dataBufferStart e := by
        rcases mem_cons.1 he with rfl | he
        · exact Nat.le_refl _
        · exact Nat.le_of_add_right_le ((pairwise_cons.1 hord).1 e he)
      obtain ⟨hlt, k, hk⟩ := offset_spec hB b.dataBufferStart e
      exact ⟨hle, offset_eq (k := k) (by omega) (by rw [hk]; push_cast [hle]; ring)⟩
    show Inv { b with
      metadata := _, monotonicIdStart := _, dataBufferStart := b.dataBufferStart + offset B b.dataBufferStart d } _ _
    refine ⟨rfl, hend, hids, hmeta, by dsimp only; omega, by dsimp only; omega, fun e he => ?_,
      hord.imp_of_mem fun {e f} he hf hef => ?_⟩
    · obtain ⟨hsize, hfit, hstop⟩ := h.fits e (mem_cons_of_mem _ he)
      obtain ⟨hle, he⟩ := hoff e he
      exact ⟨hsize, hfit, by dsimp only; omega⟩
    · have he := hoff e he
      have hf := hoff f hf
      dsimp only
      omega

theorem freeLoop (isFree : Nat → Bool) (nbytes freedBytes : Nat) {fuel : Nat} (h : Inv b live n)
    (hfuel : live.length ≤ fuel) :
    ∃ k ≤ live.length, (freeLoop isFree nbytes fuel freedBytes b).1 = (live.take k).map Chunk.id ∧
      Inv (freeLoop isFree nbytes fuel freedBytes b).2 (live.drop k) (n + k) ∧
      ((∀ id, isFree id = true) → (∀ x, b.sizeAt x ≤ 9) → freedBytes + 9 * live.length ≤ nbytes →
        k = live.length) := by
  induction live generalizing fuel freedBytes b n with
  | nil =>
    refine ⟨0, Nat.le_refl _, ?_⟩
    cases fuel with
    | zero => exact ⟨rfl, h, fun _ _ _ => rfl⟩
    | succ fuel =>
      rw [ShmRingBuffer.freeLoop, Dict.get?, h.metadata]
      exact ⟨rfl, h, fun _ _ _ => rfl⟩
  | cons c cs ih =>
    obtain ⟨fuel, rfl⟩ := Nat.exists_eq_add_of_le' (Nat.le_trans (Nat.succ_pos _) hfuel)
    rw [ShmRingBuffer.freeLoop, Dict.get?, h.metadata, h.idStart, get?_first h.ids]
    dsimp only [head?_cons, Option.map_some]
    split_ifs with hgo
    · obtain ⟨k, hk, hfreed, hinv, hall⟩ := ih (freedBytes + b.sizeAt (c.address % B)) (h.freeFirst hB)
        (Nat.le_of_succ_le_succ hfuel)
      refine ⟨k + 1, Nat.succ_le_succ hk, ?_, ?_, fun hfree hsize hbytes => ?_⟩
      · rw [take_succ_cons, map_cons, ← hfreed, (cons.inj h.ids).1]
      · rw [drop_succ_cons, Nat.add_comm k, ← Nat.add_assoc]
        exact hinv
      · have hsame : b.freeFirst.sizeAt = b.sizeAt := by
          unfold ShmRingBuffer.freeFirst
          dsimp only
          split <;> rfl
        have hc := hsize (c.address % B)
        rw [length_cons] at hbytes ⊢
        rw [hall hfree (hsame ▸ hsize) (by omega)]
    · refine ⟨0, Nat.zero_le _, rfl, h, fun hfree _ hbytes => absurd ⟨?_, hfree _⟩ hgo⟩
      rw [length_cons] at hbytes
      omega

end Inv

/-- Fewer than `ID_MAX` ids are given back by the counter before and after them. -/
theorem idRange_eq (n : Nat) (hk : k < idMax) :
    idRange (n % idMax) ((n + k) % idMax) = (range' n k).map (· % idMax) := by
  have hn : n % idMax < idMax := Nat.mod_lt _ (by decide)
  have hmod : (range' n k).map (· % idMax) = (range' (n % idMax) k).map (· % idMax) := by
    simp only [range'_eq_map_range, List.map_map]
    exact map_congr_left fun i _ => (Nat.mod_add_mod ..).symm
  rw [hmod, ← Nat.mod_add_mod n]
  generalize n % idMax = a at *
  have hlow : ∀ j, a + j ≤ idMax → (range' a j).map (· % idMax) = range' a j := by
    intro j hj
    refine (map_congr_left fun i hi => ?_).trans (List.map_id _)
    have := mem_range'_1.1 hi
    exact Nat.mod_eq_of_lt (by omega)
  unfold idRange
  by_cases hwrap : a + k < idMax
  · rw [Nat.mod_eq_of_lt hwrap, if_pos (by omega), hlow k hwrap.le, Nat.add_sub_cancel_left]
  · obtain ⟨j, rfl⟩ : ∃ j, k = idMax - a + j := ⟨a + k - idMax, by omega⟩
    have hhigh : ∀ i ≤ j, (idMax + i) % idMax = i := by
      intro i hi
      rw [Nat.add_mod_left, Nat.mod_eq_of_lt (by omega)]
    have ha : a + (idMax - a) = idMax := by omega
    rw [← Nat.add_assoc, ha, hhigh j (Nat.le_refl _), if_neg (by omega), ← range'_append_1, map_append,
      hlow _ ha.le, ha, range'_eq_map_range (s := idMax), List.map_map]
    exact congrArg _ ((List.map_id _).symm.trans (map_congr_left fun i hi => (hhigh i (mem_range.1 hi).le).symm))

/-! ### Runs -/

inductive Op where
  | allocate (size : Nat)
  | free (isFree : Nat → Bool) (nbytes : Option Nat)

structure Writer (B : Nat) where
  ring : ShmRingBuffer B := {}
  live : List Chunk := []

def Writer.step (w : Writer B) : Op → Writer B
  | .allocate size =>
    let (result, ring) := w.ring.allocateBuf size
    { ring, live := w.live ++ allocated size result }
  | .free isFree nbytes =>
    let (_, freed, ring) := w.ring.freeBuf isFree nbytes
    { ring, live := w.live.filter fun c => c.id ∉ freed }

def run (B : Nat) (ops : List Op) : Writer B := ops.foldl Writer.step {}

theorem filter_not_mem_take (h : (live.map Chunk.id).Nodup) :
    live.filter (fun c => c.id ∉ (live.take k).map Chunk.id) = live.drop k := by
  have hsplit := take_append_drop k live
  generalize live.take k = front, live.drop k = back at *
  subst hsplit
  rw [map_append, nodup_append] at h
  rw [filter_append, filter_eq_nil_iff.2 fun c hc => by simpa using ⟨c, hc, rfl⟩, nil_append, filter_eq_self]
  intro c hc
  simpa using fun d hd heq => h.2.2 _ (mem_map_of_mem hd) _ (mem_map_of_mem hc) heq

theorem freeBuf_spec {w : Writer B} (hB : 0 < B) (h : Inv w.ring w.live n) (isFree : Nat → Bool) (nbytes : Option Nat) :
    ∃ k ≤ w.live.length, (w.ring.freeBuf isFree nbytes).2.1 = (w.live.take k).map Chunk.id ∧
      (w.step (.free isFree nbytes)).live = w.live.drop k ∧
      (w.ring.freeBuf isFree nbytes).1 = idRange (n % idMax) ((n + k) % idMax) ∧
      Inv (w.step (.free isFree nbytes)).ring (w.live.drop k) (n + k) ∧
      ((∀ id, isFree id = true) → (∀ x, w.ring.sizeAt x ≤ 9) → 9 * w.live.length ≤ nbytes.getD B →
        k = w.live.length) := by
  have hfuel : w.live.length ≤ w.ring.metadata.entries.length := by rw [h.metadata, length_map]
  obtain ⟨k, hk, hfreed, hinv, hall⟩ := h.freeLoop hB isFree (nbytes.getD B) 0 hfuel
  refine ⟨k, hk, hfreed, ?_, ?_, hinv.rebase, fun hfree hsize hbytes => hall hfree hsize (by omega)⟩
  · rw [← filter_not_mem_take h.nodup, ← hfreed]
    rfl
  · rw [← h.idStart, ← hinv.idStart]
    rfl

theorem Inv.step {w : Writer B} (hB : 0 < B) (h : Inv w.ring w.live n) (hfew : w.live.length < idMax) (op : Op) :
    ∃ n', Inv (w.step op).ring (w.step op).live n' := by
  cases op with
  | allocate size => exact ⟨n, h.allocateBuf hB hfew size⟩
  | free isFree nbytes =>
    obtain ⟨k, -, -, hlive, -, hinv, -⟩ := freeBuf_spec hB h isFree nbytes
    exact ⟨n + k, hlive ▸ hinv⟩

/-- An id is given again only after `ID_MAX` others, so fewer chunks than that may be alive before each call. -/
theorem run_inv (hB : 0 < B) {ops : List Op} (hfew : ∀ pre, pre <+: ops → (run B pre).live.length < idMax) :
    ∃ n, Inv (run B ops).ring (run B ops).live n := by
  induction ops using List.reverseRecOn with
  | nil => exact ⟨0, .empty⟩
  | append_singleton ops op ih =>
    obtain ⟨n, h⟩ := ih fun pre hpre => hfew pre (hpre.trans (prefix_append ops [op]))
    rw [run, foldl_append]
    exact h.step hB (hfew ops (prefix_append ops [op])) op

/-- A buffer below `9 * ID_MAX` bytes has no room for `ID_MAX` chunks, each a header and a byte at least. -/
theorem run_length_lt (hB : 0 < B) (hmax : B < 9 * 2 ^ 31) (ops : List Op) : (run B ops).live.length < idMax := by
  have hlt {w : Writer B} {n : Nat} (h : Inv w.ring w.live n) : w.live.length < idMax := by
    have := h.count
    have := h.length
    unfold idMax
    omega
  have hinv : ∃ n, Inv (run B ops).ring (run B ops).live n := by
    refine foldlRecOn (motive := fun w : Writer B => ∃ n, Inv w.ring w.live n) ops Writer.step ⟨0, .empty⟩ ?_
    rintro w ⟨n, h⟩ op -
    exact h.step hB (hlt h) op
  obtain ⟨n, h⟩ := hinv
  exact hlt h

/-- The live chunks lie inside the buffer and share no byte; `free_buf` frees the oldest ones and
returns their ids; a `MemoryError` changes nothing. -/
theorem live_chunks_disjoint (hB : 0 < B) (ops : List Op)
    (hfew : ∀ pre, pre <+: ops → (run B pre).live.length < idMax) :
    (∀ c ∈ (run B ops).live, c.address % B + c.size ≤ B) ∧ (run B ops).live.Pairwise (Apart B) ∧
      (∀ isFree nbytes, ((run B ops).ring.freeBuf isFree nbytes).1 = ((run B ops).ring.freeBuf isFree nbytes).2.1 ∧
        ∃ k, ((run B ops).ring.freeBuf isFree nbytes).2.1 = ((run B ops).live.take k).map Chunk.id ∧
          (run B (ops ++ [.free isFree nbytes])).live = (run B ops).live.drop k) ∧
      ∀ size ring, (run B ops).ring.allocateBuf size = (.error .memoryError, ring) → ring = (run B ops).ring := by
  obtain ⟨n, h⟩ := run_inv hB hfew
  refine ⟨fun c hc => (h.fits c hc).2.1, h.apart hB, fun isFree nbytes => ?_, fun size ring ha => ?_⟩
  · obtain ⟨k, hk, hfreed, hlive, hret, -⟩ := freeBuf_spec hB h isFree nbytes
    refine ⟨?_, k, hfreed, by rw [run, foldl_append]; exact hlive⟩
    rw [hret, hfreed, idRange_eq n (hk.trans_lt (hfew ops (prefix_refl ops))), map_take, h.ids, ← map_take]
    simp only [range'_eq_map_range, ← map_take, take_range, Nat.min_eq_left hk]
  · unfold allocateBuf at ha
    dsimp only at ha
    split_ifs at ha <;> cases ha
    rfl

/-- The first chunk is freed and the third does not fit behind the second: it wraps to the start of the buffer. -/
def wrapping : List Op :=
  [.allocate 20, .allocate 50, .free (fun _ => true) (some 1), .allocate 10, .allocate 30]

theorem live_chunks_disjoint_hundred : 0 < 100 ∧ (∀ pre, pre <+: wrapping → (run 100 pre).live.length < idMax) ∧
    (run 100 wrapping).live = [⟨1, 28, 58⟩, ⟨2, 100, 18⟩] ∧ (run 100 wrapping).live.Pairwise (Apart 100) :=
  have hfew pre (_ : pre <+: wrapping) := run_length_lt (by decide : 0 < 100) (by decide) pre
  ⟨by decide, hfew, rfl, (live_chunks_disjoint (by decide) wrapping hfew).2.1⟩

structure Filled (w : Writer (9 * 2 ^ 31)) (m : Nat) : Prop where
  inv : Inv w.ring w.live 0
  length : w.live.length = m
  start : w.ring.dataBufferStart = 0
  stop : w.ring.dataBufferEnd = 9 * m
  size : ∀ x, w.ring.sizeAt x ≤ 9

theorem Filled.allocate {w : Writer (9 * 2 ^ 31)} {m : Nat} (h : Filled w m) (hm : m < 2 ^ 31) :
    Filled (w.step (.allocate 1)) (m + 1) := by
  have hset : w.ring.bufferEndReset (1 + mdSize) = 9 * m := by
    rw [bufferEndReset, h.stop, Nat.mod_eq_of_lt (by omega), if_neg (by unfold mdSize; omega)]
  obtain ⟨ring, halloc, hstart, hstop, hsize⟩ : ∃ ring,
      w.ring.allocateBuf 1 = (.ok (9 * m, w.ring.monotonicIdEnd), ring) ∧
      ring.dataBufferStart = 0 ∧ ring.dataBufferEnd = 9 * m + 9 ∧
      ring.sizeAt = Function.update w.ring.sizeAt (9 * m % (9 * 2 ^ 31)) 9 := by
    rw [allocateBuf, if_neg (by decide)]
    dsimp only
    rw [hset, h.start, if_neg (by unfold mdSize; omega), if_neg (by decide)]
    exact ⟨_, rfl, rfl, rfl, rfl⟩
  have hinv := h.inv.allocateBuf (by decide) (by rw [h.length]; exact hm) 1
  rw [halloc] at hinv
  simp only [Writer.step, halloc]
  refine ⟨hinv, by rw [allocated, length_append, h.length]; rfl, hstart, hstop, fun x => ?_⟩
  dsimp only
  rw [hsize, Function.update_apply]
  split
  · exact Nat.le_refl _
  · exact h.size x

/-- With `ID_MAX` chunks alive the counter is back where it was when all are freed, and `free_buf` returns no id. -/
theorem ids_run_out : ∃ ops isFree nbytes, ((run (9 * 2 ^ 31) ops).ring.freeBuf isFree nbytes).1 ≠
    ((run (9 * 2 ^ 31) ops).ring.freeBuf isFree nbytes).2.1 := by
  have hfill : ∀ m ≤ 2 ^ 31, Filled (run (9 * 2 ^ 31) (replicate m (.allocate 1))) m := by
    intro m hm
    induction m with
    | zero =>
      exact ⟨.empty, rfl, rfl, rfl, fun _ => Nat.zero_le _⟩
    | succ m ih =>
      rw [replicate_succ', run, foldl_append]
      exact (ih (by omega)).allocate hm
  obtain ⟨hinv, hlen, -, -, hsize⟩ := hfill (2 ^ 31) (Nat.le_refl _)
  refine ⟨replicate (2 ^ 31) (.allocate 1), fun _ => true, none, ?_⟩
  generalize run (9 * 2 ^ 31) (replicate (2 ^ 31) (.allocate 1)) = w at *
  obtain ⟨k, -, hfreed, -, hret, -, hall⟩ := freeBuf_spec (by decide) hinv (fun _ => true) none
  obtain rfl := hall (fun _ => rfl) hsize (by rw [hlen]; exact Nat.le_refl _)
  rw [hret, hfreed, take_length, hlen]
  intro hnil
  have hzero := congrArg List.length hnil
  rw [length_map, hlen] at hzero
  exact absurd hzero (by decide)

end ShmRingBuffer
end VllmCore
