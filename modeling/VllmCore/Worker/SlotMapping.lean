import VllmCore.Core.Request

/-! # Slots under decode context parallelism

A virtual block of `kv_cache_block_size * dcp_world_size` positions is one KV block on every rank: chunks
of `cp_kv_cache_interleave_size` positions are dealt to the ranks in turn. The slot kernel finds a
position's rank and place through the virtual block, the kernel blocks its KV block was split into and
the block table; `get_dcp_local_seq_lens` counts the positions of a rank by a formula of its own. -/

namespace VllmCore.Worker

open Function List

/-- The sizes of a block table, as `validate_block_size` and `BlockTable.__init__` admit them. -/
structure CpSizes where
  kvCacheBlockSize : Nat
  /-- `block_size`: the block size of the attention kernel. -/
  blockSize : Nat
  dcpWorldSize : Nat
  cpKvCacheInterleaveSize : Nat
  kvCacheBlockSize_pos : 0 < kvCacheBlockSize
  dcpWorldSize_pos : 0 < dcpWorldSize
  blockSize_dvd : blockSize ∣ kvCacheBlockSize
  interleave_dvd : cpKvCacheInterleaveSize ∣ kvCacheBlockSize

/-- The buffers. Columns past `num_blocks_per_row` hold what earlier rows left there. -/
structure BlockTable where
  blockTable : Nat → Nat → Nat := fun _ _ => 0
  numBlocksPerRow : Nat → Nat := fun _ => 0

def mapToKernelBlocks (kvManagerBlockIds : List BlockId) (blocksPerKvBlock : Nat) : List Nat :=
  if blocksPerKvBlock = 1 then kvManagerBlockIds
  else kvManagerBlockIds.flatMap fun id => (List.range blocksPerKvBlock).map (id * blocksPerKvBlock + ·)

def padSlotId : Int := -1

inductive RowCall
  | addRow (blockIds : List BlockId) (rowIdx : Nat)
  | appendRow (blockIds : List BlockId) (rowIdx : Nat)

namespace CpSizes
variable (c : CpSizes)

def useHybridBlocks : Prop := c.blockSize ≠ c.kvCacheBlockSize

instance : Decidable c.useHybridBlocks := inferInstanceAs (Decidable (_ ≠ _))

def blocksPerKvBlock : Nat := if c.useHybridBlocks then c.kvCacheBlockSize / c.blockSize else 1

def appendRow (t : BlockTable) (blockIds : List BlockId) (rowIdx : Nat) : BlockTable :=
  if blockIds = [] then t
  else
    let ids := if c.useHybridBlocks then mapToKernelBlocks blockIds c.blocksPerKvBlock else blockIds
    let start := t.numBlocksPerRow rowIdx
    let row := fun i => if start ≤ i then ids.getD (i - start) (t.blockTable rowIdx i) else t.blockTable rowIdx i
    { numBlocksPerRow := update t.numBlocksPerRow rowIdx (start + ids.length)
      blockTable := update t.blockTable rowIdx row }

def addRow (t : BlockTable) (blockIds : List BlockId) (rowIdx : Nat) : BlockTable :=
  c.appendRow { t with numBlocksPerRow := update t.numBlocksPerRow rowIdx 0 } blockIds rowIdx

def fill (t : BlockTable) : RowCall → BlockTable
  | .addRow ids i => c.addRow t ids i
  | .appendRow ids i => c.appendRow t ids i

def virtualBlockSize : Nat := c.kvCacheBlockSize * c.dcpWorldSize

def virtualBlockIndex (pos : Nat) : Nat := pos / c.virtualBlockSize

def virtualBlockOffset (pos : Nat) : Nat := pos - c.virtualBlockIndex pos * c.virtualBlockSize

def isLocal (rank pos : Nat) : Prop :=
  c.virtualBlockOffset pos / c.cpKvCacheInterleaveSize % c.dcpWorldSize = rank

instance (rank pos : Nat) : Decidable (c.isLocal rank pos) := inferInstanceAs (Decidable (_ = _))

def localBlockOffset (pos : Nat) : Nat :=
  c.virtualBlockOffset pos / (c.dcpWorldSize * c.cpKvCacheInterleaveSize) * c.cpKvCacheInterleaveSize +
    c.virtualBlockOffset pos % c.cpKvCacheInterleaveSize

def blockIndex (pos : Nat) : Nat :=
  c.virtualBlockIndex pos * c.blocksPerKvBlock + c.localBlockOffset pos / c.blockSize

def slotOffset (pos : Nat) : Nat := c.localBlockOffset pos % c.blockSize

def slotId (rank : Nat) (t : BlockTable) (req pos : Nat) : Int :=
  if c.isLocal rank pos then (t.blockTable req (c.blockIndex pos) * c.blockSize + c.slotOffset pos : Nat)
  else padSlotId

/-- The program of request `req`; it goes through its tokens in pieces, masked at `end_idx`. -/
def kernel (rank : Nat) (t : BlockTable) (queryStartLoc positions : Nat → Nat) (slotMapping : Nat → Int)
    (req : Nat) : Nat → Int := fun i =>
  if queryStartLoc req ≤ i ∧ i < queryStartLoc (req + 1) then c.slotId rank t req (positions i) else slotMapping i

/-- The programs write disjoint ranges, the last one the padding. -/
def computeSlotMapping (rank : Nat) (t : BlockTable) (numReqs numTokens maxNumTokens : Nat)
    (queryStartLoc positions : Nat → Nat) (slotMapping : Nat → Int) : Nat → Int := fun i =>
  if numTokens ≤ i ∧ i < maxNumTokens then padSlotId
  else (List.range numReqs).foldl (c.kernel rank t queryStartLoc positions) slotMapping i

end CpSizes

/-- `get_dcp_local_seq_lens` of one length, on one rank; the tensor's int32 is left out. -/
def getDcpLocalSeqLen (seqLen dcpSize cpKvCacheInterleaveSize dcpRank : Nat) : Int :=
  let base : Nat := seqLen / cpKvCacheInterleaveSize / dcpSize * cpKvCacheInterleaveSize
  let remainder : Int := seqLen - base * dcpSize
  base + min (max (remainder - dcpRank * cpKvCacheInterleaveSize) 0) cpKvCacheInterleaveSize

def getDcpLocalSeqLens (seqLen dcpSize cpKvCacheInterleaveSize : Nat) : List Int :=
  (List.range dcpSize).map (getDcpLocalSeqLen seqLen dcpSize cpKvCacheInterleaveSize)

/-! ### Rows -/

def RowCall.give (held : Nat → List BlockId) : RowCall → Nat → List BlockId
  | addRow ids i => update held i ids
  | appendRow ids i => update held i (held i ++ ids)

theorem length_mapToKernelBlocks (ids : List BlockId) (k : Nat) :
    (mapToKernelBlocks ids k).length = ids.length * k := by
  rw [mapToKernelBlocks]
  split
  case isTrue hk => rw [hk, Nat.mul_one]
  case isFalse => simp [length_flatMap, Nat.mul_comm]

theorem getD_mapToKernelBlocks {k j d : Nat} (hj : j < k) (ids : List BlockId) (v : Nat) {id : BlockId}
    (hv : ids[v]? = some id) : (mapToKernelBlocks ids k).getD (v * k + j) d = id * k + j := by
  rw [mapToKernelBlocks]
  split
  case isTrue hk =>
    subst hk
    obtain rfl : j = 0 := by omega
    simp [getD_eq_getElem?_getD, hv]
  case isFalse =>
    induction ids generalizing v with
    | nil => simp at hv
    | cons x ids ih =>
      rw [flatMap_cons]
      have hlen : ((List.range k).map (x * k + ·)).length = k := by rw [length_map, length_range]
      cases v with
      | zero =>
        obtain rfl : x = id := by simpa using hv
        rw [Nat.zero_mul, Nat.zero_add, getD_append _ _ _ _ (by rwa [hlen])]
        simp [hj]
      | succ v =>
        rw [Nat.succ_mul, Nat.add_right_comm, getD_append_right _ _ _ _ (by rw [hlen]; omega), hlen, Nat.add_sub_cancel]
        exact ih v hv

namespace CpSizes
variable {c : CpSizes} {t : BlockTable} {held : Nat → List BlockId}

theorem blocksPerKvBlock_mul (c : CpSizes) : c.blocksPerKvBlock * c.blockSize = c.kvCacheBlockSize := by
  rw [blocksPerKvBlock]
  split
  case isTrue => exact Nat.div_mul_cancel c.blockSize_dvd
  case isFalse h => rw [Nat.one_mul, not_not.1 h]

/-- Row `i` holds the kernel blocks of `held i`. -/
def Rows (c : CpSizes) (t : BlockTable) (held : Nat → List BlockId) : Prop :=
  ∀ i, t.numBlocksPerRow i = (held i).length * c.blocksPerKvBlock ∧ ∀ v id, (held i)[v]? = some id →
    ∀ j < c.blocksPerKvBlock, t.blockTable i (v * c.blocksPerKvBlock + j) = id * c.blocksPerKvBlock + j

theorem kernelBlocks_eq (ids : List BlockId) :
    (if c.useHybridBlocks then mapToKernelBlocks ids c.blocksPerKvBlock else ids) =
      mapToKernelBlocks ids c.blocksPerKvBlock := by
  split
  case isTrue => rfl
  case isFalse hy => rw [mapToKernelBlocks, if_pos (by rw [blocksPerKvBlock, if_neg hy])]

theorem Rows.appendRow (h : c.Rows t held) (ids : List BlockId) (i : Nat) :
    c.Rows (c.appendRow t ids i) (update held i (held i ++ ids)) := by
  rw [CpSizes.appendRow]
  split
  case isTrue hnil => rwa [hnil, append_nil, update_eq_self]
  case isFalse =>
    simp only [kernelBlocks_eq]
    intro r
    by_cases hr : r = i
    case neg => simpa only [update_of_ne hr] using h r
    case pos =>
      subst hr
      obtain ⟨hn, hrow⟩ := h r
      generalize c.blocksPerKvBlock = k at *
      simp only [update_self, length_append, length_mapToKernelBlocks, hn, Nat.add_mul, true_and]
      intro v id hv j hj
      rcases Nat.lt_or_ge v (held r).length with hlt | hge
      · -- an old block: its columns lie before the start
        have := Nat.mul_le_mul_right k (show v + 1 ≤ _ from hlt)
        rw [Nat.succ_mul] at this
        rw [if_neg (by omega)]
        exact hrow v id (by rwa [getElem?_append_left hlt] at hv) j hj
      · rw [getElem?_append_right hge] at hv
        have := Nat.mul_le_mul_right k hge
        rw [if_pos (by omega), Nat.sub_add_comm this, ← Nat.sub_mul]
        exact getD_mapToKernelBlocks hj ids _ hv

theorem Rows.addRow (h : c.Rows t held) (ids : List BlockId) (i : Nat) :
    c.Rows (c.addRow t ids i) (update held i ids) := by
  have h0 : c.Rows { t with numBlocksPerRow := update t.numBlocksPerRow i 0 } (update held i []) := by
    intro r
    by_cases hr : r = i
    case pos => subst hr; simp
    case neg => simpa only [update_of_ne hr] using h r
  have h1 := h0.appendRow ids i
  rwa [update_self, nil_append, update_idem] at h1

theorem Rows.foldl (h : c.Rows t held) (calls : List RowCall) :
    c.Rows (calls.foldl c.fill t) (calls.foldl RowCall.give held) := by
  induction calls generalizing t held with
  | nil => exact h
  | cons a calls ih =>
    cases a with
    | addRow ids i => exact ih (h.addRow ids i)
    | appendRow ids i => exact ih (h.appendRow ids i)

/-! ### Places -/

section
variable (c) (p : Nat) {rank : Nat}

theorem interleave_pos : 0 < c.cpKvCacheInterleaveSize := Nat.pos_of_dvd_of_pos c.interleave_dvd c.kvCacheBlockSize_pos

theorem virtualBlockOffset_eq : c.virtualBlockOffset p = p % c.virtualBlockSize := by
  rw [virtualBlockOffset, virtualBlockIndex, Nat.mul_comm, Nat.mod_eq_sub_mul_div]

/-- The chunks of the whole sequence are dealt in turn: a virtual block has a whole number of rounds. -/
theorem isLocal_iff : c.isLocal rank p ↔ p / c.cpKvCacheInterleaveSize % c.dcpWorldSize = rank := by
  obtain ⟨n, hn⟩ := c.interleave_dvd
  rw [isLocal, virtualBlockOffset_eq, virtualBlockSize, hn, Nat.mul_assoc, Nat.mod_mul_right_div_self,
    Nat.mod_mul_left_mod]

/-- The place of `p` among the positions its rank stores. -/
def localOffset : Nat :=
  c.cpKvCacheInterleaveSize * (p / c.cpKvCacheInterleaveSize / c.dcpWorldSize) + p % c.cpKvCacheInterleaveSize

theorem localBlockOffset_spec : c.localBlockOffset p < c.kvCacheBlockSize ∧
    c.kvCacheBlockSize * c.virtualBlockIndex p + c.localBlockOffset p = c.localOffset p := by
  rw [localBlockOffset, virtualBlockOffset_eq, virtualBlockIndex, virtualBlockSize, localOffset]
  have hI := c.interleave_pos
  have hB := c.kvCacheBlockSize_pos
  obtain ⟨n, hn⟩ := c.interleave_dvd
  rw [hn] at hB ⊢
  generalize c.cpKvCacheInterleaveSize = I, c.dcpWorldSize = W at *
  have hsize : I * n * W = I * W * n := by ring
  rw [hsize, Nat.mul_comm W, Nat.mod_mul_right_div_self, ← Nat.div_div_eq_div_mul p (I * W),
    ← Nat.div_div_eq_div_mul p I, Nat.mod_mod_of_dvd p ⟨W * n, Nat.mul_assoc ..⟩]
  generalize p / I / W = x
  constructor
  · have hx := Nat.mul_le_mul_left I (show x % n + 1 ≤ n from Nat.mod_lt x (Nat.pos_of_mul_pos_left hB))
    have hp := Nat.mod_lt p hI
    rw [Nat.mul_succ, Nat.mul_comm I] at hx
    omega
  · calc I * n * (x / n) + (x % n * I + p % I) = I * (n * (x / n) + x % n) + p % I := by ring
      _ = I * x + p % I := by rw [Nat.div_add_mod]

theorem blockIndex_slotOffset :
    c.blockIndex p = c.localOffset p / c.blockSize ∧ c.slotOffset p = c.localOffset p % c.blockSize := by
  have hb : 0 < c.blockSize := Nat.pos_of_dvd_of_pos c.blockSize_dvd c.kvCacheBlockSize_pos
  rw [← (c.localBlockOffset_spec p).2, ← c.blocksPerKvBlock_mul, Nat.mul_right_comm, Nat.mul_comm _ c.blockSize,
    Nat.mul_add_div hb, Nat.mul_add_mod, Nat.mul_comm c.blocksPerKvBlock]
  exact ⟨rfl, rfl⟩

theorem eq_of_localOffset {p q : Nat} (hp : c.isLocal rank p) (hq : c.isLocal rank q)
    (h : c.localOffset p = c.localOffset q) : p = q := by
  rw [isLocal_iff] at hp hq
  have hI := c.interleave_pos
  rw [localOffset, localOffset] at h
  generalize c.cpKvCacheInterleaveSize = I, c.dcpWorldSize = W at *
  have hm : p % I = q % I := by simpa only [Nat.mul_add_mod, Nat.mod_mod] using congrArg (· % I) h
  have hd : p / I / W = q / I / W := Nat.eq_of_mul_eq_mul_left hI (by omega)
  have hc : p / I = q / I := by rw [← Nat.div_add_mod (p / I) W, ← Nat.div_add_mod (q / I) W, hd, hp, hq]
  rw [← Nat.div_add_mod p I, ← Nat.div_add_mod q I, hc, hm]

/-- `q` whole rounds and `s` positions of the next; a full round may be counted either way. -/
theorem getDcpLocalSeqLen_eq {I W : Nat} (hI : 0 < I) (hr : rank < W) (q : Nat) {s : Nat} (hs : s ≤ I * W) :
    getDcpLocalSeqLen (I * W * q + s) W I rank = (I * q : Nat) + min (max ((s : Int) - (rank * I : Nat)) 0) I := by
  have hIW : 0 < I * W := Nat.mul_pos hI (by omega)
  rw [getDcpLocalSeqLen, Nat.div_div_eq_div_mul, Nat.mul_add_div hIW]
  rcases Nat.lt_or_eq_of_le hs with hs | rfl
  · have hrem : ((I * W * q + s : Nat) : Int) - (q * I : Nat) * W - rank * I = s - (rank * I : Nat) := by
      push_cast; ring
    rw [Nat.div_eq_of_lt hs, Nat.add_zero, hrem, Nat.mul_comm q]
  · have hW := Nat.mul_le_mul_right I (show rank + 1 ≤ W from hr)
    have hrem : ((I * W * q + I * W : Nat) : Int) - ((q + 1) * I : Nat) * W - rank * I = -(rank * I : Nat) := by
      push_cast; ring
    rw [Nat.div_self hIW, hrem, Nat.mul_comm (q + 1), Nat.mul_succ]
    rw [Nat.succ_mul, Nat.mul_comm W] at hW
    omega

/-- One more position adds one to the length of its own rank, which is its offset there. -/
theorem getDcpLocalSeqLen_succ (hr : rank < c.dcpWorldSize) (L : Nat) :
    let n := getDcpLocalSeqLen L c.dcpWorldSize c.cpKvCacheInterleaveSize rank
    getDcpLocalSeqLen (L + 1) c.dcpWorldSize c.cpKvCacheInterleaveSize rank =
        n + (if c.isLocal rank L then 1 else 0) ∧ (c.isLocal rank L → n = c.localOffset L) := by
  have hI := c.interleave_pos
  simp only [isLocal_iff, localOffset, Nat.div_div_eq_div_mul]
  generalize c.cpKvCacheInterleaveSize = I, c.dcpWorldSize = W at *
  have hlt : L % (I * W) < I * W := Nat.mod_lt L (Nat.mul_pos hI (by omega))
  have h0 := getDcpLocalSeqLen_eq hI hr (L / (I * W)) hlt.le
  have h1 := getDcpLocalSeqLen_eq hI hr (L / (I * W)) (show L % (I * W) + 1 ≤ I * W from hlt)
  rw [← Nat.add_assoc, Nat.div_add_mod] at h1
  rw [Nat.div_add_mod] at h0
  rw [h1, h0, ← Nat.mod_mul_right_div_self, ← Nat.mod_mul_right_mod L I W]
  have hs := Nat.div_add_mod (L % (I * W)) I
  have hm := Nat.mod_lt (L % (I * W)) hI
  by_cases hl : L % (I * W) / I = rank
  case pos =>
    rw [hl, Nat.mul_comm I] at hs
    rw [if_pos hl]
    omega
  case neg =>
    rw [if_neg hl]
    refine ⟨?_, fun h => absurd h hl⟩
    rw [Nat.div_eq_iff hI] at hl
    omega

theorem local_positions (hr : rank < c.dcpWorldSize) (L : Nat) :
    (((List.range L).filter (c.isLocal rank ·)).length : Int) =
        getDcpLocalSeqLen L c.dcpWorldSize c.cpKvCacheInterleaveSize rank ∧
      ∀ j p, ((List.range L).filter (c.isLocal rank ·))[j]? = some p → c.localOffset p = j := by
  induction L with
  | zero =>
    have h0 : getDcpLocalSeqLen 0 _ _ rank = _ := getDcpLocalSeqLen_eq c.interleave_pos hr 0 (Nat.zero_le _)
    refine ⟨?_, by simp⟩
    rw [h0]
    show (0 : Int) = _
    omega
  | succ L ih =>
    obtain ⟨hlen, hoff⟩ := ih
    obtain ⟨hsucc, hat⟩ := c.getDcpLocalSeqLen_succ hr L
    rw [range_succ, filter_append, hsucc, length_append, Nat.cast_add, hlen]
    by_cases hl : c.isLocal rank L
    case neg => simpa [hl] using hoff
    case pos =>
      rw [filter_cons_of_pos (by simpa using hl), if_pos hl]
      refine ⟨rfl, fun j p hj => ?_⟩
      rcases Nat.lt_or_ge j ((List.range L).filter (c.isLocal rank ·)).length with hlt | hge
      · exact hoff j p (by rwa [getElem?_append_left hlt] at hj)
      · rw [getElem?_append_right hge] at hj
        obtain ⟨h0, rfl⟩ : j - _ = 0 ∧ L = p := by simpa [List.getElem?_singleton] using hj
        have := hat hl
        omega

end

/-! ### Slots -/

variable {rank req req' p q : Nat}

theorem computeSlotMapping_eq {qsl : Nat → Nat} (hq : Monotone qsl) {numReqs numTokens : Nat}
    (hn : qsl numReqs ≤ numTokens) (maxNumTokens : Nat) (positions : Nat → Nat) (buf : Nat → Int) {i : Nat}
    (hr : req < numReqs) (hi : qsl req ≤ i ∧ i < qsl (req + 1)) :
    c.computeSlotMapping rank t numReqs numTokens maxNumTokens qsl positions buf i = c.slotId rank
      t req (positions i) := by
  have hlt : i < numTokens := hi.2.trans_le ((hq hr).trans hn)
  rw [computeSlotMapping, if_neg (by omega)]
  clear hn hlt
  induction numReqs with
  | zero => exact absurd hr (Nat.not_lt_zero _)
  | succ n ih =>
    rw [range_succ, foldl_append]
    show (if _ then _ else _) = _
    rcases Nat.lt_or_eq_of_le (Nat.le_of_lt_succ hr) with hlt | rfl
    · have : qsl (req + 1) ≤ qsl n := hq hlt
      rw [if_neg (by omega)]
      exact ih hlt
    · rw [if_pos hi]

theorem slotId_ne_iff : c.slotId rank t req p ≠ padSlotId ↔ c.isLocal rank p := by
  rw [slotId]
  split
  case isTrue hl => exact iff_of_true (by unfold padSlotId; omega) hl
  case isFalse hl => exact iff_of_false (not_not.2 rfl) hl

theorem Rows.slotId (h : c.Rows t held) (hl : c.isLocal rank p) {id : BlockId}
    (hid : (held req)[c.virtualBlockIndex p]? = some id) :
    c.slotId rank t req p = (c.kvCacheBlockSize * id + c.localBlockOffset p : Nat) := by
  have hk := c.blocksPerKvBlock_mul
  have hlt := (c.localBlockOffset_spec p).1
  rw [← hk] at hlt
  rw [CpSizes.slotId, if_pos hl, blockIndex, (h req).2 _ id hid _ (Nat.div_lt_of_lt_mul (Nat.mul_comm .. ▸ hlt)),
    slotOffset, Nat.add_mul, Nat.mul_assoc, hk, Nat.add_assoc, Nat.div_add_mod', Nat.mul_comm]

/-- Two positions in one slot have one KV block and one offset in it. -/
theorem Rows.slotId_inj (ht : c.Rows t held) (hp : c.slotId rank t req p ≠ padSlotId)
    (hlp : c.virtualBlockIndex p < (held req).length) (hlq : c.virtualBlockIndex q < (held req').length)
    (h : c.slotId rank t req p = c.slotId rank t req' q) :
    c.isLocal rank p ∧ c.isLocal rank q ∧ c.localBlockOffset p = c.localBlockOffset q ∧
      (held req)[c.virtualBlockIndex p] = (held req')[c.virtualBlockIndex q] := by
  have hq := h ▸ hp
  rw [slotId_ne_iff] at hp hq
  refine ⟨hp, hq, ?_⟩
  rw [ht.slotId hp (getElem?_eq_getElem hlp), ht.slotId hq (getElem?_eq_getElem hlq), Nat.cast_inj] at h
  have hp := (c.localBlockOffset_spec p).1
  have hq := (c.localBlockOffset_spec q).1
  have hm := congrArg (· % c.kvCacheBlockSize) h
  simp only [Nat.mul_add_mod, Nat.mod_eq_of_lt hp, Nat.mod_eq_of_lt hq] at hm
  exact ⟨hm, Nat.eq_of_mul_eq_mul_left c.kvCacheBlockSize_pos (by omega)⟩

end CpSizes

/-- Each position has one rank; there it has a slot of the KV block of its virtual block, shared with no
other position but that of a virtual block with the same KV block; the positions of a rank below `L` are
as many as the attention metadata says, stored one after the other. -/
theorem dcp_slots_bijective (c : CpSizes) (calls : List RowCall) :
    let held := calls.foldl RowCall.give fun _ => []
    let table := calls.foldl c.fill {}
    let slot := fun rank => c.slotId rank table
    (∀ rank qsl numReqs numTokens maxNumTokens positions buf, Monotone qsl → qsl numReqs ≤ numTokens →
      ∀ req < numReqs, ∀ i, qsl req ≤ i → i < qsl (req + 1) →
        c.computeSlotMapping rank table numReqs numTokens maxNumTokens qsl positions buf i =
          slot rank req (positions i)) ∧
    (∀ req p, ∃! rank, rank < c.dcpWorldSize ∧ slot rank req p ≠ padSlotId) ∧
    (∀ rank req p id, slot rank req p ≠ padSlotId → (held req)[c.virtualBlockIndex p]? = some id →
      (c.kvCacheBlockSize * id : Nat) ≤ slot rank req p ∧ slot rank req p < (c.kvCacheBlockSize * (id + 1) : Nat)) ∧
    (∀ rank req p q, slot rank req p ≠ padSlotId → c.virtualBlockIndex p < (held req).length →
      c.virtualBlockIndex q < (held req).length → slot rank req p = slot rank req q →
        p = q ∨ c.virtualBlockIndex p ≠ c.virtualBlockIndex q ∧
          (held req)[c.virtualBlockIndex p]? = (held req)[c.virtualBlockIndex q]?) ∧
    (∀ rank req req' p q, (held req).Disjoint (held req') → slot rank req p ≠ padSlotId →
      c.virtualBlockIndex p < (held req).length → c.virtualBlockIndex q < (held req').length →
        slot rank req p ≠ slot rank req' q) ∧
    ∀ rank < c.dcpWorldSize, ∀ L req, ∃ n, (getDcpLocalSeqLens L c.dcpWorldSize c.cpKvCacheInterleaveSize)[rank]? =
    some n ∧
      let ps := (List.range L).filter (slot rank req · ≠ padSlotId)
      (ps.length : Int) = n ∧ ∀ j p, ps[j]? = some p →
        c.blockIndex p = j / c.blockSize ∧ c.slotOffset p = j % c.blockSize := by
  intro held table slot
  have ht : c.Rows table held :=
    CpSizes.Rows.foldl (fun i => ⟨(Nat.zero_mul _).symm, fun v id h => by simp at h⟩) calls
  refine ⟨?_, ?_, ?_, ?_, ?_, ?_⟩
  · intro rank qsl numReqs numTokens maxNumTokens positions buf hq hn req hr i hi hi'
    exact CpSizes.computeSlotMapping_eq hq hn maxNumTokens positions buf hr ⟨hi, hi'⟩
  · intro req p
    refine ⟨p / c.cpKvCacheInterleaveSize % c.dcpWorldSize, ⟨Nat.mod_lt _ c.dcpWorldSize_pos, ?_⟩, fun rank h => ?_⟩
    · exact CpSizes.slotId_ne_iff.2 ((c.isLocal_iff p).2 rfl)
    · exact ((c.isLocal_iff p).1 (CpSizes.slotId_ne_iff.1 h.2)).symm
  · intro rank req p id hp hid
    have hlt := (c.localBlockOffset_spec p).1
    simp only [slot, ht.slotId (CpSizes.slotId_ne_iff.1 hp) hid, Nat.mul_succ]
    omega
  · intro rank req p q hp hlp hlq h
    obtain ⟨hp, hq, hoff, hid⟩ := ht.slotId_inj hp hlp hlq h
    by_cases hv : c.virtualBlockIndex p = c.virtualBlockIndex q
    · left
      apply c.eq_of_localOffset hp hq
      rw [← (c.localBlockOffset_spec p).2, ← (c.localBlockOffset_spec q).2, hv, hoff]
    · exact .inr ⟨hv, by rw [getElem?_eq_getElem hlp, getElem?_eq_getElem hlq, hid]⟩
  · intro rank req req' p q hd hp hlp hlq h
    obtain ⟨-, -, -, hid⟩ := ht.slotId_inj hp hlp hlq h
    exact hd (getElem_mem hlp) (hid ▸ getElem_mem hlq)
  · intro rank hr L req
    refine ⟨_, by rw [getDcpLocalSeqLens, getElem?_map, getElem?_range hr]; rfl, ?_⟩
    simp only [slot, CpSizes.slotId_ne_iff]
    obtain ⟨hlen, hoff⟩ := c.local_positions hr L
    exact ⟨hlen, fun j p hj => hoff j p hj ▸ c.blockIndex_slotOffset p⟩

def splitSizes : CpSizes := ⟨4, 2, 2, 2, Nat.pos_of_neZero 4, Nat.two_pos, ⟨2, rfl⟩, ⟨2, rfl⟩⟩

/-- Two requests over two ranks, each KV block in two kernel blocks. -/
theorem dcp_slots_bijective_split :
    let slot := fun rank => splitSizes.slotId rank ([.addRow [3, 1] 0, .addRow [2] 1].foldl splitSizes.fill {})
    (∃! rank, rank < 2 ∧ slot rank 0 13 ≠ padSlotId) ∧ (4 ≤ slot 0 0 13 ∧ slot 0 0 13 < 8) ∧
      slot 0 0 13 ≠ slot 0 0 4 ∧ slot 0 0 13 ≠ slot 0 1 5 ∧
      ∃ n : Int, (getDcpLocalSeqLens 14 2 2)[0]? = some n ∧
      ((range 14).filter (slot 0 0 · ≠ padSlotId)).length = n := by
  obtain ⟨-, hrank, hblock, hrow, hother, hlen⟩ :=
    dcp_slots_bijective splitSizes [.addRow [3, 1] 0, .addRow [2] 1]
  refine ⟨hrank 0 13, hblock 0 0 13 1 (by decide) rfl, fun h => ?_,
    hother 0 0 1 13 5 (disjoint_left.2 (by decide)) (by decide) (by decide) (by decide), ?_⟩
  · rcases hrow 0 0 13 4 (by decide) (by decide) (by decide) h with h | ⟨-, h⟩
    · cases h
    · cases h
  · obtain ⟨n, hn, hps, -⟩ := hlen 0 Nat.two_pos 14 0
    exact ⟨n, hn, hps⟩

end VllmCore.Worker
