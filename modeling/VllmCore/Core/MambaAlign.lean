import VllmCore.Core.BlockCounts
import VllmCore.Core.KVCacheManager

/-! # Reservation in the align mode of Mamba

`MambaManager.get_num_blocks_to_allocate` answers with a closed formula what the three allocation
methods will take. Here both sides are counted. They agree except in two situations, which
`Manager.AlignFits` names: an external load that takes a block of its own before the new tokens
need one, and a later call that needs fewer blocks than the table already has. -/

namespace VllmCore
open Except List Dict
variable {η : Type}

namespace Manager
variable {m m' m3 : Manager η} {p p' : BlockPool η} {s : MambaSpec} {r x : RequestId} {bs : List BlockId}
  {n tot ne : Nat}

/-! ### The allocation -/

theorem relocate_length {i : Nat} {tbl tbl' : List BlockId} (h : relocateSpeculativeBlock p tbl i = .ok tbl') :
    tbl'.length = tbl.length + 1 := by
  unfold relocateSpeculativeBlock at h
  split at h
  · cases h
  · simp only [do_eq_ok] at h
    obtain ⟨-, -, rfl⟩ := h
    simp

theorem relocateAll_length {is : List Nat} {tbl tbl' : List BlockId}
    (h : is.foldlM (relocateSpeculativeBlock p) tbl = .ok tbl') : tbl'.length = tbl.length + is.length := by
  induction is generalizing tbl with
  | nil => cases pure_eq_ok.1 h; rfl
  | cons i is ih =>
    rw [foldlM_cons, bind_eq_ok] at h
    obtain ⟨t, ht, h⟩ := h
    rw [ih h, relocate_length ht, length_cons]
    omega

/-- The columns in front of the new blocks: padding, and the relocated speculative blocks. -/
def alignLength (m : Manager η) (s : MambaSpec) (r : RequestId) (numSkippedBlocks : Nat) : Nat :=
  let len := (m.blocksOf r).length
  max len (numSkippedBlocks - m.checkpointBlock r) +
    if m.relocates r then min len numSkippedBlocks - (len - s.numSpeculativeBlocks) else 0

theorem padWithNull_length (tbl : List BlockId) (k c : Nat) :
    (padWithNull tbl k c).length = max tbl.length (k - c) := by
  unfold padWithNull
  split
  · rw [length_append, length_replicate]
    omega
  · omega

theorem alignTable_length {k : Nat} (h : m.alignTable p s r k = .ok bs) : bs.length = m.alignLength s r k := by
  simp only [alignTable] at h
  simp only [alignLength]
  split at h
  · next hrel =>
    rw [relocateAll_length h, padWithNull_length, if_pos hrel, length_drop, length_range]
  · next hrel =>
    cases h
    rw [padWithNull_length, if_neg hrel]
    rfl

def alignNewBlocks (m : Manager η) (s : MambaSpec) (r : RequestId) (numTokens : Nat) : Nat :=
  m.alignNumNewBlocks s r numTokens (m.alignLength s r (cdiv numTokens m.blockSize - 1))

theorem checkpointBlock_of_relocates (h : m.relocates r) : m.checkpointBlock r = 0 := by
  simp only [relocates, Bool.and_eq_true, Bool.not_eq_true'] at h
  simp [checkpointBlock, h.2]

/-- The bound of `allocate_new_blocks` on its own request holds whenever a request that relocates has its
speculative blocks in the table. -/
theorem alignNewBlocks_le (hs : m.relocates r → s.numSpeculativeBlocks ≤ (m.blocksOf r).length) (hn : 0 < n) :
    m.alignNewBlocks s r n ≤ m.alignMaxNewBlocks s r := by
  have hpos : 0 < cdiv n m.blockSize := cdiv_pos hn m.spec.blockSize_pos
  simp only [alignNewBlocks, alignNumNewBlocks, alignMaxNewBlocks, alignLength]
  by_cases hrel : m.relocates r
  · have := hs hrel
    rw [if_pos hrel, if_pos hrel, checkpointBlock_of_relocates hrel]
    omega
  · rw [if_neg hrel, if_neg hrel]
    omega

section
variable [DecidableEq η]

theorem alignPartialHit_spec {new cows rest : List BlockId}
    (h : m.alignPartialHit p r bs new = .ok (cows, rest, m', p')) :
    p'.freeBlockQueue = p.freeBlockQueue ∧ new.length = m.partialHitBlock r + rest.length ∧
      (m'.blocksOf r).length = bs.length ∧ (∀ x ≠ r, m'.blocksOf x = m.blocksOf x) ∧
      m'.allocatedBlockReqs = m.allocatedBlockReqs ∧ m'.partialHitReqs = m.partialHitReqs ∧ m'.spec = m.spec := by
  have hne : ∀ x ≠ r, (m.setBlocks r bs).blocksOf x = m.blocksOf x := by
    intro x hx
    rw [blocksOf_set, if_neg hx]
  unfold alignPartialHit at h
  split at h
  · next hnone =>
    cases h
    have : m.partialHitBlock r = 0 := by simp [partialHitBlock, Dict.contains, hnone]
    exact ⟨rfl, by omega, by rw [blocksOf_setBlocks], hne, rfl, rfl, rfl⟩
  · next i source hsome =>
    have hpart : m.partialHitBlock r = 1 := by simp [partialHitBlock, Dict.contains, hsome]
    split at h
    · cases h
    split at h
    · simp only [privatizeTail, do_eq_ok] at h
      obtain ⟨⟨m1, p1⟩, ⟨-, -, q, hq, -, -, h1⟩, h⟩ := h
      obtain ⟨rfl, rfl⟩ := Prod.mk.inj h1
      cases h
      refine ⟨(BlockPool.sameRefs_moveBlockHashes hq).queue, by rw [hpart, length_cons]; omega,
        by rw [blocksOf_setBlocks], fun x hx => ?_, rfl, rfl, rfl⟩
      rw [blocksOf_set, if_neg hx]
      rfl
    · simp only [applyCow, do_eq_ok] at h
      obtain ⟨⟨m1, p1⟩, ⟨-, -, -, -, h1⟩, h⟩ := h
      obtain ⟨rfl, rfl⟩ := Prod.mk.inj h1
      cases h
      refine ⟨rfl, by rw [hpart, length_cons]; omega, ?_, fun x hx => ?_, rfl, rfl, rfl⟩
      · show (((m.setBlocks r bs).setBlocks r _).blocksOf r).length = _
        rw [blocksOf_setBlocks, length_set, blocksOf_setBlocks]
      · show ((m.setBlocks r bs).setBlocks r _).blocksOf x = _
        rw [blocksOf_set, if_neg hx]
        exact hne x hx

structure AlignAllocated (m : Manager η) (s : MambaSpec) (r : RequestId) (numTokens : Nat) (m' : Manager η) :
    Prop where
  length : cdiv numTokens m.blockSize + s.numSpeculativeBlocks ≤ (m'.blocksOf r).length
  others : ∀ x ≠ r, m'.blocksOf x = m.blocksOf x
  allocated : m'.allocatedBlockReqs = insertNew r m.allocatedBlockReqs
  partialHit : ∀ x, m'.partialHitReqs.contains x → x ≠ r ∧ m.partialHitReqs.contains x
  spec : m'.spec = m.spec

theorem alignAllocateNewBlocks_spec (h : m.alignAllocateNewBlocks p s r n = .ok (bs, m', p')) :
    p.getNumFreeBlocks = p'.getNumFreeBlocks + m.alignNewBlocks s r n ∧ AlignAllocated m s r n m' := by
  simp only [alignAllocateNewBlocks, Nat.add_sub_cancel] at h
  split at h
  · next hfit =>
    obtain ⟨hle, hpart, _⟩ := id hfit
    obtain ⟨-, hm, rfl⟩ : _ ∧ _ ∧ p = p' := by simpa only [Except.ok.injEq, Prod.mk.injEq] using h
    have hno : m.partialHitReqs.contains r = false := by simpa [partialHitBlock] using hpart
    subst hm
    have hnone : m.alignNewBlocks s r n = 0 := by
      simp only [alignNewBlocks, alignNumNewBlocks, alignLength]
      omega
    rw [hnone]
    refine ⟨rfl, ?_, fun x _ => blocksOf_openTable m r x, rfl, fun x hx => ⟨?_, hx⟩, rfl⟩
    · show _ ≤ ((m.openTable r).blocksOf r).length
      rw [blocksOf_openTable]
      exact hle
    · rintro rfl
      exact Bool.false_ne_true (hno.symm.trans hx)
  · simp only [do_eq_ok] at h
    obtain ⟨tbl, htbl, -, -, ⟨new, q⟩, hq, ⟨cows, rest, m1, p1⟩, h1, h⟩ := h
    obtain ⟨-, hm, rfl⟩ : _ ∧ _ ∧ p1 = p' := by simpa only [Prod.mk.injEq] using h
    have hlen := alignTable_length htbl
    obtain ⟨hnew, hcount⟩ := BlockPool.getNewBlocks_count hq
    obtain ⟨hqueue, hrest, htable, hothers, halloc, hpart, hspec⟩ := alignPartialHit_spec h1
    have hfree : p1.getNumFreeBlocks = q.getNumFreeBlocks := congrArg (·.numFreeBlocks) hqueue
    rw [hfree, alignNewBlocks, ← hlen]
    subst hm
    refine ⟨hcount, ?_, fun x hx => ?_, congrArg (insertNew r) halloc, fun x hx => ?_, hspec⟩
    · show _ ≤ ((m1.setBlocks r _).blocksOf r).length
      rw [blocksOf_setBlocks, length_append, htable]
      unfold alignNumNewBlocks at hnew
      change new.length = _ at hrest
      omega
    · show (m1.setBlocks r _).blocksOf x = _
      rw [blocksOf_set, if_neg hx]
      exact hothers x hx
    · have hx' : (m1.partialHitReqs.erase r).contains x := hx
      rw [Dict.contains, get?_erase] at hx'
      split at hx'
      · cases hx'
      · exact ⟨‹_›, by rw [← hpart]; exact hx'⟩

end

/-! ### One call -/

/-- What a call of `allocate_slots` hands to the manager: the hits of the request, the tokens they stand
for, the tokens loaded from elsewhere, the new tokens, and all tokens that need a slot. -/
structure AlignArgs where
  requestId : RequestId
  hits : List BlockId
  numLocalComputedTokens : Nat
  numExternalComputedTokens : Nat
  numNewTokens : Nat
  numTokensNeedSlot : Nat

namespace AlignArgs

def totalComputedTokens (a : AlignArgs) : Nat := a.numLocalComputedTokens + a.numExternalComputedTokens

def numTokensMainModel (a : AlignArgs) : Nat := a.totalComputedTokens + a.numNewTokens

def skippedBlocks (a : AlignArgs) (blockSize : Nat) : Nat := (a.totalComputedTokens - 1) / blockSize

/-- The scheduler asks for something, and the hits reach no further than the tokens they stand for. -/
structure Scheduled (a : AlignArgs) (blockSize : Nat) : Prop where
  pos : 0 < a.numExternalComputedTokens + a.numNewTokens
  hits : a.hits.length ≤ cdiv a.numLocalComputedTokens blockSize

theorem Scheduled.lt_main {a : AlignArgs} {blockSize : Nat} (h : a.Scheduled blockSize) :
    a.numLocalComputedTokens < a.numTokensMainModel := by
  have := h.pos
  simp only [numTokensMainModel, totalComputedTokens]
  omega

end AlignArgs

section
variable {a : AlignArgs} {k : Int} {m1 m2 : Manager η} {nl taken : Nat} {q q' : BlockPool η} {hits : List BlockId}

theorem alignNumBlocksToAllocate_spec {cap : Bool} (h : (k, m') = m.alignNumBlocksToAllocate p s r hits tot nl n cap) :
    (∀ x, m'.blocksOf x = m.blocksOf x) ∧ m'.allocatedBlockReqs = m.allocatedBlockReqs ∧
      m'.partialHitReqs = m.partialHitReqs ∧ m'.spec = m.spec := by
  obtain ⟨-, rfl⟩ := Prod.mk.inj h
  exact ⟨fun x => blocksOf_openTable m r x, rfl, rfl, rfl⟩

theorem checkpoints_predicted (h : (k, m') = m.alignNumBlocksToAllocate p s r hits tot nl n false) :
    m'.checkpoints.contains r = (m.plannedCheckpoint p s r tot n).isSome := by
  obtain ⟨-, rfl⟩ := Prod.mk.inj h
  simp only [Dict.contains]
  cases hplan : m.plannedCheckpoint p s r tot n with
  | none => simp
  | some c => simp

theorem addLocalComputedBlocks_align (hkind : m.spec.kind = .mamba s) (hrefs : ∀ b, 0 ≤ (q.blocks b).refCnt)
    (h : m.addLocalComputedBlocks q r hits nl ne = .ok (m', q')) :
    m.blocksOf r = [] ∧ m'.blocksOf r = List.replicate ((nl + ne - 1) / m.blockSize) nullBlock ++
        hits.drop ((nl + ne - 1) / m.blockSize) ∧
      (∀ x ≠ r, m'.blocksOf x = m.blocksOf x) ∧ m'.spec = m.spec ∧
      m'.allocatedBlockReqs = m.allocatedBlockReqs ∧ m'.checkpoints = m.checkpoints ∧
      (∀ x, m'.partialHitReqs.contains x = (decide (x = r) &&
        m.hasPartialLocalHit (hits.drop ((nl + ne - 1) / m.blockSize)) nl || m.partialHitReqs.contains x)) ∧
      q.getNumFreeBlocks ≤ q'.getNumFreeBlocks +
        getNumEvictableBlocks q (hits.drop ((nl + ne - 1) / m.blockSize)) := by
  unfold addLocalComputedBlocks at h
  rw [hkind] at h
  have hskip : m.getNumSkippedTokens (nl + ne) = nl + ne - 1 := by rw [getNumSkippedTokens, hkind]
  simp only [baseAddLocalComputedBlocks, do_eq_ok, hskip] at h
  obtain ⟨-, hempty, t, ht, h⟩ := h
  obtain ⟨rfl, rfl⟩ := Prod.mk.inj h
  generalize (nl + ne - 1) / m.blockSize = k at *
  have hnote := notePartialHit_spec { m.setBlocks r (List.replicate k nullBlock ++ hits.drop k) with
    numCachedBlock := m.numCachedBlock.set r (List.replicate k nullBlock ++ hits.drop k).length } r (hits.drop k) nl
  obtain ⟨htab, hspec, halloc, hcheck, hpart⟩ := hnote
  refine ⟨hempty, ?_, fun x hx => ?_, hspec, halloc, hcheck, hpart, touchHits_count hrefs ht⟩
  · rw [blocksOf, htab]
    exact blocksOf_setBlocks m r _
  · rw [blocksOf, htab]
    exact (blocksOf_set m r x _).trans (if_neg hx)

/-- Freed states leave null blocks behind: the table keeps its length. -/
theorem alignRemoveSkippedBlocks_length (h : m.alignRemoveSkippedBlocks p r n = .ok (m', p')) :
    (∀ x, (m'.blocksOf x).length = (m.blocksOf x).length) ∧ m'.spec = m.spec ∧
      m'.allocatedBlockReqs = m.allocatedBlockReqs ∧ m'.partialHitReqs = m.partialHitReqs := by
  simp only [alignRemoveSkippedBlocks] at h
  generalize hstop : min ((n - 1) / m.blockSize) (m.blocksOf r).length = stop at h
  generalize m.nextStateToFree.getD r 0 = start at h
  split at h
  · cases h
    exact ⟨fun x => congrArg List.length (blocksOf_openTable m r x), rfl, rfl, rfl⟩
  · next hlt =>
    simp only [do_eq_ok] at h
    obtain ⟨q, -, h⟩ := h
    obtain ⟨rfl, -⟩ := Prod.mk.inj h
    refine ⟨fun x => ?_, rfl, rfl, rfl⟩
    refine (congrArg List.length (blocksOf_set m r x _)).trans ?_
    split
    · next hx =>
      subst hx
      simp only [length_append, length_take, length_replicate, length_drop]
      omega
    · rfl

theorem evictable_drop_le (hused : ∀ b, (q.blocks b).refCnt = 0 → (p.blocks b).refCnt = 0) (hits : List BlockId)
    (j : Nat) : getNumEvictableBlocks q (hits.drop j) ≤ getNumEvictableBlocks p hits := by
  refine ((drop_sublist j hits).countP_le).trans (countP_mono_left fun b _ hb => ?_)
  simp only [Bool.and_eq_true, decide_eq_true_eq] at hb ⊢
  exact ⟨hused b hb.1, hb.2⟩

/-- The condition under which a call stays within its prediction. -/
def AlignFits (m : Manager η) (p : BlockPool η) (s : MambaSpec) (a : AlignArgs) : Prop :=
  -- a request without a pending copy has not been given more blocks than it needs now
  ((m.blocksOf a.requestId).length ≤ cdiv a.numTokensMainModel m.blockSize + s.numSpeculativeBlocks ∨
    m.partialHitReqs.contains a.requestId) ∧
  -- no block is loaded next to the blocks of the new tokens, unless a hit was counted that is not used
  ¬ (0 < a.numExternalComputedTokens ∧ a.hits.length < cdiv a.totalComputedTokens m.blockSize ∧
    m.hasPartialLocalHit a.hits a.numLocalComputedTokens = false ∧ getNumEvictableBlocks p a.hits = 0 ∧
    cdiv a.totalComputedTokens m.blockSize +
      (if (m.plannedCheckpoint p s a.requestId a.totalComputedTokens a.numTokensMainModel).isSome then 1 else 0) <
      cdiv a.numTokensMainModel m.blockSize)

structure AlignOk (m : Manager η) (s : MambaSpec) : Prop where
  kind : m.spec.kind = .mamba s
  mode : s.mambaCacheMode = .align
  allocated : ∀ x, x ∈ m.allocatedBlockReqs ↔ m.blocksOf x ≠ []
  speculative : ∀ x ∈ m.allocatedBlockReqs, s.numSpeculativeBlocks ≤ (m.blocksOf x).length
  partialHit : ∀ x, m.partialHitReqs.contains x → x ∈ m.allocatedBlockReqs

section
variable (h : m.AlignOk s)
include h

theorem AlignOk.spec_le (r : RequestId) (hal : m.allocatedBlockReqs.contains r) :
    s.numSpeculativeBlocks ≤ (m.blocksOf r).length :=
  h.speculative r (contains_iff_mem.1 hal)

theorem AlignOk.length_eq_zero (r : RequestId) (hal : m.allocatedBlockReqs.contains r = false) :
    (m.blocksOf r).length = 0 := by
  have hr : ¬ r ∈ m.allocatedBlockReqs := by simpa using hal
  rw [h.allocated, not_not] at hr
  rw [hr, length_nil]

theorem AlignOk.allocated_of_partialHit (r : RequestId) (hp : m.partialHitReqs.contains r) :
    m.allocatedBlockReqs.contains r :=
  contains_iff_mem.2 (h.partialHit r hp)

theorem AlignOk.notAllocated (hempty : m.blocksOf r = []) :
    m.allocatedBlockReqs.contains r = false ∧ m.partialHitReqs.contains r = false := by
  have hal : m.allocatedBlockReqs.contains r = false := by
    have := mt (h.allocated r).1 (not_not.2 hempty)
    simpa using this
  refine ⟨hal, Bool.eq_false_iff.2 fun hp => ?_⟩
  exact Bool.false_ne_true (hal.symm.trans (h.allocated_of_partialHit r hp))

theorem AlignOk.congr (hspec : m'.spec = m.spec) (htab : ∀ x, m'.blocksOf x = m.blocksOf x)
    (halloc : m'.allocatedBlockReqs = m.allocatedBlockReqs)
    (hpart : ∀ x, m'.partialHitReqs.contains x → m.partialHitReqs.contains x ∨ m.blocksOf x ≠ []) : m'.AlignOk s := by
  refine ⟨hspec ▸ h.kind, h.mode, fun x => ?_, fun x hx => ?_, fun x hx => ?_⟩
  · rw [halloc, htab]; exact h.allocated x
  · rw [htab]; exact h.speculative x (halloc ▸ hx)
  · rw [halloc]
    rcases hpart x hx with hp | hne
    · exact h.partialHit x hp
    · exact (h.allocated x).2 hne

theorem AlignOk.same (hsame : SameTables m m') : m'.AlignOk s :=
  h.congr hsame.spec hsame.tables hsame.allocated hsame.partialHit

theorem AlignOk.removeSkippedBlocks {np : Option Nat} (hstep : m.removeSkippedBlocks p r n np = .ok (m', p')) :
    m'.AlignOk s := by
  unfold Manager.removeSkippedBlocks at hstep
  rw [h.kind] at hstep
  dsimp only at hstep
  rw [if_pos h.mode] at hstep
  obtain ⟨hlen, hspec, halloc, hpart⟩ := alignRemoveSkippedBlocks_length hstep
  refine ⟨hspec ▸ h.kind, h.mode, fun x => ?_, fun x hx => ?_, fun x hx => ?_⟩
  · rw [halloc, h.allocated, ← length_pos_iff, ← length_pos_iff, hlen]
  · rw [hlen]; exact h.speculative x (halloc ▸ hx)
  · rw [halloc]; exact h.partialHit x (hpart ▸ hx)

theorem AlignOk.popBlocksForFree (r : RequestId) : (m.popBlocksForFree r).2.AlignOk s := by
  have halign : m.spec.isMambaAlign = true := by simp [KVCacheSpec.isMambaAlign, h.kind, h.mode]
  have htab : ∀ x, (m.popBlocksForFree r).2.blocksOf x = if x = r then [] else m.blocksOf x := by
    intro x
    simp only [blocksOf, Manager.popBlocksForFree, Dict.getD, get?_erase]
    split <;> rfl
  have halloc : ∀ x, x ∈ (m.popBlocksForFree r).2.allocatedBlockReqs ↔ x ∈ m.allocatedBlockReqs ∧ x ≠ r := by
    intro x
    simp [Manager.popBlocksForFree, halign, dropAlignState]
  have hpart : ∀ x, (m.popBlocksForFree r).2.partialHitReqs.contains x → m.partialHitReqs.contains x ∧ x ≠ r := by
    intro x hx
    simp only [Manager.popBlocksForFree, Dict.contains, get?_erase] at hx
    split at hx
    · cases hx
    · exact ⟨hx, ‹_›⟩
  refine ⟨?_, h.mode, fun x => ?_, fun x hx => ?_, fun x hx => ?_⟩
  · rw [← h.kind]
    simp [Manager.popBlocksForFree, halign, dropAlignState]
  · rw [halloc, htab, h.allocated]
    split
    · next hx => simp [hx]
    · next hx => simp [hx]
  · obtain ⟨hx, hne⟩ := (halloc x).1 hx
    rw [htab, if_neg hne]
    exact h.speculative x hx
  · obtain ⟨hp, hne⟩ := hpart x hx
    exact (halloc x).2 ⟨h.partialHit x hp, hne⟩

end

variable [DecidableEq η]

structure AlignPredicted (m : Manager η) (p : BlockPool η) (a : AlignArgs) (k : Int) (m' : Manager η) : Prop where
  predict : m.getNumBlocksToAllocate p a.requestId a.numTokensNeedSlot a.hits a.totalComputedTokens
    a.numLocalComputedTokens a.numTokensMainModel false = .ok (k, m')
  goesOn : k ≤ p.numGpuBlocks

/-- The computed blocks of a call, if there are any, and how many blocks they take from the free queue.
Between two methods of one manager the other groups work on the pool, so it need not be the `p` of the
prediction; a block in use then is in use now. -/
inductive AlignComputed (m : Manager η) (p : BlockPool η) (a : AlignArgs) : Nat → Manager η → Prop
  | none (hits : a.hits = []) (external : a.numExternalComputedTokens = 0) : AlignComputed m p a 0 m
  | ofLocal {m' : Manager η} {q q' : BlockPool η} (external : a.numExternalComputedTokens = 0)
      (refs : ∀ b, 0 ≤ (q.blocks b).refCnt) (used : ∀ b, (q.blocks b).refCnt = 0 → (p.blocks b).refCnt = 0)
      (add : m.addLocalComputedBlocks q a.requestId a.hits a.numLocalComputedTokens a.numExternalComputedTokens =
        .ok (m', q')) :
      AlignComputed m p a (q.getNumFreeBlocks - q'.getNumFreeBlocks) m'
  | ofExternal {m' m'' : Manager η} {q q' t t' : BlockPool η} (external : 0 < a.numExternalComputedTokens)
      (refs : ∀ b, 0 ≤ (q.blocks b).refCnt) (used : ∀ b, (q.blocks b).refCnt = 0 → (p.blocks b).refCnt = 0)
      (add : m.addLocalComputedBlocks q a.requestId a.hits a.numLocalComputedTokens a.numExternalComputedTokens =
        .ok (m', q'))
      (load : m'.allocateExternalComputedBlocks t a.requestId a.numLocalComputedTokens a.numExternalComputedTokens =
        .ok (m'', t')) :
      AlignComputed m p a (q.getNumFreeBlocks - q'.getNumFreeBlocks + (t.getNumFreeBlocks - t'.getNumFreeBlocks)) m''

theorem AlignPredicted.eq (hkind : m.spec.kind = .mamba s) (halign : s.mambaCacheMode = .align)
    (h : AlignPredicted m p a k m') :
    (k, m') = m.alignNumBlocksToAllocate p s a.requestId a.hits a.totalComputedTokens a.numLocalComputedTokens
      a.numTokensMainModel false := by
  obtain ⟨hpred, hgo⟩ := h
  unfold getNumBlocksToAllocate at hpred
  rw [hkind] at hpred
  dsimp only at hpred
  split at hpred
  · -- the deferred call asks for more than there is
    cases hpred
    omega
  · exact (Except.ok.inj hpred).symm

theorem allocateExternalComputedBlocks_align (hkind : m.spec.kind = .mamba s) (hne : 0 < ne)
    (h : m.allocateExternalComputedBlocks p r nl ne = .ok (m', p')) :
    (m'.blocksOf r).length = max (cdiv (nl + ne) m.blockSize) (m.blocksOf r).length ∧
      (∀ x ≠ r, m'.blocksOf x = m.blocksOf x) ∧ m'.spec = m.spec ∧
      m'.allocatedBlockReqs = m.allocatedBlockReqs ∧ m'.checkpoints = m.checkpoints ∧
      m'.partialHitReqs = m.partialHitReqs ∧
      p.getNumFreeBlocks = p'.getNumFreeBlocks + (cdiv (nl + ne) m.blockSize - (m.blocksOf r).length) := by
  unfold allocateExternalComputedBlocks at h
  rw [hkind] at h
  have hskip : m.getNumSkippedTokens (nl + ne) = nl + ne - 1 := by rw [getNumSkippedTokens, hkind]
  simp only [baseAllocateExternalComputedBlocks, hskip] at h
  have hext : (if nl + ne - 1 > 0 then min (nl + ne - (nl + ne - 1)) ne else ne) ≠ 0 := by split <;> omega
  rw [if_neg hext] at h
  simp only [do_eq_ok] at h
  obtain ⟨⟨bs, m1, p1⟩, h1, h⟩ := h
  obtain ⟨rfl, rfl⟩ := Prod.mk.inj h
  obtain ⟨hlen, hcount, hm⟩ := appendNewBlocks_spec h1
  dsimp only at hm ⊢
  rw [hm]
  refine ⟨?_, fun x hx => (blocksOf_set m r x _).trans (if_neg hx), rfl, rfl, rfl, rfl, hcount⟩
  show ((m.setBlocks r (m.blocksOf r ++ bs)).blocksOf r).length = _
  rw [blocksOf_setBlocks, length_append, hlen]
  omega

theorem AlignComputed.spec (hkind : m.spec.kind = .mamba s) (h : AlignComputed m p a taken m2) :
    m2.spec = m.spec ∧ m2.allocatedBlockReqs = m.allocatedBlockReqs ∧
      ∀ x ≠ a.requestId, m2.blocksOf x = m.blocksOf x ∧
        (m2.partialHitReqs.contains x → m.partialHitReqs.contains x) := by
  have hpart : ∀ (x : RequestId) (c : Bool), x ≠ a.requestId →
      (decide (x = a.requestId) && c || m.partialHitReqs.contains x) = true → m.partialHitReqs.contains x := by
    intro x c hx hor
    simpa [hx] using hor
  cases h with
  | none => exact ⟨rfl, rfl, fun x _ => ⟨rfl, id⟩⟩
  | ofLocal _ hrefs _ hadd =>
    obtain ⟨-, -, htab, hspec, halloc, -, hp, -⟩ := addLocalComputedBlocks_align hkind hrefs hadd
    exact ⟨hspec, halloc, fun x hx => ⟨htab x hx, fun h => hpart x _ hx (hp x ▸ h)⟩⟩
  | ofExternal hext hrefs _ hadd hload =>
    obtain ⟨-, -, htab, hspec, halloc, -, hp, -⟩ := addLocalComputedBlocks_align hkind hrefs hadd
    obtain ⟨-, htab3, hspec3, halloc3, -, hp3, -⟩ := allocateExternalComputedBlocks_align (hspec ▸ hkind) hext hload
    refine ⟨hspec3.trans hspec, halloc3.trans halloc, fun x hx => ⟨(htab3 x hx).trans (htab x hx), fun h => ?_⟩⟩
    rw [hp3, hp] at h
    exact hpart x _ hx h

/-- The manager of a first call after its computed blocks: nothing to relocate, the checkpoint as planned,
and a copy only for a partial hit. -/
structure FirstCall (m m' : Manager η) (a : AlignArgs) : Prop where
  spec : m'.spec = m.spec
  relocates : m'.relocates a.requestId = false
  checkpoint : m'.checkpointBlock a.requestId = m.checkpointBlock a.requestId
  partialHit : m'.partialHitBlock a.requestId ≤
    if m.hasPartialLocalHit a.hits a.numLocalComputedTokens then 1 else 0

section
variable (h : m.AlignOk s) (hpred : AlignPredicted m p a k m1)
include h hpred

theorem AlignOk.firstCall_add (hrefs : ∀ b, 0 ≤ (q.blocks b).refCnt)
    (hadd : m1.addLocalComputedBlocks q a.requestId a.hits a.numLocalComputedTokens a.numExternalComputedTokens =
      .ok (m2, q')) : m.blocksOf a.requestId = [] ∧ FirstCall m1 m2 a ∧
      (m2.blocksOf a.requestId).length = max (a.skippedBlocks m.blockSize) a.hits.length ∧
      (a.hits.length ≤ a.skippedBlocks m.blockSize → m2.partialHitBlock a.requestId = 0) ∧
      q.getNumFreeBlocks ≤ q'.getNumFreeBlocks +
        getNumEvictableBlocks q (a.hits.drop (a.skippedBlocks m.blockSize)) := by
  obtain ⟨htab, halloc, hpart, hspec⟩ := alignNumBlocksToAllocate_spec (hpred.eq h.kind h.mode)
  have hbs : m1.blockSize = m.blockSize := congrArg (·.blockSize) hspec
  obtain ⟨hempty, hblocks, -, hspec2, halloc2, hcheck2, hpart2, hcount⟩ :=
    addLocalComputedBlocks_align (hspec ▸ h.kind) hrefs hadd
  have hempty' : m.blocksOf a.requestId = [] := by rw [← htab]; exact hempty
  obtain ⟨hal, hph⟩ := h.notAllocated hempty'
  have hpart' : m2.partialHitReqs.contains a.requestId =
      m1.hasPartialLocalHit (a.hits.drop (a.skippedBlocks m.blockSize)) a.numLocalComputedTokens := by
    rw [hpart2, hpart, hph, hbs]
    simp [AlignArgs.skippedBlocks, AlignArgs.totalComputedTokens]
  rw [hbs] at hblocks hcount
  refine ⟨hempty', ⟨hspec2, ?_, ?_, ?_⟩, ?_, fun hle => ?_, hcount⟩
  · rw [relocates, halloc2, halloc, hal]
    rfl
  · rw [checkpointBlock, checkpointBlock, hcheck2]
  · rw [partialHitBlock, hpart']
    split
    · next hp =>
      have : m1.hasPartialLocalHit a.hits a.numLocalComputedTokens = true := by
        simp only [hasPartialLocalHit, length_drop, Bool.and_eq_true, decide_eq_true_eq] at hp ⊢
        exact ⟨hp.1.trans_le (Nat.sub_le _ _), hp.2⟩
      rw [if_pos this]
    · exact Nat.zero_le _
  · rw [hblocks, length_append, length_replicate, length_drop]
    show a.skippedBlocks m.blockSize + (a.hits.length - a.skippedBlocks m.blockSize) = _
    omega
  · rw [partialHitBlock, hpart', drop_eq_nil_of_le hle]
    rfl

theorem AlignOk.allocateNewBlocks_spec (hcomp : AlignComputed m1 p a taken m2)
    (hall : m2.allocateNewBlocks q a.requestId a.numTokensNeedSlot a.numTokensMainModel = .ok (bs, m', q')) :
    q.getNumFreeBlocks = q'.getNumFreeBlocks + m2.alignNewBlocks s a.requestId a.numTokensMainModel ∧
      AlignAllocated m2 s a.requestId a.numTokensMainModel m' := by
  have hspec := (alignNumBlocksToAllocate_spec (hpred.eq h.kind h.mode)).2.2.2
  have hkind2 : m2.spec.kind = .mamba s := by rw [(hcomp.spec (hspec ▸ h.kind)).1, hspec]; exact h.kind
  rw [allocateNewBlocks, hkind2] at hall
  dsimp only at hall
  rw [if_pos h.mode] at hall
  exact alignAllocateNewBlocks_spec hall

theorem AlignOk.relocates_spec (hcomp : AlignComputed m1 p a taken m2)
    (hrel : m2.relocates a.requestId) : s.numSpeculativeBlocks ≤ (m2.blocksOf a.requestId).length := by
  obtain ⟨htab, halloc, hpart, hspec⟩ := alignNumBlocksToAllocate_spec (hpred.eq h.kind h.mode)
  obtain ⟨-, halloc2, -⟩ := hcomp.spec (hspec ▸ h.kind)
  have hal : m.allocatedBlockReqs.contains a.requestId := by
    rw [relocates, Bool.and_eq_true, halloc2, halloc] at hrel
    exact hrel.1
  cases hcomp with
  | none => rw [htab]; exact h.spec_le a.requestId hal
  | ofLocal _ hrefs _ hadd
  | ofExternal _ hrefs _ hadd =>
    obtain ⟨hempty, -⟩ := h.firstCall_add hpred hrefs hadd
    exact absurd ((h.notAllocated hempty).1.symm.trans hal) Bool.false_ne_true

variable (ha : a.Scheduled m.blockSize)
include ha

theorem AlignOk.fits_noComputed (hhits : a.hits = [])
    (hext : a.numExternalComputedTokens = 0) :
    (m1.alignNewBlocks s a.requestId a.numTokensMainModel : Int) ≤ k ↔ m.AlignFits p s a := by
  have heq := hpred.eq h.kind h.mode
  obtain ⟨htab, halloc, hpart, hspec⟩ := alignNumBlocksToAllocate_spec heq
  have hc := checkpoints_predicted heq
  have hpos : 0 < cdiv a.numTokensMainModel m.blockSize := cdiv_pos (Nat.zero_lt_of_lt ha.lt_main) m.spec.blockSize_pos
  have hk := (Prod.mk.inj heq).1
  have hbs : m1.blockSize = m.blockSize := congrArg (·.blockSize) hspec
  have hs := h.spec_le a.requestId
  have h0 := h.length_eq_zero a.requestId
  have hp := h.allocated_of_partialHit a.requestId
  simp only [hhits, hasPartialLocalHit, getNumEvictableBlocks, length_nil, countP_nil] at hk
  simp only [AlignFits, hhits, hext, lt_irrefl, false_and, not_false_iff, and_true]
  simp only [alignNewBlocks, alignNumNewBlocks, alignLength, relocates, partialHitBlock, checkpointBlock, hbs, htab,
    halloc, hpart, hc]
  subst hk
  generalize (m.plannedCheckpoint p s a.requestId a.totalComputedTokens a.numTokensMainModel).isSome = cp
  generalize cdiv a.numTokensMainModel m.blockSize = A at *
  generalize (m.blocksOf a.requestId).length = P at *
  generalize m.allocatedBlockReqs.contains a.requestId = al at *
  generalize m.partialHitReqs.contains a.requestId = ph at *
  cases al <;> cases ph <;> cases cp <;> simp at * <;> omega

/-- On the first call of a request the prediction is one state, the speculative blocks, the copy, the
checkpoint and the hits to take out of the free queue. -/
theorem AlignOk.predicted_first (hempty : m.blocksOf a.requestId = []) :
    k = 1 + (if m.hasPartialLocalHit a.hits a.numLocalComputedTokens then 1 else 0) + m1.checkpointBlock a.requestId +
      s.numSpeculativeBlocks + getNumEvictableBlocks p a.hits := by
  have heq := hpred.eq h.kind h.mode
  obtain ⟨hal, hph⟩ := h.notAllocated hempty
  rw [checkpointBlock, checkpoints_predicted heq, (Prod.mk.inj heq).1]
  simp only [hal, hph, hempty, Bool.or_false, length_nil]
  have hbs := m.spec.blockSize_pos
  have hlt := ha.lt_main
  have hhits := ha.hits
  have hmono : cdiv a.numLocalComputedTokens m.blockSize ≤ cdiv a.numTokensMainModel m.blockSize := cdiv_mono hlt.le
  have hpos : 0 < cdiv a.numTokensMainModel m.blockSize := cdiv_pos (by omega) hbs
  simp only [Bool.false_eq_true, and_false, not_false_eq_true, and_true, if_false]
  cases hpart : m.hasPartialLocalHit a.hits a.numLocalComputedTokens with
  | true =>
    simp only [if_true]
    rw [if_pos (by omega)]
  | false =>
    -- without a partial hit the new tokens begin a block, or there are no hits
    have hmiss : a.hits.length < cdiv a.numTokensMainModel m.blockSize := by
      rcases Nat.eq_zero_or_pos a.hits.length with h0 | h0
      · omega
      · have hmod : a.numLocalComputedTokens % m.blockSize = 0 := by simpa [hasPartialLocalHit, h0] using hpart
        exact hhits.trans_lt (cdiv_lt_of_dvd hbs hmod hlt)
    simp only [Bool.false_eq_true, if_false]
    rw [if_pos (by omega)]

/-- A first call whose computed blocks are at most the hits it predicted stays within its prediction. -/
theorem AlignOk.first_le (hempty : m.blocksOf a.requestId = []) (hfirst : FirstCall m1 m2 a)
    (htaken : taken ≤ getNumEvictableBlocks p a.hits) :
    ((taken + m2.alignNewBlocks s a.requestId a.numTokensMainModel : Nat) : Int) ≤ k := by
  obtain ⟨-, hrel, hcheck, hpart⟩ := hfirst
  have hk := h.predicted_first hpred ha hempty
  have hspec := (alignNumBlocksToAllocate_spec (hpred.eq h.kind h.mode)).2.2.2
  have hpartEq : m1.hasPartialLocalHit a.hits a.numLocalComputedTokens =
      m.hasPartialLocalHit a.hits a.numLocalComputedTokens := by
    rw [hasPartialLocalHit, hasPartialLocalHit, blockSize, blockSize, hspec]
  have hle := alignNewBlocks_le (m := m2) (s := s) (r := a.requestId) (n := a.numTokensMainModel)
    (fun hcon => absurd (hrel.symm.trans hcon) Bool.false_ne_true) (Nat.zero_lt_of_lt ha.lt_main)
  simp only [alignMaxNewBlocks, hrel, hcheck, Bool.false_eq_true, if_false] at hle
  rw [hpartEq] at hpart
  split at hk
  · next hp => rw [if_pos hp] at hpart; omega
  · next hp => rw [if_neg hp] at hpart; omega

/-- With an external load the first call takes one block more if the hits end before the loaded tokens. -/
theorem AlignOk.fits_external {t t' : BlockPool η} (hext : 0 < a.numExternalComputedTokens)
    (hrefs : ∀ b, 0 ≤ (q.blocks b).refCnt) (hused : ∀ b, (q.blocks b).refCnt = 0 → (p.blocks b).refCnt = 0)
    (hadd : m1.addLocalComputedBlocks q a.requestId a.hits a.numLocalComputedTokens a.numExternalComputedTokens =
      .ok (m2, q'))
    (hload : m2.allocateExternalComputedBlocks t a.requestId a.numLocalComputedTokens a.numExternalComputedTokens =
      .ok (m3, t')) : ((q.getNumFreeBlocks - q'.getNumFreeBlocks + (t.getNumFreeBlocks - t'.getNumFreeBlocks) +
      m3.alignNewBlocks s a.requestId a.numTokensMainModel : Nat) : Int) ≤ k ↔ m.AlignFits p s a := by
  have heq := hpred.eq h.kind h.mode
  obtain ⟨hempty, hfirst, hlen, hnoPart, hcount⟩ := h.firstCall_add hpred hrefs hadd
  have hspec2 := hfirst.spec.trans (alignNumBlocksToAllocate_spec heq).2.2.2
  obtain ⟨hlen3, -, hspec3, halloc3, hcheck3, hpart3, hcount3⟩ :=
    allocateExternalComputedBlocks_align (hspec2 ▸ h.kind) hext hload
  have hbs2 : m2.blockSize = m.blockSize := congrArg (·.blockSize) hspec2
  have hbs3 : m3.blockSize = m.blockSize := congrArg (·.blockSize) (hspec3.trans hspec2)
  have hfirst3 : FirstCall m1 m3 a := by
    refine ⟨hspec3.trans hfirst.spec, ?_, ?_, ?_⟩
    · rw [relocates, halloc3, hcheck3]; exact hfirst.relocates
    · rw [checkpointBlock, hcheck3]; exact hfirst.checkpoint
    · rw [partialHitBlock, hpart3]; exact hfirst.partialHit
  have hB : cdiv a.totalComputedTokens m.blockSize = a.skippedBlocks m.blockSize + 1 :=
    cdiv_eq_pred_div (Nat.lt_of_lt_of_le hext (Nat.le_add_left _ _)) m.spec.blockSize_pos
  rw [hbs2] at hlen3 hcount3
  change _ = max (cdiv a.totalComputedTokens m.blockSize) _ at hlen3
  change _ = _ + (cdiv a.totalComputedTokens m.blockSize - _) at hcount3
  have hev := evictable_drop_le hused a.hits (a.skippedBlocks m.blockSize)
  by_cases hlt : a.hits.length < cdiv a.totalComputedTokens m.blockSize
  · -- the hits are all skipped, and the load takes a block
    have hle : a.hits.length ≤ a.skippedBlocks m.blockSize := by rw [hB] at hlt; exact Nat.le_of_lt_succ hlt
    have hpart : m3.partialHitBlock a.requestId = 0 := by rw [partialHitBlock, hpart3]; exact hnoPart hle
    have hmono : cdiv a.totalComputedTokens m.blockSize ≤ cdiv a.numTokensMainModel m.blockSize :=
      cdiv_mono (Nat.le_add_right _ _)
    have hk := h.predicted_first hpred ha hempty
    have hc : m3.checkpointBlock a.requestId = m1.checkpointBlock a.requestId := hfirst3.checkpoint
    have hplan := congrArg (fun c => if c = true then 1 else 0) (checkpoints_predicted heq)
    change m1.checkpointBlock a.requestId = if _ then 1 else 0 at hplan
    rw [drop_eq_nil_of_le hle] at hcount
    simp only [getNumEvictableBlocks, countP_nil] at hcount
    rw [Nat.max_eq_left hle] at hlen
    simp only [AlignFits, hempty, length_nil, Nat.zero_le, true_or, true_and, hext, hlt, ← hplan,
      alignNewBlocks, alignNumNewBlocks, alignLength, hfirst3.relocates, hc, hpart, hbs3, hlen3, hlen,
      Bool.false_eq_true, if_false, hk]
    generalize a.skippedBlocks m.blockSize = K at *
    generalize cdiv a.totalComputedTokens m.blockSize = B at *
    generalize cdiv a.numTokensMainModel m.blockSize = A at *
    cases hp : m.hasPartialLocalHit a.hits a.numLocalComputedTokens <;> simp <;> omega
  · -- the last hit reaches into the block of the last loaded token
    have htaken : q.getNumFreeBlocks - q'.getNumFreeBlocks + (t.getNumFreeBlocks - t'.getNumFreeBlocks) ≤
        getNumEvictableBlocks p a.hits := by
      generalize a.skippedBlocks m.blockSize = K at *
      omega
    refine iff_of_true (h.first_le hpred ha hempty hfirst3 htaken) ⟨.inl ?_, fun hcon => hlt hcon.2.1⟩
    rw [hempty]
    exact Nat.zero_le _

theorem AlignOk.taken_le_iff (hcomp : AlignComputed m1 p a taken m2) :
    ((taken + m2.alignNewBlocks s a.requestId a.numTokensMainModel : Nat) : Int) ≤ k ↔ m.AlignFits p s a := by
  cases hcomp with
  | none hhits hext =>
    rw [Nat.zero_add]
    exact h.fits_noComputed hpred ha hhits hext
  | ofLocal hext hrefs hused hadd =>
    obtain ⟨hempty, hfirst, -, -, hcount⟩ := h.firstCall_add hpred hrefs hadd
    have hev := evictable_drop_le hused a.hits (a.skippedBlocks m.blockSize)
    have hle := h.first_le hpred ha hempty hfirst ((Nat.sub_le_iff_le_add'.2 hcount).trans hev)
    refine iff_of_true hle ⟨.inl ?_, fun hcon => absurd hext (Nat.ne_of_gt hcon.1)⟩
    rw [hempty]
    exact Nat.zero_le _
  | ofExternal hext hrefs hused hadd hload => exact h.fits_external hpred ha hext hrefs hused hadd hload

theorem AlignOk.call (hcomp : AlignComputed m1 p a taken m2)
    (hall : m2.allocateNewBlocks q a.requestId a.numTokensNeedSlot a.numTokensMainModel = .ok (bs, m', q')) :
    m'.AlignOk s := by
  obtain ⟨htab1, halloc1, hpart1, hspec1⟩ := alignNumBlocksToAllocate_spec (hpred.eq h.kind h.mode)
  obtain ⟨hspec2, halloc2, hothers2⟩ := hcomp.spec (hspec1 ▸ h.kind)
  have hA := (h.allocateNewBlocks_spec hpred hcomp hall).2
  have hpos : 0 < cdiv a.numTokensMainModel m2.blockSize :=
      cdiv_pos (Nat.zero_lt_of_lt ha.lt_main) m2.spec.blockSize_pos
  have halloc : ∀ x, x ∈ m'.allocatedBlockReqs ↔ x = a.requestId ∨ x ∈ m.allocatedBlockReqs := by
    intro x
    rw [hA.allocated, halloc2, halloc1, mem_insertNew]
  have htab : ∀ x ≠ a.requestId, m'.blocksOf x = m.blocksOf x := by
    intro x hx
    rw [hA.others x hx, (hothers2 x hx).1, htab1]
  have hlen := hA.length
  refine ⟨by rw [hA.spec, hspec2, hspec1]; exact h.kind, h.mode, fun x => ?_, fun x hx => ?_, fun x hx => ?_⟩
  · rw [halloc]
    by_cases hx : x = a.requestId
    · subst hx
      exact iff_of_true (.inl rfl) (ne_nil_of_length_pos (by omega))
    · rw [htab x hx, ← h.allocated]
      exact or_iff_right hx
  · by_cases hxr : x = a.requestId
    · subst hxr
      omega
    · rw [htab x hxr]
      exact h.speculative x (((halloc x).1 hx).resolve_left hxr)
  · obtain ⟨hne, hp⟩ := hA.partialHit x hx
    refine (halloc x).2 (.inr (h.partialHit x ?_))
    rw [← hpart1]
    exact (hothers2 x hne).2 hp

end

/-! ### Runs -/

/-- The states a manager in align mode gets into: `allocate_slots` calls that go on, calls that stop at the
prediction, and everything else that changes a manager, each on any pool. -/
inductive AlignReachable (s : MambaSpec) : Manager η → Prop
  | init {spec : KVCacheSpec} (kind : spec.kind = .mamba s) (mode : s.mambaCacheMode = .align)
      (maxInFlightTokens maxModelLen : Nat) (enableCaching : Bool) (kvCacheGroupId schedulerBlockSize : Nat)
      (needsKvCacheZeroing useEagle fineGrained dropEagle : Bool) (alignment : Nat) :
      AlignReachable s
        { Manager.init spec maxInFlightTokens maxModelLen enableCaching kvCacheGroupId schedulerBlockSize
            needsKvCacheZeroing with
          useEagle := useEagle, fineGrainedPrefixCache := fineGrained, dropEagleCheckpointBlock := dropEagle,
          cacheHitAlignmentTokens := alignment }
  | call {m m1 m2 m' : Manager η} {p q q' : BlockPool η} {a : AlignArgs} {k : Int} {taken : Nat} {bs : List BlockId}
      (reach : AlignReachable s m) (scheduled : a.Scheduled m.blockSize) (predicted : AlignPredicted m p a k m1)
      (computed : AlignComputed m1 p a taken m2)
      (allocate : m2.allocateNewBlocks q a.requestId a.numTokensNeedSlot a.numTokensMainModel = .ok (bs, m', q')) :
      AlignReachable s m'
  | predict {m m' : Manager η} {p : BlockPool η} {r : RequestId} {nt tot nl main : Nat} {hits : List BlockId}
      {cap : Bool} {k : Int} (reach : AlignReachable s m)
      (step : m.getNumBlocksToAllocate p r nt hits tot nl main cap = .ok (k, m')) : AlignReachable s m'
  | cacheBlocks {m m' : Manager η} {p p' : BlockPool η} {request : Request η} {n : Nat} {ret : Option Nat}
      {bd : List Nat} (reach : AlignReachable s m) (step : m.cacheBlocks p request n ret bd = .ok (m', p')) :
      AlignReachable s m'
  | removeSkippedBlocks {m m' : Manager η} {p p' : BlockPool η} {r : RequestId} {n : Nat} {np : Option Nat}
      (reach : AlignReachable s m) (step : m.removeSkippedBlocks p r n np = .ok (m', p')) : AlignReachable s m'
  | popBlocksForFree {m : Manager η} (r : RequestId) (reach : AlignReachable s m) :
      AlignReachable s (m.popBlocksForFree r).2
  | takePendingCowCopies {m : Manager η} (reach : AlignReachable s m) : AlignReachable s m.takePendingCowCopies.2
  | takeNewBlockIds {m : Manager η} (reach : AlignReachable s m) : AlignReachable s m.takeNewBlockIds.2
  | takeOffloads {m : Manager η} (reach : AlignReachable s m) :
      AlignReachable s m.takePendingBoundaryStateOffloads.2
  | finalizeTail {m : Manager η} (r : RequestId) (n i : Nat) (reach : AlignReachable s m) :
      AlignReachable s (m.finalizePartialTailOffload r n i).2
  | newStepStarts {m : Manager η} (reach : AlignReachable s m) : AlignReachable s m.newStepStarts

theorem AlignReachable.ok (h : AlignReachable s m) : m.AlignOk s := by
  induction h with
  | init kind mode => exact ⟨kind, mode, fun x => by simp [Manager.init, blocksOf, Dict.getD], by simp [Manager.init],
      by simp [Manager.init, Dict.contains]⟩
  | call _ ha hpred hcomp hall ih => exact ih.call hpred ha hcomp hall
  | predict _ hstep ih => exact ih.same (getNumBlocksToAllocate_same hstep).1
  | cacheBlocks _ hstep ih => exact ih.same (cacheBlocks_same hstep).1
  | removeSkippedBlocks _ hstep ih => exact ih.removeSkippedBlocks hstep
  | popBlocksForFree r _ ih => exact ih.popBlocksForFree r
  | takePendingCowCopies _ ih => exact ih.congr rfl (fun _ => rfl) rfl fun _ h => .inl h
  | takeNewBlockIds _ ih => exact ih.congr rfl (fun _ => rfl) rfl fun _ h => .inl h
  | takeOffloads _ ih => exact ih.congr rfl (fun _ => rfl) rfl fun _ h => .inl h
  | @finalizeTail m r n i _ ih =>
    unfold finalizePartialTailOffload
    split
    · exact ih.congr rfl (fun _ => rfl) rfl fun _ h => .inl h
    · exact ih
  | @newStepStarts m _ ih =>
    unfold Manager.newStepStarts
    rw [ih.kind]
    exact ih.congr rfl (fun _ => rfl) rfl fun _ h => .inl h

/-- In every reachable state and for every call of the scheduler the assertion on the number of new blocks
holds, and the three methods together take at most the predicted number of blocks exactly if the call fits. -/
theorem align_taken_le_predicted_iff {m1 m2 : Manager η} {taken : Nat} (hreach : AlignReachable s m)
    (ha : a.Scheduled m.blockSize) (hpred : AlignPredicted m p a k m1) (hcomp : AlignComputed m1 p a taken m2)
    (q : BlockPool η) : (∀ tbl, m2.alignTable q s a.requestId (cdiv a.numTokensMainModel m2.blockSize - 1) = .ok tbl →
      m2.alignNumNewBlocks s a.requestId a.numTokensMainModel tbl.length ≤ m2.alignMaxNewBlocks s a.requestId) ∧
    ∀ bs m' q', m2.allocateNewBlocks q a.requestId a.numTokensNeedSlot a.numTokensMainModel = .ok (bs, m', q') →
      (((taken + (q.getNumFreeBlocks - q'.getNumFreeBlocks) : Nat) : Int) ≤ k ↔ m.AlignFits p s a) := by
  have h := hreach.ok
  constructor
  · intro tbl htbl
    rw [alignTable_length htbl]
    exact alignNewBlocks_le (h.relocates_spec hpred hcomp) (Nat.zero_lt_of_lt ha.lt_main)
  · intro bs m' q' hall
    rw [(h.allocateNewBlocks_spec hpred hcomp hall).1, Nat.add_sub_cancel_left]
    exact h.taken_le_iff hpred ha hcomp

end

def alignManager : Manager Nat :=
  { Manager.init ⟨2, .mamba ⟨.align, 1, 0, none⟩, Nat.two_pos, 0⟩ 64 64 true 0 2 false with
    useEagle := false, fineGrainedPrefixCache := false, dropEagleCheckpointBlock := false,
    cacheHitAlignmentTokens := 2 }

/-- The first call of a request with three new tokens: two blocks predicted, two taken. -/
theorem align_taken_le_predicted_newRequest : ∃ (p q' : BlockPool Nat) (m1 m' : Manager Nat) (bs : List BlockId),
      BlockPool.init 5 true 2 false = .ok p ∧ AlignPredicted alignManager p ⟨7, [], 0, 0, 3, 3⟩ 2 m1 ∧
      m1.allocateNewBlocks p 7 3 3 = .ok (bs, m', q') ∧
      (((0 + (p.getNumFreeBlocks - q'.getNumFreeBlocks) : Nat) : Int) ≤ 2 ↔
        alignManager.AlignFits p ⟨.align, 1, 0, none⟩ ⟨7, [], 0, 0, 3, 3⟩) := by
  have hpred : ∃ p m1, BlockPool.init 5 true 2 false = .ok p ∧ AlignPredicted alignManager p ⟨7, [], 0, 0, 3, 3⟩ 2 m1 ∧
      ∃ r, m1.allocateNewBlocks p 7 3 3 = .ok r := ⟨_, _, rfl, ⟨rfl, show (2 : Int) ≤ 5 by decide⟩, _, rfl⟩
  obtain ⟨p, m1, hp, hpred, ⟨bs, m', q'⟩, hall⟩ := hpred
  exact ⟨p, q', m1, m', bs, hp, hpred, hall,
    (align_taken_le_predicted_iff (.init rfl rfl 64 64 true 0 2 false false false false 2)
      ⟨by decide, by decide⟩ hpred (.none rfl rfl) p).2 bs m' q' hall⟩

def alignGroup (numBlocks : Nat) : Coordinator.KVCacheConfig where
  numBlocks := numBlocks
  groups := [⟨⟨2, .mamba ⟨.align, 0, 0, none⟩, Nat.two_pos, 0⟩, false⟩]

def alignOptions : Coordinator.KVCacheOptions where
  maxModelLen := 64
  maxInFlightTokens := 64
  schedulerBlockSize := 2
  hashBlockSize := 2

/-- Two loaded tokens and two new ones, with blocks of two tokens: one block is predicted and two are
taken. On a pool with just one free block the call passes the check and then raises. -/
theorem align_external_exceeds_prediction :
    (∃ (k k' : KVCacheManager Nat) (c : Coordinator Nat) (new : Option (List (List BlockId))),
      KVCacheManager.init (alignGroup 3) alignOptions 0 = .ok k ∧
      k.coordinator.getNumBlocksToAllocate 7 4 [[]] 0 2 0 4 false = .ok (1, c) ∧
      k.allocateSlots { requestId := 7, allTokenIds := [1, 2, 3, 4], blockHashes := [11, 12] }
        { numNewTokens := 2, numExternalComputedTokens := 2 } = .ok (new, k') ∧
      k.pool.getNumFreeBlocks = k'.pool.getNumFreeBlocks + 2) ∧
    ∃ k : KVCacheManager Nat, KVCacheManager.init (alignGroup 2) alignOptions 0 = .ok k ∧
      k.allocateSlots { requestId := 7, allTokenIds := [1, 2, 3, 4], blockHashes := [11, 12] }
        { numNewTokens := 2, numExternalComputedTokens := 2 } =
          .error (.valueError "Cannot get 1 free blocks from the pool") :=
  ⟨⟨_, _, _, _, rfl, rfl, rfl, rfl⟩, _, rfl, rfl⟩

end Manager

end VllmCore
