import VllmCore.Core.BlockPool

/-! # Reference accounting

`p.Accounts held` is the contract between the pool and the owners of its blocks: `held b` is the number
of references to block `b`, every reference count agrees with it, and the free queue links exactly the
blocks without references. The null block takes no part: `refsTo` counts the non-null blocks of a list.

Owners are added up, so each pool operation has one lemma in frame style: taking blocks adds
`refsTo` of them to whatever else is held, giving them back takes it away. Operations on hashes only
leave `SameRefs`; operations on references only leave `SameHashes`. -/

namespace VllmCore
open Except List
variable {η : Type} {key : BlockHashWithGroupId η} {mask : Option (List Bool)} {n : Nat} {r : Request η}

def refsTo (bs : List BlockId) : BlockId → Nat := fun b => if b = nullBlock then 0 else bs.count b

@[simp] theorem refsTo_nil : refsTo [] = 0 := by
  funext b; simp [refsTo]

theorem refsTo_append (bs cs : List BlockId) : refsTo (bs ++ cs) = refsTo bs + refsTo cs := by
  funext b
  simp only [refsTo, count_append, Pi.add_apply]
  split <;> rfl

theorem refsTo_cons (b : BlockId) (bs : List BlockId) : refsTo (b :: bs) = refsTo [b] + refsTo bs :=
  refsTo_append [b] bs

theorem refsTo_perm {bs cs : List BlockId} (h : bs.Perm cs) : refsTo bs = refsTo cs := by
  funext b; simp only [refsTo, h.count_eq]

@[simp] theorem refsTo_reverse (bs : List BlockId) : refsTo bs.reverse = refsTo bs :=
  refsTo_perm bs.reverse_perm

@[simp] theorem refsTo_null (bs : List BlockId) : refsTo (nullBlock :: bs) = refsTo bs := by
  funext b
  simp only [refsTo]
  split
  · rfl
  · next h => rw [count_cons_of_ne (Ne.symm h)]

@[simp] theorem refsTo_replicate_null (n : Nat) : refsTo (List.replicate n nullBlock) = 0 := by
  induction n with
  | zero => exact refsTo_nil
  | succ n ih => rw [replicate_succ, refsTo_null, ih]

theorem refsTo_pos {b : BlockId} {bs : List BlockId} (hb : b ≠ nullBlock) : 0 < refsTo bs b ↔ b ∈ bs := by
  rw [refsTo, if_neg hb, count_pos_iff]

theorem refsTo_set {bs : List BlockId} {i : Nat} {b : BlockId} (h : bs[i]? = some b) (c : BlockId) :
    refsTo (bs.set i c) + refsTo [b] = refsTo bs + refsTo [c] := by
  obtain ⟨hi, rfl⟩ := List.getElem?_eq_some_iff.1 h
  have hset : bs.set i c = bs.take i ++ c :: bs.drop (i + 1) := set_eq_take_append_cons_drop.trans (if_pos hi)
  have hbs : bs = bs.take i ++ bs[i] :: bs.drop (i + 1) := by simp
  rw [hset]
  conv_rhs => rw [hbs]
  rw [refsTo_append, refsTo_append, refsTo_cons c (bs.drop _), refsTo_cons bs[i] (bs.drop _)]
  ac_rfl

namespace BlockPool
variable {p p' p'' : BlockPool η} {held R : BlockId → Nat} {b : BlockId} {bs : List BlockId}

structure Accounts (p : BlockPool η) (held : BlockId → Nat) : Prop where
  refs : ∀ b, b ≠ nullBlock → (p.blocks b).refCnt = held b
  queue : ∃ l, p.freeBlockQueue.Holds l ∧
    ∀ b, b ∈ l ↔ b ≠ nullBlock ∧ b < p.numGpuBlocks ∧ held b = 0
  bound : ∀ b, b ≠ nullBlock → p.numGpuBlocks ≤ b → held b = 0

structure SameRefs (p p' : BlockPool η) : Prop where
  numGpuBlocks : p'.numGpuBlocks = p.numGpuBlocks
  enableCaching : p'.enableCaching = p.enableCaching
  hashBlockSize : p'.hashBlockSize = p.hashBlockSize
  queue : p'.freeBlockQueue = p.freeBlockQueue
  refs : ∀ b, (p'.blocks b).refCnt = (p.blocks b).refCnt

structure SameHashes (p p' : BlockPool η) : Prop where
  numGpuBlocks : p'.numGpuBlocks = p.numGpuBlocks
  enableCaching : p'.enableCaching = p.enableCaching
  hashBlockSize : p'.hashBlockSize = p.hashBlockSize
  index : p'.cachedBlockHashToBlock = p.cachedBlockHashToBlock
  byBlock : p'.cachedBlockHashesByBlock = p.cachedBlockHashesByBlock
  hash : ∀ b, (p'.blocks b).blockHash = (p.blocks b).blockHash
  tokens : ∀ b, (p'.blocks b).blockHashNumTokens = (p.blocks b).blockHashNumTokens

theorem SameRefs.refl (p : BlockPool η) : p.SameRefs p := ⟨rfl, rfl, rfl, rfl, fun _ => rfl⟩

theorem SameRefs.trans (h : p.SameRefs p') (h' : p'.SameRefs p'') : p.SameRefs p'' :=
  ⟨h'.1.trans h.1, h'.2.trans h.2, h'.3.trans h.3, h'.4.trans h.4, fun b => (h'.5 b).trans (h.5 b)⟩

theorem SameHashes.refl (p : BlockPool η) : p.SameHashes p :=
  ⟨rfl, rfl, rfl, rfl, rfl, fun _ => rfl, fun _ => rfl⟩

theorem SameHashes.trans (h : p.SameHashes p') (h' : p'.SameHashes p'') : p.SameHashes p'' :=
  ⟨h'.1.trans h.1, h'.2.trans h.2, h'.3.trans h.3, h'.4.trans h.4, h'.5.trans h.5,
    fun b => (h'.6 b).trans (h.6 b), fun b => (h'.7 b).trans (h.7 b)⟩

theorem Accounts.sameRefs (h : p.Accounts held) (hs : p.SameRefs p') : p'.Accounts held := by
  refine ⟨fun b hb => (hs.refs b).trans (h.refs b hb), ?_, ?_⟩
  · rw [hs.queue, hs.numGpuBlocks]; exact h.queue
  · rw [hs.numGpuBlocks]; exact h.bound

/-! ### Operations on hashes only -/

theorem sameRefs_setBlock {blk : KVCacheBlock η} (h : blk.refCnt = (p.blocks b).refCnt) :
    p.SameRefs (p.setBlock b blk) := by
  refine ⟨rfl, rfl, rfl, rfl, fun x => ?_⟩
  simp only [setBlock]
  split
  · next hx => rw [hx, h]
  · rfl

theorem sameRefs_setBlockHash {n : Option Nat} (h : p.setBlockHash b key n = .ok p') : p.SameRefs p' := by
  simp only [setBlockHash, do_eq_ok] at h
  obtain ⟨-, -, rfl⟩ := h
  exact sameRefs_setBlock rfl

section Hashes
variable [DecidableEq η]

theorem sameRefs_removeCachedBlockHashes (p : BlockPool η) (b : BlockId) :
    p.SameRefs (p.removeCachedBlockHashes b).2 := by
  simp only [removeCachedBlockHashes]
  split
  · exact ⟨rfl, rfl, rfl, rfl, fun _ => rfl⟩
  · refine SameRefs.trans ?_ (sameRefs_setBlock rfl)
    exact ⟨rfl, rfl, rfl, rfl, fun _ => rfl⟩

omit [DecidableEq η] in
theorem sameRefs_emitBlockRemovedEvents (p : BlockPool η) (keys : List (BlockHashWithGroupId η)) :
    p.SameRefs (p.emitBlockRemovedEvents keys) := by
  unfold emitBlockRemovedEvents
  split
  · exact ⟨rfl, rfl, rfl, rfl, fun _ => rfl⟩
  · exact .refl p

theorem sameRefs_dropHashes (p : BlockPool η) (b : BlockId) : p.SameRefs (p.dropHashes b) :=
  (sameRefs_removeCachedBlockHashes p b).trans (sameRefs_emitBlockRemovedEvents ..)

theorem sameRefs_insertBlockHash {n : Option Nat} (h : p.insertBlockHash key b n = .ok p') : p.SameRefs p' := by
  unfold insertBlockHash at h
  split at h
  · cases h; exact .refl p
  split at h
  · cases h; exact .refl p
  rw [bind_eq_ok] at h
  obtain ⟨q, hq, h⟩ := h
  cases pure_eq_ok.1 h
  have hpq : p.SameRefs q := by
    unfold recordKey at hq
    split at hq
    · exact sameRefs_setBlockHash hq
    · cases hq; exact ⟨rfl, rfl, rfl, rfl, fun _ => rfl⟩
  exact hpq.trans ⟨rfl, rfl, rfl, rfl, fun _ => rfl⟩

theorem sameRefs_maybeEvictCachedBlock (p : BlockPool η) (b : BlockId) : p.SameRefs (p.maybeEvictCachedBlock b).2 := by
  simp only [maybeEvictCachedBlock]
  split
  · exact sameRefs_removeCachedBlockHashes p b
  · exact (sameRefs_removeCachedBlockHashes p b).trans (sameRefs_emitBlockRemovedEvents ..)

theorem sameRefs_promote (h : p.promote b n = .ok p') : p.SameRefs p' := by
  unfold promote at h
  split at h
  · cases h; exact .refl p
  · simp only [do_eq_ok] at h
    obtain ⟨-, -, rfl⟩ := h
    exact sameRefs_dropHashes p b

theorem sameRefs_cacheFullBlock {bsz g nc : Nat} {hashes : List η} {st st' : BlockPool η × List η} {ib : Nat × BlockId}
    (h : cacheFullBlock bsz g nc mask hashes st ib = .ok st') : st.1.SameRefs st'.1 := by
  simp only [cacheFullBlock] at h
  split at h
  · cases h; exact .refl _
  split at h
  · cases h
  rw [bind_eq_ok] at h
  obtain ⟨q, hq, h⟩ := h
  rw [bind_eq_ok] at h
  obtain ⟨q', hq', h⟩ := h
  cases pure_eq_ok.1 h
  exact (sameRefs_promote hq).trans (sameRefs_insertBlockHash hq')

theorem sameRefs_cacheFullBlocks {nc nf bsz g : Nat} (h : p.cacheFullBlocks r bs nc nf bsz g mask = .ok p') :
    p.SameRefs p' := by
  unfold cacheFullBlocks at h
  split at h
  · cases h; exact .refl p
  simp only [bind_eq_ok] at h
  obtain ⟨-, -, hashes, -, st, hst, h⟩ := h
  have hloop : p.SameRefs st.1 :=
    foldlM_inv (P := fun x => p.SameRefs x.1) (fun ib _ x y hx hy => hx.trans (sameRefs_cacheFullBlock hy))
      hst (.refl p)
  split at h
  · simp only [do_eq_ok] at h
    obtain ⟨_, -, rfl⟩ := h
    exact hloop.trans ⟨rfl, rfl, rfl, rfl, fun _ => rfl⟩
  · cases pure_eq_ok.1 h; exact hloop

theorem sameRefs_cachePartialBlock {nt g bsz : Nat} {repl : Bool} {key : Option (BlockHashWithGroupId η)}
    (h : p.cachePartialBlock r b nt g bsz repl = .ok (key, p')) : p.SameRefs p' := by
  unfold cachePartialBlock at h
  split at h
  · cases h; exact .refl p
  simp only [bind_eq_ok] at h
  obtain ⟨-, -, -, -, hash, -, q, hq, h⟩ := h
  have hpq : p.SameRefs q := by
    refine SameRefs.trans ?_ (sameRefs_insertBlockHash hq)
    split
    · exact sameRefs_dropHashes p b
    · exact .refl p
  cases pure_eq_ok.1 h
  split
  · exact hpq.trans ⟨rfl, rfl, rfl, rfl, fun _ => rfl⟩
  · exact hpq

theorem sameRefs_moveBlockHashes {src dst : BlockId} (h : p.moveBlockHashes src dst = .ok p') : p.SameRefs p' := by
  simp only [moveBlockHashes, bind_eq_ok] at h
  obtain ⟨-, -, -, -, h⟩ := h
  refine (sameRefs_removeCachedBlockHashes p src).trans ?_
  exact foldlM_inv (fun _ _ x y hx hy => hx.trans (sameRefs_insertBlockHash hy)) h (.refl _)

theorem sameRefs_evictBlocks (h : p.evictBlocks bs = .ok p') : p.SameRefs p' := by
  refine foldlM_inv (fun b _ x y hx hy => ?_) h (.refl p)
  simp only [do_eq_ok] at hy
  obtain ⟨-, -, rfl⟩ := hy
  exact hx.trans (sameRefs_maybeEvictCachedBlock x b)

end Hashes

theorem sameRefs_resetPrefixCache (p : BlockPool η) : p.SameRefs p.resetPrefixCache.2 := by
  unfold resetPrefixCache
  split
  · exact .refl p
  · exact ⟨rfl, rfl, rfl, rfl, fun _ => rfl⟩

/-! ### Operations on references only -/

@[simp] theorem refCnt_addRef (p : BlockPool η) (b x : BlockId) (n : Int) :
    ((p.addRef b n).blocks x).refCnt = (p.blocks x).refCnt + if x = b then n else 0 := by
  simp only [addRef, setBlock]
  split
  · next h => rw [h]
  · simp

theorem sameHashes_addRef (p : BlockPool η) (b : BlockId) (n : Int) : p.SameHashes (p.addRef b n) := by
  refine ⟨rfl, rfl, rfl, rfl, rfl, fun x => ?_, fun x => ?_⟩ <;>
  · simp only [addRef, setBlock]
    split
    · next h => rw [h]
    · rfl

theorem sameHashes_queue (p : BlockPool η) (q : FreeKVCacheBlockQueue) : p.SameHashes { p with freeBlockQueue := q } :=
  ⟨rfl, rfl, rfl, rfl, rfl, fun _ => rfl, fun _ => rfl⟩

theorem refsTo_singleton {x : BlockId} (hx : x ≠ nullBlock) (b : BlockId) : refsTo [b] x = if x = b then 1 else 0 := by
  rw [refsTo, if_neg hx, count_singleton]
  by_cases h : x = b
  · simp [h]
  · simp [h, Ne.symm h]

theorem Accounts.addRef (h : p.Accounts R) (hb : b ≠ nullBlock → 0 < R b) :
    (p.addRef b 1).Accounts (refsTo [b] + R) := by
  obtain ⟨l, hl, hmem⟩ := h.queue
  have hR : ∀ x, x ≠ nullBlock → ((refsTo [b] + R) x = 0 ↔ R x = 0) := by
    intro x hx
    rw [Pi.add_apply, refsTo_singleton hx]
    split
    · next e => have := hb (e ▸ hx); rw [e]; omega
    · rw [Nat.zero_add]
  refine ⟨fun x hx => ?_, ⟨l, hl, fun x => ?_⟩, fun x hx hlt => (hR x hx).2 (h.bound x hx hlt)⟩
  · rw [refCnt_addRef, h.refs x hx, Pi.add_apply, refsTo_singleton hx]
    split <;> push_cast <;> omega
  · rw [hmem x]
    exact and_congr_right fun hx => and_congr_right fun _ => (hR x hx).symm

/-- Whether `touch` takes the block out of the free queue. -/
def Evictable (R : BlockId → Nat) (b : BlockId) : Bool := b != nullBlock && R b == 0

theorem Accounts.touchBlock (h : p.Accounts R) (hb : b < p.numGpuBlocks) :
    ∃ p', p.touchBlock b = .ok p' ∧ p'.Accounts (refsTo [b] + R) ∧ p.SameHashes p' ∧
      p.getNumFreeBlocks = p'.getNumFreeBlocks + (if Evictable R b then 1 else 0) := by
  unfold BlockPool.touchBlock
  by_cases hev : b ≠ nullBlock ∧ R b = 0
  · obtain ⟨hnull, h0⟩ := hev
    obtain ⟨l, hl, hmem⟩ := h.queue
    obtain ⟨u, v, rfl⟩ := append_of_mem ((hmem b).2 ⟨hnull, hb, h0⟩)
    obtain ⟨q, hq, hq'⟩ := hl.remove
    have hc : ((p.blocks b).refCnt = 0 && !isNull b) = true := by
      simp [h.refs b hnull, h0, isNull, hnull]
    have hnd := hl.lists.nodup
    refine ⟨_, by rw [if_pos hc, hq]; rfl, ⟨fun x hx => ?_, ⟨u ++ v, hq', fun x => ?_⟩, fun x hx hlt => ?_⟩, ?_, ?_⟩
    · rw [refCnt_addRef, Pi.add_apply, refsTo_singleton hx]
      show (p.blocks x).refCnt + _ = _
      rw [h.refs x hx]
      split <;> push_cast <;> omega
    · have hx : x ∈ u ++ v ↔ x ∈ u ++ b :: v ∧ x ≠ b := by
        rw [nodup_middle, nodup_cons] at hnd
        constructor
        · intro hx
          exact ⟨perm_middle.mem_iff.2 (mem_cons_of_mem _ hx), fun e => hnd.1 (e ▸ hx)⟩
        · rintro ⟨hx, hne⟩
          exact (mem_cons.1 (perm_middle.mem_iff.1 hx)).resolve_left hne
      rw [hx, hmem x, and_assoc, and_assoc]
      refine and_congr_right fun hx => and_congr_right fun _ => ?_
      rw [Pi.add_apply, refsTo_singleton hx]
      split
      · next e => simp [e]
      · next e => simp [e]
    · have : x ≠ b := fun e => absurd hb (by rw [← e]; exact Nat.not_lt.2 hlt)
      rw [Pi.add_apply, refsTo_singleton hx, if_neg this, h.bound x hx hlt]
    · exact (sameHashes_queue p q).trans (sameHashes_addRef ..)
    · have hcount := hl.count
      have hcount' : q.numFreeBlocks = _ := hq'.count
      rw [length_append] at hcount hcount'
      rw [length_cons] at hcount
      show p.freeBlockQueue.numFreeBlocks = q.numFreeBlocks + _
      simp only [Evictable, h0, hnull, bne_iff_ne, ne_eq, not_false_eq_true, beq_self_eq_true, Bool.and_true,
        if_true]
      omega
  · have hc : ¬ ((p.blocks b).refCnt = 0 && !isNull b) = true := by
      simp only [Bool.and_eq_true, decide_eq_true_eq, isNull, Bool.not_eq_true', beq_eq_false_iff_ne]
      rintro ⟨hr, hnull⟩
      rw [h.refs b hnull] at hr
      exact hev ⟨hnull, by exact_mod_cast hr⟩
    have hpos : b ≠ nullBlock → 0 < R b := fun hn => Nat.pos_of_ne_zero fun h0 => hev ⟨hn, h0⟩
    have hne : ¬ Evictable R b = true := by simpa [Evictable] using fun hn h0 => hev ⟨hn, h0⟩
    exact ⟨_, if_neg hc, h.addRef hpos, sameHashes_addRef .., by rw [if_neg hne]; rfl⟩

theorem Accounts.lt_of_touchBlock (h : p.Accounts R) (hp : p.touchBlock b = .ok p') (hb : b ≠ nullBlock) :
    b < p.numGpuBlocks := by
  by_contra hlt
  have h0 : R b = 0 := h.bound b hb (Nat.not_lt.1 hlt)
  obtain ⟨l, hl, hmem⟩ := h.queue
  have hc : ((p.blocks b).refCnt = 0 && !isNull b) = true := by
    simp [h.refs b hb, h0, isNull, hb]
  obtain ⟨e, he⟩ := hl.remove_error fun hin => hlt ((hmem b).1 hin).2.1
  unfold BlockPool.touchBlock at hp
  rw [if_pos hc, he] at hp
  cases hp

theorem Accounts.of_touch (h : p.Accounts R) (hp : p.touch bs = .ok p') :
    p'.Accounts (refsTo bs + R) ∧ p.SameHashes p' := by
  induction bs generalizing p R with
  | nil =>
    cases hp
    rw [refsTo_nil, zero_add]
    exact ⟨h, .refl _⟩
  | cons b bs ih =>
    rw [BlockPool.touch, foldlM_cons, bind_eq_ok] at hp
    obtain ⟨q, hq, hp⟩ := hp
    have hone : q.Accounts (refsTo [b] + R) ∧ p.SameHashes q := by
      by_cases hb : b = nullBlock
      · have hc : ¬ ((p.blocks b).refCnt = 0 && !isNull b) = true := by simp [isNull, hb]
        unfold BlockPool.touchBlock at hq
        rw [if_neg hc] at hq
        cases hq
        exact ⟨h.addRef fun hn => absurd hb hn, sameHashes_addRef ..⟩
      · obtain ⟨q', hq', hacc, hsame, -⟩ := h.touchBlock (h.lt_of_touchBlock hq hb)
        cases hq.symm.trans hq'
        exact ⟨hacc, hsame⟩
    obtain ⟨hacc, hsame⟩ := ih hone.1 hp
    have : refsTo (b :: bs) + R = refsTo bs + (refsTo [b] + R) := by rw [refsTo_cons]; ac_rfl
    exact ⟨this ▸ hacc, hone.2.trans hsame⟩

/-- The loop of `free_blocks` gives back one reference for each occurrence; the blocks it collects are
those whose last reference went. -/
theorem dropRefs_spec (p : BlockPool η) (bs : List BlockId) (R : BlockId → Nat)
    (h : ∀ b, b ≠ nullBlock → (p.blocks b).refCnt = (refsTo bs + R) b) :
    ∃ q first last, p.dropRefs bs = (q, first, last) ∧ p.SameHashes q ∧
      q.freeBlockQueue = p.freeBlockQueue ∧ (∀ b, b ≠ nullBlock → (q.blocks b).refCnt = R b) ∧
      (first ++ last).Nodup ∧ ∀ b, b ∈ first ++ last ↔ b ≠ nullBlock ∧ b ∈ bs ∧ R b = 0 := by
  induction bs generalizing p with
  | nil =>
    refine ⟨p, [], [], rfl, .refl p, rfl, ?_, nodup_nil, by simp⟩
    intro b hb
    rw [h b hb, refsTo_nil, zero_add]
  | cons b bs ih =>
    have hp : ∀ x, x ≠ nullBlock → ((p.addRef b (-1)).blocks x).refCnt = (refsTo bs + R) x := by
      intro x hx
      rw [refCnt_addRef, h x hx, refsTo_cons]
      simp only [Pi.add_apply, refsTo_singleton hx]
      split <;> push_cast <;> omega
    obtain ⟨q, first, last, hdrop, hsame, hqueue, hrefs, hnd, hmem⟩ := ih _ hp
    have hsame' := (sameHashes_addRef p b (-1)).trans hsame
    -- the block is collected exactly when this was the last of its references
    have hlast : (((p.addRef b (-1)).blocks b).refCnt = 0 && !isNull b) = true ↔
        b ≠ nullBlock ∧ b ∉ bs ∧ R b = 0 := by
      by_cases hb : b = nullBlock
      · simp [isNull, hb]
      · have : refsTo bs b = 0 ↔ b ∉ bs := by
          rw [← not_iff_not, not_not, ← refsTo_pos hb]; omega
        simp only [hp b hb, Pi.add_apply, isNull, hb, Bool.and_eq_true, decide_eq_true_eq, ← this,
          ne_eq, not_false_eq_true, true_and]
        constructor
        · intro h0; omega
        · rintro ⟨h1, h2⟩
          simp [h1, h2, hb]
    by_cases hc : (((p.addRef b (-1)).blocks b).refCnt = 0 && !isNull b) = true
    · obtain ⟨hb, hbs, h0⟩ := hlast.1 hc
      have hnew : b ∉ first ++ last := fun hx => hbs ((hmem b).1 hx).2.1
      have hmem' : ∀ x, x ∈ b :: (first ++ last) ↔ x ≠ nullBlock ∧ x ∈ b :: bs ∧ R x = 0 := by
        intro x
        rw [mem_cons, hmem x, mem_cons]
        constructor
        · rintro (rfl | ⟨h1, h2, h3⟩)
          · exact ⟨hb, .inl rfl, h0⟩
          · exact ⟨h1, .inr h2, h3⟩
        · rintro ⟨h1, rfl | h2, h3⟩
          · exact .inl rfl
          · exact .inr ⟨h1, h2, h3⟩
      by_cases hfirst : (((p.addRef b (-1)).blocks b).blockHash.isNone || !(p.addRef b (-1)).enableCaching) = true
      · refine ⟨q, b :: first, last, ?_, hsame', hqueue, hrefs, nodup_cons.2 ⟨hnew, hnd⟩, hmem'⟩
        simp only [dropRefs, hdrop, if_pos hc, if_pos hfirst]
      · refine ⟨q, first, b :: last, ?_, hsame', hqueue, hrefs, ?_, fun x => ?_⟩
        · simp only [dropRefs, hdrop, if_pos hc, if_neg hfirst]
        · exact nodup_middle.2 (nodup_cons.2 ⟨hnew, hnd⟩)
        · rw [← hmem' x]; exact perm_middle.mem_iff
    · refine ⟨q, first, last, ?_, hsame', hqueue, hrefs, hnd, fun x => ?_⟩
      · simp only [dropRefs, hdrop, if_neg hc]
      · rw [hmem x]
        refine and_congr_right fun hx => ⟨fun ⟨h1, h2⟩ => ⟨mem_cons_of_mem _ h1, h2⟩, ?_⟩
        rintro ⟨h1, h2⟩
        rcases mem_cons.1 h1 with rfl | h1
        · exact ⟨not_not.1 fun hn => hc (hlast.2 ⟨hx, hn, h2⟩), h2⟩
        · exact ⟨h1, h2⟩

theorem Accounts.freeBlocks (h : p.Accounts (refsTo bs + R)) :
    ∃ p', p.freeBlocks bs = .ok p' ∧ p'.Accounts R ∧ p.SameHashes p' := by
  obtain ⟨q, first, last, hdrop, hsame, hqueue, hrefs, hnd, hmem⟩ := dropRefs_spec p bs R h.refs
  obtain ⟨l, hl, hl'⟩ := h.queue
  rw [← hqueue] at hl
  have hdisj : ∀ x ∈ first ++ last, x ∉ l := by
    intro x hx hxl
    obtain ⟨hx1, hx2, -⟩ := (hmem x).1 hx
    have h0 := ((hl' x).1 hxl).2.2
    have := (refsTo_pos hx1).2 hx2
    rw [Pi.add_apply] at h0
    omega
  obtain ⟨hnd1, hnd2, hnd12⟩ := nodup_append.1 hnd
  have hndf : (first ++ l).Nodup := by
    refine nodup_append.2 ⟨hnd1, hl.lists.nodup, ?_⟩
    rintro a ha b hb rfl
    exact hdisj a (mem_append_left _ ha) hb
  have hndfl : (first ++ l ++ last).Nodup := by
    refine nodup_append.2 ⟨hndf, hnd2, ?_⟩
    rintro a ha b hb rfl
    rcases mem_append.1 ha with ha | ha
    · exact hnd12 a ha a hb rfl
    · exact hdisj a (mem_append_right _ hb) ha
  obtain ⟨q1, hq1, hl1⟩ := hl.prependN hndf
  obtain ⟨q2, hq2, hl2⟩ := hl1.appendN hndfl
  refine ⟨{ q with freeBlockQueue := q2 }, ?_, ⟨hrefs, ⟨_, hl2, fun x => ?_⟩, fun x hx hlt => ?_⟩, ?_⟩
  · simp only [BlockPool.freeBlocks, hdrop, hq1, hq2, ok_bind]; rfl
  · have hx : x ∈ first ++ l ++ last ↔ x ∈ first ++ last ∨ x ∈ l := by
      simp only [mem_append]; tauto
    rw [hx, hmem x, hl' x]
    show _ ↔ x ≠ nullBlock ∧ x < q.numGpuBlocks ∧ R x = 0
    rw [hsame.numGpuBlocks]
    constructor
    · rintro (⟨h1, h2, h3⟩ | ⟨h1, h2, h3⟩)
      · refine ⟨h1, ?_, h3⟩
        by_contra hge
        have := h.bound x h1 (Nat.not_lt.1 hge)
        have := (refsTo_pos h1).2 h2
        rw [Pi.add_apply] at *
        omega
      · rw [Pi.add_apply] at h3
        exact ⟨h1, h2, by omega⟩
    · rintro ⟨h1, h2, h3⟩
      by_cases hb : x ∈ bs
      · exact .inl ⟨h1, hb, h3⟩
      · refine .inr ⟨h1, h2, ?_⟩
        have := mt (refsTo_pos h1).1 hb
        rw [Pi.add_apply]
        omega
  · have := h.bound x hx (hsame.numGpuBlocks ▸ hlt)
    rw [Pi.add_apply] at this
    omega
  · exact hsame.trans (sameHashes_queue q q2)

/-! ### Taking new blocks -/

section NewBlocks
variable [DecidableEq η]

theorem takeBlocks_spec (hnd : bs.Nodup) (h0 : ∀ b ∈ bs, (p.blocks b).refCnt = 0) :
    ∃ p', bs.foldlM takeBlock p = .ok p' ∧ p'.numGpuBlocks = p.numGpuBlocks ∧
      p'.freeBlockQueue = p.freeBlockQueue ∧
      ∀ b, (p'.blocks b).refCnt = (p.blocks b).refCnt + if b ∈ bs then 1 else 0 := by
  induction bs generalizing p with
  | nil => exact ⟨p, rfl, rfl, rfl, by simp⟩
  | cons b bs ih =>
    obtain ⟨hb, hnd⟩ := nodup_cons.1 hnd
    let q := if p.enableCaching then (p.maybeEvictCachedBlock b).2 else p
    have hq : p.SameRefs q := by
      show p.SameRefs (if p.enableCaching then _ else p)
      split
      · exact sameRefs_maybeEvictCachedBlock p b
      · exact .refl p
    have htake : takeBlock p b = .ok (q.addRef b 1) := by
      have hz : (q.blocks b).refCnt = 0 := (hq.refs b).trans (h0 b (by simp))
      show (ensure ((q.blocks b).refCnt = 0) _ >>= fun _ => _) = _
      rw [ensure, if_pos hz]
      rfl
    have h0' : ∀ x ∈ bs, ((q.addRef b 1).blocks x).refCnt = 0 := by
      intro x hx
      rw [refCnt_addRef, hq.refs x, h0 x (by simp [hx]), if_neg (ne_of_mem_of_not_mem hx hb)]
      rfl
    obtain ⟨p', hp', hgpu, hqueue, hrefs⟩ := ih hnd h0'
    refine ⟨p', ?_, hgpu.trans hq.numGpuBlocks, hqueue.trans hq.queue, fun x => ?_⟩
    · rw [foldlM_cons, htake]; exact hp'
    · rw [hrefs x, refCnt_addRef, hq.refs x]
      by_cases hx : x = b
      · simp [hx, hb]
      · simp [hx]

theorem Accounts.getNewBlocks (h : p.Accounts R) (hn : n ≤ p.getNumFreeBlocks) :
    ∃ bs p', p.getNewBlocks n = .ok (bs, p') ∧ p'.Accounts (refsTo bs + R) ∧
      bs.length = n ∧ bs.Nodup ∧ (∀ b ∈ bs, b ≠ nullBlock ∧ b < p.numGpuBlocks ∧ R b = 0) ∧
      p'.numGpuBlocks = p.numGpuBlocks ∧ p.getNumFreeBlocks = p'.getNumFreeBlocks + n := by
  obtain ⟨l, hl, hmem⟩ := h.queue
  have hlen : n ≤ l.length := hl.count ▸ hn
  obtain ⟨q, hq, hl'⟩ := hl.popleftN hlen
  have hsplit : l.take n ++ l.drop n = l := take_append_drop n l
  have hnd := hl.lists.nodup
  rw [← hsplit, nodup_append] at hnd
  obtain ⟨hnd1, -, hnd12⟩ := hnd
  have htake : ∀ b ∈ l.take n, b ≠ nullBlock ∧ b < p.numGpuBlocks ∧ R b = 0 :=
    fun b hb => (hmem b).1 (mem_of_mem_take hb)
  have h0 : ∀ b ∈ l.take n, (({ p with freeBlockQueue := q }).blocks b).refCnt = 0 := by
    intro b hb
    obtain ⟨h1, -, h2⟩ := htake b hb
    show (p.blocks b).refCnt = 0
    rw [h.refs b h1, h2]; rfl
  obtain ⟨p', hp', hgpu, hqueue, hrefs⟩ := takeBlocks_spec hnd1 h0
  have hcount : ∀ x, x ≠ nullBlock → refsTo (l.take n) x = if x ∈ l.take n then 1 else 0 := by
    intro x hx
    rw [refsTo, if_neg hx, hnd1.count]
  refine ⟨l.take n, p', ?_, ⟨fun x hx => ?_, ⟨l.drop n, hqueue ▸ hl', fun x => ?_⟩, fun x hx hlt => ?_⟩, ?_, hnd1,
    htake, hgpu, ?_⟩
  · simp only [BlockPool.getNewBlocks, ensure, if_pos hn, hq, ok_bind, hp']
    rfl
  · rw [hrefs x, Pi.add_apply, hcount x hx]
    show (p.blocks x).refCnt + _ = _
    rw [h.refs x hx]
    split <;> push_cast <;> omega
  · have hx : x ∈ l.drop n ↔ x ∈ l ∧ x ∉ l.take n := by
      constructor
      · intro hx
        exact ⟨mem_of_mem_drop hx, fun hx' => hnd12 x hx' x hx rfl⟩
      · rintro ⟨hx, hx'⟩
        rw [← hsplit] at hx
        exact (mem_append.1 hx).resolve_left hx'
    rw [hx, hmem x, hgpu, and_assoc, and_assoc]
    refine and_congr_right fun hx => and_congr_right fun _ => ?_
    rw [Pi.add_apply, hcount x hx]
    split
    · next e => simp [e]
    · next e => simp [e]
  · have hx' : x ∉ l.take n := fun e => by
      have := (htake x e).2.1
      rw [hgpu] at hlt
      exact absurd this (Nat.not_lt.2 hlt)
    rw [Pi.add_apply, hcount x hx, if_neg hx', h.bound x hx (hgpu ▸ hlt)]
  · rw [length_take, Nat.min_eq_left hlen]
  · have hc : p'.freeBlockQueue.numFreeBlocks = _ := (hqueue ▸ hl' : p'.freeBlockQueue.Holds (l.drop n)).count
    rw [length_drop] at hc
    simp only [getNumFreeBlocks] at hn ⊢
    have := hl.count
    omega

theorem Accounts.of_getNewBlocks (h : p.Accounts R) (hok : p.getNewBlocks n = .ok (bs, p')) :
    p'.Accounts (refsTo bs + R) ∧ bs.length = n ∧ bs.Nodup ∧
      (∀ b ∈ bs, b ≠ nullBlock ∧ b < p.numGpuBlocks ∧ R b = 0) ∧
      p'.numGpuBlocks = p.numGpuBlocks ∧ p.getNumFreeBlocks = p'.getNumFreeBlocks + n := by
  have hn : n ≤ p.getNumFreeBlocks := by
    simp only [BlockPool.getNewBlocks, bind_eq_ok, ensure_eq_ok] at hok
    exact hok.choose_spec.1
  obtain ⟨bs', p'', hok', hrest⟩ := h.getNewBlocks hn
  cases hok.symm.trans hok'
  exact hrest

end NewBlocks

theorem init_accounts {hbs : Nat} {caching events : Bool} (h : BlockPool.init n caching hbs events = .ok p) :
    p.Accounts 0 := by
  simp only [BlockPool.init, do_eq_ok] at h
  obtain ⟨-, hn, ⟨b, q⟩, hq, rfl⟩ := h
  obtain ⟨n, rfl⟩ := Nat.exists_eq_add_one_of_ne_zero (Nat.ne_of_gt hn)
  have hholds := FreeKVCacheBlockQueue.init_holds (nodup_range (n := n + 1))
  rw [range_succ_eq_map] at hholds hq
  obtain ⟨q', hq', hl⟩ := hholds.popleft
  cases hq.symm.trans hq'
  refine ⟨fun _ _ => rfl, ⟨_, hl, fun x => ?_⟩, fun _ _ _ => rfl⟩
  simp only [mem_map, mem_range, nullBlock, Pi.zero_apply, and_true]
  constructor
  · rintro ⟨y, hy, rfl⟩
    exact ⟨Nat.succ_ne_zero y, Nat.succ_lt_succ hy⟩
  · rintro ⟨h0, hlt⟩
    obtain ⟨y, rfl⟩ := Nat.exists_eq_succ_of_ne_zero h0
    exact ⟨y, Nat.lt_of_succ_lt_succ hlt, rfl⟩

theorem Accounts.resetPrefixCache_iff (h : p.Accounts held)
    (hpos : 0 < p.numGpuBlocks) :
    p.resetPrefixCache.1 = true ↔ ∀ b, b ≠ nullBlock → b < p.numGpuBlocks → held b = 0 := by
  obtain ⟨l, hl, hmem⟩ := h.queue
  have hrange : ∀ b, b ∈ range' 1 (p.numGpuBlocks - 1) ↔ b ≠ nullBlock ∧ b < p.numGpuBlocks := by
    intro b
    rw [mem_range'_1, nullBlock]
    omega
  have hsub : l <+~ range' 1 (p.numGpuBlocks - 1) :=
    subperm_of_subset hl.lists.nodup fun b hb => (hrange b).2 ⟨((hmem b).1 hb).1, ((hmem b).1 hb).2.1⟩
  have hperm : p.resetPrefixCache.1 = true ↔ l.Perm (range' 1 (p.numGpuBlocks - 1)) := by
    have hlen : p.resetPrefixCache.1 = true ↔ p.numGpuBlocks = l.length + 1 := by
      rw [← hl.count, resetPrefixCache, getNumFreeBlocks]
      split <;> simp_all
    rw [hlen]
    refine ⟨fun h => hsub.perm_of_length_le (by rw [length_range']; omega), fun h => ?_⟩
    have := h.length_eq
    rw [length_range'] at this
    omega
  rw [hperm, perm_ext_iff_of_nodup hl.lists.nodup nodup_range']
  refine forall_congr' fun b => ?_
  rw [hmem, hrange]
  tauto

end BlockPool

end VllmCore
