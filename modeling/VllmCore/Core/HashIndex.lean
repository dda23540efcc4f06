import VllmCore.Core.Accounting

/-! # Coherence of the hash index

The pool keeps three records of which keys a block is cached under: the index from keys to blocks, the
block's own `blockHash`, and the list of further keys beside it. `Coherent` says that they agree. Every
operation on hashes is made of two moves, `Forgets` (a block loses all its keys) and `Learns` (a block
gains one), and both keep `Coherent`; the operations on references do not touch the records. -/

namespace VllmCore
open Except List Dict BlockHashToBlockMap
variable {η : Type} {n nc : Nat} {mask : Option (List Bool)}

/-! ### One entry of the index -/

namespace BlockHashToBlockMap
variable [DecidableEq η] {m : BlockHashToBlockMap η} {key k : BlockHashWithGroupId η} {b x : BlockId}

theorem contain_insert : contain (insert m key b) k x = true ↔ contain m k x = true ∨ (k = key ∧ x = b) := by
  by_cases hk : k = key
  · subst hk
    cases hm : m.get? k with
    | none =>
      simp only [contain, insert, hm, get?_set, if_true, beq_iff_eq, true_and, Bool.false_eq_true, false_or]
      exact eq_comm
    | some v =>
      cases v with
      | one b' =>
        have hmem : x ∈ (if b' = b then [b] else [b', b]) ↔ b' = x ∨ x = b := by
          split
          · next hb => rw [mem_singleton, hb, @eq_comm _ b x, or_self]
          · rw [mem_cons, mem_singleton, @eq_comm _ b' x]
        simp only [contain, insert, hm, get?_set, if_true, beq_iff_eq, true_and, contains_iff_mem, hmem]
      | dict bs =>
        by_cases hb : b ∈ bs
        · simp only [contain, insert, hm, get?_set, if_true, if_pos hb, true_and]
          constructor
          · exact Or.inl
          · rintro (h | rfl)
            · exact h
            · exact contains_iff_mem.2 hb
        · simp [contain, insert, hm, hb]
  · have hget : (insert m key b).get? k = m.get? k := by
      unfold insert
      split <;> rw [get?_set, if_neg hk]
    simp only [contain, hget, hk, false_and, or_false]

theorem pop_fst : (pop m key b).1 = contain m key b := by
  unfold pop contain
  cases m.get? key with
  | none => rfl
  | some v =>
    cases v with
    | one b' => by_cases hb : b' = b <;> simp [hb]
    | dict bs => rfl

theorem contain_pop : contain (pop m key b).2 k x = true ↔ contain m k x = true ∧ ¬ (k = key ∧ x = b) := by
  by_cases hk : k = key
  · subst hk
    cases hm : m.get? k with
    | none => simp [contain, pop, hm]
    | some v =>
      cases v with
      | one b' =>
        by_cases hb : b' = b
        · subst hb
          simp only [contain, pop, hm, if_true, get?_erase, beq_iff_eq, true_and]
          exact ⟨fun h => absurd h (by simp), fun h => absurd h.1.symm h.2⟩
        · simp only [contain, pop, hm, if_neg hb, get?_set, if_true, beq_iff_eq, true_and]
          exact ⟨fun h => ⟨h, fun e => hb (h.trans e)⟩, And.left⟩
      | dict bs =>
        have hrest : x ∈ bs.filter (fun y => y ≠ b) ↔ x ∈ bs ∧ ¬ x = b := by simp
        by_cases h0 : bs.filter (fun y => y ≠ b) = []
        · rw [h0] at hrest
          simp only [contain, pop, hm, if_pos h0, get?_erase, if_true, contains_iff_mem, true_and,
            ← hrest, not_mem_nil, Bool.false_eq_true]
        · simp only [contain, pop, hm, if_neg h0, get?_set, if_true, contains_iff_mem, true_and,
            hrest]
  · have hget : (pop m key b).2.get? k = m.get? k := by
      unfold pop
      split
      · rfl
      · split
        · rw [get?_erase, if_neg hk]
        · rw [get?_set, if_neg hk, get?_erase, if_neg hk]
      · dsimp only
        split
        · rw [get?_erase, if_neg hk]
        · rw [get?_set, if_neg hk, get?_erase, if_neg hk]
    simp only [contain, hget, hk, false_and, not_false_eq_true, and_true]

/-- No entry is an empty dict, so an entry is a hit. -/
def Packed (m : BlockHashToBlockMap η) : Prop := ∀ key, m.get? key ≠ some (.dict [])

theorem Packed.set (h : m.Packed) {v : CachedBlocks} (hv : v ≠ .dict []) : Packed (m.set key v) := by
  intro k hk
  rw [get?_set] at hk
  split at hk
  · exact hv (Option.some.inj hk)
  · exact h k hk

theorem Packed.erase (h : m.Packed) : Packed (m.erase key) := by
  intro k hk
  rw [get?_erase] at hk
  split at hk
  · cases hk
  · exact h k hk

theorem Packed.insert (h : m.Packed) : Packed (insert m key b) := by
  unfold BlockHashToBlockMap.insert
  split
  · exact h.set nofun
  · exact h.set (by split <;> simp)
  · next bs hm =>
    refine h.set ?_
    split
    · intro e
      exact h key (hm.trans (congrArg some e))
    · simp

theorem Packed.pop (h : m.Packed) : Packed (pop m key b).2 := by
  unfold BlockHashToBlockMap.pop
  split
  · exact h
  · split
    · exact h.erase
    · exact h.erase.set nofun
  · dsimp only
    split
    · exact h.erase
    · next hrest => exact h.erase.set (by simpa using hrest)

theorem Packed.getOneBlock (h : m.Packed) : (getOneBlock m key).isSome = true ↔ ∃ b, contain m key b = true := by
  unfold BlockHashToBlockMap.getOneBlock contain
  cases hm : m.get? key with
  | none => simp
  | some v =>
    cases v with
    | one b => simp
    | dict bs =>
      cases bs with
      | nil => exact absurd hm (h key)
      | cons b bs => simp only [head?_cons, Option.isSome_some, true_iff]; exact ⟨b, by simp⟩

end BlockHashToBlockMap

namespace BlockPool
variable [DecidableEq η] {p p' q : BlockPool η} {key k : BlockHashWithGroupId η} {b x : BlockId} {bs : List BlockId}
  {r : Request η} {bsz g : Nat}

def Stored (p : BlockPool η) (key : BlockHashWithGroupId η) (b : BlockId) : Prop :=
  contain p.cachedBlockHashToBlock key b = true

def keysOf (p : BlockPool η) (b : BlockId) : List (BlockHashWithGroupId η) :=
  (p.blocks b).blockHash.toList ++ p.cachedBlockHashesByBlock.getD b []

structure Coherent (p : BlockPool η) : Prop where
  stored : ∀ key b, p.Stored key b ↔ key ∈ p.keysOf b
  null : p.keysOf nullBlock = []
  primary : ∀ b, (p.blocks b).blockHash = none → p.cachedBlockHashesByBlock.getD b [] = []
  packed : p.cachedBlockHashToBlock.Packed
  /-- without prefix caching nothing is hashed -/
  uncached : p.enableCaching = false → ∀ b, p.keysOf b = []

theorem Coherent.sameHashes (h : p.Coherent) (hs : p.SameHashes p') : p'.Coherent := by
  have hkeys : ∀ b, p'.keysOf b = p.keysOf b := fun b => by rw [keysOf, hs.hash, hs.byBlock, keysOf]
  refine ⟨fun key b => ?_, ?_, fun b hb => ?_, ?_, fun hc b => ?_⟩
  · rw [hkeys, Stored, hs.index]; exact h.stored key b
  · rw [hkeys]; exact h.null
  · rw [hs.byBlock]; exact h.primary b (hs.hash b ▸ hb)
  · rw [hs.index]; exact h.packed
  · rw [hkeys]; exact h.uncached (hs.enableCaching ▸ hc) b

theorem Coherent.hash_ne_none (h : p.Coherent) (hk : key ∈ p.keysOf b) : (p.blocks b).blockHash ≠ none := by
  intro hb
  rw [keysOf, hb, h.primary b hb] at hk
  simp at hk

/-! ### The two moves -/

structure SameEvents (p p' : BlockPool η) : Prop where
  queue : p'.kvEventQueue = p.kvEventQueue
  enabled : p'.enableKvCacheEvents = p.enableKvCacheEvents

omit [DecidableEq η] in
theorem SameEvents.refl (p : BlockPool η) : p.SameEvents p := ⟨rfl, rfl⟩

omit [DecidableEq η] in
theorem SameEvents.trans (h : p.SameEvents q) (h' : q.SameEvents p') : p.SameEvents p' :=
  ⟨h'.queue.trans h.queue, h'.enabled.trans h.enabled⟩

/-- `b` loses all its keys, nothing else changes in the records. -/
structure Forgets (p : BlockPool η) (b : BlockId) (p' : BlockPool η) : Prop where
  stored : ∀ k x, p'.Stored k x ↔ p.Stored k x ∧ ¬ (x = b ∧ k ∈ p.keysOf b)
  hash : ∀ x, (p'.blocks x).blockHash = if x = b then none else (p.blocks x).blockHash
  further : ∀ x, p'.cachedBlockHashesByBlock.getD x [] = if x = b then [] else p.cachedBlockHashesByBlock.getD x []
  packed : p.cachedBlockHashToBlock.Packed → p'.cachedBlockHashToBlock.Packed
  caching : p'.enableCaching = p.enableCaching

/-- `b` gains `key`, nothing else changes in the records. -/
structure Learns (p : BlockPool η) (key : BlockHashWithGroupId η) (b : BlockId) (p' : BlockPool η) : Prop where
  stored : ∀ k x, p'.Stored k x ↔ p.Stored k x ∨ (k = key ∧ x = b)
  keys : ∀ k, k ∈ p'.keysOf b ↔ k ∈ p.keysOf b ∨ k = key
  primary : (p'.blocks b).blockHash ≠ none
  hash : ∀ x, x ≠ b → (p'.blocks x).blockHash = (p.blocks x).blockHash
  further : ∀ x, x ≠ b → p'.cachedBlockHashesByBlock.getD x [] = p.cachedBlockHashesByBlock.getD x []
  packed : p.cachedBlockHashToBlock.Packed → p'.cachedBlockHashToBlock.Packed
  caching : p'.enableCaching = p.enableCaching

theorem Forgets.keysOf (h : p.Forgets b p') (x : BlockId) : p'.keysOf x = if x = b then [] else p.keysOf x := by
  rw [BlockPool.keysOf, h.hash, h.further]
  split
  · rfl
  · rfl

theorem Learns.keysOf_ne (h : p.Learns key b p') (hx : x ≠ b) : p'.keysOf x = p.keysOf x := by
  rw [BlockPool.keysOf, h.hash x hx, h.further x hx, BlockPool.keysOf]

theorem Forgets.sameHashes (h : p.Forgets b q) (hs : q.SameHashes p') : p.Forgets b p' := by
  refine ⟨fun k x => ?_, fun x => ?_, fun x => ?_, fun hp => ?_, hs.enableCaching.trans h.caching⟩
  · rw [Stored, hs.index]; exact h.stored k x
  · rw [hs.hash]; exact h.hash x
  · rw [hs.byBlock]; exact h.further x
  · rw [hs.index]; exact h.packed hp

theorem Coherent.forget (h : p.Coherent) (hf : p.Forgets b p') : p'.Coherent := by
  refine ⟨fun k x => ?_, ?_, fun x hx => ?_, hf.packed h.packed, fun hc x => ?_⟩
  · rw [hf.stored, hf.keysOf, h.stored]
    split
    · next e => subst e; simp
    · next e => simp [e]
  · rw [hf.keysOf, h.null, ite_self]
  · rw [hf.further]
    split
    · rfl
    · next e => exact h.primary x (by rw [hf.hash, if_neg e] at hx; exact hx)
  · rw [hf.keysOf, h.uncached (hf.caching ▸ hc), ite_self]

theorem Coherent.learn (h : p.Coherent) (hl : p.Learns key b p') (hb : b ≠ nullBlock)
    (hcache : p.enableCaching = true) : p'.Coherent := by
  refine ⟨fun k x => ?_, ?_, fun x hx => ?_, hl.packed h.packed, fun hc => ?_⟩
  · rw [hl.stored, h.stored]
    by_cases hx : x = b
    · subst hx; simp [hl.keys]
    · simp [hl.keysOf_ne hx, hx]
  · rw [hl.keysOf_ne (Ne.symm hb)]; exact h.null
  · by_cases e : x = b
    · exact absurd (e ▸ hx) hl.primary
    · rw [hl.further x e]; exact h.primary x (hl.hash x e ▸ hx)
  · rw [hl.caching, hcache] at hc; cases hc

theorem contain_popKeys (m : BlockHashToBlockMap η) (b : BlockId) (keys : List (BlockHashWithGroupId η)) :
    contain (popKeys m b keys).2 k x = true ↔
      contain m k x = true ∧ ¬ (x = b ∧ k ∈ keys) := by
  induction keys generalizing m with
  | nil => simp [popKeys]
  | cons key keys ih =>
    simp only [popKeys, ih, contain_pop, mem_cons]
    tauto

theorem mem_popKeys (m : BlockHashToBlockMap η) (b : BlockId) (keys : List (BlockHashWithGroupId η)) :
    k ∈ (popKeys m b keys).1 ↔ k ∈ keys ∧ contain m k b = true := by
  induction keys generalizing m with
  | nil => simp [popKeys]
  | cons key keys ih =>
    have hrest : k ∈ (popKeys (BlockHashToBlockMap.pop m key b).2 b keys).1 ↔
        k ∈ keys ∧ contain m k b = true ∧ k ≠ key := by
      rw [ih, contain_pop]; simp
    simp only [popKeys, pop_fst]
    by_cases hk : k = key
    · subst hk
      split
      · next hc => simp [hc]
      · next hc => rw [hrest]; simp [hc]
    · split
      · rw [mem_cons, hrest, mem_cons]; simp [hk]
      · rw [hrest, mem_cons]; simp [hk]

theorem packed_popKeys (m : BlockHashToBlockMap η) (b : BlockId) (keys : List (BlockHashWithGroupId η))
    (h : m.Packed) : (popKeys m b keys).2.Packed := by
  induction keys generalizing m with
  | nil => exact h
  | cons key keys ih => exact ih _ h.pop

omit [DecidableEq η] in
theorem getD_erase (d : Dict BlockId (List (BlockHashWithGroupId η))) (b x : BlockId) :
    (d.erase b).getD x [] = if x = b then [] else d.getD x [] := by
  rw [Dict.getD, get?_erase]
  split <;> rfl

theorem forgets_removeCachedBlockHashes (p : BlockPool η) (b : BlockId) :
    p.Forgets b (p.removeCachedBlockHashes b).2 := by
  simp only [removeCachedBlockHashes]
  split
  · next h0 =>
    -- a block without keys: only its empty entry may go
    obtain ⟨hhash, hmore⟩ := append_eq_nil_iff.1 h0
    refine ⟨fun k x => ?_, fun x => ?_, fun x => getD_erase _ _ _, id, rfl⟩
    · rw [keysOf, h0]; simp [Stored]
    · split
      · next e => subst e; simpa using hhash
      · rfl
  · refine ⟨fun k x => contain_popKeys _ _ _, fun x => ?_, fun x => getD_erase _ _ _, packed_popKeys _ _ _, rfl⟩
    simp only [resetHash, setBlock]
    split <;> rfl

theorem Coherent.mem_removed (h : p.Coherent) : k ∈ (p.removeCachedBlockHashes b).1 ↔ k ∈ p.keysOf b := by
  simp only [removeCachedBlockHashes]
  split
  · next h0 => rw [keysOf, h0]
  · exact (mem_popKeys _ _ _).trans ⟨And.left, fun hk => ⟨hk, (h.stored k b).2 hk⟩⟩

omit [DecidableEq η] in
theorem sameHashes_emit (p : BlockPool η) (keys : List (BlockHashWithGroupId η)) :
    p.SameHashes (p.emitBlockRemovedEvents keys) := by
  unfold emitBlockRemovedEvents
  split
  · exact ⟨rfl, rfl, rfl, rfl, rfl, fun _ => rfl, fun _ => rfl⟩
  · exact .refl p

theorem forgets_dropHashes (p : BlockPool η) (b : BlockId) : p.Forgets b (p.dropHashes b) :=
  (forgets_removeCachedBlockHashes p b).sameHashes (sameHashes_emit ..)

theorem forgets_maybeEvictCachedBlock (p : BlockPool η) (b : BlockId) : p.Forgets b (p.maybeEvictCachedBlock b).2 := by
  simp only [maybeEvictCachedBlock]
  split
  · exact forgets_removeCachedBlockHashes p b
  · exact (forgets_removeCachedBlockHashes p b).sameHashes (sameHashes_emit ..)

theorem Coherent.learns_self (h : p.Coherent) (hk : key ∈ p.keysOf b) : p.Learns key b p := by
  refine ⟨fun k x => ?_, fun k => ?_, h.hash_ne_none hk, fun _ _ => rfl, fun _ _ => rfl, id, rfl⟩
  · constructor
    · exact Or.inl
    · rintro (hs | ⟨rfl, rfl⟩)
      · exact hs
      · exact (h.stored _ _).2 hk
  · constructor
    · exact Or.inl
    · rintro (hs | rfl)
      · exact hs
      · exact hk

theorem Coherent.learns_insertBlockHash (h : p.Coherent) {n : Option Nat}
    (hi : p.insertBlockHash key b n = .ok p') : p.Learns key b p' ∧ p.SameEvents p' := by
  unfold insertBlockHash at hi
  split at hi
  · next hb => cases hi; exact ⟨h.learns_self (by simp [keysOf, hb]), .refl p⟩
  split at hi
  · next hb => cases hi; exact ⟨h.learns_self ((h.stored key b).1 hb), .refl p⟩
  rw [bind_eq_ok] at hi
  obtain ⟨q, hq, hi⟩ := hi
  cases pure_eq_ok.1 hi
  unfold recordKey at hq
  split at hq
  · -- the key becomes the block's own hash
    next hb =>
    simp only [setBlockHash, do_eq_ok] at hq
    obtain ⟨-, -, rfl⟩ := hq
    have hnone : (p.blocks b).blockHash = none := Option.isNone_iff_eq_none.1 hb
    refine ⟨⟨fun k x => contain_insert, fun k => ?_, ?_, fun x hx => ?_, fun _ _ => rfl,
      BlockHashToBlockMap.Packed.insert, rfl⟩, rfl, rfl⟩
    · simp only [keysOf, setBlock, if_true, hnone, h.primary b hnone]
      simp
    · simp [setBlock]
    · simp only [setBlock, if_neg hx]
  · -- the key is kept beside the block's own hash
    next hb =>
    cases hq
    refine ⟨⟨fun k x => contain_insert, fun k => ?_, fun hn => hb (Option.isNone_iff_eq_none.2 hn), fun _ _ => rfl,
      fun x hx => ?_, BlockHashToBlockMap.Packed.insert, rfl⟩, rfl, rfl⟩
    · have hmore : k ∈ (if key ∈ p.cachedBlockHashesByBlock.getD b [] then p.cachedBlockHashesByBlock.getD b []
          else p.cachedBlockHashesByBlock.getD b [] ++ [key]) ↔ k ∈ p.cachedBlockHashesByBlock.getD b [] ∨ k = key := by
        split
        · next hmem => exact ⟨Or.inl, fun hk => hk.elim id fun e => e ▸ hmem⟩
        · rw [mem_append, mem_singleton]
      have hset : ∀ v, (p.cachedBlockHashesByBlock.set b v).getD b [] = v := fun v => by
        rw [Dict.getD, get?_set, if_pos rfl]; rfl
      simp only [keysOf, mem_append, hset, hmore, or_assoc]
    · simp only [Dict.getD, get?_set, if_neg hx]

/-! ### The operations -/

theorem Coherent.promote (h : p.Coherent) (hp : p.promote b n = .ok p') : p'.Coherent := by
  unfold BlockPool.promote at hp
  split at hp
  · cases hp; exact h
  · simp only [do_eq_ok] at hp
    obtain ⟨-, -, rfl⟩ := hp
    exact h.forget (forgets_dropHashes p b)

theorem Coherent.cacheFullBlock {hashes : List η} {st st' : BlockPool η × List η} {ib : Nat × BlockId}
    (h : st.1.Coherent) (hcache : st.1.enableCaching = true)
    (hst : BlockPool.cacheFullBlock bsz g nc mask hashes st ib = .ok st') : st'.1.Coherent := by
  simp only [BlockPool.cacheFullBlock] at hst
  split at hst
  · cases hst; exact h
  next hskip =>
  split at hst
  · cases hst
  rw [bind_eq_ok] at hst
  obtain ⟨q, hq, hst⟩ := hst
  rw [bind_eq_ok] at hst
  obtain ⟨q', hq', hst⟩ := hst
  cases pure_eq_ok.1 hst
  have hnull : ib.2 ≠ nullBlock := by
    intro e
    simp [isNull, e] at hskip
  exact (h.promote hq).learn ((h.promote hq).learns_insertBlockHash hq').1 hnull
    ((sameRefs_promote hq).enableCaching.trans hcache)

section
variable (h : p.Coherent)
include h

theorem Coherent.cacheFullBlocks {nf : Nat} (hcache : p.enableCaching = true)
    (hp : p.cacheFullBlocks r bs nc nf bsz g mask = .ok p') : p'.Coherent := by
  unfold BlockPool.cacheFullBlocks at hp
  split at hp
  · cases hp; exact h
  simp only [bind_eq_ok] at hp
  obtain ⟨-, -, hashes, -, st, hst, hp⟩ := hp
  have hloop : st.1.Coherent ∧ st.1.enableCaching = true := by
    refine foldlM_inv (P := fun x => x.1.Coherent ∧ x.1.enableCaching = true) ?_ hst ⟨h, hcache⟩
    intro ib _ x y hx hy
    exact ⟨hx.1.cacheFullBlock hx.2 hy, (sameRefs_cacheFullBlock hy).enableCaching.trans hx.2⟩
  split at hp
  · simp only [do_eq_ok] at hp
    obtain ⟨_, -, rfl⟩ := hp
    exact hloop.1.sameHashes ⟨rfl, rfl, rfl, rfl, rfl, fun _ => rfl, fun _ => rfl⟩
  · cases pure_eq_ok.1 hp; exact hloop.1

theorem Coherent.cachePartialBlock {nt : Nat} {repl : Bool} {res : Option (BlockHashWithGroupId η)}
    (hcache : p.enableCaching = true) (hp : p.cachePartialBlock r b nt g bsz repl = .ok (res, p')) : p'.Coherent := by
  unfold BlockPool.cachePartialBlock at hp
  split at hp
  · cases hp; exact h
  next hnull =>
  simp only [bind_eq_ok] at hp
  obtain ⟨-, -, -, -, hash, -, q, hq, hp⟩ := hp
  have hb : b ≠ nullBlock := by
    intro e
    simp [isNull, e] at hnull
  have hqc : q.Coherent := by
    split at hq
    · have hd := h.forget (forgets_dropHashes p b)
      exact hd.learn (hd.learns_insertBlockHash hq).1 hb ((sameRefs_dropHashes p b).enableCaching.trans hcache)
    · exact h.learn (h.learns_insertBlockHash hq).1 hb hcache
  cases pure_eq_ok.1 hp
  split
  · exact hqc.sameHashes ⟨rfl, rfl, rfl, rfl, rfl, fun _ => rfl, fun _ => rfl⟩
  · exact hqc

theorem Coherent.moveBlockHashes {src dst : BlockId} (hdst : dst ≠ nullBlock)
    (hp : p.moveBlockHashes src dst = .ok p') :
    p'.Coherent := by
  simp only [BlockPool.moveBlockHashes, bind_eq_ok] at hp
  obtain ⟨-, -, -, -, hp⟩ := hp
  have hf := h.forget (forgets_removeCachedBlockHashes p src)
  cases hcache : p.enableCaching with
  | false =>
    -- nothing is cached, so nothing moves
    have hnone : (p.removeCachedBlockHashes src).1 = [] := by
      rw [eq_nil_iff_forall_not_mem]
      intro k hk
      rw [h.mem_removed, h.uncached hcache] at hk
      cases hk
    rw [hnone] at hp
    cases hp
    exact hf
  | true =>
    have hs := sameRefs_removeCachedBlockHashes p src
    have hfold : p'.Coherent ∧ p'.enableCaching = true := by
      refine foldlM_inv (P := fun x => x.Coherent ∧ x.enableCaching = true) ?_ hp
        ⟨hf, hs.enableCaching.trans hcache⟩
      intro k _ x y hx hy
      exact ⟨hx.1.learn (hx.1.learns_insertBlockHash hy).1 hdst hx.2,
        (sameRefs_insertBlockHash hy).enableCaching.trans hx.2⟩
    exact hfold.1

theorem Coherent.maybeEvict (b : BlockId) : (p.maybeEvictCachedBlock b).2.Coherent :=
  h.forget (forgets_maybeEvictCachedBlock p b)

theorem Coherent.evictBlocks (hp : p.evictBlocks bs = .ok p') : p'.Coherent := by
  refine foldlM_inv (P := Coherent) (fun b _ x y hx hy => ?_) hp h
  simp only [do_eq_ok] at hy
  obtain ⟨-, -, rfl⟩ := hy
  exact hx.maybeEvict b

theorem Coherent.takeBlock (hp : p.takeBlock b = .ok p') :
    p'.Coherent ∧ ∀ x, p'.keysOf x = if x = b then [] else p.keysOf x := by
  simp only [BlockPool.takeBlock, do_eq_ok] at hp
  obtain ⟨-, -, rfl⟩ := hp
  have hadd : ∀ q : BlockPool η, ∀ x, (q.addRef b 1).keysOf x = q.keysOf x := by
    intro q x
    rw [keysOf, (sameHashes_addRef q b 1).hash, (sameHashes_addRef q b 1).byBlock, keysOf]
  split
  · refine ⟨(h.maybeEvict b).sameHashes (sameHashes_addRef ..), fun x => ?_⟩
    rw [hadd, (forgets_maybeEvictCachedBlock p b).keysOf]
  · next hcache =>
    have hnone := h.uncached (Bool.eq_false_iff.2 hcache)
    exact ⟨h.sameHashes (sameHashes_addRef ..), fun x => by rw [hadd, hnone, ite_self]⟩

theorem Coherent.takeBlocks (hp : bs.foldlM BlockPool.takeBlock p = .ok p') :
    p'.Coherent ∧ ∀ x, p'.keysOf x = if x ∈ bs then [] else p.keysOf x := by
  induction bs generalizing p with
  | nil => cases hp; exact ⟨h, fun x => by simp⟩
  | cons b bs ih =>
    rw [foldlM_cons, bind_eq_ok] at hp
    obtain ⟨q, hq, hp⟩ := hp
    obtain ⟨hqc, hqkeys⟩ := h.takeBlock hq
    obtain ⟨hc, hkeys⟩ := ih hqc hp
    refine ⟨hc, fun x => ?_⟩
    rw [hkeys, hqkeys]
    by_cases hb : x = b
    · simp [hb]
    · simp [hb]

theorem Coherent.getNewBlocks (hp : p.getNewBlocks n = .ok (bs, p')) :
    p'.Coherent ∧ ∀ x, p'.keysOf x = if x ∈ bs then [] else p.keysOf x := by
  simp only [BlockPool.getNewBlocks, do_eq_ok] at hp
  obtain ⟨-, -, ⟨ret, queue⟩, -, q, hq, he⟩ := hp
  cases he
  exact (h.sameHashes (sameHashes_queue p queue)).takeBlocks hq

end

theorem enableCaching_getNewBlocks (hp : p.getNewBlocks n = .ok (bs, p')) : p'.enableCaching = p.enableCaching := by
  simp only [BlockPool.getNewBlocks, do_eq_ok] at hp
  obtain ⟨-, -, ⟨ret, queue⟩, -, q, hq, he⟩ := hp
  cases he
  refine foldlM_inv (P := fun x => x.enableCaching = p.enableCaching) ?_ hq rfl
  intro b _ x y hx hy
  simp only [BlockPool.takeBlock, do_eq_ok] at hy
  obtain ⟨-, -, rfl⟩ := hy
  split
  · exact (sameRefs_maybeEvictCachedBlock x b).enableCaching.trans hx
  · exact hx

omit [DecidableEq η] in
theorem sameHashes_touch (hp : p.touch bs = .ok p') : p.SameHashes p' ∧ p.SameEvents p' := by
  refine foldlM_inv (P := fun x => p.SameHashes x ∧ p.SameEvents x) (fun b _ x y hx hy => ?_) hp ⟨.refl p, .refl p⟩
  unfold touchBlock at hy
  split at hy
  · simp only [do_eq_ok] at hy
    obtain ⟨queue, -, rfl⟩ := hy
    exact ⟨hx.1.trans ((sameHashes_queue x queue).trans (sameHashes_addRef ..)), hx.2.trans ⟨rfl, rfl⟩⟩
  · cases hy; exact ⟨hx.1.trans (sameHashes_addRef ..), hx.2.trans ⟨rfl, rfl⟩⟩

omit [DecidableEq η] in
theorem sameHashes_dropRefs (p : BlockPool η) (bs : List BlockId) :
    p.SameHashes (p.dropRefs bs).1 ∧ p.SameEvents (p.dropRefs bs).1 := by
  induction bs generalizing p with
  | nil => exact ⟨.refl p, .refl p⟩
  | cons b bs ih =>
    obtain ⟨hs, he⟩ := ih (p.addRef b (-1))
    have h : p.SameHashes _ ∧ p.SameEvents _ := ⟨(sameHashes_addRef p b (-1)).trans hs, he.1, he.2⟩
    simp only [dropRefs]
    split
    · split <;> exact h
    · exact h

omit [DecidableEq η] in
theorem sameHashes_freeBlocks (hp : p.freeBlocks bs = .ok p') : p.SameHashes p' ∧ p.SameEvents p' := by
  simp only [freeBlocks, do_eq_ok] at hp
  obtain ⟨_, -, queue, -, rfl⟩ := hp
  obtain ⟨hs, he⟩ := sameHashes_dropRefs p bs
  exact ⟨hs.trans (sameHashes_queue _ queue), he.1, he.2⟩

theorem Coherent.resetPrefixCache (h : p.Coherent) : p.resetPrefixCache.2.Coherent := by
  unfold BlockPool.resetPrefixCache
  split
  · exact h
  · refine ⟨fun k x => ?_, rfl, fun _ _ => rfl, fun k hk => ?_, fun _ _ => rfl⟩
    · simp [Stored, keysOf, contain, Dict.getD]
    · rw [get?_empty] at hk; cases hk

omit [DecidableEq η] in
theorem sameHashes_emitCachedBlockEvents (hp : p.emitCachedBlockEvents r nc bsz g = .ok p') : p.SameHashes p' := by
  unfold emitCachedBlockEvents at hp
  split at hp
  · cases hp; exact .refl p
  rw [bind_eq_ok] at hp
  obtain ⟨hashes, -, hp⟩ := hp
  split at hp
  · cases hp
  · cases pure_eq_ok.1 hp
    exact ⟨rfl, rfl, rfl, rfl, rfl, fun _ => rfl, fun _ => rfl⟩

omit [DecidableEq η] in
theorem sameHashes_takeEvents (p : BlockPool η) : p.SameHashes p.takeEvents.2 := by
  unfold takeEvents
  split
  · exact ⟨rfl, rfl, rfl, rfl, rfl, fun _ => rfl, fun _ => rfl⟩
  · exact .refl p

end BlockPool

/-! ### Runs -/

inductive PoolOp (η : Type) where
  | cacheFullBlocks (r : Request η) (blocks : List BlockId) (numCachedBlocks numFullBlocks blockSize groupId : Nat)
      (mask : Option (List Bool))
  | cachePartialBlock (r : Request η) (b : BlockId) (numTokens groupId blockSize : Nat)
      (replaceExistingHashes : Bool)
  | moveBlockHashes (src dst : BlockId)
  | getNewBlocks (numBlocks : Nat)
  | touch (blocks : List BlockId)
  | freeBlocks (orderedBlocks : List BlockId)
  | evictBlocks (blockIds : List BlockId)
  | resetPrefixCache
  | emitCachedBlockEvents (r : Request η) (numCachedBlocks blockSize groupId : Nat)
  | takeEvents

/-- What the callers promise: blocks are only cached when prefix caching is enabled (`KVCacheManager` checks
it), and hashes only move to a block that was just allocated, so never to the null block. -/
def PoolOp.Promised (enableCaching : Bool) : PoolOp η → Prop
  | cacheFullBlocks .. | cachePartialBlock .. => enableCaching = true
  | moveBlockHashes _ dst => dst ≠ nullBlock
  | _ => True

namespace BlockPool
variable [DecidableEq η] {p p' : BlockPool η} {key : BlockHashWithGroupId η} {b : BlockId}

def apply (p : BlockPool η) : PoolOp η → Except Err (BlockPool η)
  | .cacheFullBlocks r blocks nc nf bsz g mask => p.cacheFullBlocks r blocks nc nf bsz g mask
  | .cachePartialBlock r b nt g bsz repl => do return (← p.cachePartialBlock r b nt g bsz repl).2
  | .moveBlockHashes src dst => p.moveBlockHashes src dst
  | .getNewBlocks n => do return (← p.getNewBlocks n).2
  | .touch blocks => p.touch blocks
  | .freeBlocks blocks => p.freeBlocks blocks
  | .evictBlocks ids => p.evictBlocks ids
  | .resetPrefixCache => .ok p.resetPrefixCache.2
  | .emitCachedBlockEvents r nc bsz g => p.emitCachedBlockEvents r nc bsz g
  | .takeEvents => .ok p.takeEvents.2

def run (p : BlockPool η) (ops : List (PoolOp η)) : Except Err (BlockPool η) := ops.foldlM apply p

theorem Coherent.apply (h : p.Coherent) {op : PoolOp η} (hop : op.Promised p.enableCaching)
    (hp : p.apply op = .ok p') : p'.Coherent ∧ p'.enableCaching = p.enableCaching := by
  cases op with
  | cacheFullBlocks r blocks nc nf bsz g mask =>
    exact ⟨h.cacheFullBlocks hop hp, (sameRefs_cacheFullBlocks hp).enableCaching⟩
  | cachePartialBlock r b nt g bsz repl =>
    simp only [BlockPool.apply, do_eq_ok] at hp
    obtain ⟨⟨res, q⟩, hq, rfl⟩ := hp
    exact ⟨h.cachePartialBlock hop hq, (sameRefs_cachePartialBlock hq).enableCaching⟩
  | moveBlockHashes src dst => exact ⟨h.moveBlockHashes hop hp, (sameRefs_moveBlockHashes hp).enableCaching⟩
  | getNewBlocks n =>
    simp only [BlockPool.apply, do_eq_ok] at hp
    obtain ⟨⟨bs, q⟩, hq, rfl⟩ := hp
    exact ⟨(h.getNewBlocks hq).1, enableCaching_getNewBlocks hq⟩
  | touch blocks => exact ⟨h.sameHashes (sameHashes_touch hp).1, (sameHashes_touch hp).1.enableCaching⟩
  | freeBlocks blocks => exact ⟨h.sameHashes (sameHashes_freeBlocks hp).1, (sameHashes_freeBlocks hp).1.enableCaching⟩
  | evictBlocks ids => exact ⟨h.evictBlocks hp, (sameRefs_evictBlocks hp).enableCaching⟩
  | resetPrefixCache =>
    cases hp
    exact ⟨h.resetPrefixCache, (sameRefs_resetPrefixCache p).enableCaching⟩
  | emitCachedBlockEvents r nc bsz g =>
    have hs := sameHashes_emitCachedBlockEvents hp
    exact ⟨h.sameHashes hs, hs.enableCaching⟩
  | takeEvents =>
    cases hp
    exact ⟨h.sameHashes (sameHashes_takeEvents p), (sameHashes_takeEvents p).enableCaching⟩

theorem Coherent.run (h : p.Coherent) {ops : List (PoolOp η)} (hops : ∀ op ∈ ops, op.Promised p.enableCaching)
    (hp : p.run ops = .ok p') : p'.Coherent := by
  have hinv : p'.Coherent ∧ p'.enableCaching = p.enableCaching := by
    refine foldlM_inv (P := fun x => x.Coherent ∧ x.enableCaching = p.enableCaching) ?_ hp ⟨h, rfl⟩
    intro op hop x y hx hy
    obtain ⟨hc, he⟩ := hx.1.apply (hx.2 ▸ hops op hop) hy
    exact ⟨hc, he.trans hx.2⟩
  exact hinv.1

theorem coherent_init {hbs : Nat} {caching events : Bool} (h : init n caching hbs events = .ok p) :
    p.Coherent ∧ p.enableCaching = caching := by
  simp only [init, do_eq_ok] at h
  obtain ⟨-, -, ⟨_, queue⟩, -, rfl⟩ := h
  refine ⟨⟨fun k x => ?_, rfl, fun _ _ => rfl, fun k hk => ?_, fun _ _ => rfl⟩, rfl⟩
  · simp [Stored, keysOf, contain, Dict.getD]
  · rw [get?_empty] at hk; cases hk

omit [DecidableEq η] in
theorem mem_keysOf : key ∈ p.keysOf b ↔
    (p.blocks b).blockHash = some key ∨ key ∈ p.cachedBlockHashesByBlock.getD b [] := by
  rw [keysOf, mem_append, Option.mem_toList]

/-- In every state of a run the index, the blocks' own hashes and the lists of further keys agree, the null
block is never stored, and blocks are handed out without keys. -/
theorem run_coherent {numGpuBlocks hashBlockSize : Nat} {enableCaching events : Bool} {p₀ : BlockPool η}
    {ops : List (PoolOp η)} (hinit : init numGpuBlocks enableCaching hashBlockSize events = .ok p₀)
    (hops : ∀ op ∈ ops, op.Promised enableCaching) (hrun : p₀.run ops = .ok p) :
    (∀ key b, contain p.cachedBlockHashToBlock key b = true ↔
      (p.blocks b).blockHash = some key ∨ key ∈ p.cachedBlockHashesByBlock.getD b []) ∧
    (∀ key, contain p.cachedBlockHashToBlock key nullBlock = false) ∧
    (∀ b, (p.blocks b).blockHash = none → p.cachedBlockHashesByBlock.getD b [] = []) ∧
    ∀ n bs p', p.getNewBlocks n = .ok (bs, p') → ∀ b ∈ bs, ∀ key,
      contain p'.cachedBlockHashToBlock key b = false := by
  obtain ⟨hc₀, hcaching⟩ := coherent_init hinit
  have hc : p.Coherent := hc₀.run (hcaching ▸ hops) hrun
  have hnot : ∀ {q : BlockPool η}, q.Coherent → ∀ b, q.keysOf b = [] → ∀ key,
      contain q.cachedBlockHashToBlock key b = false := by
    intro q hq b hb key
    rw [Bool.eq_false_iff]
    intro hs
    have hmem : key ∈ q.keysOf b := (hq.stored key b).1 hs
    rw [hb] at hmem
    cases hmem
  refine ⟨fun key b => (hc.stored key b).trans mem_keysOf, hnot hc nullBlock hc.null, hc.primary, ?_⟩
  intro n bs p' hnew b hb
  obtain ⟨hc', hkeys⟩ := hc.getNewBlocks hnew
  exact hnot hc' b (by rw [hkeys, if_pos hb])

/-- Two blocks of equal content, a partial entry, a promotion, a copy that takes the keys over, an eviction. -/
def cacheAndEvict : List (PoolOp Nat) :=
  let r : Request Nat := { requestId := 0, allTokenIds := [1, 2, 3, 4], blockHashes := [10, 20] }
  [.getNewBlocks 3, .cachePartialBlock r 1 2 0 4 false, .cacheFullBlocks r [1] 0 1 4 0 none,
    .cacheFullBlocks r [2] 0 1 4 0 none, .moveBlockHashes 2 3, .evictBlocks [1], .freeBlocks [3, 2, 1], .getNewBlocks 1]

theorem run_coherent_cacheAndEvict : ∃ p₀ p, init 4 true 2 = .ok p₀ ∧ p₀.run cacheAndEvict = .ok p ∧
    contain p.cachedBlockHashToBlock ⟨20, 0⟩ 3 = true ∧
    contain p.cachedBlockHashToBlock ⟨20, 0⟩ nullBlock = false := by
  have hops : ∀ op ∈ cacheAndEvict, op.Promised true := by simp [cacheAndEvict, PoolOp.Promised, nullBlock]
  exact ⟨_, _, rfl, rfl, rfl, (run_coherent (show init 4 true 2 = _ from rfl) hops rfl).2.1 ⟨20, 0⟩⟩

end BlockPool

end VllmCore
