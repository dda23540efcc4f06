import VllmCore.Core.HashIndex

/-! # The event stream as a copy of the hash index

A consumer replays the drained events as insertions, removals and clearings of a set of keys. The events
name keys, the index maps keys to several blocks: the copy is exact as long as no operation drops a block's
keys while another block stays stored under one of them. `Reports` is the common shape of the operations:
which blocks lose their keys, which entries are new, and that the events say so. -/

namespace VllmCore
open Except List BlockHashToBlockMap
variable {η : Type} [DecidableEq η] {st' : BlockPool η × List η}

def KVCacheEvent.replay (known : List (BlockHashWithGroupId η)) : KVCacheEvent η → List (BlockHashWithGroupId η)
  | .blockStored hashes _ _ _ _ _ g _ => known ++ hashes.map fun h => ⟨h, g⟩
  | .blockRemoved hashes g => known.filter fun k => k ∉ hashes.map fun h => (⟨h, g⟩ : BlockHashWithGroupId η)
  | .allBlocksCleared => []

namespace KVCacheEvent
variable {ε : Type} [DecidableEq ε] {known : List (BlockHashWithGroupId η)} {event : KVCacheEvent η}
  {events : List (KVCacheEvent η)}

def blockHashes : KVCacheEvent η → List η
  | .blockStored hashes .. => hashes
  | .blockRemoved hashes _ => hashes
  | .allBlocksCleared => []

/-- The event as it is published: the source converts the hashes where it builds the event. -/
def external (maybeConvertBlockHash : η → ε) : KVCacheEvent η → KVCacheEvent ε
  | .blockStored hashes parent tokenIds blockSize lora extraKeys g sessionId =>
    .blockStored (hashes.map maybeConvertBlockHash) (parent.map maybeConvertBlockHash) tokenIds blockSize lora
      extraKeys g sessionId
  | .blockRemoved hashes g => .blockRemoved (hashes.map maybeConvertBlockHash) g
  | .allBlocksCleared => .allBlocksCleared

def externalKey (maybeConvertBlockHash : η → ε) (k : BlockHashWithGroupId η) : BlockHashWithGroupId ε :=
  ⟨maybeConvertBlockHash k.blockHash, k.groupId⟩

variable {convert : η → ε} {S : List η}

/-- Only a removal compares hashes, so only there must the conversion keep them apart. -/
theorem replay_external (hinj : ∀ h ∈ S, ∀ h' ∈ S, convert h = convert h' → h = h')
    (hknown : ∀ k ∈ known, k.blockHash ∈ S) (hevent : ∀ h ∈ event.blockHashes, h ∈ S) :
    (event.external convert).replay (known.map (externalKey convert)) =
      (event.replay known).map (externalKey convert) := by
  cases event with
  | blockStored hashes =>
    rw [external, replay, replay, map_append, List.map_map, List.map_map]
    rfl
  | blockRemoved hashes g =>
    rw [external, replay, replay, filter_map]
    refine congrArg _ (filter_congr fun k hk => ?_)
    rw [Function.comp, decide_eq_decide, not_iff_not, List.map_map, mem_map, mem_map]
    constructor
    · rintro ⟨h, hh, heq⟩
      obtain ⟨hhash, hgroup⟩ := BlockHashWithGroupId.mk.inj heq
      refine ⟨h, hh, ?_⟩
      rw [hinj h (hevent h hh) k.blockHash (hknown k hk) hhash, hgroup]
    · rintro ⟨h, hh, rfl⟩
      exact ⟨h, hh, rfl⟩
  | allBlocksCleared => rfl

theorem foldl_replay_external (hinj : ∀ h ∈ S, ∀ h' ∈ S, convert h = convert h' → h = h')
    (hknown : ∀ k ∈ known, k.blockHash ∈ S) (hevents : ∀ h ∈ events.flatMap blockHashes, h ∈ S) :
    (events.map (external convert)).foldl replay (known.map (externalKey convert)) =
      (events.foldl replay known).map (externalKey convert) := by
  induction events generalizing known with
  | nil => rfl
  | cons event events ih =>
    rw [flatMap_cons] at hevents
    have hevent : ∀ h ∈ event.blockHashes, h ∈ S := fun h hh => hevents h (mem_append_left _ hh)
    rw [map_cons, foldl_cons, foldl_cons, replay_external hinj hknown hevent]
    refine ih (fun k hk => ?_) fun h hh => hevents h (mem_append_right _ hh)
    cases event with
    | blockStored hashes =>
      rcases mem_append.1 hk with hk | hk
      · exact hknown k hk
      · obtain ⟨h, hh, rfl⟩ := mem_map.1 hk
        exact hevent h hh
    | blockRemoved hashes g => exact hknown k (mem_filter.1 hk).1
    | allBlocksCleared => cases hk

end KVCacheEvent

/-- The pool, and the events its consumer has drained so far. -/
structure EventFeed (η : Type) where
  pool : BlockPool η
  drained : List (KVCacheEvent η) := []

namespace BlockHashToBlockMap
variable {m : BlockHashToBlockMap η} {key : BlockHashWithGroupId η} {b : BlockId}

def blocksUnder (m : BlockHashToBlockMap η) (key : BlockHashWithGroupId η) : List BlockId :=
  match m.get? key with
  | none => []
  | some (.one b) => [b]
  | some (.dict bs) => bs

theorem mem_blocksUnder : b ∈ blocksUnder m key ↔ contain m key b = true := by
  unfold blocksUnder contain
  cases m.get? key with
  | none => simp
  | some v =>
    cases v with
    | one b' => rw [mem_singleton, beq_iff_eq]; exact eq_comm
    | dict bs => exact contains_iff_mem.symm

end BlockHashToBlockMap

namespace BlockPool
variable {p p' q q' : BlockPool η} {k key : BlockHashWithGroupId η} {b x : BlockId}
  {known keys : List (BlockHashWithGroupId η)} {dropped : List BlockId}
  {entries : List (BlockId × BlockHashWithGroupId η)} {bs : List BlockId} {mask : Option (List Bool)} {n : Option Nat}
  {r : Request η} {bsz g nc : Nat}

/-- What the consumer knows once the queued events are drained. -/
def view (p : BlockPool η) (known : List (BlockHashWithGroupId η)) : List (BlockHashWithGroupId η) :=
  p.kvEventQueue.foldl KVCacheEvent.replay known

/-- The consumer's copy is exact up to the queued events. -/
def Mirrors (p : BlockPool η) (known : List (BlockHashWithGroupId η)) : Prop :=
  ∀ k, k ∈ p.view known ↔ ∃ b, p.Stored k b

/-- Whoever shares a key with a dropped block is dropped too, unless the key is stored anew. -/
def LastUnder (p : BlockPool η) (dropped : List BlockId) (added : List (BlockHashWithGroupId η)) : Prop :=
  ∀ b ∈ dropped, ∀ k ∈ p.keysOf b, ∀ x ∈ p.cachedBlockHashToBlock.blocksUnder k, x ∈ dropped ∨ k ∈ added

/-- From `p` to `p'` the blocks of `dropped` lose their keys and `entries` are new, and the events say so. -/
structure Reports (p : BlockPool η) (dropped : List BlockId)
    (entries : List (BlockId × BlockHashWithGroupId η)) (p' : BlockPool η) : Prop where
  view : ∀ known k, k ∈ p'.view known ↔
    (k ∈ p.view known ∧ ∀ b ∈ dropped, k ∉ p.keysOf b) ∨ k ∈ entries.map Prod.snd
  keys : ∀ k x, k ∈ p'.keysOf x ↔ (x ∉ dropped ∧ k ∈ p.keysOf x) ∨ (x, k) ∈ entries
  events : p'.enableKvCacheEvents = p.enableKvCacheEvents

theorem Mirrors.report (hm : p.Mirrors known) (hc : p.Coherent) (hc' : p'.Coherent)
    (h : p.Reports dropped entries p') (hlast : p.LastUnder dropped (entries.map Prod.snd)) : p'.Mirrors known := by
  intro k
  rw [h.view]
  constructor
  · rintro (⟨hk, hnot⟩ | hk)
    · obtain ⟨x, hx⟩ := (hm k).1 hk
      have hkeys := (hc.stored k x).1 hx
      exact ⟨x, (hc'.stored k x).2 ((h.keys k x).2 (.inl ⟨fun hd => hnot x hd hkeys, hkeys⟩))⟩
    · obtain ⟨⟨x, _⟩, he, rfl⟩ := mem_map.1 hk
      exact ⟨x, (hc'.stored _ x).2 ((h.keys _ x).2 (.inr he))⟩
  · rintro ⟨x, hx⟩
    by_cases hadd : k ∈ entries.map Prod.snd
    · exact .inr hadd
    rcases (h.keys k x).1 ((hc'.stored k x).1 hx) with ⟨hd, hkeys⟩ | he
    · have hs := (hc.stored k x).2 hkeys
      refine .inl ⟨(hm k).2 ⟨x, hs⟩, fun b hb hkb => ?_⟩
      -- the block that keeps the key was required to be dropped with `b`
      exact (hlast b hb k hkb x (mem_blocksUnder.2 hs)).elim hd hadd
    · exact absurd (mem_map.2 ⟨_, he, rfl⟩) hadd

/-! ### Which events the operations queue -/

theorem mem_replay_removed (keys known : List (BlockHashWithGroupId η)) :
    k ∈ (keys.map fun key => KVCacheEvent.blockRemoved [key.blockHash] key.groupId).foldl KVCacheEvent.replay known ↔
      k ∈ known ∧ k ∉ keys := by
  induction keys generalizing known with
  | nil => simp
  | cons key keys ih =>
    rw [map_cons, foldl_cons, ih]
    simp only [KVCacheEvent.replay, mem_filter, map_cons, map_nil, mem_cons, not_mem_nil,
      or_false, decide_eq_true_eq, not_or, and_assoc]

theorem mem_view_emit (hev : p.enableKvCacheEvents = true) (keys : List (BlockHashWithGroupId η)) :
    k ∈ (p.emitBlockRemovedEvents keys).view known ↔ k ∈ p.view known ∧ k ∉ keys := by
  rw [emitBlockRemovedEvents, if_pos hev, view, foldl_append, mem_replay_removed, view]

theorem sameEvents_removeCachedBlockHashes (p : BlockPool η) (b : BlockId) :
    p.SameEvents (p.removeCachedBlockHashes b).2 := by
  simp only [removeCachedBlockHashes]
  split <;> exact ⟨rfl, rfl⟩

omit [DecidableEq η] in
theorem events_emit (p : BlockPool η) (keys : List (BlockHashWithGroupId η)) :
    (p.emitBlockRemovedEvents keys).enableKvCacheEvents = p.enableKvCacheEvents := by
  unfold emitBlockRemovedEvents
  split <;> rfl

theorem Forgets.reports (hf : p.Forgets b p') (hview : ∀ known k, k ∈ p'.view known ↔ k ∈ p.view known ∧ k ∉ p.keysOf b)
    (hev : p'.enableKvCacheEvents = p.enableKvCacheEvents) : p.Reports [b] [] p' := by
  refine ⟨fun known k => ?_, fun k x => ?_, hev⟩
  · rw [hview]; simp
  · rw [hf.keysOf]
    split
    · next e => simp [e]
    · next e => simp [e]

theorem Coherent.reports_dropHashes (h : p.Coherent) (hev : p.enableKvCacheEvents = true) (b : BlockId) :
    p.Reports [b] [] (p.dropHashes b) := by
  obtain ⟨hq, he⟩ := sameEvents_removeCachedBlockHashes p b
  refine (forgets_dropHashes p b).reports (fun known k => ?_) ((events_emit ..).trans he)
  rw [dropHashes, mem_view_emit (he.trans hev), view, hq, h.mem_removed, view]

theorem Coherent.reports_maybeEvict (h : p.Coherent) (hev : p.enableKvCacheEvents = true) (b : BlockId) :
    p.Reports [b] [] (p.maybeEvictCachedBlock b).2 := by
  obtain ⟨hq, he⟩ := sameEvents_removeCachedBlockHashes p b
  refine (forgets_maybeEvictCachedBlock p b).reports (fun known k => ?_) ?_
  · simp only [maybeEvictCachedBlock]
    split
    · next h0 => rw [view, hq, ← h.mem_removed, h0, view]; simp
    · rw [mem_view_emit (he.trans hev), view, hq, h.mem_removed, view]
  · simp only [maybeEvictCachedBlock]
    split
    · exact he
    · exact (events_emit ..).trans he

theorem Reports.nil (hs : p.SameHashes p') (he : p.SameEvents p') : p.Reports [] [] p' := by
  refine ⟨fun known k => ?_, fun k x => ?_, he.enabled⟩
  · rw [BlockPool.view, he.queue]; simp [BlockPool.view]
  · rw [keysOf, hs.hash, hs.byBlock]; simp [keysOf]

theorem Reports.drop {d d' : List BlockId} (h : p.Reports d [] q) (h' : q.Reports d' [] p') :
    p.Reports (d ++ d') [] p' := by
  refine ⟨fun known k => ?_, fun k x => ?_, h'.events.trans h.events⟩
  · simp only [h'.view, h.view, h.keys, map_nil, not_mem_nil, or_false, mem_append, not_and, and_assoc]
    refine and_congr_right fun _ => ⟨?_, fun hall => ⟨fun b hb => hall b (.inl hb), fun b hb _ => hall b (.inr hb)⟩⟩
    rintro ⟨h1, h2⟩ b (hb | hb)
    · exact h1 b hb
    · by_cases hd : b ∈ d
      · exact h1 b hd
      · exact h2 b hb hd
  · simp only [h'.keys, h.keys, not_mem_nil, or_false, mem_append, not_or]
    tauto

section
variable (h : p.Coherent) (hev : p.enableKvCacheEvents = true)
include h hev

theorem Coherent.reports_foldlM {f : BlockPool η → BlockId → Except Err (BlockPool η)}
    (hf : ∀ {p p' b}, p.Coherent → p.enableKvCacheEvents = true → f p b = .ok p' → p'.Coherent ∧ p.Reports [b] [] p')
    (hp : bs.foldlM f p = .ok p') : p.Reports bs [] p' := by
  induction bs generalizing p with
  | nil => cases hp; exact .nil (.refl _) (.refl _)
  | cons b bs ih =>
    rw [foldlM_cons, bind_eq_ok] at hp
    obtain ⟨q, hq, hp⟩ := hp
    obtain ⟨hc, hrep⟩ := hf h hev hq
    exact hrep.drop (ih hc (hrep.events.trans hev) hp)

theorem Coherent.reports_evictBlocks (hp : p.evictBlocks bs = .ok p') : p.Reports bs [] p' := by
  refine h.reports_foldlM hev (fun {p _ b} h hev hp => ?_) hp
  simp only [do_eq_ok] at hp
  obtain ⟨-, -, rfl⟩ := hp
  exact ⟨h.maybeEvict b, h.reports_maybeEvict hev b⟩

theorem Coherent.reports_takeBlock (hp : p.takeBlock b = .ok p') : p.Reports [b] [] p' := by
  simp only [BlockPool.takeBlock, do_eq_ok] at hp
  obtain ⟨-, -, rfl⟩ := hp
  split
  · have hsame := sameHashes_addRef (p.maybeEvictCachedBlock b).2 b 1
    exact (h.reports_maybeEvict hev b).drop (.nil hsame ⟨rfl, rfl⟩)
  · next hcache =>
    -- nothing is cached: the block has no keys to lose
    have hnone := h.uncached (Bool.eq_false_iff.2 hcache)
    have hsame := sameHashes_addRef p b 1
    refine ⟨fun known k => ?_, fun k x => ?_, rfl⟩
    · simp only [hnone, not_mem_nil, not_false_eq_true, implies_true, and_true, map_nil, or_false]
      rfl
    · rw [keysOf, hsame.hash, hsame.byBlock, ← keysOf, hnone]; simp

theorem Coherent.reports_getNewBlocks {n : Nat} (hp : p.getNewBlocks n = .ok (bs, p')) :
    (∃ queue, p.freeBlockQueue.popleftN n = .ok (bs, queue)) ∧ p.Reports bs [] p' := by
  simp only [BlockPool.getNewBlocks, do_eq_ok] at hp
  obtain ⟨-, -, ⟨ret, queue⟩, hpop, q, hq, he⟩ := hp
  cases he
  have hsame := sameHashes_queue p queue
  have hrep := Reports.drop (.nil hsame ⟨rfl, rfl⟩) ((h.sameHashes hsame).reports_foldlM hev
    (fun h hev hp => ⟨(h.takeBlock hp).1, h.reports_takeBlock hev hp⟩) hq)
  exact ⟨⟨queue, hpop⟩, hrep⟩

end

theorem Learns.mem_keysOf (h : p.Learns key b p') : k ∈ p'.keysOf x ↔ k ∈ p.keysOf x ∨ (x = b ∧ k = key) := by
  by_cases hx : x = b
  · subst hx; rw [h.keys]; simp
  · rw [h.keysOf_ne hx]; simp [hx]

/-- The entry that `cache_full_blocks` makes for the `i`-th new full block. -/
def fullEntry (groupId : Nat) (mask : Option (List Bool)) (newHashes : List η) (ib : Nat × BlockId) :
    Option (BlockId × BlockHashWithGroupId η) :=
  if isNull ib.2 || masked mask ib.1 then none else newHashes[ib.1]?.map fun h => (ib.2, ⟨h, groupId⟩)

theorem Coherent.promote_drops (h : p.Coherent) (hev : p.enableKvCacheEvents = true) {n : Nat}
    (hp : p.promote b n = .ok p') : p.Reports [b] [] p' := by
  unfold BlockPool.promote at hp
  split at hp
  · next hnone =>
    cases hp
    have hkeys : p.keysOf b = [] := by
      have hb := Option.isNone_iff_eq_none.1 hnone
      rw [keysOf, hb, h.primary b hb]
      rfl
    refine ⟨fun known k => by simp [hkeys], fun k x => ?_, rfl⟩
    by_cases hx : x = b
    · subst hx; simp [hkeys]
    · simp [hx]
  · simp only [do_eq_ok] at hp
    obtain ⟨-, -, rfl⟩ := hp
    exact h.reports_dropHashes hev b

/-- One round: a skipped block changes nothing, another loses its keys for the new one. The event for the new
key comes after the loop. -/
theorem Coherent.cacheFullBlock_cases {hashes stored : List η} {ib : Nat × BlockId} (h : p.Coherent)
    (hev : p.enableKvCacheEvents = true) (hst : BlockPool.cacheFullBlock bsz g nc mask hashes (p,
      stored) ib = .ok st') :
    (fullEntry g mask hashes ib = none ∧ st' = (p, stored)) ∨
      ∃ e : BlockId × BlockHashWithGroupId η, fullEntry g mask hashes ib = some e ∧ e.2.groupId = g ∧
        st'.2 = stored ++ [e.2.blockHash] ∧ st'.1.enableKvCacheEvents = true ∧
        (∀ known k, k ∈ st'.1.view known ↔ k ∈ p.view known ∧ k ∉ p.keysOf e.1) ∧
        ∀ k x, k ∈ st'.1.keysOf x ↔ (x ≠ e.1 ∧ k ∈ p.keysOf x) ∨ (x, k) = e := by
  obtain ⟨i, b⟩ := ib
  simp only [BlockPool.cacheFullBlock] at hst
  split at hst
  · next hskip => cases hst; exact .inl ⟨if_pos hskip, rfl⟩
  next hskip =>
  cases hhash : hashes[i]? with
  | none => rw [hhash] at hst; cases hst
  | some hash =>
    rw [hhash] at hst
    simp only [do_eq_ok] at hst
    obtain ⟨q, hq, q', hq', rfl⟩ := hst
    have hrep := h.promote_drops hev hq
    obtain ⟨hlearn, hqueue, hev'⟩ := (h.promote hq).learns_insertBlockHash hq'
    refine .inr ⟨(b, ⟨hash, g⟩), ?_, rfl, rfl, hev'.trans (hrep.events.trans hev), fun known k => ?_, fun k x => ?_⟩
    · simp only [fullEntry, if_neg hskip, hhash, Option.map_some]
    · rw [BlockPool.view, hqueue, ← BlockPool.view, hrep.view]; simp
    · rw [hlearn.mem_keysOf, hrep.keys]
      simp [Prod.ext_iff]

theorem Coherent.cacheFullBlock_loop {hashes stored : List η} {l : List (Nat × BlockId)} (h : p.Coherent)
    (hcache : p.enableCaching = true) (hev : p.enableKvCacheEvents = true)
    (hst : l.foldlM (BlockPool.cacheFullBlock bsz g nc mask hashes) (p, stored) = .ok st')
    (hnd : ((l.filterMap (fullEntry g mask hashes)).map Prod.fst).Nodup) :
    st'.2 = stored ++ (l.filterMap (fullEntry g mask hashes)).map (fun e => e.2.blockHash) ∧
      st'.1.enableKvCacheEvents = true ∧
      (∀ e ∈ l.filterMap (fullEntry g mask hashes), e.2.groupId = g) ∧
      (∀ known k, k ∈ st'.1.view known ↔
        k ∈ p.view known ∧ ∀ b ∈ (l.filterMap (fullEntry g mask hashes)).map Prod.fst, k ∉ p.keysOf b) ∧
      ∀ k x, k ∈ st'.1.keysOf x ↔
        (x ∉ (l.filterMap (fullEntry g mask hashes)).map Prod.fst ∧ k ∈ p.keysOf x) ∨
          (x, k) ∈ l.filterMap (fullEntry g mask hashes) := by
  induction l generalizing p stored with
  | nil =>
    cases hst
    refine ⟨by simp, hev, by simp, fun known k => by simp, fun k x => by simp⟩
  | cons ib l ih =>
    rw [foldlM_cons, bind_eq_ok] at hst
    obtain ⟨⟨q, stored'⟩, hq, hst⟩ := hst
    have hqc : q.Coherent := h.cacheFullBlock hcache hq
    have hqcache : q.enableCaching = true := (sameRefs_cacheFullBlock hq).enableCaching.trans hcache
    rcases h.cacheFullBlock_cases hev hq with ⟨hnone, he⟩ | ⟨e, hsome, hg, hstored, heq, hview, hkeys⟩
    · cases he
      rw [filterMap_cons_none hnone] at hnd ⊢
      exact ih hqc hqcache hev hst hnd
    · rw [filterMap_cons_some hsome] at hnd ⊢
      rw [map_cons, nodup_cons] at hnd
      obtain ⟨hnew, hnd⟩ := hnd
      obtain ⟨h1, h2, h3, h4, h5⟩ := ih hqc hqcache heq hst hnd
      have hother : ∀ b ∈ (l.filterMap (fullEntry g mask hashes)).map Prod.fst, ∀ k, k ∈ q.keysOf b ↔
          k ∈ p.keysOf b := by
        intro b hb k
        have hne : b ≠ e.1 := fun hbe => hnew (hbe ▸ hb)
        rw [hkeys]
        simp only [hne, ne_eq, not_false_eq_true, true_and, or_iff_left_iff_imp]
        rintro rfl
        exact absurd rfl hne
      refine ⟨?_, h2, ?_, fun known k => ?_, fun k x => ?_⟩
      · have hstored : stored' = stored ++ [e.2.blockHash] := hstored
        rw [h1, hstored]
        simp
      · intro e' he'
        rcases mem_cons.1 he' with rfl | he'
        · exact hg
        · exact h3 e' he'
      · rw [h4, hview, map_cons, forall_mem_cons, and_assoc]
        refine and_congr_right fun _ => and_congr_right fun _ => forall₂_congr fun b hb => ?_
        rw [hother b hb]
      · rw [h5, hkeys, map_cons, mem_cons, mem_cons, not_or]
        constructor
        · rintro (⟨hx, ⟨hne, hk⟩ | rfl⟩ | hx)
          · exact .inl ⟨⟨hne, hx⟩, hk⟩
          · exact .inr (.inl rfl)
          · exact .inr (.inr hx)
        · rintro (⟨⟨hne, hx⟩, hk⟩ | rfl | hx)
          · exact .inl ⟨hx, .inl ⟨hne, hk⟩⟩
          · exact .inl ⟨hnew, .inr rfl⟩
          · exact .inr hx

def fullEntries (p : BlockPool η) (r : Request η) (blocks : List BlockId) (nc nf bsz g : Nat)
    (mask : Option (List Bool)) : List (BlockId × BlockHashWithGroupId η) :=
  match resolveBlockHashes r.blockHashes p.hashBlockSize bsz with
  | .error _ => []
  | .ok hashes =>
    let newFullBlocks := (blocks.take nf).drop nc
    ((List.range newFullBlocks.length).zip newFullBlocks).filterMap (fullEntry g mask (hashes.drop nc))

theorem Coherent.reports_cacheFullBlocks {nf : Nat} (h : p.Coherent) (hcache : p.enableCaching = true)
    (hev : p.enableKvCacheEvents = true) (hp : p.cacheFullBlocks r bs nc nf bsz g mask = .ok p')
    (hnd : ((p.fullEntries r bs nc nf bsz g mask).map Prod.fst).Nodup) :
    p.Reports ((p.fullEntries r bs nc nf bsz g mask).map Prod.fst) (p.fullEntries r bs nc nf bsz g mask) p' := by
  unfold BlockPool.cacheFullBlocks at hp
  split at hp
  · next hle =>
    cases hp
    have hnil : (bs.take nf).drop nc = [] := drop_eq_nil_of_le (by rw [length_take]; omega)
    have h0 : p.fullEntries r bs nc nf bsz g mask = [] := by
      unfold fullEntries
      split
      · rfl
      · simp [hnil]
    rw [h0]
    exact .nil (.refl p) (.refl p)
  simp only [bind_eq_ok] at hp
  obtain ⟨-, -, hashes, hhashes, ⟨q, stored⟩, hst, hp⟩ := hp
  have hentries : p.fullEntries r bs nc nf bsz g mask =
      ((List.range ((bs.take nf).drop nc).length).zip ((bs.take nf).drop nc)).filterMap
        (fullEntry g mask (hashes.drop nc)) := by
    simp only [fullEntries, hhashes]
  rw [hentries] at hnd ⊢
  obtain ⟨hstored, heq, hg, hview, hkeys⟩ := h.cacheFullBlock_loop hcache hev hst hnd
  rw [if_pos heq, bind_eq_ok] at hp
  obtain ⟨extraKeys, -, hp⟩ := hp
  cases pure_eq_ok.1 hp
  refine ⟨fun known k => ?_, hkeys, heq.trans hev.symm⟩
  rw [BlockPool.view, foldl_append, ← BlockPool.view]
  simp only [foldl_cons, foldl_nil, buildBlockStoredEvent, KVCacheEvent.replay, mem_append, hview]
  refine or_congr_right ?_
  -- the hashes of the event with its group are the keys of the entries
  have hstored : stored = _ := hstored
  rw [hstored, nil_append, map_map]
  constructor
  · intro hk
    obtain ⟨e, he, rfl⟩ := mem_map.1 hk
    exact mem_map.2 ⟨e, he, by simp only [Function.comp_apply, ← hg e he]⟩
  · intro hk
    obtain ⟨e, he, rfl⟩ := mem_map.1 hk
    exact mem_map.2 ⟨e, he, by simp only [Function.comp_apply, ← hg e he]⟩

theorem Mirrors.sameHashes (hm : p.Mirrors known) (h : p.SameHashes p' ∧ p.SameEvents p') : p'.Mirrors known := by
  intro k
  rw [BlockPool.view, h.2.queue, ← BlockPool.view, hm k]
  simp only [Stored, h.1.index]

theorem Reports.insert {ev : KVCacheEvent η} (h : p.Reports dropped [] q) (hq : q.Coherent)
    (hi : q.insertBlockHash key b n = .ok q') (hev : ∀ known, ev.replay known = known ++ [key]) :
    p.Reports dropped [(b, key)] { q' with kvEventQueue := q'.kvEventQueue ++ [ev] } := by
  obtain ⟨hl, hsame⟩ := hq.learns_insertBlockHash hi
  refine ⟨fun known k => ?_, fun k x => ?_, hsame.enabled.trans h.events⟩
  · rw [BlockPool.view, foldl_append, hsame.queue, ← BlockPool.view]
    simp only [foldl_cons, foldl_nil]
    rw [show KVCacheEvent.replay (q.view known) ev = q.view known ++ [key] from hev _, mem_append, h.view]
    simp
  · show k ∈ q'.keysOf x ↔ _
    rw [hl.mem_keysOf, h.keys]
    simp

/-- The operation drops no key that another block keeps, caches each block once, and reports only hits. -/
def KeepsCopies (p : BlockPool η) : PoolOp η → Prop
  | .cacheFullBlocks r blocks nc nf bsz g mask =>
    let entries := p.fullEntries r blocks nc nf bsz g mask
    (entries.map Prod.fst).Nodup ∧ p.LastUnder (entries.map Prod.fst) (entries.map Prod.snd)
  | .cachePartialBlock r b nt g _ repl => ∀ hash ∈ (p.getPartialBlockHash r nt).toOption,
    repl = true ∨ (⟨hash, g⟩ ∉ p.keysOf b ∧ p.hasShorterHash b (nt / p.hashBlockSize * p.hashBlockSize) = true) →
      p.LastUnder [b] [⟨hash, g⟩]
  | .getNewBlocks n => ∀ popped ∈ (p.freeBlockQueue.popleftN n).toOption, p.LastUnder popped.1 []
  | .evictBlocks ids => p.LastUnder ids []
  | .emitCachedBlockEvents r nc bsz g =>
    ∀ hashes ∈ (resolveBlockHashes r.blockHashes p.hashBlockSize bsz).toOption,
      ∀ hash ∈ hashes.take nc, (p.getCachedBlock hash [g]).isSome = true
  | .moveBlockHashes .. | .touch _ | .freeBlocks _ | .resetPrefixCache | .takeEvents => True

/-- A partial entry is new, and the block's old keys go if the call replaces them. -/
theorem Coherent.mirrors_cachePartialBlock {nt : Nat} {repl : Bool} {res : Option (BlockHashWithGroupId η)}
    (h : p.Coherent) (hcache : p.enableCaching = true) (hev : p.enableKvCacheEvents = true) (hm : p.Mirrors known)
    (hlast : p.KeepsCopies (.cachePartialBlock r b nt g bsz repl))
    (hp : p.cachePartialBlock r b nt g bsz repl = .ok (res, p')) :
    p'.Mirrors known ∧ p'.enableKvCacheEvents = true := by
  have hc' := h.cachePartialBlock hcache hp
  unfold BlockPool.cachePartialBlock at hp
  split at hp
  · cases hp; exact ⟨hm, hev⟩
  simp only [bind_eq_ok] at hp
  obtain ⟨-, -, -, -, hash, hhash, q, hq, hp⟩ := hp
  have hcached : (decide ((p.blocks b).blockHash = some ⟨hash, g⟩) ||
      contain p.cachedBlockHashToBlock ⟨hash, g⟩ b) = true ↔ ⟨hash, g⟩ ∈ p.keysOf b := by
    rw [Bool.or_eq_true, decide_eq_true_eq, ← h.stored]
    constructor
    · rintro (hb | hs)
      · exact (h.stored _ _).2 (by simp [keysOf, hb])
      · exact hs
    · exact Or.inr
  have hrepl := hlast hash (by rw [hhash]; rfl)
  split at hq
  · -- the old keys go, the new one is reported
    next hdrop =>
    have hdrop : repl = true ∨ (⟨hash, g⟩ ∉ p.keysOf b ∧
        p.hasShorterHash b (nt / p.hashBlockSize * p.hashBlockSize) = true) := by
      rw [Bool.or_eq_true, Bool.and_eq_true, Bool.not_eq_true', ← Bool.not_eq_true, hcached] at hdrop
      exact hdrop
    have hnew : ¬ ((decide ((p.blocks b).blockHash = some ⟨hash, g⟩) ||
        contain p.cachedBlockHashToBlock ⟨hash, g⟩ b) && !repl) = true := by
      rw [Bool.and_eq_true, hcached]
      rintro ⟨hk, hr⟩
      rcases hdrop with hdrop | ⟨hdrop, -⟩
      · rw [hdrop] at hr; cases hr
      · exact hdrop hk
    have hd := h.reports_dropHashes hev b
    have hf := h.forget (forgets_dropHashes p b)
    have hqev := (hf.learns_insertBlockHash hq).2.enabled.trans (hd.events.trans hev)
    rw [if_pos (by rw [hqev, Bool.true_and, Bool.not_eq_true', ← Bool.not_eq_true]; exact hnew)] at hp
    cases pure_eq_ok.1 hp
    exact ⟨hm.report h hc' (hd.insert hf hq fun _ => rfl) (hrepl hdrop), hqev⟩
  · next hkeep =>
    by_cases hk : ⟨hash, g⟩ ∈ p.keysOf b
    · -- the entry is there already
      have hself : q = p := by
        unfold insertBlockHash at hq
        split at hq
        · cases hq; rfl
        · have hs : contain p.cachedBlockHashToBlock ⟨hash, g⟩ b = true := (h.stored _ _).2 hk
          rw [if_pos hs] at hq
          cases hq; rfl
      subst hself
      have hrep : repl = false := by
        rw [Bool.or_eq_true, not_or] at hkeep
        exact Bool.eq_false_iff.2 hkeep.1
      rw [hcached.2 hk, hrep] at hp
      simp only [Bool.not_false, Bool.and_self, Bool.not_true, Bool.and_false, Bool.false_eq_true, if_false] at hp
      cases pure_eq_ok.1 hp
      exact ⟨hm, hev⟩
    · have hqev := (h.learns_insertBlockHash hq).2.enabled.trans hev
      rw [if_pos (by rw [hqev, Bool.eq_false_iff.2 (mt hcached.1 hk)]; rfl)] at hp
      cases pure_eq_ok.1 hp
      have hsame : p.Reports [] [] p := .nil (.refl p) (.refl p)
      exact ⟨hm.report h hc' (hsame.insert h hq fun _ => rfl) (fun b hb => by cases hb), hqev⟩

theorem Coherent.learns_all (h : p.Coherent) (hcache : p.enableCaching = true) (hb : b ≠ nullBlock)
    (hp : keys.foldlM (fun p key => p.insertBlockHash key b n) p = .ok p') :
    p.SameEvents p' ∧ ∀ k x, k ∈ p'.keysOf x ↔ k ∈ p.keysOf x ∨ (x = b ∧ k ∈ keys) := by
  induction keys generalizing p with
  | nil => cases hp; exact ⟨.refl _, by simp⟩
  | cons key keys ih =>
    rw [foldlM_cons, bind_eq_ok] at hp
    obtain ⟨q, hq, hp⟩ := hp
    obtain ⟨hl, hsame⟩ := h.learns_insertBlockHash hq
    obtain ⟨hsame', hkeys⟩ := ih (h.learn hl hb hcache) (hl.caching.trans hcache) hp
    refine ⟨hsame.trans hsame', fun k x => ?_⟩
    rw [hkeys, hl.mem_keysOf, mem_cons, or_assoc, ← and_or_left]

/-- Moving the keys of a block keeps the set of cached keys, so it needs no events. -/
theorem Coherent.mirrors_moveBlockHashes {src dst : BlockId} (h : p.Coherent) (hm : p.Mirrors known)
    (hdst : dst ≠ nullBlock) (hp : p.moveBlockHashes src dst = .ok p') :
    p'.Mirrors known ∧ p'.enableKvCacheEvents = p.enableKvCacheEvents := by
  have hc' := h.moveBlockHashes hdst hp
  simp only [BlockPool.moveBlockHashes, bind_eq_ok] at hp
  obtain ⟨-, -, -, -, hp⟩ := hp
  have hf := forgets_removeCachedBlockHashes p src
  have hsame := sameEvents_removeCachedBlockHashes p src
  have hmoved : p.SameEvents p' ∧ ∀ k x, k ∈ p'.keysOf x ↔ (x ≠ src ∧ k ∈ p.keysOf x) ∨
      (x = dst ∧ k ∈ p.keysOf src) := by
    cases hcache : p.enableCaching with
    | false =>
      have hnone := h.uncached hcache
      have hremoved : (p.removeCachedBlockHashes src).1 = [] :=
        eq_nil_iff_forall_not_mem.2 fun k hk => by rw [h.mem_removed, hnone] at hk; cases hk
      rw [hremoved] at hp
      cases hp
      exact ⟨hsame, fun k x => by rw [hf.keysOf]; simp [hnone]⟩
    | true =>
      obtain ⟨hsame', hlearned⟩ := (h.forget hf).learns_all (hf.caching.trans hcache) hdst hp
      refine ⟨hsame.trans hsame', fun k x => ?_⟩
      rw [hlearned, hf.keysOf, h.mem_removed]
      split
      · next e => simp [e]
      · next e => simp [e]
  obtain ⟨⟨hq, he⟩, hkeys⟩ := hmoved
  refine ⟨fun k => ?_, he⟩
  rw [BlockPool.view, hq, ← BlockPool.view, hm k]
  constructor
  · rintro ⟨x, hx⟩
    have hx := (h.stored k x).1 hx
    by_cases hsrc : x = src
    · exact ⟨dst, (hc'.stored k dst).2 ((hkeys k dst).2 (.inr ⟨rfl, hsrc ▸ hx⟩))⟩
    · exact ⟨x, (hc'.stored k x).2 ((hkeys k x).2 (.inl ⟨hsrc, hx⟩))⟩
  · rintro ⟨x, hx⟩
    rcases (hkeys k x).1 ((hc'.stored k x).1 hx) with ⟨-, hk⟩ | ⟨-, hk⟩
    · exact ⟨x, (h.stored k x).2 hk⟩
    · exact ⟨src, (h.stored k src).2 hk⟩

theorem mirrors_resetPrefixCache (hm : p.Mirrors known) (hev : p.enableKvCacheEvents = true) :
    p.resetPrefixCache.2.Mirrors known ∧ p.resetPrefixCache.2.enableKvCacheEvents = true := by
  unfold resetPrefixCache
  split
  · exact ⟨hm, hev⟩
  · refine ⟨fun k => ?_, hev⟩
    simp only [BlockPool.view, hev, foldl_append, foldl_cons, foldl_nil, KVCacheEvent.replay]
    simp [Stored, contain]

theorem Coherent.isSome_getCachedBlock (h : p.Coherent) (hash : η) (g : Nat) :
    (p.getCachedBlock hash [g]).isSome = true ↔ ∃ b, p.Stored ⟨hash, g⟩ b := by
  rw [show (∃ b, p.Stored ⟨hash, g⟩ b) ↔ _ from h.packed.getOneBlock.symm]
  simp only [getCachedBlock, mapM_cons, mapM_nil]
  cases BlockHashToBlockMap.getOneBlock p.cachedBlockHashToBlock ⟨hash, g⟩ <;> rfl

/-- The hashes of a cache hit are reported again; that is right if they are all cached. -/
theorem Coherent.mirrors_emitCachedBlockEvents (h : p.Coherent) (hev : p.enableKvCacheEvents = true)
    (hm : p.Mirrors known) (hcached : p.KeepsCopies (.emitCachedBlockEvents r nc bsz g))
    (hp : p.emitCachedBlockEvents r nc bsz g = .ok p') : p'.Mirrors known ∧ p'.enableKvCacheEvents = true := by
  unfold emitCachedBlockEvents at hp
  split at hp
  · cases hp; exact ⟨hm, hev⟩
  rw [bind_eq_ok] at hp
  obtain ⟨hashes, hhashes, hp⟩ := hp
  split at hp
  · cases hp
  cases pure_eq_ok.1 hp
  refine ⟨fun k => ?_, hev⟩
  rw [BlockPool.view, foldl_append, ← BlockPool.view]
  simp only [foldl_cons, foldl_nil, buildBlockStoredEvent, KVCacheEvent.replay, mem_append]
  rw [show k ∈ p.view known ↔ _ from hm k]
  constructor
  · rintro (hk | hk)
    · exact hk
    · obtain ⟨hash, hmem, rfl⟩ := mem_map.1 hk
      exact (h.isSome_getCachedBlock hash g).1 (hcached hashes (by rw [hhashes]; rfl) hash hmem)
  · exact Or.inl

/-! ### Runs -/

def Along (K : BlockPool η → PoolOp η → Prop) : BlockPool η → List (PoolOp η) → Prop
  | _, [] => True
  | p, op :: ops => K p op ∧ ∀ q ∈ (p.apply op).toOption, Along K q ops

instance (p : BlockPool η) (dropped : List BlockId) (added : List (BlockHashWithGroupId η)) :
    Decidable (p.LastUnder dropped added) :=
  inferInstanceAs (Decidable (∀ _ ∈ dropped, ∀ _ ∈ (_ : List _), ∀ _ ∈ (_ : List _), _))

instance decidableKeepsCopies (p : BlockPool η) : (op : PoolOp η) → Decidable (p.KeepsCopies op)
  | .cacheFullBlocks .. => inferInstanceAs (Decidable (_ ∧ _))
  | .cachePartialBlock .. => inferInstanceAs (Decidable (∀ _ ∈ (_ : Option _), _ → _))
  | .getNewBlocks _ => inferInstanceAs (Decidable (∀ _ ∈ (_ : Option _), _))
  | .evictBlocks ids => inferInstanceAs (Decidable (p.LastUnder ids []))
  | .emitCachedBlockEvents .. => inferInstanceAs (Decidable (∀ _ ∈ (_ : Option _), ∀ _ ∈ (_ : List _), _))
  | .moveBlockHashes .. | .touch _ | .freeBlocks _ | .resetPrefixCache | .takeEvents => inferInstanceAs (Decidable True)

instance decidableAlong (K : BlockPool η → PoolOp η → Prop) [hK : ∀ p op, Decidable (K p op)] (p : BlockPool η) :
    (ops : List (PoolOp η)) → Decidable (p.Along K ops)
  | [] => .isTrue trivial
  | op :: ops =>
    have : ∀ q : BlockPool η, Decidable (q.Along K ops) := fun q => decidableAlong K q ops
    inferInstanceAs (Decidable (K p op ∧ ∀ q ∈ (p.apply op).toOption, Along K q ops))

end BlockPool

namespace EventFeed
variable {f f' : EventFeed η}

def consume (f : EventFeed η) : PoolOp η → List (KVCacheEvent η)
  | .takeEvents => f.drained ++ f.pool.takeEvents.1
  | _ => f.drained

def apply (f : EventFeed η) (op : PoolOp η) : Except Err (EventFeed η) := do
  let pool ← f.pool.apply op
  pure { pool, drained := f.consume op }

def run (f : EventFeed η) (ops : List (PoolOp η)) : Except Err (EventFeed η) := ops.foldlM apply f

/-- What the consumer knows, in the hashes that are published. -/
def known {ε : Type} [DecidableEq ε] (maybeConvertBlockHash : η → ε) (f : EventFeed η) :
    List (BlockHashWithGroupId ε) :=
  (f.drained.map (KVCacheEvent.external maybeConvertBlockHash)).foldl KVCacheEvent.replay []

/-- No two hashes in the drained events are published as one. -/
def KeepsApart {ε : Type} (maybeConvertBlockHash : η → ε) (f : EventFeed η) : Prop :=
  ∀ h ∈ f.drained.flatMap KVCacheEvent.blockHashes, ∀ h' ∈ f.drained.flatMap KVCacheEvent.blockHashes,
    maybeConvertBlockHash h = maybeConvertBlockHash h' → h = h'

instance decidableKeepsApart {ε : Type} [DecidableEq ε] (maybeConvertBlockHash : η → ε) (f : EventFeed η) :
    Decidable (f.KeepsApart maybeConvertBlockHash) :=
  inferInstanceAs (Decidable (∀ _ ∈ (_ : List η), ∀ _ ∈ (_ : List η), _))

structure Exact (f : EventFeed η) : Prop where
  coherent : f.pool.Coherent
  events : f.pool.enableKvCacheEvents = true
  mirrors : f.pool.Mirrors (f.drained.foldl KVCacheEvent.replay [])

theorem Exact.mirrors_apply (h : f.Exact) {op : PoolOp η} {p' : BlockPool η}
    (hop : op.Promised f.pool.enableCaching) (hcopies : f.pool.KeepsCopies op) (hp : f.pool.apply op = .ok p')
    (hc' : p'.Coherent) :
    p'.Mirrors ((f.consume op).foldl KVCacheEvent.replay []) ∧ p'.enableKvCacheEvents = true := by
  have hc := h.coherent
  have hev := h.events
  cases op with
  | cacheFullBlocks r blocks nc nf bsz g mask =>
    have hrep := hc.reports_cacheFullBlocks hop hev hp hcopies.1
    exact ⟨h.mirrors.report hc hc' hrep hcopies.2, hrep.events.trans hev⟩
  | cachePartialBlock r b nt g bsz repl =>
    simp only [BlockPool.apply, do_eq_ok] at hp
    obtain ⟨⟨res, q⟩, hq, rfl⟩ := hp
    exact hc.mirrors_cachePartialBlock hop hev h.mirrors hcopies hq
  | moveBlockHashes src dst =>
    obtain ⟨hm, he⟩ := hc.mirrors_moveBlockHashes h.mirrors hop hp
    exact ⟨hm, he.trans hev⟩
  | getNewBlocks n =>
    simp only [BlockPool.apply, do_eq_ok] at hp
    obtain ⟨⟨bs, q⟩, hq, rfl⟩ := hp
    obtain ⟨⟨queue, hpop⟩, hrep⟩ := hc.reports_getNewBlocks hev hq
    have hlast := hcopies (bs, queue) (by rw [hpop]; rfl)
    exact ⟨h.mirrors.report hc hc' hrep hlast, hrep.events.trans hev⟩
  | touch blocks =>
    have hs := BlockPool.sameHashes_touch hp
    exact ⟨h.mirrors.sameHashes hs, hs.2.enabled.trans hev⟩
  | freeBlocks blocks =>
    have hs := BlockPool.sameHashes_freeBlocks hp
    exact ⟨h.mirrors.sameHashes hs, hs.2.enabled.trans hev⟩
  | evictBlocks ids =>
    have hrep := hc.reports_evictBlocks hev hp
    exact ⟨h.mirrors.report hc hc' hrep hcopies, hrep.events.trans hev⟩
  | resetPrefixCache =>
    cases hp
    exact BlockPool.mirrors_resetPrefixCache h.mirrors hev
  | emitCachedBlockEvents r nc bsz g => exact hc.mirrors_emitCachedBlockEvents hev h.mirrors hcopies hp
  | takeEvents =>
    cases hp
    simp only [BlockPool.takeEvents, consume, hev, if_true, foldl_append]
    exact ⟨h.mirrors, trivial⟩

theorem Exact.apply (h : f.Exact) {op : PoolOp η} (hop : op.Promised f.pool.enableCaching)
    (hcopies : f.pool.KeepsCopies op) (hf : f.apply op = .ok f') :
    f'.Exact ∧ f'.pool.enableCaching = f.pool.enableCaching ∧ f.pool.apply op = .ok f'.pool := by
  rw [EventFeed.apply, bind_eq_ok] at hf
  obtain ⟨p', hp, hf⟩ := hf
  cases pure_eq_ok.1 hf
  obtain ⟨hc', hcaching⟩ := h.coherent.apply hop hp
  obtain ⟨hm, hev⟩ := h.mirrors_apply hop hcopies hp hc'
  exact ⟨⟨hc', hev, hm⟩, hcaching, hp⟩

theorem Exact.run {ops : List (PoolOp η)} (h : f.Exact) (hops : ∀ op ∈ ops, op.Promised f.pool.enableCaching)
    (halong : f.pool.Along BlockPool.KeepsCopies ops) (hf : f.run ops = .ok f') : f'.Exact := by
  induction ops generalizing f with
  | nil => cases hf; exact h
  | cons op ops ih =>
    rw [EventFeed.run, foldlM_cons, bind_eq_ok] at hf
    obtain ⟨g, hg, hf⟩ := hf
    obtain ⟨hcopies, hrest⟩ := halong
    obtain ⟨hexact, hcaching, hpool⟩ := h.apply (hops op (mem_cons_self ..)) hcopies hg
    refine ih hexact (fun op' hop' => ?_) (hrest g.pool (by rw [hpool]; rfl)) hf
    rw [hcaching]
    exact hops op' (mem_cons_of_mem _ hop')

theorem Exact.drain (h : f.Exact) (hf : f.apply .takeEvents = .ok f') (hash : η) (g : Nat) :
    ⟨hash, g⟩ ∈ f'.drained.foldl KVCacheEvent.replay [] ↔ (f'.pool.getCachedBlock hash [g]).isSome = true := by
  have hop : (PoolOp.takeEvents : PoolOp η).Promised f.pool.enableCaching := trivial
  obtain ⟨hexact, -, -⟩ := h.apply hop trivial hf
  cases hf
  rw [hexact.coherent.isSome_getCachedBlock, ← hexact.mirrors ⟨hash, g⟩]
  simp only [BlockPool.takeEvents, BlockPool.view, h.events, if_true, foldl_nil]

/-- As long as no operation drops a key that another block keeps, the drained events reconstruct the set of
cached keys, as it is published. -/
theorem run_exact {ε : Type} [DecidableEq ε] {maybeConvertBlockHash : η → ε} {numGpuBlocks hashBlockSize : Nat}
    {enableCaching : Bool} {p₀ : BlockPool η} {ops : List (PoolOp η)}
    (hinit : BlockPool.init numGpuBlocks enableCaching hashBlockSize true = .ok p₀)
    (hops : ∀ op ∈ ops, op.Promised enableCaching) (halong : p₀.Along BlockPool.KeepsCopies ops)
    (hrun : EventFeed.run { pool := p₀ } ops = .ok f) (hdrain : f.apply .takeEvents = .ok f')
    (hconvert : f'.KeepsApart maybeConvertBlockHash) (e : ε) (g : Nat) :
    ⟨e, g⟩ ∈ f'.known maybeConvertBlockHash ↔
      ∃ hash, maybeConvertBlockHash hash = e ∧ (f'.pool.getCachedBlock hash [g]).isSome = true := by
  obtain ⟨hc, hcaching⟩ := BlockPool.coherent_init hinit
  simp only [BlockPool.init, do_eq_ok] at hinit
  obtain ⟨-, -, ⟨_, queue⟩, -, rfl⟩ := hinit
  have hstart : Exact { pool := _ } := ⟨hc, rfl, fun k => ?_⟩
  · have hdrained := (hstart.run (hcaching ▸ hops) halong hrun).drain hdrain
    have hknown : f'.known maybeConvertBlockHash = _ :=
      KVCacheEvent.foldl_replay_external hconvert
        (forall_mem_nil fun k : BlockHashWithGroupId η => k.blockHash ∈ _) fun h hh => hh
    rw [hknown, mem_map]
    constructor
    · rintro ⟨k, hk, heq⟩
      obtain ⟨rfl, rfl⟩ := BlockHashWithGroupId.mk.inj heq
      exact ⟨k.blockHash, rfl, (hdrained _ _).1 hk⟩
    · rintro ⟨hash, rfl, hcached⟩
      exact ⟨⟨hash, g⟩, (hdrained hash g).2 hcached, rfl⟩
  · simp [BlockPool.view, BlockPool.Stored, contain]

/-- A partial entry becomes a full one, moves to a copy and is reported as a hit; another one is evicted. -/
def singleOwner : List (PoolOp Nat) :=
  let r : Request Nat := { requestId := 0, allTokenIds := [1, 2, 3, 4], blockHashes := [10, 20] }
  [.getNewBlocks 3, .cachePartialBlock r 1 2 0 4 false, .cacheFullBlocks r [1] 0 1 4 0 none, .moveBlockHashes 1 2,
    .emitCachedBlockEvents r 1 4 0, .takeEvents, .cacheFullBlocks r [3] 0 1 2 1 none, .freeBlocks [3, 1],
    .getNewBlocks 2]

theorem run_exact_singleOwner : ∃ p₀ f f', BlockPool.init 4 true 2 true = .ok p₀ ∧
    EventFeed.run { pool := p₀ } singleOwner = .ok f ∧ f.apply .takeEvents = .ok f' ∧
    f'.KeepsApart (· % 2 ^ 64) ∧ (f'.pool.getCachedBlock 20 [0]).isSome = true ∧
    ⟨20, 0⟩ ∈ f'.known (· % 2 ^ 64) ∧ ⟨10, 1⟩ ∉ f'.known (· % 2 ^ 64) := by
  have hops : ∀ op ∈ singleOwner, op.Promised true := by simp [singleOwner, PoolOp.Promised, nullBlock]
  have hrun : ∃ p₀ f f', BlockPool.init 4 true 2 true = .ok p₀ ∧ p₀.Along BlockPool.KeepsCopies singleOwner ∧
      EventFeed.run { pool := p₀ } singleOwner = .ok f ∧ f.apply .takeEvents = .ok f' ∧
      f'.KeepsApart (· % 2 ^ 64) ∧ (f'.pool.getCachedBlock 20 [0]).isSome = true ∧
      ⟨10, 1⟩ ∉ f'.known (· % 2 ^ 64) := ⟨_, _, _, rfl, by decide, rfl, rfl, by decide, rfl, by decide⟩
  obtain ⟨p₀, f, f', hinit, halong, hops', hdrain, hconvert, hcached, hgone⟩ := hrun
  have hexact := run_exact hinit hops halong hops' hdrain hconvert
  exact ⟨p₀, f, f', hinit, hops', hdrain, hconvert, hcached, (hexact 20 0).2 ⟨20, rfl, hcached⟩, hgone⟩

/-- Two requests compute the same block; when one copy is reused, its removal is reported. -/
def twoOwners : List (PoolOp Nat) :=
  let r : Request Nat := { requestId := 0, allTokenIds := [1, 2], blockHashes := [10] }
  [.getNewBlocks 2, .cacheFullBlocks r [1] 0 1 2 0 none, .cacheFullBlocks { r with requestId := 1 } [2] 0 1 2 0 none,
    .freeBlocks [1], .getNewBlocks 1]

theorem live_key_reported_removed : ∃ p₀ f f', BlockPool.init 3 true 2 true = .ok p₀ ∧
    EventFeed.run { pool := p₀ } twoOwners = .ok f ∧ f.apply .takeEvents = .ok f' ∧
    f'.pool.getCachedBlock 10 [0] = some [2] ∧ f'.known id = [] :=
  ⟨_, _, _, rfl, rfl, rfl, rfl, rfl⟩

end EventFeed

end VllmCore
