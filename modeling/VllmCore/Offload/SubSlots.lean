import VllmCore.Lib.Slices
import VllmCore.Offload.Jobs

/-! # The sub-slots of stores and loads

Logical block `q` of a group belongs in sub-slot `q % blocksPerChunk` of the chunk for the key of chunk
`q / blocksPerChunk`. A load always reads there (`load_moves`). A store tells the worker one start
index for each group and leaves missing blocks out of the list, so the worker, which counts on from the
start index, writes there when nothing is missing (`storeJob_moves`). -/

namespace VllmCore.Offload
open Except List Option
variable {i num : Nat} {hashed : BlockId → Bool} {blocks : List BlockId}

/-! ### Lists -/

section Lists
variable {α β : Type} {l : List α}

theorem filter_mem_eq_of_sublist [DecidableEq α] {L : List α} (hnd : L.Nodup) (h : l.Sublist L) :
    L.filter (fun x => decide (x ∈ l)) = l := by
  have hself : l.filter (fun x => decide (x ∈ l)) = l := filter_eq_self.2 fun x hx => decide_eq_true hx
  have hsub : l.Sublist (L.filter fun x => decide (x ∈ l)) := by
    simpa only [hself] using h.filter fun x => decide (x ∈ l)
  have hback : (L.filter fun x => decide (x ∈ l)) ⊆ l := fun x hx =>
    of_decide_eq_true (mem_filter.1 hx).2
  exact (hsub.eq_of_length_le (subperm_of_subset (hnd.filter _) hback).length_le).symm

theorem getElem?_of_getD_ne {l : List Nat} (h : l.getD i 0 ≠ 0) : l[i]? = some (l.getD i 0) := by
  rw [getD_eq_getElem?_getD] at h ⊢
  cases hi : l[i]? with
  | none => simp [hi] at h
  | some a => rfl

theorem filterMap_range'_getElem? (l : List α) (start n : Nat) :
    (List.range' start n).filterMap (fun i => l[i]?) = (l.drop start).take n := by
  induction n generalizing start with
  | zero => simp
  | succ n ih =>
    rw [range'_succ, filterMap_cons, ih (start + 1)]
    by_cases h : start < l.length
    · rw [getElem?_eq_getElem h, drop_eq_getElem_cons h, take_succ_cons]
    · rw [getElem?_eq_none (by omega), drop_eq_nil_of_le (by omega), drop_eq_nil_of_le (by omega)]
      simp

theorem map_lookup_zip [DecidableEq α] : ∀ {ks : List α} {ds : List β}, ks.Nodup → ds.length = ks.length →
    ks.map (fun k => (ks.zip ds).lookup k) = ds.map some
  | [], ds, _, hlen => by simp [length_eq_zero_iff.1 hlen]
  | k :: ks, [], _, hlen => by simp at hlen
  | k :: ks, d :: ds, hnd, hlen => by
    obtain ⟨hk, hnd⟩ := nodup_cons.1 hnd
    have ih := map_lookup_zip hnd (by simpa using hlen)
    have htail : ks.map (fun k' => ((k, d) :: ks.zip ds).lookup k') = ks.map fun k' => (ks.zip ds).lookup k' := by
      refine map_congr_left fun k' hk' => ?_
      rw [Dict.lookup_cons_ite, if_neg]
      rintro rfl
      exact hk hk'
    rw [map_cons, zip_cons_cons, htail, ih, Dict.lookup_cons_ite, if_pos rfl, map_cons]

theorem zip_flatMap_snd_sublist {γ : Type} (f : β → List γ) : ∀ (l : List α) (l' : List β),
    ((l.zip l').flatMap fun e => f e.2).Sublist (l'.flatMap f)
  | [], l' => by simp
  | _ :: _, [] => by simp
  | a :: l, b :: l' => by
    rw [zip_cons_cons, flatMap_cons, flatMap_cons]
    exact (Sublist.refl _).append (zip_flatMap_snd_sublist f l l')

theorem eq_of_mem_flatMap_nodup {f : α → List β} (h : (l.flatMap f).Nodup) {a a' : α} {b : β} (ha : a ∈ l)
    (ha' : a' ∈ l) (hb : b ∈ f a) (hb' : b ∈ f a') : a = a' := by
  by_contra hne
  have : Std.Symm (Function.onFun List.Disjoint f) := ⟨fun _ _ hd _ hb hb' => hd hb' hb⟩
  exact (nodup_flatMap.1 h).2.forall ha ha' hne hb hb'

theorem forall₂_getElem? {R : α → β → Prop} {l' : List β} (h : List.Forall₂ R l l') {a : α} (ha : l[i]? = some a) :
    ∃ b, l'[i]? = some b ∧ R a b := by
  obtain ⟨hi, rfl⟩ := List.getElem?_eq_some_iff.1 ha
  exact ⟨_, getElem?_eq_getElem (h.length_eq ▸ hi), h.get hi _⟩

theorem exists_mapM_eq_ok {ε : Type} {f : α → Except ε β} (h : ∀ a ∈ l, ∃ b, f a = .ok b) :
    ∃ l', l.mapM f = .ok l' := by
  induction l with
  | nil => exact ⟨[], rfl⟩
  | cons a l ih =>
    obtain ⟨b, hb⟩ := h a (mem_cons_self ..)
    obtain ⟨l', hl'⟩ := ih fun a' ha' => h a' (mem_cons_of_mem _ ha')
    refine ⟨b :: l', ?_⟩
    rw [mapM_cons, hb, ok_bind, hl', ok_bind]
    rfl

end Lists

/-! ### One transfer -/

/-- One group of a transfer: its rows on both sides, how many blocks it moves, and the index of the first. -/
structure GroupTransfer where
  src : List Nat
  dst : List Nat
  size : Nat
  blockIdx : Nat

namespace GroupTransfer

/-- The rows are as many as the worker takes for the group. -/
structure Covers (srcPer dstPer : Nat) (g : GroupTransfer) : Prop where
  src : g.src.length = if g.size = 0 then 0 else cdiv (g.size + g.blockIdx % srcPer) srcPer
  dst : g.dst.length = if g.size = 0 then 0 else cdiv (g.size + g.blockIdx % dstPer) dstPer

def moves (srcPer dstPer : Nat) (g : GroupTransfer) : List Move :=
    groupMoves srcPer dstPer g.src g.dst g.size g.blockIdx

theorem transferMoves_eq (srcPer dstPer : Nat) : ∀ gs : List GroupTransfer, (∀ g ∈ gs, g.Covers srcPer dstPer) →
    transferMoves srcPer dstPer (gs.map fun g => (g.size, g.blockIdx)) (gs.flatMap src) (gs.flatMap dst) =
      some (gs.map (moves srcPer dstPer))
  | [], _ => by simp [transferMoves]
  | g :: gs, h => by
    obtain ⟨hsrc, hdst⟩ := h g (mem_cons_self ..)
    have ih := transferMoves_eq srcPer dstPer gs fun g' hg' => h g' (mem_cons_of_mem _ hg')
    rw [map_cons, flatMap_cons, flatMap_cons, map_cons]
    by_cases hsize : g.size = 0
    · rw [if_pos hsize] at hsrc hdst
      have hnil : g.moves srcPer dstPer = [] := by simp [moves, groupMoves, subBlocks, hsize]
      rw [transferMoves, if_pos hsize, length_eq_zero_iff.1 hsrc, length_eq_zero_iff.1 hdst, nil_append,
        nil_append, ih, map_some, hnil]
    · rw [if_neg hsize] at hsrc hdst
      rw [transferMoves, if_neg hsize]
      simp only [← hsrc, ← hdst]
      rw [if_neg (by simp), take_left' rfl, drop_left' rfl, take_left' rfl, drop_left' rfl, ih,
        map_some]
      rfl

end GroupTransfer

def chunkSlots (blocksPerChunk : Nat) (chunkIds : List Nat) : List SubBlock :=
  chunkIds.flatMap fun d => (List.range blocksPerChunk).map (SubBlock.mk d)

theorem subBlocks_one (rows : List Nat) (skip count : Nat) (h : rows.length = count) :
    subBlocks rows 1 (skip % 1) count = rows.map fun b => ⟨b, 0⟩ := by
  simp only [subBlocks, Nat.mod_one, drop_zero, range_one, map_cons, map_nil,
    ← map_eq_flatMap]
  exact take_of_length_le (by simp [h])

theorem cdiv_one (n i : Nat) : cdiv (n + i % 1) 1 = n := by simp [cdiv, Nat.mod_one]

theorem cdiv_mul_self {B m : Nat} (hB : 0 < B) : cdiv (m * B) B = m := by
  unfold cdiv
  rw [Nat.add_sub_assoc hB, Nat.mul_comm, Nat.mul_add_div hB, Nat.div_eq_of_lt (by omega), Nat.add_zero]

/-! ### The jobs of the scheduler -/

theorem foldl_addBlock (s : GroupSource) (l : List (Nat × BlockId)) :
    (l.foldl (fun s e => s.addBlock e.1 e.2) s).srcBlockIds =
        s.srcBlockIds ++ (l.map Prod.snd).filter (fun b => decide (b ≠ 0)) ∧
      (l.foldl (fun s e => s.addBlock e.1 e.2) s).startGpuBlockIdx =
        (s.startGpuBlockIdx <|> (l.find? fun e => decide (e.2 ≠ 0)).map Prod.fst) := by
  induction l generalizing s with
  | nil => simp
  | cons e l ih =>
    obtain ⟨hsrc, hstart⟩ := ih (s.addBlock e.1 e.2)
    rw [foldl_cons, hsrc, hstart, map_cons]
    by_cases he : e.2 = 0
    · simp [GroupSource.addBlock, he]
    · cases hs : s.startGpuBlockIdx <;> simp [GroupSource.addBlock, he, hs]

section Jobs
variable {η : Type} [DecidableEq η] {job : StoreJob η} {c : Nat}

def PrepareStoreOutput.chunkFor (out : PrepareStoreOutput η) (k : OffloadKey η) : Option Nat :=
  (out.keysToStore.zip out.chunkIds).lookup k

/-- What `prepare_store` promises: some of the keys, in their order, each with a chunk of its own. -/
structure PrepareStoreOutput.Answers (out : PrepareStoreOutput η) (keys : List (OffloadKey η)) : Prop where
  sublist : out.keysToStore.Sublist keys
  length : out.chunkIds.length = out.keysToStore.length
  nodup : out.chunkIds.Nodup

def PrepareStoreOutput.chunkAt (out : PrepareStoreOutput η) (gs : RequestGroupState η) (c : Nat) : Nat :=
  ((gs.offloadKeys[c]?).bind out.chunkFor).getD 0

/-- Every block of the stored chunks that is there, onto the sub-slot of its logical index. -/
def placedMoves (B : Nat) (out : PrepareStoreOutput η) (gs : RequestGroupState η) (stored : List Nat) : List Move :=
  (stored.flatMap (chunkBlocks B gs.blockIds)).filterMap fun e =>
    if e.2 = 0 then none else some ⟨⟨e.2, 0⟩, ⟨out.chunkAt gs (e.1 / B), e.1 % B⟩⟩

def StoreJob.moves (B : Nat) (job : StoreJob η) : Option (List (List Move)) :=
  transferMoves 1 B (job.srcSpec.groupSizes.zip job.srcSpec.blockIndices) job.srcSpec.blockIds job.chunkIds

def LoadJob.moves (B : Nat) (chunkOf : OffloadKey η → Nat) (job : LoadJob η) : Option (List (List Move)) :=
  transferMoves B 1 (job.dstSpec.groupSizes.zip job.dstSpec.blockIndices) (job.keysToLoad.map chunkOf)
    job.dstSpec.blockIds

/-! ### The source list -/

def storedBlocks (B : Nat) (keysToStore : List (OffloadKey η)) (gs : RequestGroupState η) (range : Nat × Nat) :
    List (Nat × BlockId) :=
  (storedChunks keysToStore gs range).flatMap (chunkBlocks B gs.blockIds)

theorem groupSource_eq (B : Nat) (keysToStore : List (OffloadKey η)) (gs : RequestGroupState η) (range : Nat × Nat) :
    groupSource B keysToStore gs range =
      (storedBlocks B keysToStore gs range).foldl (fun s e => s.addBlock e.1 e.2) {} := by
  rw [groupSource, storedBlocks, foldl_flatMap]

variable {B : Nat} {out : PrepareStoreOutput η} {gs : RequestGroupState η} {range : Nat × Nat}

def groupStore (B : Nat) (out : PrepareStoreOutput η) (gs : RequestGroupState η) (range : Nat × Nat) :
    GroupTransfer where
  src := (groupSource B out.keysToStore gs range).srcBlockIds
  dst := (storedChunks out.keysToStore gs range).map (out.chunkAt gs)
  size := (groupSource B out.keysToStore gs range).srcBlockIds.length
  blockIdx := (groupSource B out.keysToStore gs range).startGpuBlockIdx.getD 0

theorem length_chunkBlocks (ids : List BlockId) (c : Nat) : (chunkBlocks B ids c).length = B := by
  simp [chunkBlocks]

theorem storedBlocks_getElem? (hB : 0 < B) (ids : List BlockId) (p : Nat) (cs : List Nat) :
    (cs.flatMap (chunkBlocks B ids))[p]? =
      (cs[p / B]?).map fun c => (c * B + p % B, ids.getD (c * B + p % B) 0) := by
  induction cs generalizing p with
  | nil => simp
  | cons c cs ih =>
    rw [flatMap_cons]
    by_cases hp : p < B
    · rw [getElem?_append_left (by rwa [length_chunkBlocks]), Nat.div_eq_of_lt hp, Nat.mod_eq_of_lt hp]
      simp [chunkBlocks, hp]
    · have hdiv : p / B = (p - B) / B + 1 := by
        rw [← Nat.add_div_right _ hB, Nat.sub_add_cancel (by omega)]
      rw [getElem?_append_right (by rw [length_chunkBlocks]; omega), length_chunkBlocks, ih, hdiv,
        getElem?_cons_succ, ← Nat.mod_eq_sub_mod (by omega)]

theorem length_storedBlocks (ids : List BlockId) (cs : List Nat) :
    (cs.flatMap (chunkBlocks B ids)).length = cs.length * B := by
  induction cs with
  | nil => simp
  | cons c cs ih => rw [flatMap_cons, length_append, ih, length_chunkBlocks, length_cons,
      Nat.succ_mul, Nat.add_comm]

theorem groupStore_whole (hB : 0 < B)
    (hwhole : ∀ c ∈ storedChunks out.keysToStore gs range, ∀ i < B, gs.blockIds.getD (c * B + i) 0 ≠ 0) :
    (groupStore B out gs range).src = (storedBlocks B out.keysToStore gs range).map Prod.snd ∧
      (groupStore B out gs range).blockIdx % B = 0 := by
  have hne : ∀ e ∈ storedBlocks B out.keysToStore gs range, e.2 ≠ 0 := by
    intro e he
    obtain ⟨c, hc, he⟩ := mem_flatMap.1 he
    obtain ⟨i, hi, rfl⟩ := mem_map.1 he
    exact hwhole c hc i (mem_range.1 hi)
  obtain ⟨hsrc, hstart⟩ := foldl_addBlock {} (storedBlocks B out.keysToStore gs range)
  rw [← groupSource_eq] at hsrc hstart
  refine ⟨?_, ?_⟩
  · refine hsrc.trans ((nil_append _).trans (filter_eq_self.2 fun b hb => ?_))
    obtain ⟨e, he, rfl⟩ := mem_map.1 hb
    exact decide_eq_true (hne e he)
  · simp only [groupStore, hstart]
    cases hfind : (storedBlocks B out.keysToStore gs range).find? fun e => decide (e.2 ≠ 0) with
    | none => exact Nat.zero_mod B
    | some e =>
      -- the first block is that of sub-slot `0`
      have hhead : (storedBlocks B out.keysToStore gs range).head? = some e := by
        cases hl : storedBlocks B out.keysToStore gs range with
        | nil => simp [hl] at hfind
        | cons e' l =>
          have hpos := hne e' (hl ▸ mem_cons_self ..)
          simpa [hl, hpos] using hfind
      rw [storedBlocks, head?_eq_getElem?, storedBlocks_getElem? hB, Nat.zero_div, Nat.zero_mod,
        map_eq_some_iff] at hhead
      obtain ⟨c, -, rfl⟩ := hhead
      exact Nat.mul_mod_left c B

theorem div_mul_add (hi : i < B) : (c * B + i) / B = c := by
  rw [Nat.mul_comm, Nat.mul_add_div (by omega), Nat.div_eq_of_lt hi, Nat.add_zero]

theorem chunkSlots_eq_map (ids : List BlockId) (chunkAt : Nat → Nat) (cs : List Nat) : chunkSlots B (cs.map chunkAt) =
      (cs.flatMap (chunkBlocks B ids)).map fun e => ⟨chunkAt (e.1 / B), e.1 % B⟩ := by
  rw [chunkSlots, flatMap_map, map_flatMap]
  refine flatMap_congr fun c _ => ?_
  rw [chunkBlocks, List.map_map]
  refine map_congr_left fun i hi => ?_
  rw [Function.comp_apply, div_mul_add (mem_range.1 hi), Nat.mul_add_mod_of_lt (mem_range.1 hi)]

theorem groupStore_moves (hB : 0 < B)
    (hwhole : ∀ c ∈ storedChunks out.keysToStore gs range, ∀ i < B, gs.blockIds.getD (c * B + i) 0 ≠ 0) :
    (groupStore B out gs range).Covers 1 B ∧
      (groupStore B out gs range).moves 1 B = placedMoves B out gs (storedChunks out.keysToStore gs range) := by
  obtain ⟨hsrc, hidx⟩ := groupStore_whole hB hwhole
  have hdst : (groupStore B out gs range).dst = (storedChunks out.keysToStore gs range).map (out.chunkAt gs) := rfl
  have hsize : (groupStore B out gs range).size = (groupStore B out gs range).src.length := rfl
  have hlen : (groupStore B out gs range).size = (storedChunks out.keysToStore gs range).length * B := by
    rw [hsize, hsrc, length_map]
    exact length_storedBlocks _ _
  refine ⟨⟨?_, ?_⟩, ?_⟩
  · rw [cdiv_one, hsize]
    split <;> omega
  · rw [hidx, Nat.add_zero, hlen, cdiv_mul_self hB, hdst, length_map]
    split
    · next h0 => exact (Nat.mul_eq_zero.1 h0).resolve_right (by omega)
    · rfl
  · have hslots : subBlocks (groupStore B out gs range).dst B 0 (groupStore B out gs range).size =
        (storedBlocks B out.keysToStore gs range).map fun e => ⟨out.chunkAt gs (e.1 / B), e.1 % B⟩ := by
      rw [subBlocks, drop_zero, ← chunkSlots, hdst, chunkSlots_eq_map gs.blockIds, hlen]
      exact take_of_length_le (by rw [length_map, length_storedBlocks])
    rw [GroupTransfer.moves, groupMoves, subBlocks_one _ _ _ hsize.symm, hidx, hslots, hsrc, List.map_map, zip_map',
      List.map_map, placedMoves, ← filterMap_eq_map]
    refine filterMap_congr fun e he => ?_
    obtain ⟨c, hc, he⟩ := mem_flatMap.1 he
    obtain ⟨i, hi, rfl⟩ := mem_map.1 he
    rw [if_neg (hwhole c hc i (mem_range.1 hi))]
    rfl

/-! ### The keys and their chunks -/

def rangeKeys (gs : RequestGroupState η) (range : Nat × Nat) : List (OffloadKey η) :=
  (List.range' range.1 (range.2 - range.1)).filterMap fun c => gs.offloadKeys[c]?

theorem storedChunks_keys (keysToStore : List (OffloadKey η)) :
    (storedChunks keysToStore gs range).filterMap (fun c => gs.offloadKeys[c]?) =
      (rangeKeys gs range).filter fun k => decide (k ∈ keysToStore) := by
  rw [storedChunks, rangeKeys, filterMap_filter, filter_filterMap]
  refine filterMap_congr fun c _ => ?_
  cases gs.offloadKeys[c]? with
  | none => simp
  | some k =>
    by_cases hk : k ∈ keysToStore <;> simp [hk, Option.filter]

variable {cfg : SchedulerOffloadConfig} {st : RequestOffloadState η} {hz : Horizon}

/-- Chunks of different places have different keys: the hashes are chained, and a key names its group. -/
def RequestOffloadState.KeysDistinct (st : RequestOffloadState η) : Prop :=
  (st.groupStates.flatMap RequestGroupState.offloadKeys).Nodup

instance (st : RequestOffloadState η) : Decidable st.KeysDistinct := inferInstanceAs (Decidable (List.Nodup _))

omit [DecidableEq η] in
theorem RequestOffloadState.KeysDistinct.zip (h : st.KeysDistinct) (gcs : List GroupOffloadConfig) :
    ((gcs.zip st.groupStates).flatMap fun e => e.2.offloadKeys).Nodup :=
  (zip_flatMap_snd_sublist _ _ _).nodup h

omit [DecidableEq η] in
theorem rangeKeys_sublist (gs : RequestGroupState η) (range : Nat × Nat) :
    (rangeKeys gs range).Sublist gs.offloadKeys := by
  rw [rangeKeys, filterMap_range'_getElem?]
  exact (take_sublist _ _).trans (drop_sublist _ _)

omit [DecidableEq η] in
theorem groupOffloadKeys_sublist (g : GroupOffloadConfig) (gs : RequestGroupState η) :
    (groupOffloadKeys cfg st hz g gs).Sublist (rangeKeys gs (storeRange cfg st hz g gs)) := by
  unfold groupOffloadKeys
  by_cases hcow : g.requiresCowSource = true
  · simp [hcow]
  · have hfilter : (fun c => if lastBlock cfg gs c = 0 then none else if offersChunk cfg st hz g
        gs c then gs.offloadKeys[c]?
        else none) = fun c => if decide (lastBlock cfg gs c ≠ 0) && offersChunk cfg st hz g gs c then gs.offloadKeys[c]?
        else none := by
      funext c
      by_cases hlast : lastBlock cfg gs c = 0 <;> simp [hlast]
    dsimp only
    rw [if_neg hcow, hfilter, ← filterMap_filter]
    exact filter_sublist.filterMap _

variable (h : out.Answers (newOffloadKeys cfg st hz))
include h

theorem PrepareStoreOutput.Answers.keysToStore_eq (hkeys : st.KeysDistinct) :
    out.keysToStore = (cfg.kvGroupConfigs.zip st.groupStates).flatMap fun e =>
      (storedChunks out.keysToStore e.2 (storeRange cfg st hz e.1 e.2)).filterMap fun c => e.2.offloadKeys[c]? := by
  have hsub : out.keysToStore.Sublist ((cfg.kvGroupConfigs.zip st.groupStates).flatMap fun e =>
      rangeKeys e.2 (storeRange cfg st hz e.1 e.2)) :=
    h.sublist.trans (Sublist.flatMap_right _ fun e _ => groupOffloadKeys_sublist e.1 e.2)
  have hnd : ((cfg.kvGroupConfigs.zip st.groupStates).flatMap fun e =>
      rangeKeys e.2 (storeRange cfg st hz e.1 e.2)).Nodup :=
    (Sublist.flatMap_right _ fun e _ => rangeKeys_sublist e.2 _).nodup (hkeys.zip _)
  calc out.keysToStore
      = ((cfg.kvGroupConfigs.zip st.groupStates).flatMap fun e =>
          rangeKeys e.2 (storeRange cfg st hz e.1 e.2)).filter fun k => decide (k ∈ out.keysToStore) :=
        (filter_mem_eq_of_sublist hnd hsub).symm
    _ = _ := by
        rw [filter_flatMap]
        exact flatMap_congr fun e _ => (storedChunks_keys _).symm

omit [DecidableEq η] in
theorem PrepareStoreOutput.Answers.nodup_keys (hkeys : st.KeysDistinct) : out.keysToStore.Nodup :=
  (h.sublist.trans (Sublist.flatMap_right _ fun e _ =>
    (groupOffloadKeys_sublist e.1 e.2).trans (rangeKeys_sublist e.2 _))).nodup (hkeys.zip _)

theorem PrepareStoreOutput.Answers.map_chunkFor (hkeys : st.KeysDistinct) :
    out.keysToStore.map out.chunkFor = out.chunkIds.map some :=
  map_lookup_zip (h.nodup_keys hkeys) h.length

omit h in
theorem mem_storedChunks {keysToStore : List (OffloadKey η)} : c ∈ storedChunks keysToStore gs range ↔
      (range.1 ≤ c ∧ c < range.2) ∧ ∃ k, gs.offloadKeys[c]? = some k ∧ k ∈ keysToStore := by
  rw [storedChunks, mem_filter, mem_range'_1]
  refine and_congr ⟨fun h => by omega, fun h => by omega⟩ ?_
  cases gs.offloadKeys[c]? <;> simp

theorem PrepareStoreOutput.Answers.chunkIds_eq (hkeys : st.KeysDistinct) :
    ((cfg.kvGroupConfigs.zip st.groupStates).map fun e =>
      groupStore cfg.blocksPerChunk out e.2 (storeRange cfg st hz e.1 e.2)).flatMap GroupTransfer.dst =
      out.chunkIds := by
  have hmap : out.keysToStore.map (fun k => (out.chunkFor k).getD 0) = out.chunkIds := by
    have := congrArg (List.map fun o : Option Nat => o.getD 0) (h.map_chunkFor hkeys)
    simpa [List.map_map, Function.comp_def] using this
  have hdealt := congrArg (List.map fun k => (out.chunkFor k).getD 0) (h.keysToStore_eq hkeys)
  rw [← hmap, hdealt, flatMap_map, map_flatMap]
  refine flatMap_congr fun e _ => ?_
  change List.map (out.chunkAt e.2) _ = _
  rw [map_filterMap, ← filterMap_eq_map]
  refine filterMap_congr fun c hc => ?_
  obtain ⟨-, k, hk, -⟩ := mem_storedChunks.1 hc
  simp [PrepareStoreOutput.chunkAt, hk]

/-- Where the blocks of the stored chunks belong, group by group. -/
def jobMoves (cfg : SchedulerOffloadConfig) (st : RequestOffloadState η) (hz : Horizon)
    (out : PrepareStoreOutput η) : List (List Move) :=
  (cfg.kvGroupConfigs.zip st.groupStates).map fun e =>
    placedMoves cfg.blocksPerChunk out e.2 (storedChunks out.keysToStore e.2 (storeRange cfg st hz e.1 e.2))

/-- No block of a chunk that is stored is missing. -/
def StoresWholeChunks (cfg : SchedulerOffloadConfig) (st : RequestOffloadState η) (hz : Horizon)
    (keysToStore : List (OffloadKey η)) : Prop :=
  ∀ e ∈ cfg.kvGroupConfigs.zip st.groupStates, ∀ c ∈ storedChunks keysToStore e.2 (storeRange cfg st hz e.1 e.2),
    ∀ i < cfg.blocksPerChunk, e.2.blockIds.getD (c * cfg.blocksPerChunk + i) 0 ≠ 0

instance (cfg : SchedulerOffloadConfig) (st : RequestOffloadState η) (hz : Horizon)
    (keysToStore : List (OffloadKey η)) : Decidable (StoresWholeChunks cfg st hz keysToStore) :=
  inferInstanceAs (Decidable (∀ _ ∈ (_ : List _), ∀ _ ∈ (_ : List _), ∀ _ < cfg.blocksPerChunk, _))

theorem storeJob_moves (hkeys : st.KeysDistinct) (hwhole : StoresWholeChunks cfg st hz out.keysToStore) :
    (storeJob cfg st hz out).moves cfg.blocksPerChunk = some (jobMoves cfg st hz out) := by
  have hgroups := fun e he => groupStore_moves cfg.blocksPerChunk_pos (hwhole e he)
  have hall := GroupTransfer.transferMoves_eq 1 cfg.blocksPerChunk
    ((cfg.kvGroupConfigs.zip st.groupStates).map fun e =>
      groupStore cfg.blocksPerChunk out e.2 (storeRange cfg st hz e.1 e.2)) fun g hg => by
    obtain ⟨e, he, rfl⟩ := mem_map.1 hg
    exact (hgroups e he).1
  rw [h.chunkIds_eq hkeys, List.map_map, List.map_map, flatMap_map] at hall
  rw [StoreJob.moves, storeJob, jobMoves]
  simp only [GPULoadStoreSpec.ofGroups, storeGroups, List.map_map, flatMap_map, zip_map']
  refine hall.trans (congrArg some (map_congr_left fun e he => (hgroups e he).2))

/-! ### Loads -/

omit h in
theorem cdiv_cdiv {a b : Nat} (hb : 0 < b) (hc : 0 < c) : cdiv (cdiv a b) c = cdiv a (b * c) := by
  unfold cdiv
  have hadd : (a + b - 1) / b + c - 1 = (a + b - 1 + b * (c - 1)) / b := by
    rw [Nat.add_mul_div_left _ _ hb, Nat.add_sub_assoc hc]
  have hnum : a + b - 1 + b * (c - 1) = a + b * c - 1 := by
    obtain ⟨c, rfl⟩ := Nat.exists_eq_succ_of_ne_zero (Nat.pos_iff_ne_zero.1 hc)
    rw [Nat.succ_sub_one, Nat.mul_succ]
    omega
  rw [hadd, hnum, Nat.div_div_eq_div_mul]

omit h in
theorem cdiv_sub_mul {a b k : Nat} (hb : 0 < b) (h : k * b ≤ a) : cdiv (a - k * b) b = cdiv a b - k := by
  unfold cdiv
  have hsub : a - k * b + b - 1 = (a + b - 1) - b * k := by
    rw [Nat.mul_comm b k]
    omega
  rw [hsub, Nat.sub_mul_div]

omit h in
theorem getElem?_chunkSlots (hB : 0 < B) (ds : List Nat) (p : Nat) :
    (chunkSlots B ds)[p]? = (ds[p / B]?).map (SubBlock.mk · (p % B)) := by
  have h := chunkSlots_eq_map (B := B) [] id ds
  rw [List.map_id] at h
  rw [h, getElem?_map, storedBlocks_getElem? hB, Option.map_map]
  cases ds[p / B]? with
  | none => rfl
  | some d =>
    have hp := Nat.mod_lt p hB
    simp [div_mul_add hp, Nat.mul_add_mod_of_lt hp]

omit h in
theorem mod_add_div (hB : 0 < B) (start j : Nat) : (start % B + j) / B = (start + j) / B - start / B := by
  have hsplit := Nat.div_add_mod start B
  have heq : start + j = B * (start / B) + (start % B + j) := by omega
  rw [heq, Nat.mul_add_div hB, Nat.add_sub_cancel_left]

omit h in
theorem groupMoves_load (hB : 0 < B) {chunks dst : List Nat} {start j : Nat} (hj : j < dst.length)
    {d : Nat} (hd : chunks[(start + j) / B - start / B]? = some d) :
    (groupMoves B 1 chunks dst dst.length start)[j]? = some ⟨⟨d, (start + j) % B⟩, ⟨dst[j], 0⟩⟩ := by
  have hmod : (start % B + j) % B = (start + j) % B := by
    rw [Nat.add_mod, Nat.mod_mod, ← Nat.add_mod]
  have hsrc : (subBlocks chunks B (start % B) dst.length)[j]? = some ⟨d, (start + j) % B⟩ := by
    rw [subBlocks, ← chunkSlots, getElem?_take_of_lt hj, getElem?_drop, getElem?_chunkSlots hB,
      mod_add_div hB, hd, hmod, map_some]
  have hdst : (dst.map fun b => (⟨b, 0⟩ : SubBlock))[j]? = some ⟨dst[j], 0⟩ := by simp [hj]
  have hzip := (getElem?_zip_eq_some (z := (SubBlock.mk d ((start + j) % B), SubBlock.mk dst[j] 0))).2 ⟨hsrc, hdst⟩
  rw [groupMoves, subBlocks_one _ _ _ rfl, getElem?_map, hzip, map_some]

/-- The key of chunk `c` in a load: the last chunk may be a partial tail with a key of its own. -/
def loadKeyAt (cfg : SchedulerOffloadConfig) (st : RequestOffloadState η) (g : GroupOffloadConfig)
    (gs : RequestGroupState η) (numChunks c : Nat) : Option (OffloadKey η) :=
  match st.partialTailBoundary with
  | none => gs.offloadKeys[c]?
  | some boundary =>
    if c + 1 = numChunks then (st.req.blockHashes[boundary / cfg.tokensPerHash - 1]?).map (⟨·, g.groupIdx⟩)
    else gs.offloadKeys[c]?

variable {g : GroupOffloadConfig} {startChunk numChunks : Nat} {keys : List (OffloadKey η)}
  {st' : RequestOffloadState η} {k : OffloadKey η} {l : GroupLoad η}

omit [DecidableEq η] h in
theorem loadKeys_spec (h : loadKeys cfg st g gs startChunk numChunks = .ok keys) (hstart : startChunk < numChunks) :
    keys.length = numChunks - startChunk ∧
      ∀ c, startChunk ≤ c → c < numChunks → keys[c - startChunk]? = loadKeyAt cfg st g gs numChunks c := by
  unfold loadKeys at h
  unfold loadKeyAt
  cases htail : st.partialTailBoundary with
  | none =>
    simp only [htail] at h ⊢
    by_cases hlen : gs.offloadKeys.length < numChunks
    · rw [if_pos hlen] at h
      cases h
    · rw [if_neg hlen] at h
      cases h
      refine ⟨by simp; omega, fun c hc hlt => ?_⟩
      rw [getElem?_take_of_lt (by omega), getElem?_drop, Nat.add_sub_cancel' hc]
  | some boundary =>
    simp only [htail] at h ⊢
    by_cases hlen : gs.offloadKeys.length < numChunks - 1
    · rw [if_pos hlen] at h
      cases h
    · rw [if_neg hlen] at h
      cases hhash : st.req.blockHashes[boundary / cfg.tokensPerHash - 1]? with
      | none =>
        rw [hhash] at h
        cases h
      | some hash =>
        rw [hhash] at h
        cases h
        refine ⟨by simp; omega, fun c hc hlt => ?_⟩
        by_cases hlast : c + 1 = numChunks
        · rw [if_pos hlast, getElem?_append_right (by simp; omega)]
          have hzero : c - startChunk - ((gs.offloadKeys.drop startChunk).take
              (numChunks - 1 - startChunk)).length = 0 := by
            simp
            omega
          rw [hzero]
          rfl
        · rw [if_neg hlast, getElem?_append_left (by simp; omega), getElem?_take_of_lt (by omega),
            getElem?_drop, Nat.add_sub_cancel' hc]

omit h in
theorem loadStart_le (hashed : BlockId → Bool) (blocks : List BlockId) (firstFresh numGpuBlocks : Nat) :
    loadStart hashed blocks firstFresh numGpuBlocks ≤ numGpuBlocks := by
  unfold loadStart
  generalize hfind : (List.range' firstFresh (numGpuBlocks - firstFresh)).find? _ = found
  cases found with
  | none => exact Nat.le_refl _
  | some i =>
    have := mem_range'_1.1 (mem_of_find?_eq_some hfind)
    change i ≤ numGpuBlocks
    omega

structure GroupLoad.Spec (cfg : SchedulerOffloadConfig) (st : RequestOffloadState η) (g : GroupOffloadConfig)
    (gs : RequestGroupState η) (blocks : List BlockId) (numGpuBlocks : Nat) (l : GroupLoad η) : Prop where
  start_le : l.loadStartGpuBlockIdx ≤ numGpuBlocks
  le_blocks : numGpuBlocks ≤ blocks.length
  dst : l.dstBlockIds = (blocks.drop l.loadStartGpuBlockIdx).take (numGpuBlocks - l.loadStartGpuBlockIdx)
  keys_length : l.keys.length = if l.dstBlockIds = [] then 0 else
    cdiv (l.dstBlockIds.length + l.loadStartGpuBlockIdx % cfg.blocksPerChunk) cfg.blocksPerChunk
  keyAt : ∀ q, l.loadStartGpuBlockIdx ≤ q → q < numGpuBlocks →
    l.keys[q / cfg.blocksPerChunk - l.loadStartGpuBlockIdx / cfg.blocksPerChunk]? =
      loadKeyAt cfg st g gs l.numChunks (q / cfg.blocksPerChunk)

omit [DecidableEq η] h in
theorem loadGroup_spec {numCachedTokens : Nat} (hg : g ∈ cfg.kvGroupConfigs)
    (h : loadGroup cfg st hashed numCachedTokens g gs blocks = .ok l) :
    l.Spec cfg st g gs blocks (cdiv numCachedTokens g.tokensPerBlock) ∧
      l.loadStartGpuBlockIdx = loadStart hashed blocks (cdiv st.numLocallyComputedTokens g.tokensPerBlock)
        (cdiv numCachedTokens g.tokensPerBlock) ∧
      l.numChunks = cdiv numCachedTokens g.tokensPerChunk := by
  have hB := cfg.blocksPerChunk_pos
  have hchunks : cdiv numCachedTokens g.tokensPerChunk =
      cdiv (cdiv numCachedTokens g.tokensPerBlock) cfg.blocksPerChunk := by
    rw [cdiv_cdiv (cfg.tokensPerBlock_pos g hg) hB, cfg.tokensPerChunk_eq g hg]
  unfold loadGroup at h
  simp only [do_eq_ok] at h
  obtain ⟨-, hlen, -, -, -, -, keys, hkeys, rfl⟩ := h
  refine ⟨?_, rfl, rfl⟩
  generalize hnum : cdiv numCachedTokens g.tokensPerBlock = numGpuBlocks at *
  have hstart := loadStart_le hashed blocks (cdiv st.numLocallyComputedTokens g.tokensPerBlock) numGpuBlocks
  generalize loadStart hashed blocks (cdiv st.numLocallyComputedTokens g.tokensPerBlock) numGpuBlocks = start at *
  by_cases hpending : numGpuBlocks - start = 0
  · rw [pendingLoadKeys, if_pos hpending] at hkeys
    cases hkeys
    refine ⟨hstart, hlen, rfl, ?_, fun q hq hlt => ?_⟩
    · simp [hpending]
    · simp only at hq
      omega
  · rw [pendingLoadKeys, if_neg hpending] at hkeys
    have hmul := Nat.div_add_mod start cfg.blocksPerChunk
    have hlt : start / cfg.blocksPerChunk < cdiv numGpuBlocks cfg.blocksPerChunk := by
      rw [Nat.div_lt_iff_lt_mul hB]
      exact Nat.lt_of_lt_of_le (by omega) (le_cdiv_mul hB)
    rw [hchunks] at hkeys
    obtain ⟨hklen, hkat⟩ := loadKeys_spec hkeys hlt
    have hdst : ((blocks.drop start).take (numGpuBlocks - start)).length = numGpuBlocks - start := by
      simp
      omega
    refine ⟨hstart, hlen, rfl, ?_, fun q hq hlt => ?_⟩
    · have hne : (blocks.drop start).take (numGpuBlocks - start) ≠ [] := by
        refine length_pos_iff.1 ?_
        rw [hdst]
        omega
      have hshift : numGpuBlocks - start + start % cfg.blocksPerChunk =
          numGpuBlocks - start / cfg.blocksPerChunk * cfg.blocksPerChunk := by
        rw [Nat.mul_comm]
        omega
      simp only [if_neg hne, hdst]
      rw [hklen, hshift, cdiv_sub_mul hB (by rw [Nat.mul_comm]; omega)]
    · simp only at hq
      rw [hkat (q / cfg.blocksPerChunk) (Nat.div_le_div_right hq)
        ((Nat.div_lt_iff_lt_mul hB).2 (Nat.lt_of_lt_of_le hlt (le_cdiv_mul hB))), hchunks]

/-! ### Stores and loads together -/

/-- The GPU-to-CPU transfer of the job, in every handler of this chunk size. -/
def StoreJob.Copies (job : StoreJob η) (B : Nat) (moves : List (List Move)) : Prop :=
  job.moves B = some moves ∧ ∀ h : Handler, h.gpuToCpu = true → h.blocksPerChunk = B →
    h.layerRefsPerGroup.length = job.srcSpec.groupSizes.length →
      h.transferAsync job.srcSpec job.chunkIds = .ok (h.opsOf h.layerRefsPerGroup moves)

/-- The CPU-to-GPU transfer of the job, in every handler of this chunk size. -/
def LoadJob.Copies (job : LoadJob η) (B : Nat) (chunkOf : OffloadKey η → Nat) (moves : List (List Move)) : Prop :=
  job.moves B chunkOf = some moves ∧ ∀ h : Handler, h.gpuToCpu = false → h.blocksPerChunk = B →
    h.layerRefsPerGroup.length = job.dstSpec.groupSizes.length →
      h.transferAsync job.dstSpec (job.keysToLoad.map chunkOf) = .ok (h.opsOf h.layerRefsPerGroup moves)

omit [DecidableEq η] h in
theorem StoreJob.copies_iff {moves : List (List Move)} : job.Copies B moves ↔ job.moves B = some moves := by
  refine ⟨And.left, fun hmoves => ⟨hmoves, fun h hdir hblocks hrefs => ?_⟩⟩
  subst hblocks
  refine (Handler.transferAsync_eq_ok hrefs.symm).2 ⟨moves, ?_, rfl⟩
  simpa [StoreJob.moves, Handler.srcBlocksPerChunk, Handler.dstBlocksPerChunk, hdir] using hmoves

omit [DecidableEq η] h in
theorem LoadJob.copies_iff {job : LoadJob η} {chunkOf : OffloadKey η → Nat} {moves : List (List Move)} :
    job.Copies B chunkOf moves ↔ job.moves B chunkOf = some moves := by
  refine ⟨And.left, fun hmoves => ⟨hmoves, fun h hdir hblocks hrefs => ?_⟩⟩
  subst hblocks
  refine (Handler.transferAsync_eq_ok hrefs.symm).2 ⟨moves, ?_, rfl⟩
  simpa [LoadJob.moves, Handler.srcBlocksPerChunk, Handler.dstBlocksPerChunk, hdir] using hmoves

structure LoadsGroup (cfg : SchedulerOffloadConfig) (st : RequestOffloadState η) (blocks : List (List BlockId))
    (i : Nat) (g : GroupOffloadConfig) (gs : RequestGroupState η) (bs : List BlockId) : Prop where
  config : cfg.kvGroupConfigs[i]? = some g
  state : st.groupStates[i]? = some gs
  blocks : blocks[i]? = some bs

def GroupLoad.transfer (chunkOf : OffloadKey η → Nat) (l : GroupLoad η) : GroupTransfer :=
  ⟨l.keys.map chunkOf, l.dstBlockIds, l.dstBlockIds.length, l.loadStartGpuBlockIdx⟩

omit [DecidableEq η] h in
theorem GroupLoad.Spec.move {numGpuBlocks : Nat} (h : l.Spec cfg st g gs blocks numGpuBlocks)
    (chunkOf : OffloadKey η → Nat) {q : Nat} (hq : l.loadStartGpuBlockIdx ≤ q) (hlt : q < numGpuBlocks) :
    ∃ k b, loadKeyAt cfg st g gs l.numChunks (q / cfg.blocksPerChunk) = some k ∧ blocks[q]? = some b ∧
      ((l.transfer chunkOf).moves cfg.blocksPerChunk 1)[q - l.loadStartGpuBlockIdx]? =
        some ⟨⟨chunkOf k, q % cfg.blocksPerChunk⟩, ⟨b, 0⟩⟩ := by
  have hB := cfg.blocksPerChunk_pos
  have hle := h.le_blocks
  have hj : q - l.loadStartGpuBlockIdx < l.dstBlockIds.length := by
    rw [h.dst]
    simp
    omega
  have hadd : l.loadStartGpuBlockIdx + (q - l.loadStartGpuBlockIdx) = q := by omega
  have hdst : l.dstBlockIds ≠ [] := length_pos_iff.1 (by omega)
  have hklt : q / cfg.blocksPerChunk - l.loadStartGpuBlockIdx / cfg.blocksPerChunk < l.keys.length := by
    have hdiv := mod_add_div hB l.loadStartGpuBlockIdx (q - l.loadStartGpuBlockIdx)
    rw [hadd] at hdiv
    rw [h.keys_length, if_neg hdst, ← hdiv, Nat.div_lt_iff_lt_mul hB]
    exact Nat.lt_of_lt_of_le (by omega) (le_cdiv_mul hB)
  obtain ⟨k, hk⟩ : ∃ k, l.keys[q / cfg.blocksPerChunk - l.loadStartGpuBlockIdx / cfg.blocksPerChunk]? = some k :=
    ⟨_, getElem?_eq_getElem hklt⟩
  have hchunk : (l.keys.map chunkOf)[(l.loadStartGpuBlockIdx + (q - l.loadStartGpuBlockIdx)) / cfg.blocksPerChunk -
      l.loadStartGpuBlockIdx / cfg.blocksPerChunk]? = some (chunkOf k) := by
    rw [hadd, getElem?_map, hk, map_some]
  have hmove := groupMoves_load hB hj hchunk
  have hblock : blocks[q]? = some l.dstBlockIds[q - l.loadStartGpuBlockIdx] := by
    rw [← getElem?_eq_getElem hj, h.dst, getElem?_take_of_lt (by omega), getElem?_drop, hadd]
  rw [hadd] at hmove
  exact ⟨k, _, h.keyAt q hq hlt ▸ hk, hblock, hmove⟩

omit [DecidableEq η] h in
/-- A load reads, for every logical index, the sub-slot of that index in the chunk of its key. -/
theorem load_moves {blocks : List (List BlockId)} {numExternalTokens : Nat} {job : LoadJob η}
    (chunkOf : OffloadKey η → Nat) (h : updateStateAfterAlloc cfg st hashed blocks numExternalTokens = .ok (st', job)) :
    ∃ moves, job.moves cfg.blocksPerChunk chunkOf = some moves ∧
      ∀ i g gs bs, LoadsGroup cfg st blocks i g gs bs →
        ∃ start ms, moves[i]? = some ms ∧ job.dstSpec.blockIndices[i]? = some start ∧
          start = loadStart hashed bs (cdiv st.numLocallyComputedTokens g.tokensPerBlock)
            (cdiv (st.numLocallyComputedTokens + numExternalTokens) g.tokensPerBlock) ∧
          ∀ q, start ≤ q → q < cdiv (st.numLocallyComputedTokens + numExternalTokens) g.tokensPerBlock →
            ∃ k b, loadKeyAt cfg st g gs (cdiv (st.numLocallyComputedTokens + numExternalTokens) g.tokensPerChunk)
                (q / cfg.blocksPerChunk) = some k ∧ bs[q]? = some b ∧
              ms[q - start]? = some ⟨⟨chunkOf k, q % cfg.blocksPerChunk⟩, ⟨b, 0⟩⟩ := by
  have hB := cfg.blocksPerChunk_pos
  unfold updateStateAfterAlloc at h
  simp only [do_eq_ok] at h
  obtain ⟨-, -, loads, hloads, -, -, heq⟩ := h
  obtain ⟨-, rfl⟩ := Prod.mk.inj heq
  have hspec := mapM_eq_ok.1 hloads
  refine ⟨(loads.map (GroupLoad.transfer chunkOf)).map (GroupTransfer.moves cfg.blocksPerChunk 1),
    ?_, fun i g gs bs hi => ?_⟩
  · have hmoves := GroupTransfer.transferMoves_eq cfg.blocksPerChunk 1
      (loads.map (GroupLoad.transfer chunkOf)) fun g hg => by
      obtain ⟨l, hl, rfl⟩ := mem_map.1 hg
      obtain ⟨e, hmem, hload⟩ := hspec.exists_left hl
      have hlen := (loadGroup_spec (of_mem_zip hmem).1 hload).1.keys_length
      refine ⟨by simpa [GroupLoad.transfer] using hlen, ?_⟩
      rw [cdiv_one]
      show l.dstBlockIds.length = if l.dstBlockIds.length = 0 then 0 else l.dstBlockIds.length
      split <;> omega
    rw [LoadJob.moves]
    simp only [GPULoadStoreSpec.ofGroups, List.map_map, flatMap_map, zip_map', map_flatMap]
    simp only [List.map_map, flatMap_map] at hmoves
    exact hmoves
  · have hzip : (cfg.kvGroupConfigs.zip (st.groupStates.zip blocks))[i]? = some (g, gs, bs) :=
      getElem?_zip_eq_some.2 ⟨hi.config, getElem?_zip_eq_some.2 ⟨hi.state, hi.blocks⟩⟩
    obtain ⟨l, hl, hload⟩ := forall₂_getElem? hspec hzip
    obtain ⟨hl_spec, hstart, hchunks⟩ := loadGroup_spec (mem_of_getElem? hi.config) hload
    refine ⟨l.loadStartGpuBlockIdx, _, by rw [getElem?_map, getElem?_map, hl, map_some, map_some],
      by simp [GPULoadStoreSpec.ofGroups, hl], hstart, fun q hq hlt => ?_⟩
    rw [← hchunks]
    exact hl_spec.move chunkOf hq hlt

/-- The store job and every load of its keys use the same sub-slots. -/
structure SubSlotsAgree (cfg : SchedulerOffloadConfig) (st : RequestOffloadState η) (hz : Horizon)
    (out : PrepareStoreOutput η) (job : StoreJob η) : Prop where
  /-- block `q` of a group goes to sub-slot `q % blocksPerChunk` of the chunk for the key of `q / blocksPerChunk` -/
  store : job.Copies cfg.blocksPerChunk (jobMoves cfg st hz out)
  /-- for every `q` of a stored key a load reads that sub-slot, and the store has written it -/
  load : ∀ (st' st'' : RequestOffloadState η) (hashed : BlockId → Bool) (blocks : List (List BlockId))
    (numExternalTokens : Nat) (loadJob : LoadJob η) (chunkOf : OffloadKey η → Nat),
    updateStateAfterAlloc cfg st' hashed blocks numExternalTokens = .ok (st'', loadJob) →
    (∀ k d, out.chunkFor k = some d → chunkOf k = d) →
    ∃ moves, loadJob.Copies cfg.blocksPerChunk chunkOf moves ∧
      ∀ i g gs gs' bs, st.groupStates[i]? = some gs → LoadsGroup cfg st' blocks i g gs' bs →
        ∃ start ms stored, moves[i]? = some ms ∧ loadJob.dstSpec.blockIndices[i]? = some start ∧
          (jobMoves cfg st hz out)[i]? = some stored ∧
          start = loadStart hashed bs (cdiv st'.numLocallyComputedTokens g.tokensPerBlock)
            (cdiv (st'.numLocallyComputedTokens + numExternalTokens) g.tokensPerBlock) ∧
          ∀ q k, start ≤ q → q < cdiv (st'.numLocallyComputedTokens + numExternalTokens) g.tokensPerBlock →
            loadKeyAt cfg st' g gs' (cdiv (st'.numLocallyComputedTokens + numExternalTokens) g.tokensPerChunk)
              (q / cfg.blocksPerChunk) = some k →
            gs.offloadKeys[q / cfg.blocksPerChunk]? = some k → k ∈ out.keysToStore →
            ∃ d src dst, out.chunkFor k = some d ∧ bs[q]? = some dst ∧ gs.blockIds[q]? = some src ∧
              ms[q - start]? = some ⟨⟨d, q % cfg.blocksPerChunk⟩, ⟨dst, 0⟩⟩ ∧
              ⟨⟨src, 0⟩, ⟨d, q % cfg.blocksPerChunk⟩⟩ ∈ stored

theorem PrepareStoreOutput.Answers.mem_storedChunks (hkeys : st.KeysDistinct)
    {e : GroupOffloadConfig × RequestGroupState η} (he : e ∈ cfg.kvGroupConfigs.zip st.groupStates)
    (hk : e.2.offloadKeys[c]? = some k) (hstore : k ∈ out.keysToStore) :
    c ∈ storedChunks out.keysToStore e.2 (storeRange cfg st hz e.1 e.2) := by
  have hdealt := hstore
  rw [h.keysToStore_eq hkeys] at hdealt
  obtain ⟨e', he', hk'⟩ := mem_flatMap.1 hdealt
  obtain ⟨c', hc', hget'⟩ := mem_filterMap.1 hk'
  obtain rfl : e = e' := eq_of_mem_flatMap_nodup (hkeys.zip _) he he' (mem_of_getElem? hk)
    (mem_of_getElem? hget')
  have hnd : e.2.offloadKeys.Nodup := (nodup_flatMap.1 (hkeys.zip _)).1 e he
  obtain rfl : c = c' := List.getElem?_inj (List.getElem?_eq_some_iff.1 hk).1 hnd |>.1 (hk.trans hget'.symm)
  exact hc'

theorem PrepareStoreOutput.Answers.chunkFor_some (hkeys : st.KeysDistinct) (hk : k ∈ out.keysToStore) :
    ∃ d, out.chunkFor k = some d := by
  have hmem : out.chunkFor k ∈ out.keysToStore.map out.chunkFor := mem_map.2 ⟨k, hk, rfl⟩
  rw [h.map_chunkFor hkeys] at hmem
  obtain ⟨d, -, hd⟩ := mem_map.1 hmem
  exact ⟨d, hd.symm⟩

omit h in
theorem mem_placedMoves {stored : List Nat} {move : Move} :
    move ∈ placedMoves B out gs stored ↔ ∃ c ∈ stored, ∃ i < B, gs.blockIds.getD (c * B + i) 0 ≠ 0 ∧
      move = ⟨⟨gs.blockIds.getD (c * B + i) 0, 0⟩, ⟨out.chunkAt gs c, i⟩⟩ := by
  simp only [placedMoves, mem_filterMap, mem_flatMap, chunkBlocks, List.mem_map, mem_range]
  constructor
  · rintro ⟨_, ⟨c, hc, i, hi, rfl⟩, hmove⟩
    simp only [div_mul_add hi, Nat.mul_add_mod_of_lt hi, Option.ite_none_left_eq_some, some.injEq] at hmove
    exact ⟨c, hc, i, hi, hmove.1, hmove.2.symm⟩
  · rintro ⟨c, hc, i, hi, hne, rfl⟩
    refine ⟨_, ⟨c, hc, i, hi, rfl⟩, ?_⟩
    simp only [div_mul_add hi, Nat.mul_add_mod_of_lt hi, if_neg hne]

theorem subSlotsAgree_of_whole (hkeys : st.KeysDistinct) (hwhole : StoresWholeChunks cfg st hz out.keysToStore) :
    SubSlotsAgree cfg st hz out (storeJob cfg st hz out) where
  store := StoreJob.copies_iff.2 (storeJob_moves h hkeys hwhole)
  load st' st'' hashed blocks n loadJob chunkOf hload hchunk := by
    have hB := cfg.blocksPerChunk_pos
    obtain ⟨moves, hmoves, hgroups⟩ := load_moves chunkOf hload
    refine ⟨moves, LoadJob.copies_iff.2 hmoves, fun i g gs gs' bs hgs hi => ?_⟩
    obtain ⟨start, ms, hms, hidx, hstart, hreads⟩ := hgroups i g gs' bs hi
    have hzip : (cfg.kvGroupConfigs.zip st.groupStates)[i]? = some (g, gs) :=
      getElem?_zip_eq_some.2 ⟨hi.config, hgs⟩
    refine ⟨start, ms, _, hms, hidx, by rw [jobMoves, getElem?_map, hzip, map_some], hstart, ?_⟩
    intro q k hq hlt hkey hk hstore
    obtain ⟨k', dst, hkey', hdst, hread⟩ := hreads q hq hlt
    obtain rfl : k = k' := some.inj (hkey.symm.trans hkey')
    obtain ⟨d, hd⟩ := h.chunkFor_some hkeys hstore
    have hmem := mem_of_getElem? hzip
    have hc := h.mem_storedChunks hkeys hmem hk hstore
    have hsplit := Nat.div_add_mod' q cfg.blocksPerChunk
    have hne := hwhole _ hmem _ hc (q % cfg.blocksPerChunk) (Nat.mod_lt _ hB)
    refine ⟨d, gs.blockIds.getD q 0, dst, hd, hdst, getElem?_of_getD_ne ?_, hchunk k d hd ▸ hread, ?_⟩
    · rwa [hsplit] at hne
    · refine mem_placedMoves.2 ⟨_, hc, q % cfg.blocksPerChunk, Nat.mod_lt _ hB, hne, ?_⟩
      rw [hsplit]
      simp [PrepareStoreOutput.chunkAt, hk, hd]

/-! ### A load for every sub-slot -/

section Probe
variable {first n : Nat} {f : Nat → BlockId}

omit h in
theorem loadStart_eq_first (hlt : first < num) (hnull : ∀ p < first, f p = 0) (hfirst : f first ≠ 0) :
    loadStart (fun _ => false) ((List.range num).map f) 0 num = first := by
  have hfind : (List.range' 0 (num - 0)).find? (fun i =>
      (((List.range num).map f)[i]?).any fun b => !isNull b && !false) = some first := by
    rw [find?_range'_eq_some]
    refine ⟨?_, mem_range'_1.2 (by omega), fun j _ hj => ?_⟩
    · simpa [hlt, isNull, nullBlock] using hfirst
    · simp [show j < num by omega, hnull j hj, isNull, nullBlock]
  rw [loadStart, hfind, getD_some]

omit h in
theorem loadStart_eq_num (hnull : ∀ p < num, f p = 0) :
    loadStart (fun _ => false) ((List.range num).map f) 0 num = num := by
  have hfind : (List.range' 0 (num - 0)).find? (fun i =>
      (((List.range num).map f)[i]?).any fun b => !isNull b && !false) = none := by
    rw [find?_eq_none]
    intro i hi
    have hlt : i < num := by
      have := mem_range'_1.1 hi
      omega
    simp [hlt, hnull i hlt, isNull, nullBlock]
  rw [loadStart, hfind, getD_none]

omit [DecidableEq η] h in
theorem loadGroup_ok (hlocal : st.numLocallyComputedTokens = 0) (htail : st.partialTailBoundary = none)
    (hpos : 0 < g.tokensPerBlock) {start : Nat}
    (hstart : loadStart (fun _ => false) ((List.range (cdiv n g.tokensPerBlock)).map f) 0 (cdiv n g.tokensPerBlock) =
      start) (hwindow : ∀ w ∈ g.slidingWindowSizeInChunks, cdiv n g.tokensPerBlock - start ≤ w * cfg.blocksPerChunk + 1)
    (hkeys : cdiv n g.tokensPerBlock - start = 0 ∨ cdiv n g.tokensPerChunk ≤ gs.offloadKeys.length) :
    ∃ l, loadGroup cfg st (fun _ => false) n g gs ((List.range (cdiv n g.tokensPerBlock)).map f) = .ok l := by
  have hzero : cdiv st.numLocallyComputedTokens g.tokensPerBlock = 0 := by
    rw [hlocal]
    exact Nat.div_eq_of_lt (by omega)
  have hpending : ∃ keys, pendingLoadKeys cfg st g gs (cdiv n g.tokensPerBlock - start) (start / cfg.blocksPerChunk)
      (cdiv n g.tokensPerChunk) = .ok keys := by
    unfold pendingLoadKeys
    rcases hkeys with hnone | hkeys
    · exact ⟨[], if_pos hnone⟩
    · by_cases hnone : cdiv n g.tokensPerBlock - start = 0
      · exact ⟨[], if_pos hnone⟩
      · rw [if_neg hnone, loadKeys, htail]
        exact ⟨_, if_neg (by omega)⟩
  obtain ⟨keys, hpending⟩ := hpending
  unfold loadGroup
  simp only [hzero, hstart, hpending, ok_bind, ensure_pos hwindow]
  rw [ensure_pos (by simp), ok_bind, ensure_pos (by simp [hlocal]), ok_bind]
  exact ⟨_, rfl⟩

/-- The blocks of a request whose blocks from `first` on, in group `i`, are to be loaded. -/
def probeBlocks (cfg : SchedulerOffloadConfig) (i first n : Nat) : List (List BlockId) :=
  cfg.kvGroupConfigs.zipIdx.map fun e =>
    (List.range (cdiv n e.1.tokensPerBlock)).map fun p => if e.2 = i ∧ first ≤ p then 1 else 0

omit [DecidableEq η] h in
theorem exists_load {j : Nat} (hconfig : cfg.kvGroupConfigs[i]? = some g) (hstate : st.groupStates[i]? = some gs)
    (hc : c < gs.offloadKeys.length) (hj : j < cfg.blocksPerChunk) : ∃ st' st'' : RequestOffloadState η, ∃ loadJob bs n,
      updateStateAfterAlloc cfg st' (fun _ => false) (probeBlocks cfg i (c * cfg.blocksPerChunk + j) n) n =
        .ok (st'', loadJob) ∧
      st'.numLocallyComputedTokens = 0 ∧ st'.partialTailBoundary = none ∧
      LoadsGroup cfg st' (probeBlocks cfg i (c * cfg.blocksPerChunk + j) n) i g gs bs ∧
      cdiv n g.tokensPerBlock = (c + 1) * cfg.blocksPerChunk ∧
      loadStart (fun _ => false) bs 0 (cdiv n g.tokensPerBlock) = c * cfg.blocksPerChunk + j := by
  have hB := cfg.blocksPerChunk_pos
  have hg := mem_of_getElem? hconfig
  have hpos := cfg.tokensPerBlock_pos g hg
  have hnum : cdiv ((c + 1) * g.tokensPerChunk) g.tokensPerBlock = (c + 1) * cfg.blocksPerChunk := by
    rw [cfg.tokensPerChunk_eq g hg, Nat.mul_comm g.tokensPerBlock, ← Nat.mul_assoc, cdiv_mul_self hpos]
  have hchunks : cdiv ((c + 1) * g.tokensPerChunk) g.tokensPerChunk = c + 1 :=
    cdiv_mul_self (by rw [cfg.tokensPerChunk_eq g hg]; exact Nat.mul_pos hpos hB)
  generalize (c + 1) * g.tokensPerChunk = n at hnum hchunks
  generalize hfirst : c * cfg.blocksPerChunk + j = first
  rw [Nat.succ_mul] at hnum
  have hstart : loadStart (fun _ => false) ((List.range (cdiv n g.tokensPerBlock)).map fun p =>
      if i = i ∧ first ≤ p then 1 else 0) 0 (cdiv n g.tokensPerBlock) = first :=
    loadStart_eq_first (by omega) (fun p hp => if_neg (by omega)) (by simp)
  let st' : RequestOffloadState η :=
    { st with numLocallyComputedTokens := 0, partialTailBoundary := none, transferJobs := [] }
  have hloads : ∃ loads, (cfg.kvGroupConfigs.zip (st'.groupStates.zip (probeBlocks cfg i first n))).mapM (fun e =>
      loadGroup cfg st' (fun _ => false) (st'.numLocallyComputedTokens + n) e.1 e.2.1 e.2.2) = .ok loads := by
    refine exists_mapM_eq_ok fun e he => ?_
    obtain ⟨m, hm⟩ := mem_iff_getElem?.1 he
    obtain ⟨hcfg, hrest⟩ := getElem?_zip_eq_some.1 hm
    obtain ⟨hst, hblocks⟩ := getElem?_zip_eq_some.1 hrest
    have hbs : e.2.2 = (List.range (cdiv n e.1.tokensPerBlock)).map fun p => if m = i ∧ first ≤ p then 1 else 0 := by
      simp only [probeBlocks, getElem?_map, getElem?_zipIdx, hcfg, map_some, some.injEq] at hblocks
      simpa using hblocks.symm
    have hepos := cfg.tokensPerBlock_pos e.1 (mem_of_getElem? hcfg)
    rw [hbs, show st'.numLocallyComputedTokens + n = _ from Nat.zero_add _]
    by_cases hmi : m = i
    · subst hmi
      obtain rfl : g = e.1 := some.inj (hconfig.symm.trans hcfg)
      obtain rfl : gs = e.2.1 := some.inj (hstate.symm.trans hst)
      refine loadGroup_ok rfl rfl hepos hstart (fun w hw => ?_) (Or.inr (by rw [hchunks]; omega))
      have hw := Nat.mul_le_mul_right cfg.blocksPerChunk (cfg.slidingWindow_pos _ hg w hw)
      omega
    · refine loadGroup_ok rfl rfl hepos (loadStart_eq_num fun p _ => if_neg (by omega)) (fun w _ => by omega)
        (Or.inl (by omega))
  obtain ⟨loads, hloads⟩ := hloads
  have hjob : ∃ res, updateStateAfterAlloc cfg st' (fun _ => false) (probeBlocks cfg i first n) n = .ok res := by
    have htail : ∀ b ∈ st'.partialTailBoundary, b = st'.numLocallyComputedTokens + n := by simp [st']
    have hidle : st'.transferJobs = [] := rfl
    unfold updateStateAfterAlloc
    simp only [ensure_pos htail, hloads, ensure_pos hidle, ok_bind]
    exact ⟨_, rfl⟩
  obtain ⟨⟨st'', loadJob⟩, hjob⟩ := hjob
  refine ⟨st', st'', loadJob, _, n, hjob, rfl, rfl, ⟨hconfig, hstate, ?_⟩, hnum.trans (Nat.succ_mul ..).symm, hstart⟩
  simp [probeBlocks, hconfig]

end Probe

theorem SubSlotsAgree.whole (hkeys : st.KeysDistinct) (hagree : SubSlotsAgree cfg st hz out job) :
    StoresWholeChunks cfg st hz out.keysToStore := by
  have hB := cfg.blocksPerChunk_pos
  intro e he c hc j hj
  obtain ⟨i, hi⟩ := mem_iff_getElem?.1 he
  obtain ⟨hconfig, hstate⟩ := getElem?_zip_eq_some.1 hi
  obtain ⟨-, k, hk, hstore⟩ := Offload.mem_storedChunks.1 hc
  obtain ⟨hclt, -⟩ := List.getElem?_eq_some_iff.1 hk
  -- some load reads sub-slot `j` of this very chunk
  obtain ⟨st', st'', loadJob, bs, n, hload, hlocal, htail, hgroup, hnum, hstart⟩ :=
    exists_load hconfig hstate hclt hj
  obtain ⟨moves, -, hreads⟩ := hagree.load st' st'' _ _ n loadJob (fun k => (out.chunkFor k).getD 0) hload
    (fun k d hd => by simp [hd])
  obtain ⟨start, ms, stored, -, -, hstored, hstart', hread⟩ := hreads i e.1 e.2 e.2 bs hstate hgroup
  have hzero : cdiv st'.numLocallyComputedTokens e.1.tokensPerBlock = 0 := by
    have := cfg.tokensPerBlock_pos e.1 (mem_of_getElem? hconfig)
    rw [hlocal]
    exact Nat.div_eq_of_lt (by omega)
  rw [hzero, hlocal, Nat.zero_add, hstart] at hstart'
  obtain ⟨d, src, dst, hd, -, -, -, hwritten⟩ := hread (c * cfg.blocksPerChunk + j) k (by omega)
    (by rw [hlocal, Nat.zero_add, hnum, Nat.succ_mul]; omega)
    (by rw [div_mul_add hj, loadKeyAt, htail]; exact hk) (by rw [div_mul_add hj]; exact hk) hstore
  rw [jobMoves, getElem?_map, hi, map_some, some.injEq] at hstored
  rw [← hstored, Nat.mul_add_mod_of_lt hj, mem_placedMoves] at hwritten
  obtain ⟨c', hc', j', hj', hne, hmove⟩ := hwritten
  injection hmove with _ hslot
  injection hslot with hchunk hsub
  -- the chunk belongs to one key, and the key to one place
  obtain ⟨-, k', hk', hstore'⟩ := Offload.mem_storedChunks.1 hc'
  obtain ⟨d', hd'⟩ := h.chunkFor_some hkeys hstore'
  have hdd : d = d' := by simpa [PrepareStoreOutput.chunkAt, hk', hd'] using hchunk
  have hkk : k = k' := by
    have hmap := h.map_chunkFor hkeys
    have hnd : (out.keysToStore.map out.chunkFor).Nodup := by
      rw [hmap]
      exact h.nodup.map fun _ _ heq => some.inj heq
    exact inj_on_of_nodup_map hnd hstore hstore' (by rw [hd, hd', hdd])
  have hnd : e.2.offloadKeys.Nodup := (nodup_flatMap.1 (hkeys.zip _)).1 e he
  obtain rfl : c = c' := (List.getElem?_inj hclt hnd).1 (hk.trans (hkk ▸ hk'.symm))
  rw [hsub]
  exact hne

omit h in
theorem buildStoreJob_eq {numScheduledTokens : Nat} {prepareStore : List (OffloadKey η) → Option (PrepareStoreOutput η)}
    (hprepare : prepareStore (newOffloadKeys cfg st (horizon cfg st numScheduledTokens)) = some out)
    (hjob : (buildStoreJob cfg st numScheduledTokens prepareStore).2 = some job) :
    job = storeJob cfg st (horizon cfg st numScheduledTokens) out := by
  unfold buildStoreJob at hjob
  simp only [hprepare] at hjob
  by_cases hnil : newOffloadKeys cfg st (horizon cfg st numScheduledTokens) = []
  · rw [if_pos hnil] at hjob
    cases hjob
  by_cases hnone : out.keysToStore = []
  · rw [if_neg hnil, if_pos hnone] at hjob
    cases hjob
  · rw [if_neg hnil, if_neg hnone] at hjob
    exact (some.inj hjob).symm

omit h in
/-- A store job and the loads of its keys use the same sub-slots just when no block of a stored chunk is
missing: the worker closes the gaps of the source list, and the sub-slot of a missing block stays
unwritten. -/
theorem storeJob_subSlotsAgree_iff {numScheduledTokens : Nat}
    {prepareStore : List (OffloadKey η) → Option (PrepareStoreOutput η)} {job : StoreJob η}
    (hprepare : prepareStore (newOffloadKeys cfg st (horizon cfg st numScheduledTokens)) = some out)
    (hanswer : out.Answers (newOffloadKeys cfg st (horizon cfg st numScheduledTokens)))
    (hkeys : st.KeysDistinct) (hjob : (buildStoreJob cfg st numScheduledTokens prepareStore).2 = some job) :
    SubSlotsAgree cfg st (horizon cfg st numScheduledTokens) out job ↔
      StoresWholeChunks cfg st (horizon cfg st numScheduledTokens) out.keysToStore := by
  obtain rfl := buildStoreJob_eq hprepare hjob
  exact ⟨fun hagree => hagree.whole hanswer hkeys, subSlotsAgree_of_whole hanswer hkeys⟩

end Jobs

/-! ### A block that went missing -/

def windowConfig : SchedulerOffloadConfig where
  kvGroupConfigs := [{
    groupIdx := 0
    tokensPerBlock := 1
    tokensPerChunk := 3
    hashesPerChunk := 3
    slidingWindowSizeInChunks := some 1
    kvCacheSpec := { blockSize := 1, kind := .slidingWindow 3 0 } }]
  blocksPerChunk := 3
  tokensPerHash := 1
  blocksPerChunk_pos := by decide
  tokensPerBlock_pos := by decide
  tokensPerChunk_eq := by decide
  slidingWindow_pos := by decide
  groupIdx_eq := rfl

def windowState (blockIds : List BlockId) : RequestOffloadState Nat where
  req := { requestId := 0, numPromptTokens := 3, allTokenIds := [1, 2, 3] }
  groupStates := [{ offloadKeys := [⟨10, 0⟩], blockIds }]

def oneChunk (keys : List (OffloadKey Nat)) : Option (PrepareStoreOutput Nat) := some ⟨keys, [4]⟩

/-- One layer of pages of eight bytes, three of them in a row of the CPU tensor. -/
def storeHandler : Handler where
  gpuTensors := [⟨0, 8, 8⟩]
  cpuTensors := [⟨1000, 24, 24⟩]
  blocksPerChunk := 3
  layerRefsPerGroup := [[⟨0, 8, none⟩]]
  gpuToCpu := true
  blocksPerChunk_pos := Nat.succ_pos 2
  tensors_length := rfl
  cpuRows := by decide
  refs_tensor := by decide
  refs_mapping h := by cases h

/-- The three blocks go to the three sub-slots of chunk `4`. -/
theorem storeJob_subSlotsAgree_present :
    ∃ job, (buildStoreJob windowConfig (windowState [5, 6, 7]) 3 oneChunk).2 = some job ∧
      SubSlotsAgree windowConfig (windowState [5, 6, 7]) (horizon windowConfig (windowState [5, 6, 7]) 3)
        ⟨[⟨10, 0⟩], [4]⟩ job ∧
      storeHandler.transferAsync job.srcSpec job.chunkIds = .ok [⟨40, 1096, 8⟩, ⟨48, 1104, 8⟩, ⟨56, 1112, 8⟩] :=
  ⟨_, rfl, (storeJob_subSlotsAgree_iff (show oneChunk _ = some _ from rfl) ⟨Sublist.refl _, rfl, by decide⟩
    (by decide) rfl).2 (by decide), by decide⟩

/-- The middle block has left the window and been given away: block `7`, of logical index `2`, is copied
to sub-slot `1`. -/
theorem storeJob_shifts_block : ∃ job, (buildStoreJob windowConfig (windowState [5, 0, 7]) 3 oneChunk).2 = some job ∧
      job.moves 3 = some [[⟨⟨5, 0⟩, ⟨4, 0⟩⟩, ⟨⟨7, 0⟩, ⟨4, 1⟩⟩]] ∧
      ¬ SubSlotsAgree windowConfig (windowState [5, 0, 7]) (horizon windowConfig (windowState [5, 0, 7]) 3)
        ⟨[⟨10, 0⟩], [4]⟩ job := by
  refine ⟨_, rfl, by decide, fun hagree => ?_⟩
  exact absurd hagree.store.1 (by decide)

end VllmCore.Offload
