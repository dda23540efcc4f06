import VllmCore.KvOffload.PoolRuns
import VllmCore.Offload.Jobs

/-! # Self-describing offload events

`OffloadingEventsTracker` of `offloading/events.py`. The offloading manager names a chunk by its key only;
the tracker keeps a snapshot of the chunk's payload, made while the request is at hand, and translates the
manager's events when they are drained. The conversion of hashes to 64 bits and the warnings are left out. -/

namespace VllmCore.Offload
open Except List Dict
variable {η : Type} [DecidableEq η]

inductive Medium where
  | cpu
  | storage
deriving DecidableEq, Repr

inductive Locality where
  | local
  | remote
deriving DecidableEq, Repr

/-- A raw event of the manager or of a secondary tier. -/
structure OffloadingEvent (η : Type) where
  keys : List (OffloadKey η)
  medium : Medium
  removed : Bool
  locality : Option Locality := none
  ownership : Option Nat := none
  removalExpected : Bool := false
deriving DecidableEq, Repr

abbrev Residency := Medium × Option Nat

def OffloadingEvent.residency (e : OffloadingEvent η) : Residency := (e.medium, e.ownership)

/-- The name and the window of the group's spec are sent; both are read off its kind. -/
structure BlockStored (η : Type) where
  blockHashes : List η
  parentBlockHash : Option η
  tokenIds : List TokenId
  blockSize : Nat
  lora : Option LoRARequest
  medium : Medium
  groupIdx : Nat
  kvCacheSpec : Option SpecKind
  locality : Option Locality
  ownership : Option Nat
deriving DecidableEq, Repr

structure BlockRemoved (η : Type) where
  blockHashes : List η
  medium : Medium
  groupIdx : Nat
  locality : Option Locality
  ownership : Option Nat
deriving DecidableEq, Repr

inductive TrackedEvent (η : Type) where
  | stored (b : BlockStored η)
  | removed (b : BlockRemoved η)
deriving DecidableEq, Repr

structure OffloadEventMetadata (η : Type) where
  blockHashes : List η
  parentBlockHash : Option η
  tokenIds : List TokenId
  blockSize : Nat
  lora : Option LoRARequest
  groupIdx : Nat
  kvCacheSpec : SpecKind
  activeResidencies : List Residency := [(.cpu, none)]
deriving DecidableEq, Repr

def buildEventMetadata (r : Request η) (g : GroupOffloadConfig) (chunkIdx : Nat) :
    Except Err (OffloadEventMetadata η) := do
  ensure (0 < g.hashesPerChunk) (.assertionError "hashes_per_chunk > 0")
  let tokensPerHash := g.tokensPerChunk / g.hashesPerChunk
  let first := chunkIdx * g.hashesPerChunk
  let last := first + g.hashesPerChunk
  ensure (last ≤ r.blockHashes.length) (.assertionError "last_hash_idx <= len(req.block_hashes)")
  let chunkHashes ← resolveBlockHashes ((r.blockHashes.take last).drop first) tokensPerHash g.tokensPerBlock
  ensure (chunkHashes.length = g.tokensPerChunk / g.tokensPerBlock)
    (.assertionError "len(chunk_hashes) == tokens_per_chunk // tokens_per_block")
  ensure (g.slidingWindowSizeInChunks = none)
    (.assertionError "self-describing events only support full attention")
  let start := chunkIdx * g.tokensPerChunk
  let stop := start + g.tokensPerChunk
  ensure (stop ≤ r.allTokenIds.length) (.assertionError "tok_end <= len(req.all_token_ids)")
  pure {
    blockHashes := chunkHashes
    parentBlockHash := if first = 0 then none else r.blockHashes[first - 1]?
    tokenIds := (r.allTokenIds.take stop).drop start
    blockSize := g.tokensPerBlock
    lora := r.loraRequest
    groupIdx := g.groupIdx
    kvCacheSpec := g.kvCacheSpec.kind }

/-- The snapshot of `_record_partial_tail`: only the hashes and tokens before the boundary. -/
def buildPartialTail (r : Request η) (g : GroupOffloadConfig) (boundaryTokens : Nat) :
    Except Err (OffloadEventMetadata η) := do
  let tokensPerHash := g.tokensPerChunk / g.hashesPerChunk
  let start := (boundaryTokens - 1) / g.tokensPerChunk * g.tokensPerChunk
  let first := start / tokensPerHash
  let last := boundaryTokens / tokensPerHash
  ensure (start < boundaryTokens) (.assertionError "chunk_start < boundary_tokens")
  ensure (boundaryTokens % tokensPerHash = 0) (.assertionError "boundary_tokens % tokens_per_hash == 0")
  ensure (last ≤ r.blockHashes.length) (.assertionError "last_hash_idx <= len(req.block_hashes)")
  let hashes := (r.blockHashes.take last).drop first
  ensure (hashes ≠ []) (.assertionError "block_hashes")
  pure {
    blockHashes := hashes
    parentBlockHash := if 0 < first then r.blockHashes[first - 1]? else none
    tokenIds := (r.allTokenIds.take boundaryTokens).drop start
    blockSize := tokensPerHash
    lora := r.loraRequest
    groupIdx := g.groupIdx
    kvCacheSpec := g.kvCacheSpec.kind }

structure OffloadingEventsTracker (η : Type) where
  selfDescribingEnabled : Bool
  pendingEventMetadata : Dict (OffloadKey η) (OffloadEventMetadata η) := .empty

variable {m : OffloadEventMetadata η}

namespace OffloadingEventsTracker
variable {t' : OffloadingEventsTracker η} (t : OffloadingEventsTracker η)

/-- A new snapshot takes over the residencies of the one it replaces. -/
def put (key : OffloadKey η) (m : OffloadEventMetadata η) : OffloadingEventsTracker η :=
  let active := match t.pendingEventMetadata.get? key with
    | some existing => m.activeResidencies ∪ existing.activeResidencies
    | none => m.activeResidencies
  { t with pendingEventMetadata := t.pendingEventMetadata.set key { m with activeResidencies := active } }

/-- What the four recording methods share; `overwrite` tells a store from a lookup. -/
def record (overwrite : Bool) (g : GroupOffloadConfig) (key : OffloadKey η)
    (snapshot : Except Err (OffloadEventMetadata η)) : Except Err (OffloadingEventsTracker η) :=
  if !t.selfDescribingEnabled || g.slidingWindowSizeInChunks.isSome then .ok t
  else if !overwrite && t.pendingEventMetadata.contains key then .ok t
  else do
    let m ← snapshot
    pure (t.put key m)

def recordStore (r : Request η) (g : GroupOffloadConfig) (chunkIdx : Nat) (key : OffloadKey η) :
    Except Err (OffloadingEventsTracker η) :=
  t.record true g key (buildEventMetadata r g chunkIdx)

def recordLookup (r : Request η) (g : GroupOffloadConfig) (chunkIdx : Nat) (key : OffloadKey η) :
    Except Err (OffloadingEventsTracker η) :=
  t.record false g key (buildEventMetadata r g chunkIdx)

def recordPartialStore (r : Request η) (g : GroupOffloadConfig) (boundaryTokens : Nat) (key : OffloadKey η) :
    Except Err (OffloadingEventsTracker η) :=
  t.record true g key (buildPartialTail r g boundaryTokens)

def recordPartialLookup (r : Request η) (g : GroupOffloadConfig) (boundaryTokens : Nat) (key : OffloadKey η) :
    Except Err (OffloadingEventsTracker η) :=
  t.record false g key (buildPartialTail r g boundaryTokens)

def placeholderStored (e : OffloadingEvent η) (key : OffloadKey η) : BlockStored η where
  blockHashes := [key.blockHash]
  parentBlockHash := none
  tokenIds := []
  blockSize := 0
  lora := none
  medium := e.medium
  groupIdx := key.groupIdx
  kvCacheSpec := none
  locality := e.locality
  ownership := e.ownership

def snapshotStored (e : OffloadingEvent η) (m : OffloadEventMetadata η) : BlockStored η where
  blockHashes := m.blockHashes
  parentBlockHash := m.parentBlockHash
  tokenIds := m.tokenIds
  blockSize := m.blockSize
  lora := m.lora
  medium := e.medium
  groupIdx := m.groupIdx
  kvCacheSpec := some m.kvCacheSpec
  locality := e.locality
  ownership := e.ownership

/-- One key of a stored event. The snapshot is read, not popped. -/
def storedKey (e : OffloadingEvent η) (st : List (TrackedEvent η) × OffloadingEventsTracker η)
    (key : OffloadKey η) : List (TrackedEvent η) × OffloadingEventsTracker η :=
  match st.2.pendingEventMetadata.get? key with
  | none => (st.1 ++ [.stored (placeholderStored e key)], st.2)
  | some m =>
    let active := if e.removalExpected then m.activeResidencies.insert e.residency else m.activeResidencies
    (st.1 ++ [.stored (snapshotStored e m)], { st.2 with
      pendingEventMetadata := st.2.pendingEventMetadata.set key { m with activeResidencies := active } })

def takeStoredEvent (e : OffloadingEvent η) : List (TrackedEvent η) × OffloadingEventsTracker η :=
  e.keys.foldl (storedKey e) ([], t)

/-- One key of a removed event: its hashes join those of its group. -/
def removedKey (e : OffloadingEvent η) (st : Dict Nat (List η) × OffloadingEventsTracker η)
    (key : OffloadKey η) : Dict Nat (List η) × OffloadingEventsTracker η :=
  match st.2.pendingEventMetadata.get? key with
  | none => (st.1.set key.groupIdx (st.1.getD key.groupIdx [] ++ [key.blockHash]), st.2)
  | some m =>
    let active := m.activeResidencies.filter (· ≠ e.residency)
    (st.1.set m.groupIdx (st.1.getD m.groupIdx [] ++ m.blockHashes), { st.2 with
      pendingEventMetadata :=
        if active = [] then st.2.pendingEventMetadata.erase key
        else st.2.pendingEventMetadata.set key { m with activeResidencies := active } })

def takeRemovedEvent (e : OffloadingEvent η) : List (TrackedEvent η) × OffloadingEventsTracker η :=
  let (byGroup, t) := e.keys.foldl (removedKey e) (.empty, t)
  (byGroup.entries.map fun (g, hashes) => .removed ⟨hashes, e.medium, g, e.locality, e.ownership⟩, t)

def takeEvent (e : OffloadingEvent η) : List (TrackedEvent η) × OffloadingEventsTracker η :=
  if e.removed then t.takeRemovedEvent e else t.takeStoredEvent e

def takeEvents (events : List (OffloadingEvent η)) : List (TrackedEvent η) × OffloadingEventsTracker η :=
  events.foldl (fun st e => let (out, t) := st.2.takeEvent e; (st.1 ++ out, t)) ([], t)

def reset : OffloadingEventsTracker η := { t with pendingEventMetadata := .empty }

inductive Act (η : Type) where
  | recordStore (r : Request η) (g : GroupOffloadConfig) (chunkIdx : Nat) (key : OffloadKey η)
  | recordLookup (r : Request η) (g : GroupOffloadConfig) (chunkIdx : Nat) (key : OffloadKey η)
  | recordPartialStore (r : Request η) (g : GroupOffloadConfig) (boundaryTokens : Nat) (key : OffloadKey η)
  | recordPartialLookup (r : Request η) (g : GroupOffloadConfig) (boundaryTokens : Nat) (key : OffloadKey η)
  | takeEvents (events : List (OffloadingEvent η))
  | reset

def step : Act η → Except Err (OffloadingEventsTracker η)
  | .recordStore r g c key => t.recordStore r g c key
  | .recordLookup r g c key => t.recordLookup r g c key
  | .recordPartialStore r g b key => t.recordPartialStore r g b key
  | .recordPartialLookup r g b key => t.recordPartialLookup r g b key
  | .takeEvents events => .ok (t.takeEvents events).2
  | .reset => .ok t.reset

def run (acts : List (Act η)) : Except Err (OffloadingEventsTracker η) := acts.foldlM step t

/-! ### What an event names -/

def hashesOf (key : OffloadKey η) : List η :=
  match t.pendingEventMetadata.get? key with
  | some m => m.blockHashes
  | none => [key.blockHash]

def groupOf (key : OffloadKey η) : Nat :=
  match t.pendingEventMetadata.get? key with
  | some m => m.groupIdx
  | none => key.groupIdx

def storedOf (e : OffloadingEvent η) (key : OffloadKey η) : BlockStored η :=
  match t.pendingEventMetadata.get? key with
  | some m => snapshotStored e m
  | none => placeholderStored e key

theorem storedOf_blockHashes (e : OffloadingEvent η) (key : OffloadKey η) :
    (t.storedOf e key).blockHashes = t.hashesOf key := by
  unfold storedOf hashesOf
  cases t.pendingEventMetadata.get? key <;> rfl

variable {e : OffloadingEvent η} {t} {key k : OffloadKey η} {hs : List η} {res : Residency}
  {x : List (TrackedEvent η) × OffloadingEventsTracker η} {gs : Dict Nat (List η) × OffloadingEventsTracker η}

/-- A stored event changes the residencies of snapshots, nothing an event shows. -/
theorem storedKey_storedOf (e' : OffloadingEvent η) : (storedKey e x key).2.storedOf e' k = x.2.storedOf e' k := by
  unfold storedKey
  cases hm : x.2.pendingEventMetadata.get? key with
  | none => rfl
  | some m =>
    by_cases hk : k = key
    · subst hk
      simp [storedOf, hm, snapshotStored]
    · simp [storedOf, hk]

theorem storedKey_fst : (storedKey e x key).1 = x.1 ++ [.stored (x.2.storedOf e key)] := by
  unfold storedKey storedOf
  cases x.2.pendingEventMetadata.get? key <;> rfl

theorem foldl_storedKey_fst (keys : List (OffloadKey η)) :
    (keys.foldl (storedKey e) x).1 = x.1 ++ keys.map fun k => .stored (x.2.storedOf e k) := by
  induction keys generalizing x with
  | nil => simp
  | cons key keys ih =>
    rw [foldl_cons, ih, storedKey_fst]
    simp only [storedKey_storedOf, map_cons, append_assoc, singleton_append]

theorem takeStoredEvent_fst (t : OffloadingEventsTracker η) (e : OffloadingEvent η) :
    (t.takeStoredEvent e).1 = e.keys.map fun k => .stored (t.storedOf e k) := by
  simp [takeStoredEvent, foldl_storedKey_fst]

theorem removedKey_get?_of_ne (hk : k ≠ key) :
    (removedKey e gs key).2.pendingEventMetadata.get? k = gs.2.pendingEventMetadata.get? k := by
  unfold removedKey
  cases gs.2.pendingEventMetadata.get? key with
  | none => rfl
  | some m =>
    dsimp only
    split <;> simp [hk]

theorem removedKey_fst : (removedKey e gs key).1 =
      gs.1.set (gs.2.groupOf key) (gs.1.getD (gs.2.groupOf key) [] ++ gs.2.hashesOf key) := by
  unfold removedKey groupOf hashesOf
  cases gs.2.pendingEventMetadata.get? key <;> rfl

def removedIn (t : OffloadingEventsTracker η) (keys : List (OffloadKey η)) (g : Nat) : List η :=
  (keys.filter fun k => t.groupOf k = g).flatMap t.hashesOf

theorem foldl_removedKey_fst (keys : List (OffloadKey η)) (hnd : keys.Nodup) (g : Nat) :
    (keys.foldl (removedKey e) gs).1.get? g =
      if ∃ k ∈ keys, gs.2.groupOf k = g then some (gs.1.getD g [] ++ gs.2.removedIn keys g) else gs.1.get? g := by
  induction keys generalizing gs with
  | nil => simp
  | cons key keys ih =>
    obtain ⟨hkey, hnd⟩ := nodup_cons.1 hnd
    -- the keys still to come are not the one just handled
    have hget : ∀ k ∈ keys, (removedKey e gs key).2.pendingEventMetadata.get? k = gs.2.pendingEventMetadata.get? k :=
      fun k hk => removedKey_get?_of_ne (ne_of_mem_of_not_mem hk hkey)
    have hgroup : ∀ k ∈ keys, (removedKey e gs key).2.groupOf k = gs.2.groupOf k :=
      fun k hk => by rw [groupOf, hget k hk, groupOf]
    have hex : (∃ k ∈ keys, (removedKey e gs key).2.groupOf k = g) ↔ ∃ k ∈ keys, gs.2.groupOf k = g :=
      exists_congr fun k => and_congr_right fun hk => by rw [hgroup k hk]
    have hin : (removedKey e gs key).2.removedIn keys g = gs.2.removedIn keys g := by
      unfold removedIn
      rw [filter_congr (q := fun k => gs.2.groupOf k = g) fun k hk => by rw [hgroup k hk]]
      exact flatMap_congr fun k hk => by rw [hashesOf, hget k (mem_of_mem_filter hk), hashesOf]
    rw [foldl_cons, ih hnd, hin, if_congr hex rfl rfl, removedKey_fst]
    by_cases hg : gs.2.groupOf key = g
    · have hcons : gs.2.removedIn (key :: keys) g = gs.2.hashesOf key ++ gs.2.removedIn keys g := by
        simp [removedIn, hg]
      have hnil : (¬ ∃ k ∈ keys, gs.2.groupOf k = g) → gs.2.removedIn keys g = [] := fun h => by
        rw [removedIn, filter_eq_nil_iff.2 fun k hk hg => h ⟨k, hk, by simpa using hg⟩, flatMap_nil]
      rw [if_pos (⟨key, mem_cons_self .., hg⟩ : ∃ k ∈ key :: keys, gs.2.groupOf k = g), hcons]
      split
      · simp [Dict.getD, hg, append_assoc]
      · next h => simp [Dict.getD, hg, hnil h]
    · have hcons : gs.2.removedIn (key :: keys) g = gs.2.removedIn keys g := by simp [removedIn, hg]
      simp [hcons, hg, Dict.getD, Ne.symm hg]

/-! ### From a store to the removal after it -/

/-- The tracker will name `hs` when `k` is removed from `res`: the snapshot shows these hashes and lasts at
least as long as the residency, or they are the ones named without a snapshot. -/
def Names (t : OffloadingEventsTracker η) (k : OffloadKey η) (res : Residency) (hs : List η) : Prop :=
  t.hashesOf k = hs ∧ ∀ m ∈ t.pendingEventMetadata.get? k, res ∈ m.activeResidencies ∨ hs = [k.blockHash]

theorem Names.congr (h : t.Names k res hs) (hget : t'.pendingEventMetadata.get? k = t.pendingEventMetadata.get? k) :
    t'.Names k res hs := by
  unfold Names hashesOf
  rw [hget]
  exact h

theorem Names.put (h : t.Names k res hs) (hm : key = k → m.blockHashes = hs) : (t.put key m).Names k res hs := by
  by_cases hk : k = key
  · subst hk
    refine ⟨by simpa [OffloadingEventsTracker.put, hashesOf] using hm rfl, ?_⟩
    intro m' hm'
    simp only [OffloadingEventsTracker.put, get?_set, if_true, Option.mem_def, Option.some.injEq] at hm'
    subst hm'
    cases hold : t.pendingEventMetadata.get? k with
    | none =>
      have := h.1
      simp only [hashesOf, hold] at this
      exact .inr this.symm
    | some old =>
      refine (h.2 old hold).imp (fun hres => ?_) id
      simp [hres]
  · exact h.congr (by simp [OffloadingEventsTracker.put, hk])

theorem Names.record {overwrite : Bool} {g : GroupOffloadConfig} {snapshot : Except Err (OffloadEventMetadata η)}
    (h : t.Names k res hs) (hm : key = k → ∀ m, snapshot = .ok m → m.blockHashes = hs)
    (ht : t.record overwrite g key snapshot = .ok t') : t'.Names k res hs := by
  unfold OffloadingEventsTracker.record at ht
  split at ht
  · cases ht
    exact h
  · split at ht
    · cases ht
      exact h
    · obtain ⟨m, hsnap, hput⟩ := bind_eq_ok.1 ht
      cases pure_eq_ok.1 hput
      exact h.put fun hk => hm hk m hsnap

theorem hashesOf_eq_of_storedOf (h : t'.storedOf e k = t.storedOf e k) : t'.hashesOf k = t.hashesOf k := by
  rw [← storedOf_blockHashes t' e, h, storedOf_blockHashes]

/-- After a stored event of `key` the snapshot, if there is one, lists what it listed and what was expected. -/
theorem storedKey_active (hm : m ∈ (storedKey e x key).2.pendingEventMetadata.get? k) :
    ∃ old ∈ x.2.pendingEventMetadata.get? k, old.activeResidencies ⊆ m.activeResidencies ∧
      (k = key → e.removalExpected → e.residency ∈ m.activeResidencies) := by
  unfold storedKey at hm
  cases hold : x.2.pendingEventMetadata.get? key with
  | none =>
    rw [hold] at hm
    refine ⟨m, hm, fun _ h => h, ?_⟩
    rintro rfl
    exact absurd (hold.symm.trans hm) (by simp)
  | some old =>
    simp only [hold, get?_set] at hm
    by_cases hk : k = key
    · subst hk
      simp only [if_true, Option.mem_def, Option.some.injEq] at hm
      subst hm
      refine ⟨old, hold, fun r hr => ?_, fun _ hexp => by simp [hexp]⟩
      dsimp only
      split
      · exact mem_insert_of_mem hr
      · exact hr
    · rw [if_neg hk] at hm
      exact ⟨m, hm, fun _ h => h, fun h => absurd h hk⟩

theorem Names.storedKey (h : x.2.Names k res hs) : (storedKey e x key).2.Names k res hs := by
  refine ⟨(hashesOf_eq_of_storedOf (storedKey_storedOf e)).trans h.1, fun m hm => ?_⟩
  obtain ⟨old, hold, hsub, -⟩ := storedKey_active hm
  exact (h.2 old hold).imp (fun hres => hsub hres) id

theorem Names.foldl_storedKey (h : x.2.Names k res hs) (keys : List (OffloadKey η)) :
    (keys.foldl (OffloadingEventsTracker.storedKey e) x).2.Names k res hs :=
  List.foldlRecOn keys _ (motive := fun x : List (TrackedEvent η) × OffloadingEventsTracker η => x.2.Names k res hs) h
    fun _ hst _ _ => hst.storedKey

theorem Names.removedKey (h : gs.2.Names k res hs) (hne : key = k → e.residency ≠ res) :
    (removedKey e gs key).2.Names k res hs := by
  by_cases hk : k = key
  · subst hk
    unfold OffloadingEventsTracker.removedKey
    cases hm : gs.2.pendingEventMetadata.get? k with
    | none => exact h
    | some m =>
      have hhs : m.blockHashes = hs := by simpa [hashesOf, hm] using h.1
      have hstay : res ∈ m.activeResidencies → res ∈ m.activeResidencies.filter (· ≠ e.residency) := fun hres =>
        mem_filter.2 ⟨hres, by simpa using (hne rfl).symm⟩
      dsimp only
      split
      · next hnil =>
        -- the last residency is gone, so this one was not on the list
        have hgone : hs = [k.blockHash] := (h.2 m hm).resolve_left fun hres => by
          have := hstay hres
          rw [hnil] at this
          cases this
        exact ⟨by simp [hashesOf, hgone], by simp⟩
      · refine ⟨by simp [hashesOf, hhs], fun m' hm' => ?_⟩
        simp only [get?_set, if_true, Option.mem_def, Option.some.injEq] at hm'
        subst hm'
        exact (h.2 m hm).imp hstay id
  · exact h.congr (removedKey_get?_of_ne hk)

theorem Names.takeEvent (h : t.Names k res hs) (hne : e.residency = res → k ∉ e.keys) :
    (t.takeEvent e).2.Names k res hs := by
  unfold OffloadingEventsTracker.takeEvent
  split
  · unfold takeRemovedEvent
    refine List.foldlRecOn e.keys _ (motive := fun gs : Dict Nat (List η) × OffloadingEventsTracker η =>
      gs.2.Names k res hs) h fun gs hgs key hkey => hgs.removedKey ?_
    rintro rfl hres
    exact hne hres hkey
  · exact Names.foldl_storedKey (x := ([], t)) h e.keys

theorem Names.takeEvents {events : List (OffloadingEvent η)} (h : t.Names k res hs)
    (hne : ∀ e ∈ events, e.residency = res → k ∉ e.keys) : (t.takeEvents events).2.Names k res hs :=
  List.foldlRecOn events _ (motive := fun x : List (TrackedEvent η) × OffloadingEventsTracker η =>
    x.2.Names k res hs) h fun _ hst e he => hst.takeEvent (hne e he)

theorem names_foldl_storedKey {keys : List (OffloadKey η)} (hk : k ∈ keys)
    (hlisted : ∀ m ∈ x.2.pendingEventMetadata.get? k, e.removalExpected ∨ e.residency ∈ m.activeResidencies) :
    (keys.foldl (OffloadingEventsTracker.storedKey e) x).2.Names k e.residency (x.2.hashesOf k) := by
  induction keys generalizing x with
  | nil => cases hk
  | cons key keys ih =>
    have hhashes : (storedKey e x key).2.hashesOf k = x.2.hashesOf k := hashesOf_eq_of_storedOf (storedKey_storedOf e)
    by_cases hkey : k = key
    · refine Names.foldl_storedKey ⟨hhashes, fun m hm => .inl ?_⟩ keys
      obtain ⟨old, hold, hsub, hexp⟩ := storedKey_active hm
      exact (hlisted old hold).elim (hexp hkey) fun hres => hsub hres
    · rw [foldl_cons, ← hhashes]
      refine ih ((mem_cons.1 hk).resolve_left hkey) fun m hm => ?_
      obtain ⟨old, hold, hsub, -⟩ := storedKey_active hm
      exact (hlisted old hold).imp id fun hres => hsub hres

/-- What may happen between the store of a key and its removal: snapshots of the key that show the hashes
announced, and events of other keys or other residencies. -/
def Act.Keeps (k : OffloadKey η) (res : Residency) (hs : List η) : Act η → Prop
  | .recordStore r g c key | .recordLookup r g c key =>
    key = k → ∀ m, buildEventMetadata r g c = .ok m → m.blockHashes = hs
  | .recordPartialStore r g b key | .recordPartialLookup r g b key =>
    key = k → ∀ m, buildPartialTail r g b = .ok m → m.blockHashes = hs
  | .takeEvents events => ∀ e ∈ events, e.residency = res → k ∉ e.keys
  | .reset => False

theorem Names.step {a : Act η} (h : t.Names k res hs) (ha : a.Keeps k res hs) (ht : t.step a = .ok t') :
    t'.Names k res hs := by
  cases a with
  | recordStore r g c key => exact h.record ha ht
  | recordLookup r g c key => exact h.record ha ht
  | recordPartialStore r g b key => exact h.record ha ht
  | recordPartialLookup r g b key => exact h.record ha ht
  | takeEvents events =>
    cases ht
    exact h.takeEvents ha
  | reset => exact ha.elim

theorem Names.run {acts : List (Act η)} (h : t.Names k res hs) (ha : ∀ a ∈ acts, a.Keeps k res hs)
    (ht : t.run acts = .ok t') : t'.Names k res hs :=
  foldlM_inv (P := fun t : OffloadingEventsTracker η => t.Names k res hs)
    (fun a hmem _ _ hx hy => hx.step (ha a hmem) hy) ht h

/-- Every raw event of a key is published once: a stored event as one `BlockStored` for each key, a removed one
as one `BlockRemoved` for each group of its keys. The hashes a removal names for a key are those of the
`BlockStored` it follows. -/
theorem removed_names_stored (t t' : OffloadingEventsTracker η) (e e' : OffloadingEvent η) (k : OffloadKey η)
    (acts : List (Act η)) (hk : k ∈ e.keys) (hnd : e'.keys.Nodup)
    (hlisted : ∀ m ∈ t.pendingEventMetadata.get? k, e.removalExpected ∨ e.residency ∈ m.activeResidencies)
    (hrun : (t.takeStoredEvent e).2.run acts = .ok t') (hacts : ∀ a ∈ acts, a.Keeps k e.residency (t.hashesOf k)) :
    (t.takeStoredEvent e).1 = (e.keys.map fun k => .stored (t.storedOf e k)) ∧
      (∃ byGroup : Dict Nat (List η),
        (t'.takeRemovedEvent e').1 = (byGroup.entries.map fun (g, hashes) =>
          .removed ⟨hashes, e'.medium, g, e'.locality, e'.ownership⟩) ∧
        ∀ g, byGroup.get? g = if ∃ k ∈ e'.keys, t'.groupOf k = g then
          some ((e'.keys.filter fun k => t'.groupOf k = g).flatMap t'.hashesOf) else none) ∧
      t'.hashesOf k = (t.storedOf e k).blockHashes := by
  have hnames := (names_foldl_storedKey (x := ([], t)) hk hlisted).run hacts hrun
  refine ⟨takeStoredEvent_fst t e, ⟨_, rfl, fun g => ?_⟩, ?_⟩
  · rw [foldl_removedKey_fst e'.keys hnd]
    simp [removedIn, Dict.getD]
  · rw [hnames.1, storedOf_blockHashes]

def pairs : GroupOffloadConfig where
  groupIdx := 0
  tokensPerBlock := 1
  tokensPerChunk := 2
  hashesPerChunk := 2
  slidingWindowSizeInChunks := none
  kvCacheSpec := { blockSize := 1, kind := .fullAttention }

def pairOf (h : Nat) : Request Nat := { requestId := h, blockHashes := [h, h + 1], allTokenIds := [5, 6] }

theorem removed_names_stored_lookup : ∃ t t' : OffloadingEventsTracker Nat,
      (⟨true, .empty⟩ : OffloadingEventsTracker Nat).run [.recordStore (pairOf 0) pairs 0 ⟨1, 0⟩] = .ok t ∧
      (t.takeStoredEvent ⟨[⟨1, 0⟩], .cpu, false, none, none, false⟩).2.run [.recordLookup (pairOf 0) pairs 0 ⟨1, 0⟩,
        .takeEvents [⟨[⟨1, 0⟩], .storage, false, none, some 7, true⟩]] = .ok t' ∧ t'.hashesOf ⟨1, 0⟩ = [0, 1] := by
  let key : OffloadKey Nat := ⟨1, 0⟩
  let t : OffloadingEventsTracker Nat := ⟨true, .set .empty key ⟨[0, 1], none, [5, 6], 1, none,
    0, .fullAttention, [(.cpu, none)]⟩⟩
  refine ⟨t, _, rfl, rfl, (removed_names_stored t _ ⟨[key], .cpu, false, none, none, false⟩ ⟨[key],
    .cpu, true, none, none, false⟩
    key [.recordLookup (pairOf 0) pairs 0 key, .takeEvents [⟨[key], .storage, false, none, some 7, true⟩]]
    (mem_singleton_self _) (by decide) ?_ rfl ?_).2.2⟩
  · rintro m ⟨⟩
    exact .inr (mem_singleton_self _)
  · intro a ha
    rcases mem_pair.1 ha with rfl | rfl
    · rintro _ m ⟨⟩
      rfl
    · simp [Act.Keeps, OffloadingEvent.residency]

def rawEvents {P : Type} (m : KvOffload.CPUOffloadingManager (OffloadKey η) P) : List (OffloadingEvent η) :=
  m.takeEvents.1.map fun e => { keys := e.keys, medium := .cpu, removed := e.removed }

/-- A key is evicted and offered again before the eviction is drained. Draining it drops the new snapshot, the
second store is announced by the placeholder, and the removal after a lookup names both blocks of the chunk. And a
snapshot that only the storage keeps alive announces both blocks on the CPU, but goes with the storage. -/
theorem removal_names_unannounced_hash : let k₀ : OffloadKey Nat := ⟨1, 0⟩
    let k₁ : OffloadKey Nat := ⟨11, 0⟩
    (∃ m₁ m₂ m₃ : KvOffload.CPUOffloadingManager (OffloadKey Nat) (KvOffload.LRUCachePolicy (OffloadKey Nat)),
      ∃ t₁ t₂ : OffloadingEventsTracker Nat,
        (KvOffload.CPUOffloadingManager.init 1 true 0 0).run [.prepareStore [k₀], .completeStore [k₀] true,
          .prepareStore [k₁], .completeStore [k₁] true, .prepareStore [k₀]] = .ok m₁ ∧
        m₁.takeEvents.2.run [.completeStore [k₀] true] = .ok m₂ ∧ m₂.lookup k₀ = .hit ∧
        m₂.takeEvents.2.run [.prepareStore [k₁]] = .ok m₃ ∧
        (⟨true, .empty⟩ : OffloadingEventsTracker Nat).run [.recordStore (pairOf 0) pairs 0 k₀,
          .recordStore (pairOf 10) pairs 0 k₁, .recordStore (pairOf 0) pairs 0 k₀, .takeEvents (rawEvents m₁)] =
          .ok t₁ ∧
        (t₁.takeEvents (rawEvents m₂)).1 = [.stored ⟨[1], none, [], 0, none, .cpu, 0, none, none, none⟩] ∧
        (t₁.takeEvents (rawEvents m₂)).2.recordLookup (pairOf 0) pairs 0 k₀ = .ok t₂ ∧
        (t₂.takeEvents (rawEvents m₃)).1 = [.removed ⟨[0, 1], .cpu, 0, none, none⟩]) ∧
    ∃ t : OffloadingEventsTracker Nat,
      (⟨true, .empty⟩ : OffloadingEventsTracker Nat).run [.recordStore (pairOf 0) pairs 0 k₀,
        .takeEvents [⟨[k₀], .storage, false, none, some 7, true⟩, ⟨[k₀], .cpu, true, none, none, false⟩]] = .ok t ∧
      (t.takeEvents [⟨[k₀], .cpu, false, none, none, false⟩, ⟨[k₀], .storage, true, none, some 7, false⟩,
        ⟨[k₀], .cpu, true, none, none, false⟩]).1 =
        [.stored ⟨[0, 1], none, [5, 6], 1, none, .cpu, 0, some .fullAttention, none, none⟩,
          .removed ⟨[0, 1], .storage, 0, none, some 7⟩, .removed ⟨[1], .cpu, 0, none, none⟩] :=
  ⟨⟨_, _, _, _, _, rfl, rfl, rfl, rfl, rfl, rfl, rfl, rfl⟩, _, rfl, rfl⟩

end OffloadingEventsTracker

end VllmCore.Offload
