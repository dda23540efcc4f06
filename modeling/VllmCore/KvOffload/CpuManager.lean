import VllmCore.KvOffload.Policy

/-! # The CPU offloading manager

`CPUOffloadingManager`: the chunk pool, the reference counts and the access tracker, over any cache
policy. `req_context` is only handed on to the policy, where both policies ignore it; the statistics of
`get_stats` are left out. -/

namespace VllmCore.KvOffload
open Except

inductive LookupResult where
  | miss
  | hit
  | hitPending
  | retry
deriving DecidableEq, Repr

/-- The medium is the CPU throughout. -/
structure OffloadingEvent (κ : Type) where
  keys : List κ
  removed : Bool
deriving DecidableEq, Repr

/-- `store_spec` is the ids of the chunks, in the order of `keys_to_store`. -/
structure PrepareStoreOutput (κ : Type) where
  keysToStore : List κ
  storeSpec : List Nat
  evictedKeys : List κ
deriving DecidableEq, Repr

structure CPUOffloadingManager (κ P : Type) where
  numChunks : Nat
  numAllocatedChunks : Nat := 0
  freeList : List Nat := []
  events : Option (List (OffloadingEvent κ))
  policy : P
  numEvictableCacheChunks : Int := 0
  numWritePendingChunks : Int := 0
  storeThreshold : Nat
  maxTrackerSize : Nat
  counts : Option (Dict κ Nat)

namespace CPUOffloadingManager
variable {κ P : Type} [DecidableEq κ] [CachePolicy κ P] (m : CPUOffloadingManager κ P)

def init (numChunks : Nat) (enableEvents : Bool) (storeThreshold maxTrackerSize : Nat) : CPUOffloadingManager κ P where
  numChunks
  events := if enableEvents then some [] else none
  policy := CachePolicy.init numChunks
  storeThreshold
  maxTrackerSize
  counts := if 2 ≤ storeThreshold then some .empty else none

/-! ### The chunk pool -/

def getNumFreeChunks : Nat := m.freeList.length + m.numChunks - m.numAllocatedChunks

/-- `_allocate_chunks`: fresh ids first, then the free list from its end. -/
def allocateChunks (n : Nat) : Except Err (List ChunkStatus × CPUOffloadingManager κ P) := do
  let numFresh := min n (m.numChunks - m.numAllocatedChunks)
  let numReused := n - numFresh
  ensure (numReused ≤ m.freeList.length) (.assertionError "len(self._free_list) >= num_reused")
  let ids := List.range' m.numAllocatedChunks numFresh ++ m.freeList.reverse.take numReused
  pure (ids.map fun chunkId => { chunkId }, { m with
    numAllocatedChunks := m.numAllocatedChunks + numFresh
    freeList := (m.freeList.reverse.drop numReused).reverse })

def freeChunk (chunk : ChunkStatus) : CPUOffloadingManager κ P := { m with freeList := m.freeList ++ [chunk.chunkId] }

/-! ### The access tracker -/

/-- The first loop of `_record_accesses`: count the tracked keys and move them to the end. -/
def countTracked (st : Dict κ Nat × List κ) (key : κ) : Dict κ Nat × List κ :=
  match st.1.get? key with
  | some n => ((st.1.moveToEnd key).set key (n + 1), st.2.insert key)
  | none => st

/-- The second loop: start tracking the others, dropping the oldest key that is not protected. -/
def startTracking (maxTrackerSize : Nat) (st : Dict κ Nat × Nat) (key : κ) : Dict κ Nat × Nat :=
  if st.1.contains key then st
  else if maxTrackerSize ≤ st.1.entries.length then
    if st.2 = 0 then st else ((st.1.dropFirst 1).set key 1, st.2 - 1)
  else (st.1.set key 1, st.2)

def recordAccesses (maxTrackerSize : Nat) (counts : Dict κ Nat) (keys : List κ) : Dict κ Nat :=
  let (counts, kept) := keys.foldl countTracked (counts, [])
  (keys.foldl (startTracking maxTrackerSize) (counts, counts.entries.length - kept.length)).1

variable (keys : List κ)

def countsAfter : Option (Dict κ Nat) :=
  m.counts.map fun counts => recordAccesses m.maxTrackerSize counts keys

def reusedKeys : List κ :=
  match m.countsAfter keys with
  | some counts => keys.filter fun k => decide (m.storeThreshold ≤ counts.getD k 0)
  | none => keys

/-! ### The interface -/

def lookup (key : κ) : LookupResult :=
  match CachePolicy.get m.policy key with
  | none => .miss
  | some chunk => if chunk.isReady then .hit else .hitPending

def pin (key : κ) (chunk : ChunkStatus) : Except Err (CPUOffloadingManager κ P) := do
  let busy := { chunk with refCnt := cInt32 (chunk.refCnt + 1) }
  if chunk.refCnt = 0 then
    let policy ← CachePolicy.markNonEvictable m.policy key
    ensure (0 ≤ m.numEvictableCacheChunks - 1) (.assertionError "self._num_evictable_cache_chunks >= 0")
    pure { m with
      policy := CachePolicy.write policy key busy
      numEvictableCacheChunks := m.numEvictableCacheChunks - 1 }
  else pure { m with policy := CachePolicy.write m.policy key busy }

def unpin (missing idle : Err) (m : CPUOffloadingManager κ P) (key : κ) : Except Err (CPUOffloadingManager κ P) :=
  match CachePolicy.get m.policy key with
  | none => .error missing
  | some chunk => do
    ensure (0 < chunk.refCnt) idle
    let refCnt := cInt32 (chunk.refCnt - 1)
    let policy := CachePolicy.write m.policy key { chunk with refCnt }
    if refCnt = 0 then
      pure { m with
        policy := CachePolicy.markEvictable policy key
        numEvictableCacheChunks := m.numEvictableCacheChunks + 1 }
    else pure { m with policy }

def prepareLoadOne (st : List Nat × CPUOffloadingManager κ P) (key : κ) :
    Except Err (List Nat × CPUOffloadingManager κ P) :=
  match CachePolicy.get st.2.policy key with
  | none => .error (.assertionError "Chunk not found in cache")
  | some chunk => do
    ensure chunk.isReady (.assertionError "Chunk is not ready for reading")
    let m ← st.2.pin key chunk
    pure (st.1 ++ [chunk.chunkId], m)

def prepareLoad : Except Err (List Nat × CPUOffloadingManager κ P) := keys.foldlM prepareLoadOne ([], m)

def touch (keys : List κ) : CPUOffloadingManager κ P := { m with policy := CachePolicy.touch m.policy keys }

def reserveHit (st : List κ × CPUOffloadingManager κ P) (key : κ) : Except Err (List κ × CPUOffloadingManager κ P) :=
  match CachePolicy.get st.2.policy key with
  | none => .ok st
  | some chunk =>
    if chunk.isReady then do
      let m ← st.2.pin key chunk
      pure (st.1 ++ [key], m)
    else .ok st

def reserveHits : Except Err (List κ × CPUOffloadingManager κ P) := keys.foldlM reserveHit ([], m)

def releaseReservation : Except Err (CPUOffloadingManager κ P) :=
  keys.foldlM (unpin (.assertionError "Reserved chunk vanished") (.assertionError "Reserved chunk ref_cnt is 0")) m

def completeLoad : Except Err (CPUOffloadingManager κ P) :=
  keys.foldlM (unpin (.assertionError "Chunk not found") (.assertionError "Chunk ref_cnt is already 0")) m

def addEvent (removed : Bool) : CPUOffloadingManager κ P :=
  if keys = [] then m else { m with events := m.events.map (· ++ [⟨keys, removed⟩]) }

/-- The eviction of `prepare_store`: `none` if it cannot make room. -/
def makeRoom (n : Nat) (kept : List κ) : Except Err (Option (List κ) × CPUOffloadingManager κ P) :=
  if 0 < n then
    if m.numEvictableCacheChunks < n then .ok (none, m)
    else do
      let (evicted, policy) ← CachePolicy.evict m.policy n kept
      match evicted with
      | none => pure (none, { m with policy })
      | some evicted =>
        ensure (0 ≤ m.numEvictableCacheChunks - evicted.length)
          (.assertionError "self._num_evictable_cache_chunks >= 0")
        pure (some (evicted.map Prod.fst), { m with
          policy
          numEvictableCacheChunks := m.numEvictableCacheChunks - evicted.length
          freeList := m.freeList ++ evicted.map (·.2.chunkId) })
  else .ok (some [], m)

def allocate (m : CPUOffloadingManager κ P) (keysToStore evicted : List κ) :
    Except Err (PrepareStoreOutput κ × CPUOffloadingManager κ P) := do
  let m := m.addEvent evicted true
  let (chunks, m) ← m.allocateChunks keysToStore.length
  ensure (chunks.length = keysToStore.length)
    (.assertionError "Chunk pool did not allocate the expected number of chunks")
  let policy := (keysToStore.zip chunks).foldl (fun policy e => CachePolicy.insert policy e.1 e.2) m.policy
  pure (⟨keysToStore, chunks.map ChunkStatus.chunkId, evicted⟩,
    { m with policy, numWritePendingChunks := m.numWritePendingChunks + keysToStore.length })

def keysToStore : List κ := (m.reusedKeys keys).filter fun k => (CachePolicy.get m.policy k).isNone

def prepareStore : Except Err (Option (PrepareStoreOutput κ) × CPUOffloadingManager κ P) := do
  let counted := { m with counts := m.countsAfter keys }
  let keysToStore := m.keysToStore keys
  if keysToStore = [] then pure (some ⟨[], [], []⟩, counted)
  else
    -- what is kept is what is left of the argument after the filter on the counts
    let (evicted, m) ← counted.makeRoom (keysToStore.length - m.getNumFreeChunks) (m.reusedKeys keys)
    match evicted with
    | none => pure (none, m)
    | some evicted =>
      let (out, m) ← m.allocate keysToStore evicted
      pure (some out, m)

/-- A key of `complete_store` with `success`; the keys made ready are collected. -/
def storeReady (st : List κ × CPUOffloadingManager κ P) (key : κ) : List κ × CPUOffloadingManager κ P :=
  match CachePolicy.get st.2.policy key with
  | none => st
  | some chunk =>
    if chunk.isReady then st
    else (st.1 ++ [key], { st.2 with
      policy := CachePolicy.markEvictable (CachePolicy.write st.2.policy key { chunk with refCnt := 0 }) key
      numWritePendingChunks := st.2.numWritePendingChunks - 1
      numEvictableCacheChunks := st.2.numEvictableCacheChunks + 1 })

/-- A key of `complete_store` without `success`. -/
def storeFailed (key : κ) : Except Err (CPUOffloadingManager κ P) :=
  match CachePolicy.get m.policy key with
  | none => .ok m
  | some chunk =>
    if chunk.isReady then .ok m
    else do
      let policy ← CachePolicy.remove m.policy key
      pure ({ m with policy, numWritePendingChunks := m.numWritePendingChunks - 1 }.freeChunk chunk)

def completeStore (success : Bool) : Except Err (CPUOffloadingManager κ P) :=
  if success then
    let (storedKeys, m) := keys.foldl storeReady ([], m)
    .ok (m.addEvent storedKeys false)
  else keys.foldlM storeFailed m

def resetCache : CPUOffloadingManager κ P :=
  { m with
    policy := CachePolicy.clear m.policy
    numEvictableCacheChunks := 0
    numWritePendingChunks := 0
    freeList := []
    numAllocatedChunks := 0 }

def takeEvents : List (OffloadingEvent κ) × CPUOffloadingManager κ P :=
  (m.events.getD [], { m with events := m.events.map fun _ => [] })

end CPUOffloadingManager

end VllmCore.KvOffload
