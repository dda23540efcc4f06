import VllmCore.Core.Manager

/-! # Encoder caches

`encoder_cache_manager.py`: the scheduler's record of the encoder outputs that the workers hold. Sets are
lists without duplicates. An encoder-decoder model uses a manager without sharing, which only counts
slots; a scheduler has one or the other: `EncoderCache`. -/

namespace VllmCore
variable {η : Type}

namespace PlaceholderRange

def getNumEmbeds (p : PlaceholderRange) : Nat :=
  match p.isEmbed with
  | none => p.length
  | some mask => mask.count true

/-- `embeds_cumsum[idx - 1] if idx > 0 else 0`. -/
def embedsBefore (mask : List Bool) (idx : Int) : Except Err Nat :=
  if idx ≤ 0 then .ok 0
  else if idx.toNat ≤ mask.length then .ok ((mask.take idx.toNat).count true)
  else .error .indexError

def getEmbedsIndicesInRange (p : PlaceholderRange) (startIdx endIdx : Int) : Except Err (Int × Int) :=
  match p.isEmbed with
  | none => .ok (startIdx, endIdx)
  | some mask => do
    let a ← embedsBefore mask startIdx
    let b ← embedsBefore mask endIdx
    pure (a, b)

end PlaceholderRange

namespace Request

def mmFeature (r : Request η) (inputId : Nat) : Except Err MultiModalFeatureSpec :=
  match r.mmFeatures[inputId]? with
  | some f => .ok f
  | none => .error .indexError

def getNumEncoderEmbeds (r : Request η) (inputId : Nat) : Except Err Nat :=
  match r.mmFeatures[inputId]? with
  | some f => .ok f.mmPosition.getNumEmbeds
  | none => .error (.assertionError "input_id < len(self.mm_features)")

end Request

structure EncoderCacheManager where
  cacheSize : Int
  numFreeSlots : Int
  numFreeableSlots : Int
  /-- the requests that reference each item -/
  cached : Dict Nat (List RequestId) := Dict.empty
  requestCachedIds : Dict RequestId (List Nat) := Dict.empty
  /-- unreferenced items, the oldest first, with their sizes -/
  freeable : Dict Nat Nat := Dict.empty
  freed : List Nat := []

namespace EncoderCacheManager
variable (m : EncoderCacheManager)

def init (cacheSize : Nat) : EncoderCacheManager :=
  { cacheSize := cacheSize, numFreeSlots := cacheSize, numFreeableSlots := cacheSize }

def reset : EncoderCacheManager :=
  { cacheSize := m.cacheSize, numFreeSlots := m.cacheSize, numFreeableSlots := m.cacheSize }

def reference (mmHash : Nat) (refs : List RequestId) (r : RequestId) (inputId : Nat) : EncoderCacheManager :=
  { m with
    cached := m.cached.set mmHash (insertNew r refs)
    requestCachedIds := m.requestCachedIds.set r (insertNew inputId (m.requestCachedIds.getD r [])) }

/-- Take an unreferenced item back from the freeable ones. -/
def reclaim (mmHash : Nat) : Except Err EncoderCacheManager :=
  match m.freeable.get? mmHash with
  | none => .error .keyError
  | some n => .ok { m with freeable := m.freeable.erase mmHash, numFreeableSlots := m.numFreeableSlots - n }

variable (request : Request η)

def checkAndUpdateCache (inputId : Nat) : Except Err (Bool × EncoderCacheManager) := do
  let f ← request.mmFeature inputId
  match m.cached.get? f.identifier with
  | none => pure (false, m)
  | some [] => do
    let m ← m.reclaim f.identifier
    pure (true, m.reference f.identifier [] request.requestId inputId)
  | some refs => pure (true, m.reference f.identifier refs request.requestId inputId)

def evict (mmHash numFreeEmbeds : Nat) : EncoderCacheManager :=
  { m with
    freeable := m.freeable.erase mmHash
    cached := m.cached.erase mmHash
    freed := m.freed ++ [mmHash]
    numFreeSlots := m.numFreeSlots + numFreeEmbeds }

/-- The eviction loop of `can_allocate`, over the freeable items in order. -/
def evictLoop (numEmbeds : Int) : List (Nat × Nat) → EncoderCacheManager → Except Err EncoderCacheManager
  | [], m => if numEmbeds > m.numFreeSlots then .error .keyError else .ok m
  | (mmHash, n) :: rest, m =>
    if numEmbeds > m.numFreeSlots then do
      Except.ensure (m.cached.contains mmHash) .keyError
      evictLoop numEmbeds rest (m.evict mmHash n)
    else .ok m

def canAllocate (inputId : Nat) (encoderComputeBudget numEmbedsToSchedule : Int) :
    Except Err (Bool × EncoderCacheManager) := do
  let n ← request.getNumEncoderEmbeds inputId
  if n > encoderComputeBudget then pure (false, m)
  else
    let numEmbeds := n + numEmbedsToSchedule
    if numEmbeds ≤ m.numFreeSlots then pure (true, m)
    else if numEmbeds > m.numFreeableSlots then pure (false, m)
    else do
      let m ← evictLoop numEmbeds m.freeable.entries m
      pure (true, m)

def allocate (inputId : Nat) : Except Err EncoderCacheManager := do
  let f ← request.mmFeature inputId
  let n ← request.getNumEncoderEmbeds inputId
  Except.ensure (m.numFreeSlots ≥ n) (.assertionError "self.num_free_slots >= num_encoder_embeds")
  Except.ensure (m.numFreeableSlots ≥ n) (.assertionError "self.num_freeable_slots >= num_encoder_embeds")
  let m := m.reference f.identifier (m.cached.getD f.identifier []) request.requestId inputId
  pure { m with numFreeSlots := m.numFreeSlots - n, numFreeableSlots := m.numFreeableSlots - n }

def getCachedInputIds (r : RequestId) : List Nat := m.requestCachedIds.getD r []

def forgetInput (r : RequestId) (inputId : Nat) : EncoderCacheManager :=
  match m.requestCachedIds.get? r with
  | none => m
  | some ids =>
    let ids := ids.filter fun i => i ≠ inputId
    { m with requestCachedIds :=
        if ids.isEmpty then m.requestCachedIds.erase r else m.requestCachedIds.set r ids }

def stillReferences (mmHash : Nat) : Bool :=
  (m.getCachedInputIds request.requestId).any fun i =>
    request.mmFeatures[i]?.any fun f => f.identifier == mmHash

/-- Drop the reference of a request; an item without any becomes freeable. -/
def dropReference (mmHash : Nat) (refs : List RequestId) (r : RequestId) (n : Nat) : EncoderCacheManager :=
  let refs := refs.filter fun q => q ≠ r
  let m := { m with cached := m.cached.set mmHash refs }
  if refs.isEmpty then
    { m with freeable := m.freeable.set mmHash n, numFreeableSlots := m.numFreeableSlots + n }
  else m

def freeEncoderInput (inputId : Nat) : Except Err EncoderCacheManager := do
  let f ← request.mmFeature inputId
  let m := m.forgetInput request.requestId inputId
  let refs := m.cached.getD f.identifier []
  if refs.isEmpty then pure m
  else if m.stillReferences request f.identifier then pure m
  else pure (m.dropReference f.identifier refs request.requestId f.mmPosition.getNumEmbeds)

def free : Except Err EncoderCacheManager :=
  (m.getCachedInputIds request.requestId).foldlM (fun m i => m.freeEncoderInput request i) m

/-- What has been evicted since the last call and not been allocated again. -/
def getFreedMmHashes : List Nat × EncoderCacheManager :=
  (m.freed.filter fun h => !m.cached.contains h, { m with freed := [] })

end EncoderCacheManager

structure EncoderDecoderCacheManager where
  cacheSize : Int
  numFreeSlots : Int
  allocated : List Nat := []
  toFree : List Nat := []

namespace EncoderDecoderCacheManager
variable (m : EncoderDecoderCacheManager)

def canAllocate (request : Request η) (inputId : Nat) (encoderComputeBudget numEmbedsToSchedule : Int) :
    Except Err Bool := do
  let n ← request.getNumEncoderEmbeds inputId
  if n > encoderComputeBudget then pure false
  else pure (n + numEmbedsToSchedule ≤ m.numFreeSlots)

def allocate (request : Request η) (inputId : Nat) : Except Err EncoderDecoderCacheManager := do
  let n ← request.getNumEncoderEmbeds inputId
  let f ← request.mmFeature inputId
  pure { m with numFreeSlots := m.numFreeSlots - n, allocated := m.allocated ++ [f.identifier] }

def freeEncoderInput (request : Request η) (inputId : Nat) : Except Err EncoderDecoderCacheManager := do
  let n ← request.getNumEncoderEmbeds inputId
  pure { m with numFreeSlots := m.numFreeSlots + n }

/-- The outputs allocated in one step are reported as freed with the next. -/
def getFreedMmHashes : List Nat × EncoderDecoderCacheManager :=
  (m.toFree, { m with toFree := m.allocated, allocated := [] })

end EncoderDecoderCacheManager

inductive EncoderCache where
  | shared (m : EncoderCacheManager)
  | encoderDecoder (m : EncoderDecoderCacheManager)

namespace EncoderCache
variable (c : EncoderCache)

def init (isEncoderDecoder : Bool) (cacheSize : Nat) : EncoderCache :=
  if isEncoderDecoder then .encoderDecoder { cacheSize := cacheSize, numFreeSlots := cacheSize }
  else .shared (.init cacheSize)

def reset : EncoderCache → EncoderCache
  | shared m => .shared m.reset
  | encoderDecoder m => .encoderDecoder { cacheSize := m.cacheSize, numFreeSlots := m.cacheSize }

def checkAndUpdateCache (request : Request η) (inputId : Nat) : Except Err (Bool × EncoderCache) :=
  match c with
  | shared m => do
    let (hit, m) ← m.checkAndUpdateCache request inputId
    pure (hit, .shared m)
  | encoderDecoder _ => .ok (false, c)

def canAllocate (request : Request η) (inputId : Nat) (encoderComputeBudget numEmbedsToSchedule : Int) :
    Except Err (Bool × EncoderCache) :=
  match c with
  | shared m => do
    let (ok, m) ← m.canAllocate request inputId encoderComputeBudget numEmbedsToSchedule
    pure (ok, .shared m)
  | encoderDecoder m => do
    let ok ← m.canAllocate request inputId encoderComputeBudget numEmbedsToSchedule
    pure (ok, c)

def allocate (request : Request η) (inputId : Nat) : Except Err EncoderCache :=
  match c with
  | shared m => do
    let m ← m.allocate request inputId
    pure (.shared m)
  | encoderDecoder m => do
    let m ← m.allocate request inputId
    pure (.encoderDecoder m)

def getCachedInputIds (request : Request η) : List Nat :=
  match c with
  | shared m => m.getCachedInputIds request.requestId
  | encoderDecoder _ => List.range request.mmFeatures.length

def freeEncoderInput (request : Request η) (inputId : Nat) : Except Err EncoderCache :=
  match c with
  | shared m => do
    let m ← m.freeEncoderInput request inputId
    pure (.shared m)
  | encoderDecoder m => do
    let m ← m.freeEncoderInput request inputId
    pure (.encoderDecoder m)

def free (request : Request η) : Except Err EncoderCache :=
  (c.getCachedInputIds request).foldlM (fun c i => c.freeEncoderInput request i) c

def getFreedMmHashes : List Nat × EncoderCache :=
  match c with
  | shared m => (m.getFreedMmHashes.1, .shared m.getFreedMmHashes.2)
  | encoderDecoder m => (m.getFreedMmHashes.1, .encoderDecoder m.getFreedMmHashes.2)

end EncoderCache

end VllmCore
