import VllmCore.Core.Request

/-! # KV-cache specs

The part of `kv_cache_interface.py` that block management reads. Block sizes include the decode-context
parallel factor, so the world sizes themselves do not occur. -/

namespace VllmCore

inductive MambaCacheMode where
  | none
  | all
  | align
deriving DecidableEq, Repr

structure MambaSpec where
  mambaCacheMode : MambaCacheMode
  numSpeculativeBlocks : Nat := 0
  numPrefillCheckpointBlocks : Nat := 0
  /-- asserted to be positive where it is read -/
  prefillCheckpointAlignment : Option { n : Nat // 0 < n } := none
deriving DecidableEq, Repr

inductive SpecKind where
  | fullAttention
  | rswa (rswaWindow : Nat)
  | slidingWindow (slidingWindow extraRetainedTokens : Nat)
  /-- one block per request: a ring of raw keys, or the scratch tail of a key-pooling indexer -/
  | circularBuffer (kpoolTail : Bool)
  | chunkedLocal (attentionChunkSize : Nat)
  | mamba (spec : MambaSpec)
  | crossAttention
deriving DecidableEq, Repr

theorem pos_four : 0 < 4 := by decide

structure KVCacheSpec where
  blockSize : Nat
  kind : SpecKind
  blockSize_pos : 0 < blockSize := by first | exact Nat.one_pos | exact Nat.two_pos | exact pos_four | decide
  /-- head counts, sizes and types: compared between groups, never read -/
  layout : Nat := 0
deriving DecidableEq, Repr

namespace KVCacheSpec
variable (s : KVCacheSpec)

/-- Groups that opt out of prefix caching hold scratch data of one request. -/
def prefixCacheable : Bool :=
  match s.kind with
  | .circularBuffer _ => false
  | _ => true

def isFullAttention : Bool :=
  match s.kind with
  | .fullAttention | .rswa _ => true
  | _ => false

def isMamba : Bool :=
  match s.kind with
  | .mamba _ => true
  | _ => false

def isMambaAlign : Bool :=
  match s.kind with
  | .mamba ms => ms.mambaCacheMode == .align
  | _ => false

def isCrossAttention : Bool := s.kind == .crossAttention

def supportsFineGrainedHashLookup : Bool :=
  match s.kind with
  | .fullAttention | .rswa _ | .mamba _ => true
  | _ => false

/-- Whether the worker zeroes the new blocks of a group of this kind. -/
def recordsNewBlockIds : Bool :=
  match s.kind with
  | .mamba _ | .circularBuffer false => false
  | _ => true

/-- The most blocks one request holds at a time, for the kinds that recycle blocks. -/
def maxAdmissionBlocksPerRequest (maxInFlightTokens maxModelLen : Nat) : Option Nat :=
  match s.kind with
  | .slidingWindow w extra => some (cdiv (min (w - 1 + extra + maxInFlightTokens) maxModelLen) s.blockSize + 1)
  | .chunkedLocal c => some (cdiv (min (c + maxInFlightTokens) maxModelLen) s.blockSize)
  | .circularBuffer true => some 1
  | _ => none

end KVCacheSpec

/-- The reusable checkpoint boundary of a prefill. The source subtracts in the integers and cuts off at
zero. -/
def getMambaPrefillCheckpointPosition (numTokens hashBlockSize : Nat) (dropEagleBlock : Bool) : Nat :=
  (numTokens - 1) / hashBlockSize * hashBlockSize - (if dropEagleBlock then hashBlockSize else 0)

def isMambaPrefillCheckpointValid (queryStart queryEnd checkpointPosition hashBlockSize mambaBlockSize : Nat)
    (checkpointAlignment : Option { n : Nat // 0 < n }) : Bool :=
  match checkpointAlignment with
  | none => false
  | some alignment =>
    let initialStateCol : Int := ((queryStart : Int) - 1) / mambaBlockSize
    let checkpointCol : Int := (cdiv queryEnd mambaBlockSize : Int) - 2
    queryStart % hashBlockSize == 0 &&
      decide (checkpointCol > initialStateCol) &&
      decide (queryStart + hashBlockSize ≤ checkpointPosition) &&
      decide (queryStart < checkpointPosition ∧ checkpointPosition < queryEnd) &&
      (checkpointPosition - queryStart) % alignment.1 == 0

end VllmCore
