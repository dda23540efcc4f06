import VllmCore.Lib.OrderedDict
import VllmCore.Core.Request

/-! # Cache policies

`CachePolicy` is the interface between the CPU offloading manager and its replacement policy. A policy
owns the chunks; the manager reads one with `get` and changes its reference count in place, which is
`write` here. `LawfulCachePolicy` says what the manager may count on: the chunks up to order, and what
each operation does to them. Marking a key and changing its count happen in turn, so the laws are about
the two together. -/

namespace VllmCore.KvOffload

/-- `ctypes.c_int32`: an assignment keeps the low 32 bits. -/
def cInt32 (n : Int) : Int := n.bmod (2 ^ 32)

theorem cInt32_eq {n : Int} (h : -1 ≤ n) (h' : n < 2 ^ 31) : cInt32 n = n :=
  Int.bmod_eq_of_le (by omega) (by omega)

/-- `ref_cnt` is `-1` until the chunk has been written. -/
structure ChunkStatus where
  refCnt : Int := -1
  chunkId : Nat
deriving DecidableEq, Repr

def ChunkStatus.isReady (c : ChunkStatus) : Prop := 0 ≤ c.refCnt

instance (c : ChunkStatus) : Decidable c.isReady := inferInstanceAs (Decidable (0 ≤ c.refCnt))

class CachePolicy (κ : outParam Type) (P : Type) where
  init (cacheCapacity : Nat) : P
  get : P → κ → Option ChunkStatus
  write : P → κ → ChunkStatus → P
  insert : P → κ → ChunkStatus → P
  remove : P → κ → Except Err P
  touch : P → List κ → P
  evict (p : P) (n : Nat) (kept : List κ) : Except Err (Option (List (κ × ChunkStatus)) × P)
  clear : P → P
  markEvictable (p : P) (_key : κ) : P := p
  markNonEvictable (p : P) (_key : κ) : Except Err P := .ok p

def Evictable {κ : Type} [DecidableEq κ] (kept : List κ) (e : κ × ChunkStatus) : Bool :=
  decide (e.2.refCnt = 0 ∧ e.1 ∉ kept)

class LawfulCachePolicy (κ : outParam Type) (P : Type) [DecidableEq κ] [CachePolicy κ P] where
  Sound : P → Prop
  chunks : P → List (κ × ChunkStatus)
  nodup {p : P} : Sound p → ((chunks p).map Prod.fst).Nodup
  get_eq_some {p : P} {k : κ} {c : ChunkStatus} : Sound p → (CachePolicy.get p k = some c ↔ (k, c) ∈ chunks p)
  sound_init (n : Nat) : Sound (CachePolicy.init n : P)
  chunks_init (n : Nat) : chunks (CachePolicy.init n : P) = []
  sound_clear {p : P} : Sound p → Sound (CachePolicy.clear p)
  chunks_clear (p : P) : chunks (CachePolicy.clear p) = []
  write_busy {p : P} {k : κ} {c x : ChunkStatus} {rest : List (κ × ChunkStatus)} : Sound p →
    (chunks p).Perm ((k, c) :: rest) → c.refCnt ≠ 0 → x.refCnt ≠ 0 →
    Sound (CachePolicy.write p k x) ∧ (chunks (CachePolicy.write p k x)).Perm ((k, x) :: rest)
  write_pinned {p : P} {k : κ} {c x : ChunkStatus} {rest : List (κ × ChunkStatus)} : Sound p →
    (chunks p).Perm ((k, c) :: rest) → c.refCnt = 0 → x.refCnt ≠ 0 →
    ∃ q, CachePolicy.markNonEvictable p k = .ok q ∧
      Sound (CachePolicy.write q k x) ∧ (chunks (CachePolicy.write q k x)).Perm ((k, x) :: rest)
  write_idle {p : P} {k : κ} {c x : ChunkStatus} {rest : List (κ × ChunkStatus)} : Sound p →
    (chunks p).Perm ((k, c) :: rest) → c.refCnt ≠ 0 → x.refCnt = 0 →
    Sound (CachePolicy.markEvictable (CachePolicy.write p k x) k) ∧
      (chunks (CachePolicy.markEvictable (CachePolicy.write p k x) k)).Perm ((k, x) :: rest)
  insert_new {p : P} {k : κ} {c : ChunkStatus} : Sound p → k ∉ (chunks p).map Prod.fst → c.refCnt ≠ 0 →
    Sound (CachePolicy.insert p k c) ∧ (chunks (CachePolicy.insert p k c)).Perm ((k, c) :: chunks p)
  remove_held {p : P} {k : κ} {c : ChunkStatus} {rest : List (κ × ChunkStatus)} : Sound p →
    (chunks p).Perm ((k, c) :: rest) →
    ∃ q, CachePolicy.remove p k = .ok q ∧ Sound q ∧ (chunks q).Perm rest
  touch_perm {p : P} (ks : List κ) : Sound p →
    Sound (CachePolicy.touch p ks) ∧ (chunks (CachePolicy.touch p ks)).Perm (chunks p)
  /-- Eviction finds as many chunks as it is asked for, or leaves everything as it was. -/
  evict_spec {p : P} (n : Nat) (kept : List κ) : Sound p →
    if n ≤ (chunks p).countP (Evictable kept) then
      ∃ victims q, CachePolicy.evict p n kept = .ok (some victims, q) ∧ victims.length = n ∧
        (∀ e ∈ victims, Evictable kept e) ∧ Sound q ∧ (chunks p).Perm (victims ++ chunks q)
    else CachePolicy.evict p n kept = .ok (none, p)

end VllmCore.KvOffload
