import VllmCore.Core.KVCacheManager
import VllmCore.Core.ManagerRefs

/-! # Reference counts over whole runs

The run of a KV-cache manager together with the blocks that have left it and not come back to the pool
yet: popped tables and the endpoints of taken copies. In every state of a run each reference count is
the number of places that name the block, and the free queue links the blocks without any. -/

namespace VllmCore
open Except List Coordinator
variable {η : Type} {hits bs : List (List BlockId)} {request : Request η}

namespace Coordinator
variable {c c' : Coordinator η} {p p' : BlockPool η} {ms ms' : List (Manager η)} {i : Nat}
  {c'' : Coordinator η} {α : Type} {as : List α}

def heldBy (ms : List (Manager η)) : BlockId → Nat := (ms.map Manager.held).sum

@[simp] theorem heldBy_nil : heldBy ([] : List (Manager η)) = 0 := rfl

@[simp] theorem heldBy_cons (m : Manager η) (ms : List (Manager η)) : heldBy (m :: ms) = m.held + heldBy ms := by
  simp [heldBy]

theorem traverse_conserves {f : Nat → Manager η → BlockPool η → Except Err (α × Manager η × BlockPool η)}
    (hf : ∀ i m p a m' p', f i m p = .ok (a, m', p') → Manager.Conserves m p m' p')
    (h : traverse f i ms p = .ok (as, ms', p')) (R : BlockId → Nat) (ha : p.Accounts (heldBy ms + R)) :
    p'.Accounts (heldBy ms' + R) ∧ p'.numGpuBlocks = p.numGpuBlocks := by
  induction ms generalizing i p as ms' R with
  | nil => cases h; exact ⟨ha, rfl⟩
  | cons m ms ih =>
    simp only [traverse, do_eq_ok] at h
    obtain ⟨⟨a, m1, p1⟩, h1, ⟨as', ms1, p2⟩, h2, h⟩ := h
    cases h
    -- the head runs beside what the tail holds, the tail beside what the head holds then
    have hR1 : heldBy (m :: ms) + R = m.held + (heldBy ms + R) := by rw [heldBy_cons]; ac_rfl
    obtain ⟨ha1, hg1⟩ := hf i m p a m1 p1 h1 _ (hR1 ▸ ha)
    have hR2 : m1.held + (heldBy ms + R) = heldBy ms + (m1.held + R) := by ac_rfl
    obtain ⟨ha2, hg2⟩ := ih h2 _ (hR2 ▸ ha1)
    have hR3 : heldBy ms1 + (m1.held + R) = heldBy (m1 :: ms1) + R := by rw [heldBy_cons]; ac_rfl
    exact ⟨hR3 ▸ ha2, hg2.trans hg1⟩

/-- The pool accounts for the managers after a step if it did before, beside whatever others hold. -/
def Conserves (c c' : Coordinator η) : Prop :=
  ∀ R, c.pool.Accounts (heldBy c.managers + R) →
    c'.pool.Accounts (heldBy c'.managers + R) ∧ c'.pool.numGpuBlocks = c.pool.numGpuBlocks

theorem Conserves.refl (c : Coordinator η) : Conserves c c := fun _ h => ⟨h, rfl⟩

theorem Conserves.trans (h : Conserves c c') (h' : Conserves c' c'') : Conserves c c'' := by
  intro R ha
  obtain ⟨ha', hg⟩ := h R ha
  obtain ⟨ha'', hg'⟩ := h' R ha'
  exact ⟨ha'', hg'.trans hg⟩

theorem traverse_forall₂ {f : Nat → Manager η → BlockPool η → Except Err (α × Manager η × BlockPool η)}
    {R : Manager η → Manager η → Prop} (hf : ∀ i m p a m' p', f i m p = .ok (a, m', p') → R m m')
    (h : traverse f i ms p = .ok (as, ms', p')) : List.Forall₂ R ms ms' := by
  induction ms generalizing i p as ms' with
  | nil => cases h; exact .nil
  | cons m ms ih =>
    simp only [traverse, do_eq_ok] at h
    obtain ⟨⟨a, m₁, p₁⟩, h₁, ⟨as₁, ms₁, p₂⟩, h₂, he⟩ := h
    cases he
    exact .cons (hf i m p a m₁ p₁ h₁) (ih h₂)

variable {f : Nat → Manager η → BlockPool η → Except Err (Manager η × BlockPool η)} {ne : Nat}

theorem forManagers_eq (h : c.forManagers f = .ok c') :
    ∃ us, traverse (each f) 0 c.managers c.pool = .ok (us, c'.managers, c'.pool) ∧
      ∀ i m p a m' p', each f i m p = .ok (a, m', p') → f i m p = .ok (m', p') := by
  simp only [forManagers, do_eq_ok] at h
  obtain ⟨⟨us, ms, p⟩, h, rfl⟩ := h
  refine ⟨us, h, fun i m p a m' p' h₁ => ?_⟩
  simp only [each, do_eq_ok] at h₁
  obtain ⟨⟨m₁, p₁⟩, h₁, he⟩ := h₁
  cases he
  exact h₁

theorem free_conserves {r : RequestId} (h : c.free r = .ok c') : Conserves c c' := by
  obtain ⟨us, htr, heach⟩ := forManagers_eq h
  exact traverse_conserves (fun i m p a m' p' h₁ => Manager.free_conserves (heach i m p a m' p' h₁)) htr

theorem traverse_of_works {f : Nat → Manager η → BlockPool η → Except Err (α × Manager η × BlockPool η)}
    (hf : ∀ i m p a m' p', f i m p = .ok (a, m', p') → Manager.Works m p m' p')
    (h : traverse f i c.managers c.pool = .ok (as, c'.managers, c'.pool)) : Conserves c c' :=
  traverse_conserves (fun i m p a m' p' h₁ => (hf i m p a m' p' h₁).conserves) h

theorem forManagers_conserves (hf : ∀ i m p m' p', f i m p = .ok (m', p') → Manager.Works m p m' p')
    (h : c.forManagers f = .ok c') : Conserves c c' := by
  obtain ⟨us, htr, heach⟩ := forManagers_eq h
  exact traverse_of_works (fun i m p a m' p' h₁ => hf i m p m' p' (heach i m p a m' p' h₁)) htr

theorem removeSkippedBlocks_conserves {r : RequestId} {n : Nat} {np : Option Nat}
    (h : c.removeSkippedBlocks r n np = .ok c') :
    Conserves c c' :=
  forManagers_conserves (fun _ _ _ _ _ h1 => (Manager.removeSkippedBlocks_works h1).1) h

section Methods
variable [DecidableEq η] {r : RequestId} {cap : Bool} {n : Int} {enc main nl nt tot : Nat} {m' : Manager η}

section
variable {m : Manager η} (h : managerNumBlocksToAllocate r nt hits enc tot nl main cap i m p = .ok (n, m', p'))
include h

theorem managerNumBlocksToAllocate_eq :
    p' = p ∧ ∃ nt hs tot nl main, m.getNumBlocksToAllocate p r nt hs tot nl main cap = .ok (n, m') := by
  unfold managerNumBlocksToAllocate at h
  split at h
  · simp only [do_eq_ok] at h
    obtain ⟨⟨k, m1⟩, h1, he⟩ := h
    cases he
    exact ⟨rfl, _, _, _, _, _, h1⟩
  · simp only [do_eq_ok] at h
    obtain ⟨hs, -, ⟨k, m1⟩, h1, he⟩ := h
    cases he
    exact ⟨rfl, _, _, _, _, _, h1⟩

theorem managerNumBlocksToAllocate_works : Manager.Works m p m' p' := by
  obtain ⟨rfl, _, _, _, _, _, h1⟩ := managerNumBlocksToAllocate_eq h
  exact .of_same (Manager.getNumBlocksToAllocate_same h1).1 (.refl _)

end

theorem getNumBlocksToAllocate_eq (h : c.getNumBlocksToAllocate r nt hits enc tot nl main cap = .ok (n, c')) :
    ∃ ns, traverse (managerNumBlocksToAllocate r nt hits enc tot nl main cap) 0 c.managers c.pool =
      .ok (ns, c'.managers, c'.pool) := by
  simp only [getNumBlocksToAllocate, do_eq_ok] at h
  obtain ⟨⟨ns, ms, p⟩, h, he⟩ := h
  cases he
  exact ⟨ns, h⟩

theorem getNumBlocksToAllocate_conserves (h : c.getNumBlocksToAllocate r nt hits enc tot nl main cap = .ok (n, c')) :
    Conserves c c' := by
  obtain ⟨ns, h⟩ := getNumBlocksToAllocate_eq h
  exact traverse_of_works (fun _ _ _ _ _ _ h1 => managerNumBlocksToAllocate_works h1) h

theorem hitsOf_eq_ok {bs : List BlockId} : hitsOf hits i = .ok bs ↔ hits[i]? = some bs := by
  unfold hitsOf
  split
  · next bs' h => simp [h]
  · next h => simp [h]

omit [DecidableEq η] in
theorem addHits_works {m : Manager η}
    (h : (do let bs ← hitsOf hits i; m.addLocalComputedBlocks p r bs nl ne) = .ok (m', p')) :
    Manager.Works m p m' p' := by
  rw [bind_eq_ok] at h
  obtain ⟨bs, hbs, h⟩ := h
  exact Manager.addLocalComputedBlocks_works h

theorem allocateNewComputedBlocks_conserves (h : c.allocateNewComputedBlocks r hits nl ne = .ok c') :
    Conserves c c' := by
  unfold allocateNewComputedBlocks at h
  split at h
  · split at h
    · cases h; exact .refl c
    · cases h
  rw [bind_eq_ok] at h
  obtain ⟨c1, h1, h⟩ := h
  have hlocal : Conserves c c1 := forManagers_conserves (fun _ _ _ _ _ h1 => addHits_works h1) h1
  refine hlocal.trans ?_
  split at h
  · cases pure_eq_ok.1 h; exact .refl _
  · exact forManagers_conserves (fun _ _ _ _ _ h2 => Manager.allocateExternalComputedBlocks_works h2) h

theorem allocateNewBlocks_conserves (h : c.allocateNewBlocks r nt main enc = .ok (bs, c')) : Conserves c c' := by
  simp only [allocateNewBlocks, do_eq_ok] at h
  obtain ⟨⟨ns, ms, p⟩, h, he⟩ := h
  cases he
  exact traverse_of_works (fun _ _ _ _ _ _ h1 => Manager.allocateNewBlocks_works h1) h

theorem cacheBlocks_conserves {n : Nat} (h : c.cacheBlocks request n = .ok c') : Conserves c c' :=
  forManagers_conserves (fun _ _ _ _ _ h1 => Manager.cacheBlocks_works h1) h

end Methods

theorem heldBy_pop (ms : List (Manager η)) (r : RequestId) :
    heldBy (ms.map fun m => (m.popBlocksForFree r).2) + refsTo (ms.flatMap fun m => (m.popBlocksForFree r).1) =
      heldBy ms := by
  induction ms with
  | nil => simp
  | cons m ms ih =>
    rw [map_cons, flatMap_cons, heldBy_cons, heldBy_cons, refsTo_append, ← ih, ← m.popBlocksForFree_held r]
    ac_rfl

theorem heldBy_takeCopies (ms : List (Manager η)) : heldBy (ms.map fun m => m.takePendingCowCopies.2) +
      refsTo (endpoints (ms.flatMap fun m => m.takePendingCowCopies.1)) = heldBy ms := by
  induction ms with
  | nil => simp [endpoints]
  | cons m ms ih =>
    rw [map_cons, flatMap_cons, heldBy_cons, heldBy_cons, endpoints_append, refsTo_append, ← ih,
      ← m.takePendingCowCopies_held]
    ac_rfl

theorem heldBy_map {f : Manager η → Manager η} (hf : ∀ m, Manager.SameTables m (f m)) (ms : List (Manager η)) :
    heldBy (ms.map f) = heldBy ms := by
  induction ms with
  | nil => rfl
  | cons m ms ih => rw [map_cons, heldBy_cons, heldBy_cons, ih, (hf m).held]

end Coordinator

namespace KVCacheManager
variable {k k' : KVCacheManager η} {r : RequestId} {b : BlockId}

section Methods
variable [DecidableEq η] {a : AllocArgs} {c c' : Coordinator η}

theorem fullSequenceFits_conserves {b : Bool} (h : k.fullSequenceFits request a hits = .ok (b, c)) :
    k.coordinator.Conserves c := by
  unfold fullSequenceFits at h
  split at h
  · simp only [do_eq_ok] at h
    obtain ⟨⟨n, c1⟩, h1, he⟩ := h
    cases he
    exact getNumBlocksToAllocate_conserves h1
  · cases h; exact .refl _

theorem allocateComputed_conserves (h : allocateComputed c request a hits = .ok c') : c.Conserves c' := by
  unfold allocateComputed at h
  split at h
  · exact allocateNewComputedBlocks_conserves h
  · cases h; exact .refl _

theorem cacheAllocated_conserves (h : k.cacheAllocated c request a = .ok c') : c.Conserves c' := by
  unfold cacheAllocated at h
  split at h
  · cases h; exact .refl _
  · exact cacheBlocks_conserves h

/-- Whether it returns blocks or `None`, `allocate_slots` keeps the accounts and leaves every table its blocks. -/
theorem allocateSlots_conserves {res : Option (List (List BlockId))} (h : k.allocateSlots request a = .ok (res, k')) :
    k.coordinator.Conserves k'.coordinator := by
  simp only [allocateSlots] at h
  rw [bind_eq_ok] at h
  obtain ⟨-, -, h⟩ := h
  rw [bind_eq_ok] at h
  obtain ⟨⟨fits, c1⟩, h1, h⟩ := h
  have hfits := fullSequenceFits_conserves h1
  dsimp only at h
  split at h
  · cases pure_eq_ok.1 h; exact hfits
  rw [bind_eq_ok] at h
  obtain ⟨c2, h2, h⟩ := h
  rw [bind_eq_ok] at h
  obtain ⟨⟨n, c3⟩, h3, h⟩ := h
  have hneed := (hfits.trans (removeSkippedBlocks_conserves h2)).trans (getNumBlocksToAllocate_conserves h3)
  dsimp only at h
  split at h
  · cases pure_eq_ok.1 h; exact hneed
  simp only [do_eq_ok] at h
  obtain ⟨c4, h4, ⟨bs, c5⟩, h5, c6, h6, he⟩ := h
  cases he
  exact ((hneed.trans (allocateComputed_conserves h4)).trans (allocateNewBlocks_conserves h5)).trans
    (cacheAllocated_conserves h6)

end Methods

/-- One manager of `recycle_sliding_windows`. -/
theorem recycled_works {n : Nat} (_ : Nat) (m : Manager η) (p : BlockPool η) (m' : Manager η) (p' : BlockPool η)
    (h : (match m.spec.kind with
      | .slidingWindow .. | .chunkedLocal _ => m.removeSkippedBlocks p r n none
      | _ => .ok (m, p)) = .ok (m', p')) : Manager.Works m p m' p' := by
  split at h
  · exact (Manager.removeSkippedBlocks_works h).1
  · exact (Manager.removeSkippedBlocks_works h).1
  · cases h; exact .refl ..

/-- The manager, and the lists of blocks that are on their way back to the pool. -/
structure RefState (η : Type) where
  manager : KVCacheManager η
  /-- results of `pop_blocks_for_free` that are not freed yet -/
  popped : List (List BlockId) := []
  /-- endpoints of taken copies that are not freed yet -/
  retained : List (List BlockId) := []

/-- The operations that add no block to a table and, but for the tables they drop, take none out. Deferred lists are
freed at any later time, in any order. -/
inductive UpkeepStep [DecidableEq η] : RefState η → RefState η → Prop
  | free {s : RefState η} {k' : KVCacheManager η} (r : RequestId) (h : s.manager.free r = .ok k') :
      UpkeepStep s { s with manager := k' }
  | popBlocksForFree {s : RefState η} (r : RequestId) :
      UpkeepStep s { s with
        manager := (s.manager.popBlocksForFree r).2, popped := (s.manager.popBlocksForFree r).1 :: s.popped }
  | freePopped {s : RefState η} {k' : KVCacheManager η} (u v : List (List BlockId)) (bs bs' : List BlockId)
      (hs : s.popped = u ++ bs :: v) (hperm : bs'.Perm bs) (h : s.manager.freeBlocks bs' = .ok k') :
      UpkeepStep s { s with manager := k', popped := u ++ v }
  | reserve {s : RefState η} {c : Coordinator η} {n : Int} (r : RequestId) (nt : Nat) (hits : List (List BlockId))
      (enc tot nl main : Nat) (cap : Bool)
      (h : s.manager.coordinator.getNumBlocksToAllocate r nt hits enc tot nl main cap = .ok (n, c)) :
      UpkeepStep s { s with manager := { s.manager with coordinator := c } }
  | cacheBlocks {s : RefState η} {k' : KVCacheManager η} (request : Request η) (n : Nat)
      (h : s.manager.cacheBlocks request n = .ok k') : UpkeepStep s { s with manager := k' }
  | takeCopies {s : RefState η} :
      UpkeepStep s { s with
        manager := s.manager.takeKvCacheBlockCopies.2.2
        retained := s.manager.takeKvCacheBlockCopies.2.1 :: s.retained }
  | freeRetained {s : RefState η} {k' : KVCacheManager η} (u v : List (List BlockId)) (bs bs' : List BlockId)
      (hs : s.retained = u ++ bs :: v) (hperm : bs'.Perm bs) (h : s.manager.freeBlocks bs' = .ok k') :
      UpkeepStep s { s with manager := k', retained := u ++ v }
  | evictBlocks {s : RefState η} {k' : KVCacheManager η} (ids : List BlockId)
      (h : s.manager.evictBlocks ids = .ok k') : UpkeepStep s { s with manager := k' }
  | resetPrefixCache {s : RefState η} : UpkeepStep s { s with manager := s.manager.resetPrefixCache.2 }
  | newStepStarts {s : RefState η} : UpkeepStep s { s with manager := s.manager.newStepStarts }
  | takeNewBlockIds {s : RefState η} : UpkeepStep s { s with manager := s.manager.takeNewBlockIds.2 }
  | takeBoundaryStateOffloads {s : RefState η} :
      UpkeepStep s { s with manager := s.manager.takeBoundaryStateOffloads.2 }
  | finalizePartialTailOffloads {s : RefState η} (request : Request η) :
      UpkeepStep s { s with manager := (s.manager.finalizePartialTailOffloads request).2 }
  | recordBlocksForZeroing {s : RefState η} {k' : KVCacheManager η} (r : RequestId) (startToken : Nat)
      (h : s.manager.recordBlocksForZeroing r startToken = .ok k') : UpkeepStep s { s with manager := k' }

/-- The operations of a run. -/
inductive RefStep [DecidableEq η] : RefState η → RefState η → Prop
  | allocateSlots {s : RefState η} {k' : KVCacheManager η} (request : Request η) (a : AllocArgs)
      (res : Option (List (List BlockId))) (h : s.manager.allocateSlots request a = .ok (res, k')) :
      RefStep s { s with manager := k' }
  | removeSkippedBlocks {s : RefState η} {k' : KVCacheManager η} (r : RequestId) (n : Nat) (prompt : Option Nat)
      (h : s.manager.removeSkippedBlocks r n prompt = .ok k') : RefStep s { s with manager := k' }
  | recycleSlidingWindows {s : RefState η} {k' : KVCacheManager η} (request : Request η)
      (h : s.manager.recycleSlidingWindows request = .ok k') : RefStep s { s with manager := k' }
  | upkeep {s s' : RefState η} (h : UpkeepStep s s') : RefStep s s'

def RefReachable [DecidableEq η] (s : RefState η) : Prop :=
  ∃ cfg o w f k, KVCacheManager.init cfg o w f = .ok k ∧ Relation.ReflTransGen RefStep ⟨k, [], []⟩ s

def RefState.Accounted (s : RefState η) : Prop :=
  s.manager.pool.Accounts (heldBy s.manager.coordinator.managers +
    (refsTo s.popped.flatten + refsTo s.retained.flatten))

theorem freeBlocks_accounts {bs bs' : List BlockId} {R : BlockId → Nat} (hperm : bs'.Perm bs)
    (h : k.freeBlocks bs' = .ok k') (ha : k.pool.Accounts (refsTo bs + R)) :
    k'.pool.Accounts R ∧ k'.coordinator.managers = k.coordinator.managers := by
  simp only [freeBlocks, do_eq_ok] at h
  obtain ⟨q, hq, rfl⟩ := h
  rw [← refsTo_perm hperm] at ha
  obtain ⟨q', hq', hacc, -⟩ := ha.freeBlocks
  cases hq.symm.trans hq'
  exact ⟨hacc, rfl⟩

theorem refsTo_flatten_middle (u v : List (List BlockId)) (bs : List BlockId) :
    refsTo (u ++ bs :: v).flatten = refsTo bs + refsTo (u ++ v).flatten := by
  simp only [flatten_append, flatten_cons, refsTo_append]
  ac_rfl

variable {s s' : RefState η}

theorem recordBlocksForZeroing_eq {n : Nat} (h : k.recordBlocksForZeroing r n = .ok k') :
    ∃ f : Manager η → Manager η, (∀ m, Manager.SameTables m (f m)) ∧ k' = k.mapManagers f := by
  simp only [recordBlocksForZeroing, do_eq_ok] at h
  obtain ⟨-, -, rfl⟩ := h
  refine ⟨_, fun m => ?_, rfl⟩
  split
  · exact ⟨rfl, fun _ => rfl, rfl, rfl, rfl, fun _ h => .inl h⟩
  · exact .refl m

theorem RefState.Accounted.mapManagers {f : Manager η → Manager η} (ha : s.Accounted)
    (hf : ∀ m, Manager.SameTables m (f m)) :
    RefState.Accounted { s with manager := s.manager.mapManagers f } := by
  show s.manager.pool.Accounts (heldBy (s.manager.coordinator.managers.map f) + _)
  rw [heldBy_map hf]
  exact ha

theorem UpkeepStep.accounted [DecidableEq η] (h : UpkeepStep s s') (ha : s.Accounted) : s'.Accounted := by
  have hmap := @RefState.Accounted.mapManagers η s
  unfold RefState.Accounted at ha ⊢
  cases h with
  | free r h =>
    simp only [KVCacheManager.free, do_eq_ok] at h
    obtain ⟨c, hc, rfl⟩ := h
    exact (free_conserves hc _ ha).1
  | popBlocksForFree r =>
    rw [← heldBy_pop s.manager.coordinator.managers r] at ha
    show s.manager.pool.Accounts (heldBy (s.manager.coordinator.managers.map _) +
      (refsTo (_ :: s.popped).flatten + _))
    rw [flatten_cons, refsTo_append]
    simp only [add_assoc] at ha ⊢
    exact ha
  | freePopped u v bs bs' hs hperm h =>
    rw [hs, refsTo_flatten_middle, add_assoc, add_left_comm] at ha
    obtain ⟨hacc, hms⟩ := freeBlocks_accounts hperm h ha
    show BlockPool.Accounts _ (heldBy _ + _)
    rw [hms]
    exact hacc
  | reserve r nt hits enc tot nl main cap h => exact (getNumBlocksToAllocate_conserves h _ ha).1
  | cacheBlocks request n h =>
    unfold KVCacheManager.cacheBlocks at h
    split at h
    · simp only [do_eq_ok] at h
      obtain ⟨c, hc, rfl⟩ := h
      exact (cacheBlocks_conserves hc _ ha).1
    · cases h; exact ha
  | takeCopies =>
    rw [← heldBy_takeCopies s.manager.coordinator.managers] at ha
    show s.manager.pool.Accounts (heldBy (s.manager.coordinator.managers.map _) +
      (_ + refsTo (endpoints _ :: s.retained).flatten))
    rw [flatten_cons, refsTo_append, add_left_comm (refsTo s.popped.flatten), ← add_assoc]
    exact ha
  | freeRetained u v bs bs' hs hperm h =>
    rw [hs, refsTo_flatten_middle, add_left_comm (refsTo s.popped.flatten), add_left_comm] at ha
    obtain ⟨hacc, hms⟩ := freeBlocks_accounts hperm h ha
    show BlockPool.Accounts _ (heldBy _ + _)
    rw [hms]
    exact hacc
  | evictBlocks ids h =>
    simp only [KVCacheManager.evictBlocks, do_eq_ok] at h
    obtain ⟨q, hq, rfl⟩ := h
    exact ha.sameRefs (BlockPool.sameRefs_evictBlocks hq)
  | resetPrefixCache => exact ha.sameRefs (BlockPool.sameRefs_resetPrefixCache _)
  | newStepStarts => exact hmap ha Manager.newStepStarts_same
  | takeNewBlockIds => exact hmap ha Manager.takeNewBlockIds_same
  | takeBoundaryStateOffloads => exact hmap ha Manager.takePendingBoundaryStateOffloads_same
  | finalizePartialTailOffloads request => exact hmap ha fun m => m.finalizePartialTailOffload_same ..
  | recordBlocksForZeroing r n h =>
    obtain ⟨f, hf, rfl⟩ := recordBlocksForZeroing_eq h
    exact hmap ha hf

theorem RefStep.accounted [DecidableEq η] (h : RefStep s s') (ha : s.Accounted) : s'.Accounted := by
  cases h with
  | allocateSlots request a res h => exact (allocateSlots_conserves h _ ha).1
  | removeSkippedBlocks r n prompt h =>
    simp only [KVCacheManager.removeSkippedBlocks, do_eq_ok] at h
    obtain ⟨c, hc, rfl⟩ := h
    exact (removeSkippedBlocks_conserves hc _ ha).1
  | recycleSlidingWindows request h =>
    simp only [KVCacheManager.recycleSlidingWindows, do_eq_ok] at h
    obtain ⟨c, hc, rfl⟩ := h
    exact (forManagers_conserves recycled_works hc _ ha).1
  | upkeep h => exact h.accounted ha

theorem heldBy_eq_zero {ms : List (Manager η)} (h : ∀ m ∈ ms, m.held = 0) : heldBy ms = 0 := by
  induction ms with
  | nil => rfl
  | cons m ms ih =>
    rw [heldBy_cons, h m (by simp), ih fun x hx => h x (by simp [hx]), add_zero]

theorem init_accounted {cfg : Coordinator.KVCacheConfig} {o : Coordinator.KVCacheOptions} {w : Nat} {f : Bool}
    (h : KVCacheManager.init cfg o w f = .ok k) : RefState.Accounted (η := η) ⟨k, [], []⟩ := by
  simp only [KVCacheManager.init, do_eq_ok] at h
  obtain ⟨c, hc, rfl⟩ := h
  simp only [Coordinator.init, do_eq_ok] at hc
  obtain ⟨-, -, p, hp, -, -, ret, -, -, -, rfl⟩ := hc
  have hzero : ∀ m : Manager η, m.reqToBlocks = Dict.empty → m.pendingCowCopies = [] → m.held = 0 := by
    intro m h1 h2
    funext b
    simp [Manager.held, Manager.tableRefs, h1, h2, endpoints]
  unfold RefState.Accounted
  rw [heldBy_eq_zero, flatten_nil, refsTo_nil, add_zero, add_zero]
  · exact BlockPool.init_accounts hp
  · intro m hm
    simp only [mem_map, Coordinator.initManagers] at hm
    obtain ⟨_, ⟨g, -, rfl⟩, rfl⟩ := hm
    exact hzero _ rfl rfl

theorem RefReachable.accounted [DecidableEq η] (h : RefReachable s) : s.Accounted := by
  obtain ⟨cfg, o, w, f, k, hk, hrun⟩ := h
  induction hrun with
  | refl => exact init_accounted hk
  | tail _ hstep ih => exact hstep.accounted ih

/-- Where a block is named: in the tables of all managers, in popped lists, in pending copies and in
retained endpoints. -/
def RefState.occurrences (s : RefState η) (b : BlockId) : Nat :=
  (s.manager.coordinator.managers.map fun m => m.reqToBlocks.total fun _ bs => bs.count b).sum +
    s.popped.flatten.count b +
    (s.manager.coordinator.managers.map fun m => (endpoints m.pendingCowCopies).count b).sum +
    s.retained.flatten.count b

theorem refsTo_apply (hb : b ≠ nullBlock) (bs : List BlockId) : refsTo bs b = bs.count b := if_neg hb

theorem heldBy_apply (hb : b ≠ nullBlock) (ms : List (Manager η)) :
    heldBy ms b = (ms.map fun m => m.reqToBlocks.total fun _ bs => bs.count b).sum +
      (ms.map fun m => (endpoints m.pendingCowCopies).count b).sum := by
  induction ms with
  | nil => rfl
  | cons m ms ih =>
    have hm : m.held b = (m.reqToBlocks.total fun _ bs => bs.count b) + (endpoints m.pendingCowCopies).count b := by
      simp only [Manager.held, Manager.tableRefs, Pi.add_apply, refsTo_apply hb]
    rw [heldBy_cons, Pi.add_apply, ih, hm, map_cons, map_cons, sum_cons, sum_cons]
    omega

theorem RefState.Accounted.refCnt_eq (ha : s.Accounted) (hb : b ≠ nullBlock) :
    (s.manager.pool.blocks b).refCnt = s.occurrences b := by
  rw [ha.refs b hb]
  simp only [Pi.add_apply, refsTo_apply hb, heldBy_apply hb, RefState.occurrences]
  push_cast
  omega

theorem RefState.Accounted.exists_free (ha : s.Accounted) : ∃ free, s.manager.pool.freeBlockQueue.Holds free ∧
    ∀ b, b ≠ nullBlock → b < s.manager.pool.numGpuBlocks →
      free.count b = if s.occurrences b = 0 then 1 else 0 := by
  obtain ⟨free, hfree, hmem⟩ := ha.queue
  refine ⟨free, hfree, fun b hb hlt => ?_⟩
  have hiff := hmem b
  simp only [hb, hlt, ne_eq, not_false_eq_true, true_and] at hiff
  have hzero : s.occurrences b = 0 ↔ b ∈ free := by
    rw [hiff, ← Int.natCast_eq_zero, ← ha.refCnt_eq hb, ha.refs b hb, Int.natCast_eq_zero]
  rw [hfree.lists.nodup.count]
  simp only [hzero]

/-- In every state of every run, the reference count of a block is the number of its occurrences, and the
free queue links the blocks whose count is zero, each once. -/
theorem refCnt_eq_occurrences [DecidableEq η] (s : RefState η) (h : RefReachable s) :
    ∃ free, s.manager.pool.freeBlockQueue.Holds free ∧
      ∀ b, b ≠ nullBlock → b < s.manager.pool.numGpuBlocks →
        (s.manager.pool.blocks b).refCnt = s.occurrences b ∧
          free.count b = if (s.manager.pool.blocks b).refCnt = 0 then 1 else 0 := by
  obtain ⟨free, hfree, hcount⟩ := h.accounted.exists_free
  refine ⟨free, hfree, fun b hb hlt => ?_⟩
  have href := h.accounted.refCnt_eq hb
  refine ⟨href, ?_⟩
  rw [hcount b hb hlt, href]
  simp only [Int.natCast_eq_zero]

def twoGroups : Coordinator.KVCacheConfig where
  numBlocks := 8
  groups := [⟨⟨4, .fullAttention, pos_four, 0⟩, false⟩, ⟨⟨4, .slidingWindow 5 0, pos_four, 0⟩, false⟩]

def twoGroupsOptions : Coordinator.KVCacheOptions where
  maxModelLen := 64
  maxInFlightTokens := 64
  schedulerBlockSize := 4
  hashBlockSize := 4

/-- Two requests are given blocks, those of one are popped; then both are freed. -/
theorem twoGroups_run : ∃ s s' : RefState Nat, (RefReachable s ∧ s.manager.pool.numGpuBlocks = 8 ∧
      s.manager.getBlockIds 7 = [[1, 2], [3, 4]] ∧ s.popped = [[5, 6]] ∧ s.manager.resetPrefixCache.1 = false) ∧
    RefReachable s' ∧ s'.manager.pool.numGpuBlocks = 8 ∧ s'.manager.resetPrefixCache.1 = true := by
  have hused : ∃ s : RefState Nat, RefReachable s ∧ s.manager.pool.numGpuBlocks = 8 ∧
      s.manager.getBlockIds 7 = [[1, 2], [3, 4]] ∧ s.popped = [[5, 6]] ∧ s.manager.resetPrefixCache.1 = false ∧
      ∃ s', RefStep s s' ∧ ∃ s'', RefStep s' s'' ∧ s''.manager.pool.numGpuBlocks = 8 ∧
        s''.manager.resetPrefixCache.1 = true :=
    ⟨_, ⟨twoGroups, twoGroupsOptions, 0, false, _, rfl, .tail (.tail (.single (.allocateSlots
      { requestId := 7, allTokenIds := [1, 2, 3, 4, 5], blockHashes := [11] } { numNewTokens := 5 } _ rfl))
      (.allocateSlots { requestId := 8, allTokenIds := [1, 2, 3] } { numNewTokens := 3 } _ rfl))
      (.upkeep (.popBlocksForFree 8))⟩, rfl, rfl, rfl, rfl, _, .upkeep (.free 7 rfl), _,
      .upkeep (.freePopped [] [] [5, 6] [6, 5] rfl (.swap ..) rfl), rfl, rfl⟩
  obtain ⟨s, hs, hn, htables, hpopped, hreset, s', hfree, s'', hpop, hn', hreset'⟩ := hused
  refine ⟨s, s'', ⟨hs, hn, htables, hpopped, hreset⟩, ?_, hn', hreset'⟩
  obtain ⟨cfg, o, w, f, k, hinit, hrun⟩ := hs
  exact ⟨cfg, o, w, f, k, hinit, (hrun.tail hfree).tail hpop⟩

/-- One request holds two blocks of each group, another one was popped and waits to be freed. -/
theorem refCnt_eq_occurrences_twoGroups :
    ∃ s : RefState Nat, RefReachable s ∧ s.manager.getBlockIds 7 = [[1, 2], [3, 4]] ∧ s.popped = [[5, 6]] ∧
      ∃ free, s.manager.pool.freeBlockQueue.Holds free ∧
        ∀ b, b ≠ nullBlock → b < s.manager.pool.numGpuBlocks →
          (s.manager.pool.blocks b).refCnt = s.occurrences b ∧
            free.count b = if (s.manager.pool.blocks b).refCnt = 0 then 1 else 0 := by
  obtain ⟨s, -, ⟨hreach, -, htables, hpopped, -⟩, -⟩ := twoGroups_run
  exact ⟨s, hreach, htables, hpopped, refCnt_eq_occurrences s hreach⟩

theorem resetPrefixCache_iff_unused [DecidableEq η] (s : RefState η) (h : RefReachable s)
    (hpos : 0 < s.manager.pool.numGpuBlocks) : s.manager.resetPrefixCache.1 = true ↔
      ∀ b, b ≠ nullBlock → b < s.manager.pool.numGpuBlocks → s.occurrences b = 0 := by
  have ha := h.accounted
  refine (ha.resetPrefixCache_iff hpos).trans (forall_congr' fun b => forall_congr' fun hb => ?_)
  rw [← Int.natCast_eq_zero, ← ha.refs b hb, ha.refCnt_eq hb, Int.natCast_eq_zero]

/-- With blocks in a table and in a popped list the reset fails; after the frees it succeeds. -/
theorem resetPrefixCache_iff_unused_twoGroups : ∃ s s' : RefState Nat,
    (RefReachable s ∧ s.popped = [[5, 6]] ∧ ¬ ∀ b, b ≠ nullBlock → b < 8 → s.occurrences b = 0) ∧
    RefReachable s' ∧ ∀ b, b ≠ nullBlock → b < 8 → s'.occurrences b = 0 := by
  obtain ⟨s, s', ⟨hs, hn, -, hpopped, hreset⟩, hs', hn', hreset'⟩ := twoGroups_run
  have hused := resetPrefixCache_iff_unused s hs (hn ▸ Nat.succ_pos 7)
  have hfreed := resetPrefixCache_iff_unused s' hs' (hn' ▸ Nat.succ_pos 7)
  rw [hreset, hn] at hused
  rw [hreset', hn'] at hfreed
  exact ⟨s, s', ⟨hs, hpopped, fun h => by cases hused.2 h⟩, hs', hfreed.1 rfl⟩

end KVCacheManager

end VllmCore
