import Mathlib

/-! # Binary heaps in a list

The `heapq` algorithms, over a comparison `lt` that is passed with each call: the keys of the elements may
change between two calls. An operation promises no order here, only that it moves the elements around and
that `pop` takes the first one. -/

universe u

namespace Heapq
open List
variable {α : Type u} (lt : α → α → Bool) (heap : List α)

/-- The loop of `_siftdown`: the element at `pos` moves up while it is smaller than its parent. Each round
halves the position, so a fuel of `pos` is enough. -/
def siftdownLoop (startpos : Nat) : Nat → List α → Nat → List α
  | 0, heap, _ => heap
  | fuel + 1, heap, pos =>
    if pos > startpos then
      let parentpos := (pos - 1) / 2
      match heap[pos]?, heap[parentpos]? with
      | some newitem, some parent =>
        if lt newitem parent then siftdownLoop startpos fuel (heap.swap pos parentpos) parentpos else heap
      | _, _ => heap
    else heap

def siftdown (startpos pos : Nat) : List α := siftdownLoop lt startpos pos heap pos

/-- The smaller child of `pos`: the right one unless the left one is smaller. -/
def smallerChild (pos : Nat) : Nat :=
  match heap[2 * pos + 1]?, heap[2 * pos + 2]? with
  | some left, some right => if lt left right then 2 * pos + 1 else 2 * pos + 2
  | _, _ => 2 * pos + 1

/-- The loop of `_siftup`: the element at `pos` trades places with its smaller child down to a leaf. The
answer has the leaf's position. -/
def siftupLoop : Nat → List α → Nat → List α × Nat
  | 0, heap, pos => (heap, pos)
  | fuel + 1, heap, pos =>
    if 2 * pos + 1 < heap.length then
      let childpos := smallerChild lt heap pos
      siftupLoop fuel (heap.swap pos childpos) childpos
    else (heap, pos)

def siftup (pos : Nat) : List α :=
  let (heap, leaf) := siftupLoop lt heap.length heap pos
  siftdown lt heap pos leaf

def heappush (item : α) : List α := siftdown lt (heap ++ [item]) 0 heap.length

/-- The first element, and the heap without it; `none` for an empty heap. -/
def heappop : Option (α × List α) :=
  match heap with
  | [] => none
  | first :: rest =>
    match rest.getLast? with
    | none => some (first, [])
    | some lastelt => some (first, siftup lt (lastelt :: rest.dropLast) 0)

def heapify : List α := (List.range (heap.length / 2)).foldr (fun i h => siftup lt h i) heap

/-- The elements in the order in which a copy of the heap gives them up. -/
def drain : Nat → List α → List α
  | 0, _ => []
  | fuel + 1, heap =>
    match heappop lt heap with
    | none => []
    | some (x, heap) => x :: drain fuel heap

/-! ### The operations only move elements -/

theorem siftdownLoop_perm (startpos fuel : Nat) (heap : List α) (pos : Nat) :
    (siftdownLoop lt startpos fuel heap pos).Perm heap := by
  induction fuel generalizing heap pos with
  | zero => exact .refl _
  | succ fuel ih =>
    unfold siftdownLoop
    split
    · dsimp only
      split
      · split
        · exact (ih _ _).trans (swap_perm ..)
        · exact .refl _
      · exact .refl _
    · exact .refl _

theorem siftdown_perm (startpos pos : Nat) : (siftdown lt heap startpos pos).Perm heap :=
  siftdownLoop_perm ..

theorem siftupLoop_perm (fuel : Nat) (heap : List α) (pos : Nat) : (siftupLoop lt fuel heap pos).1.Perm heap := by
  induction fuel generalizing heap pos with
  | zero => exact .refl _
  | succ fuel ih =>
    unfold siftupLoop
    split
    · exact (ih _ _).trans (swap_perm ..)
    · exact .refl _

theorem siftup_perm (pos : Nat) : (siftup lt heap pos).Perm heap :=
  (siftdown_perm lt _ pos _).trans (siftupLoop_perm lt heap.length heap pos)

theorem heappush_perm (item : α) : (heappush lt heap item).Perm (item :: heap) :=
  (siftdown_perm ..).trans (perm_append_singleton ..)

theorem heapify_perm : (heapify lt heap).Perm heap := by
  unfold heapify
  induction List.range (heap.length / 2) with
  | nil => exact .refl _
  | cons i is ih => exact (siftup_perm lt _ i).trans ih

theorem heappop_head {heap heap' : List α} {x : α} (h : heappop lt heap = some (x, heap')) : heap.head? = some x := by
  unfold heappop at h
  split at h
  · cases h
  · split at h <;> cases h <;> rfl

theorem heappop_perm {heap heap' : List α} {x : α} (h : heappop lt heap = some (x, heap')) :
    heap.Perm (x :: heap') := by
  unfold heappop at h
  split at h
  · cases h
  · next first rest =>
    split at h
    · next hlast =>
      cases h
      rw [getLast?_eq_none_iff.1 hlast]
    · next lastelt hlast =>
      cases h
      have hrest : rest = rest.dropLast ++ [lastelt] :=
        (dropLast_append_getLast? lastelt hlast).symm
      refine Perm.cons _ (.trans ?_ (siftup_perm lt _ 0).symm)
      conv_lhs => rw [hrest]
      exact perm_append_singleton ..

theorem heappop_isSome {heap : List α} (h : heap ≠ []) : ∃ x heap', heappop lt heap = some (x, heap') := by
  unfold heappop
  split
  · exact absurd rfl h
  · split
    · exact ⟨_, _, rfl⟩
    · exact ⟨_, _, rfl⟩

theorem drain_perm {fuel : Nat} {heap : List α} (hfuel : heap.length ≤ fuel) : (drain lt fuel heap).Perm heap := by
  induction fuel generalizing heap with
  | zero => rw [eq_nil_of_length_eq_zero (Nat.le_zero.1 hfuel)]; exact .refl _
  | succ fuel ih =>
    unfold drain
    split
    · next hnone =>
      by_cases he : heap = []
      · rw [he]
      · obtain ⟨x, heap', hsome⟩ := heappop_isSome lt he
        rw [hnone] at hsome; cases hsome
    · next x heap' hsome =>
      have hperm := heappop_perm lt hsome
      have hlen := hperm.length_eq
      rw [length_cons] at hlen
      exact ((ih (by omega)).cons x).trans hperm.symm

end Heapq
