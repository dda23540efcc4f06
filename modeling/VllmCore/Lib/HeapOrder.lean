import VllmCore.Lib.Heapq

/-! # The order of a heap

The `heapq` operations on a list that is ordered as a heap: no element is smaller than its parent. The
comparison may tie, as one on keys does. -/

universe u

namespace Heapq
open List
variable {α : Type u} {lt : α → α → Bool} {heap heap' : List α} {start pos : Nat} {fuel j : Nat} {x y : α}

/-- A comparison of keys from a linear order. -/
structure Comparison (lt : α → α → Bool) : Prop where
  asymm : ∀ {a b}, lt a b = true → lt b a = false
  trans : ∀ {a b c}, lt b a = false → lt c b = false → lt c a = false

theorem Comparison.irrefl (h : Comparison lt) (a : α) : lt a a = false := by
  by_contra hne
  exact hne (h.asymm (Bool.not_eq_false _ ▸ hne))

def parent (j : Nat) : Nat := (j - 1) / 2

def OrderedFrom (lt : α → α → Bool) (start : Nat) (heap : List α) : Prop :=
  ∀ j x y, 0 < j → start ≤ parent j → heap[parent j]? = some x → heap[j]? = some y → lt y x = false

def Ordered (lt : α → α → Bool) (heap : List α) : Prop := OrderedFrom lt 0 heap

/-- What `_siftdown` starts from: only the element at `pos` may be smaller than its parent, and then the
parent may take its place. -/
structure UpOrder (lt : α → α → Bool) (start : Nat) (heap : List α) (pos : Nat) : Prop where
  others : ∀ j x y, 0 < j → start ≤ parent j → j ≠ pos → heap[parent j]? = some x → heap[j]? = some y → lt y x = false
  across : ∀ j x y, 0 < j → parent j = pos → start < pos → heap[parent pos]? = some x → heap[j]? = some y →
    lt y x = false

/-- What the way of `_siftup` to a leaf keeps: the element at `pos` is not compared with its neighbours. -/
structure DownOrder (lt : α → α → Bool) (start : Nat) (heap : List α) (pos : Nat) : Prop where
  others : ∀ j x y, 0 < j → start ≤ parent j → j ≠ pos → parent j ≠ pos → heap[parent j]? = some x →
    heap[j]? = some y → lt y x = false
  across : ∀ j x y, 0 < j → parent j = pos → start < pos → heap[parent pos]? = some x → heap[j]? = some y →
    lt y x = false

inductive Under (start : Nat) : Nat → Prop
  | root : Under start start
  | child {j : Nat} (hj : 0 < j) (h : Under start (parent j)) : Under start j

theorem parent_lt (hj : 0 < j) : parent j < j := by unfold parent; omega

theorem Under.le (h : Under start pos) : start ≤ pos := by
  induction h with
  | root => exact Nat.le_refl _
  | child hj _ ih => exact Nat.le_trans ih (Nat.le_of_lt (parent_lt hj))

theorem Under.parent (h : Under start pos) (hlt : start < pos) : Under start (parent pos) := by
  cases h with
  | root => exact absurd hlt (Nat.lt_irrefl _)
  | child _ h => exact h

theorem getElem?_swap {i : Nat} (hi : i < heap.length) (hj : j < heap.length) (k : Nat) :
    (heap.swap i j)[k]? = if k = j then heap[i]? else if k = i then heap[j]? else heap[k]? := by
  rw [swap_eq_of_lt hi hj, getElem?_set, getElem?_set, length_set, getElem?_eq_getElem hi,
    getElem?_eq_getElem hj]
  grind

/-! ### Moving up -/

variable (hlt : Comparison lt)
include hlt

/-- The element at `pos` is smaller than its parent and takes its place. -/
theorem UpOrder.swap (h : UpOrder lt start heap pos) (hu : Under start pos) (hs : start < pos)
    (hx : heap[parent pos]? = some x) (hy : heap[pos]? = some y) (hyx : lt y x = true) :
    UpOrder lt start (heap.swap pos (parent pos)) (parent pos) := by
  have hpos : 0 < pos := Nat.lt_of_le_of_lt (Nat.zero_le _) hs
  have hpar := parent_lt hpos
  have hle := (hu.parent hs).le
  obtain ⟨hlen, -⟩ := List.getElem?_eq_some_iff.1 hy
  have hget := getElem?_swap hlen (Nat.lt_trans hpar hlen)
  constructor
  · intro j a b hj hsj hne ha hb
    rw [hget] at ha hb
    rw [if_neg hne] at hb
    by_cases hp : Heapq.parent j = Heapq.parent pos
    · -- a child of the new place, which was `pos` or its sibling
      rw [if_pos hp, hy] at ha
      cases ha
      by_cases hjp : j = pos
      · rw [if_pos hjp, hx] at hb
        cases hb
        exact hlt.asymm hyx
      · rw [if_neg hjp] at hb
        exact hlt.trans (hlt.asymm hyx) (h.others j x b hj hsj hjp (hp ▸ hx) hb)
    · rw [if_neg hp] at ha
      have hjp : j ≠ pos := fun he => hp (he ▸ rfl)
      rw [if_neg hjp] at hb
      by_cases hc : Heapq.parent j = pos
      · rw [if_pos hc, hx] at ha
        cases ha
        exact h.across j x b hj hc hs hx hb
      · rw [if_neg hc] at ha
        exact h.others j a b hj hsj hjp ha hb
  · intro j a b hj hp hs' ha hb
    have hpp := parent_lt (Nat.lt_of_le_of_lt (Nat.zero_le _) hs')
    rw [hget, if_neg (by omega), if_neg (by omega)] at ha
    have hxa := h.others _ a x (by omega) ((hu.parent hs).parent hs').le (by omega) ha hx
    rw [hget] at hb
    by_cases hjp : j = pos
    · rw [if_neg (by omega), if_pos hjp, hx] at hb
      cases hb
      exact hxa
    · rw [if_neg (by have := parent_lt hj; omega), if_neg hjp] at hb
      exact hlt.trans hxa (h.others j x b hj (hp ▸ hle) hjp (hp ▸ hx) hb)

omit hlt in
theorem UpOrder.ordered (h : UpOrder lt start heap pos)
    (hlast : ∀ x y, start < pos → heap[parent pos]? = some x → heap[pos]? = some y → lt y x = false) :
    OrderedFrom lt start heap := by
  intro j x y hj hs hx hy
  by_cases hjp : j = pos
  · subst hjp
    exact hlast x y (Nat.lt_of_le_of_lt hs (parent_lt hj)) hx hy
  · exact h.others j x y hj hs hjp hx hy

theorem siftdownLoop_ordered (hfuel : pos ≤ fuel) (hu : Under start pos) (h : UpOrder lt start heap pos) :
    OrderedFrom lt start (siftdownLoop lt start fuel heap pos) := by
  induction fuel generalizing heap pos with
  | zero =>
    have := hu.le
    exact h.ordered fun _ _ hs => absurd hs (by omega)
  | succ fuel ih =>
    unfold siftdownLoop
    split
    · next hs =>
      have hpar := parent_lt (Nat.lt_of_le_of_lt (Nat.zero_le _) hs)
      dsimp only
      split
      · next newitem par hnew hpar' =>
        split
        · next hyx =>
          exact ih (Nat.le_of_lt_succ (Nat.lt_of_lt_of_le hpar hfuel)) (hu.parent hs) (h.swap hlt hu hs hpar' hnew hyx)
        · next hyx =>
          refine h.ordered fun x y _ hx hy => ?_
          cases hpar'.symm.trans hx
          cases hnew.symm.trans hy
          exact Bool.not_eq_true _ ▸ hyx
      · next hnone => exact h.ordered fun x y _ hx hy => (hnone y x hy hx).elim
    · next hs => exact h.ordered fun _ _ hs' => absurd hs' hs

/-! ### Moving down -/

omit hlt in
theorem smallerChild_eq (lt : α → α → Bool) (heap : List α) (pos : Nat) :
    smallerChild lt heap pos = 2 * pos + 1 ∨ smallerChild lt heap pos = 2 * pos + 2 := by
  unfold smallerChild
  split
  · split
    · exact .inl rfl
    · exact .inr rfl
  · exact .inl rfl

omit hlt in
theorem parent_eq (hj : 0 < j) : parent j = pos ↔ j = 2 * pos + 1 ∨ j = 2 * pos + 2 := by
  unfold parent
  omega

omit hlt in
theorem smallerChild_lt (h : 2 * pos + 1 < heap.length) : smallerChild lt heap pos < heap.length := by
  unfold smallerChild
  split
  · next hr =>
    split
    · exact h
    · exact (List.getElem?_eq_some_iff.1 hr).1
  · exact h

theorem smallerChild_le (hj : 0 < j) (hp : parent j = pos) (hx : heap[smallerChild lt heap pos]? = some x)
    (hy : heap[j]? = some y) : lt y x = false := by
  have hcase := (parent_eq hj).1 hp
  unfold smallerChild at hx
  split at hx
  · next left right hl hr =>
    split at hx
    · next hlr =>
      cases hl.symm.trans hx
      rcases hcase with rfl | rfl
      · cases hl.symm.trans hy; exact hlt.irrefl _
      · cases hr.symm.trans hy; exact hlt.asymm hlr
    · next hlr =>
      cases hr.symm.trans hx
      rcases hcase with rfl | rfl
      · cases hl.symm.trans hy; exact Bool.not_eq_true _ ▸ hlr
      · cases hr.symm.trans hy; exact hlt.irrefl _
  · next hnone =>
    rcases hcase with rfl | rfl
    · cases hx.symm.trans hy; exact hlt.irrefl _
    · exact (hnone x y hx hy).elim

theorem DownOrder.swap (h : DownOrder lt start heap pos) (hs : start ≤ pos) (hlen : 2 * pos + 1 < heap.length) :
    DownOrder lt start (heap.swap pos (smallerChild lt heap pos)) (smallerChild lt heap pos) := by
  have hchild := smallerChild_eq lt heap pos
  have hclen : smallerChild lt heap pos < heap.length := smallerChild_lt hlen
  have hle : ∀ j x y, 0 < j → parent j = pos → heap[smallerChild lt heap pos]? = some x → heap[j]? = some y →
      lt y x = false := fun j x y hj hp hx hy => smallerChild_le hlt hj hp hx hy
  generalize smallerChild lt heap pos = c at *
  have hcp : parent c = pos := (parent_eq (by omega)).2 hchild
  have hpos : pos < heap.length := by omega
  have hget := getElem?_swap hpos hclen
  constructor
  · intro j a b hj hsj hjc hpc ha hb
    rw [hget] at ha hb
    rw [if_neg hpc] at ha
    rw [if_neg hjc] at hb
    by_cases hp : parent j = pos
    · -- the sibling of the chosen child
      rw [if_pos hp] at ha
      rw [if_neg (by have := parent_lt hj; omega)] at hb
      exact hle j a b hj hp ha hb
    · rw [if_neg hp] at ha
      by_cases hjp : j = pos
      · subst hjp
        rw [if_pos rfl] at hb
        exact h.across c a b (by omega) hcp (Nat.lt_of_le_of_lt hsj (parent_lt hj)) ha hb
      · rw [if_neg hjp] at hb
        exact h.others j a b hj hsj hjp hp ha hb
  · intro j a b hj hp _ ha hb
    have hjc := parent_lt hj
    rw [hcp, hget, if_neg (by omega), if_pos rfl] at ha
    rw [hget, if_neg (by omega), if_neg (by omega)] at hb
    exact h.others j a b hj (by omega) (by omega) (by omega) (hp ▸ ha) hb

omit hlt in
theorem DownOrder.leaf (h : DownOrder lt start heap pos) (hlen : heap.length ≤ 2 * pos + 1) :
    UpOrder lt start heap pos := by
  refine ⟨fun j x y hj hsj hjp hx hy => h.others j x y hj hsj hjp (fun hp => ?_) hx hy, h.across⟩
  have hjl := (List.getElem?_eq_some_iff.1 hy).1
  have := (parent_eq hj).1 hp
  omega

theorem siftupLoop_ordered (hfuel : heap.length ≤ pos + fuel) (hu : Under start pos) (h : DownOrder lt start heap pos) :
    let res := siftupLoop lt fuel heap pos
    Under start res.2 ∧ UpOrder lt start res.1 res.2 := by
  induction fuel generalizing heap pos with
  | zero => exact ⟨hu, h.leaf (by omega)⟩
  | succ fuel ih =>
    unfold siftupLoop
    split
    · next hlen =>
      have hchild := smallerChild_eq lt heap pos
      have hpos : 0 < smallerChild lt heap pos := by omega
      have hpar := (parent_eq hpos).2 hchild
      have hlen' : (heap.swap pos (smallerChild lt heap pos)).length = heap.length := (swap_perm ..).length_eq
      refine ih (by omega) (.child hpos ?_) (h.swap hlt hu.le hlen)
      rw [hpar]
      exact hu
    · next hlen => exact ⟨hu, h.leaf (by omega)⟩

/-- Only the pairs of `start` and its children may be out of order. -/
theorem siftup_ordered (h : OrderedFrom lt (start + 1) heap) : OrderedFrom lt start (siftup lt heap start) := by
  have hdown : DownOrder lt start heap start :=
    ⟨fun j x y hj hs _ hp => h j x y hj (by omega), fun _ _ _ _ _ hs => absurd hs (Nat.lt_irrefl _)⟩
  obtain ⟨hu, hup⟩ := siftupLoop_ordered hlt (Nat.le_add_left ..) .root hdown
  exact siftdownLoop_ordered hlt (Nat.le_refl _) hu hup

/-! ### The operations -/

theorem heappush_ordered (h : Ordered lt heap) (item : α) : Ordered lt (heappush lt heap item) := by
  have hunder : ∀ j, Under 0 j := by
    intro j
    induction j using Nat.strongRecOn with
    | ind j ih =>
      rcases Nat.eq_zero_or_pos j with rfl | hj
      · exact .root
      · exact .child hj (ih _ (parent_lt hj))
  refine siftdownLoop_ordered hlt (Nat.le_refl _) (hunder _) ⟨fun j x y hj hs hne hx hy => ?_,
    fun j x y hj hp _ _ hy => ?_⟩
  · have hlen := (List.getElem?_eq_some_iff.1 hy).1
    rw [length_append, length_singleton] at hlen
    have := parent_lt hj
    rw [getElem?_append_left (by omega)] at hx hy
    exact h j x y hj hs hx hy
  · have hlen := (List.getElem?_eq_some_iff.1 hy).1
    rw [length_append, length_singleton] at hlen
    have := parent_lt hj
    omega

theorem heappop_ordered (h : Ordered lt heap) (hpop : heappop lt heap = some (x, heap')) : Ordered lt heap' := by
  unfold heappop at hpop
  split at hpop
  · cases hpop
  · next first rest =>
    split at hpop
    · cases hpop
      exact fun j x y _ _ _ hy => by simp at hy
    · next lastelt _ =>
      cases hpop
      refine siftup_ordered hlt fun j a b hj hs ha hb => ?_
      -- past the root the elements are those of the heap
      have hkeep : ∀ k c, 0 < k → (lastelt :: rest.dropLast)[k]? = some c → (x :: rest)[k]? = some c := by
        intro k c hk hc
        obtain ⟨k, rfl⟩ := Nat.exists_eq_succ_of_ne_zero (Nat.ne_of_gt hk)
        rw [getElem?_cons_succ] at hc ⊢
        rw [getElem?_dropLast] at hc
        split at hc
        · exact hc
        · cases hc
      exact h j a b hj (Nat.zero_le _) (hkeep _ a (by omega) ha) (hkeep j b hj hb)

theorem heapify_ordered (heap : List α) : Ordered lt (heapify lt heap) := by
  have hfold : ∀ k (heap : List α), OrderedFrom lt k heap →
      OrderedFrom lt 0 ((List.range k).foldr (fun i h => siftup lt h i) heap) := by
    intro k
    induction k with
    | zero => intro heap h; exact h
    | succ k ih =>
      intro heap h
      rw [range_succ, foldr_append]
      exact ih _ (siftup_ordered hlt h)
  refine hfold _ _ fun j x y hj hs _ hy => ?_
  have hlen := (List.getElem?_eq_some_iff.1 hy).1
  unfold parent at hs
  omega

theorem Ordered.root_le (h : Ordered lt heap) (hx : heap.head? = some x) (hy : y ∈ heap) : lt y x = false := by
  rw [head?_eq_getElem?] at hx
  obtain ⟨j, hj, rfl⟩ := mem_iff_getElem.1 hy
  induction j using Nat.strongRecOn with
  | ind j ih =>
    rcases Nat.eq_zero_or_pos j with rfl | hpos
    · rw [getElem?_eq_getElem hj] at hx
      cases hx
      exact hlt.irrefl _
    · have hpar := parent_lt hpos
      have hup := ih (parent j) hpar (by omega) (getElem_mem _)
      refine hlt.trans hup (h j _ _ hpos (Nat.zero_le _) ?_ ?_)
      · exact getElem?_eq_getElem _
      · exact getElem?_eq_getElem _

theorem drain_pairwise (h : Ordered lt heap) (hfuel : heap.length ≤ fuel) :
    (drain lt fuel heap).Pairwise fun a b => lt b a = false := by
  induction fuel generalizing heap with
  | zero => exact .nil
  | succ fuel ih =>
    unfold drain
    split
    · exact .nil
    · next x rest hpop =>
      have hperm := heappop_perm lt hpop
      have hlen := hperm.length_eq
      rw [length_cons] at hlen
      refine .cons (fun y hy => ?_) (ih (heappop_ordered hlt h hpop) (by omega))
      refine h.root_le hlt (heappop_head lt hpop) (hperm.mem_iff.2 (mem_cons_of_mem _ ?_))
      exact (drain_perm lt (by omega)).mem_iff.1 hy

end Heapq
