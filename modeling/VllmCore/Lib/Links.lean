import Mathlib

/-! # Doubly linked lists between two sentinels

`Links` is a heap of `prev`/`next` pointers over the nodes `head`, `tail` and `elem a`. Every edit of
an intrusive list is made of two writes: `link x y` (point `x` and `y` at each other) and `detach a`
(clear both pointers of `a`). `Lists L l` says that the heap holds exactly the list `l`: walking from
`head` to `tail` meets the elements of `l` in order, pointers are symmetric, and elements outside `l`
are detached.

`chain_splice` is the one fact behind every edit: given a chain that ends in `p` and a chain that
starts in `n`, linking `p`, then the nodes `mid`, then `n`, joins them. -/

universe u

inductive Node (α : Type u) where
  | head
  | tail
  | elem (a : α)
deriving DecidableEq, Repr

structure Links (α : Type u) where
  prev : Node α → Option (Node α)
  next : Node α → Option (Node α)

namespace Links
open List
variable {α : Type u} [DecidableEq α] {L : Links α} {ns ds : List (Node α)} {x y : Node α}

def link (L : Links α) (x y : Node α) : Links α :=
  { prev := Function.update L.prev y (some x), next := Function.update L.next x (some y) }

def detach (L : Links α) (x : Node α) : Links α :=
  { prev := Function.update L.prev x none, next := Function.update L.next x none }

/-- Link `p` to the first node of the list, that to the second, and so on. -/
def linkAll (L : Links α) (p : Node α) : List (Node α) → Links α
  | [] => L
  | q :: qs => (L.link p q).linkAll q qs

def detachAll (L : Links α) (ns : List (Node α)) : Links α := ns.foldl detach L

def Adj (L : Links α) (x y : Node α) : Prop := L.next x = some y ∧ L.prev y = some x

def nodes (l : List α) : List (Node α) := .head :: (l.map .elem ++ [.tail])

/-- The heap holds exactly the list `l`. -/
structure Lists (L : Links α) (l : List α) : Prop where
  chain : (nodes l).IsChain L.Adj
  nodup : l.Nodup
  /-- the last node has no successor: a walk from the head stops there -/
  tail_next : L.next .tail = none
  free : ∀ a, a ∉ l → L.prev (.elem a) = none ∧ L.next (.elem a) = none

/-! ### Single writes -/

theorem adj_link_self (x y : Node α) : (L.link x y).Adj x y := by simp [Adj, link]

theorem adj_link_of_ne {x' y' : Node α} (hx : x' ≠ x) (hy : y' ≠ y) : (L.link x y).Adj x' y' ↔ L.Adj x' y' := by
  simp [Adj, link, hx, hy]

@[simp] theorem detachAll_nil (L : Links α) : L.detachAll [] = L := rfl

theorem prev_detachAll (L : Links α) (ns : List (Node α)) (x : Node α) :
    (L.detachAll ns).prev x = if x ∈ ns then none else L.prev x := by
  induction ns generalizing L with
  | nil => rfl
  | cons n ns ih =>
    simp only [detachAll, foldl_cons] at ih ⊢
    rw [ih]
    by_cases hx : x = n <;> simp [detach, hx]

theorem next_detachAll (L : Links α) (ns : List (Node α)) (x : Node α) :
    (L.detachAll ns).next x = if x ∈ ns then none else L.next x := by
  induction ns generalizing L with
  | nil => rfl
  | cons n ns ih =>
    simp only [detachAll, foldl_cons] at ih ⊢
    rw [ih]
    by_cases hx : x = n <;> simp [detach, hx]

theorem adj_detachAll (hx : x ∉ ns) (hy : y ∉ ns) : (L.detachAll ns).Adj x y ↔ L.Adj x y := by
  simp [Adj, prev_detachAll, next_detachAll, hx, hy]

theorem prev_linkAll (L : Links α) (p : Node α) (qs : List (Node α)) (hx : x ∉ qs) :
    (L.linkAll p qs).prev x = L.prev x := by
  induction qs generalizing L p with
  | nil => rfl
  | cons q qs ih =>
    simp only [mem_cons, not_or] at hx
    rw [linkAll, ih _ _ hx.2]
    simp [link, hx.1]

theorem next_linkAll (L : Links α) (p : Node α) (qs : List (Node α)) (hp : x ≠ p) (hx : x ∉ qs.dropLast) :
    (L.linkAll p qs).next x = L.next x := by
  induction qs generalizing L p with
  | nil => rfl
  | cons q qs ih =>
    cases qs with
    | nil => simp [linkAll, link, hp]
    | cons q' qs =>
      simp only [dropLast_cons_cons, mem_cons, not_or] at hx
      rw [linkAll, ih _ _ hx.1 (by simpa using hx.2)]
      simp [link, hp]

/-! ### Chains -/

omit [DecidableEq α] in
theorem isChain_congr {L' : Links α} (hc : ns.IsChain L.Adj)
    (h : ∀ x ∈ ns.dropLast, ∀ y ∈ ns.tail, L.Adj x y → L'.Adj x y) : ns.IsChain L'.Adj := by
  induction ns with
  | nil => exact .nil
  | cons x ns ih =>
    cases ns with
    | nil => exact .singleton x
    | cons y ns =>
      rw [isChain_cons_cons] at hc ⊢
      refine ⟨h x (by simp) y (by simp) hc.1, ih hc.2 fun x' hx' y' hy' => h x' ?_ y' ?_⟩
      · rw [dropLast_cons_cons]; exact mem_cons_of_mem _ hx'
      · exact mem_of_mem_tail hy'

theorem isChain_detachAll (hc : ns.IsChain L.Adj) (hd : ∀ x ∈ ns, x ∉ ds) : ns.IsChain (L.detachAll ds).Adj :=
  isChain_congr hc fun x hx y hy =>
    (adj_detachAll (hd x (dropLast_subset _ hx)) (hd y (mem_of_mem_tail hy))).2

theorem isChain_link_snoc {u : List (Node α)} {p q : Node α} (hu : (u ++ [p]).IsChain L.Adj)
    (hnd : (u ++ [p, q]).Nodup) : (u ++ [p, q]).IsChain (L.link p q).Adj := by
  rw [isChain_append_cons_cons]
  refine ⟨isChain_congr hu fun x hx y hy hxy => ?_, adj_link_self p q, .singleton q⟩
  rw [dropLast_concat] at hx
  have hy : y ∈ u ++ [p] := mem_of_mem_tail hy
  have hq : q ∉ u ++ [p] := by
    rw [show u ++ [p, q] = (u ++ [p]) ++ [q] by simp, nodup_append] at hnd
    exact fun h => hnd.2.2 q h q (by simp) rfl
  have hp : p ∉ u := fun h => (nodup_append.1 hnd).2.2 p h p (by simp) rfl
  exact (adj_link_of_ne (ne_of_mem_of_not_mem hx hp) (ne_of_mem_of_not_mem hy hq)).2 hxy

theorem isChain_link_of_notMem {n p q : Node α} {v : List (Node α)} (hv : (n :: v).IsChain L.Adj)
    (hp : p ∉ n :: v) (hq : q ∉ v) : (n :: v).IsChain (L.link p q).Adj :=
  isChain_congr hv fun _ hx _ hy =>
    (adj_link_of_ne (ne_of_mem_of_not_mem (dropLast_subset _ hx) hp) (ne_of_mem_of_not_mem hy hq)).2

/-- Join a chain that ends in `p` and one that starts in `n` by linking `mid` between them. -/
theorem chain_splice {u v mid : List (Node α)} {p n : Node α}
    (hu : (u ++ [p]).IsChain L.Adj) (hv : (n :: v).IsChain L.Adj) (hnd : (u ++ p :: (mid ++ n :: v)).Nodup) :
    (u ++ p :: (mid ++ n :: v)).IsChain (L.linkAll p (mid ++ [n])).Adj := by
  induction mid generalizing L u p with
  | nil =>
    have hp : p ∉ n :: v := (nodup_cons.1 (nodup_append.1 hnd).2.1).1
    have hn : n ∉ v := (nodup_cons.1 (nodup_cons.1 (nodup_append.1 hnd).2.1).2).1
    have hpn : (u ++ [p, n]).Nodup := hnd.sublist (by simp)
    have hleft := isChain_link_snoc hu hpn
    rw [isChain_append_cons_cons] at hleft
    exact isChain_append_cons_cons.2
      ⟨hleft.1, hleft.2.1, isChain_link_of_notMem hv hp hn⟩
  | cons q mid ih =>
    have htl := (nodup_append.1 hnd).2.1
    have hp : p ∉ n :: v := fun h => (nodup_cons.1 htl).1 (mem_append_right (q :: mid) h)
    have hq : q ∉ v := fun h =>
      (nodup_cons.1 (nodup_cons.1 htl).2).1 (by simp [h])
    have hpq : (u ++ [p, q]).Nodup := hnd.sublist (by simp)
    have := ih (L := L.link p q) (u := u ++ [p]) (p := q)
      (by simpa using isChain_link_snoc hu hpq) (isChain_link_of_notMem hv hp hq) (by simpa using hnd)
    simpa [linkAll] using this

/-! ### Edits of a held list -/

theorem link_detach_comm {p n a : Node α} (hp : p ≠ a) (hn : n ≠ a) :
    (L.link p n).detach a = (L.detach a).link p n := by
  simp only [link, detach, Function.update_comm hp, Function.update_comm hn]

omit [DecidableEq α] in
theorem nodup_nodes {l : List α} (h : l.Nodup) : (nodes l).Nodup := by
  have hm : (l.map Node.elem).Nodup := h.map fun _ _ => Node.elem.inj
  simp [nodes, nodup_append, hm]

omit [DecidableEq α] in
theorem exists_last (u : List α) : ∃ u' p, Node.head :: u.map .elem = u' ++ [p] :=
  ⟨_, _, (dropLast_append_getLast (cons_ne_nil _ _)).symm⟩

omit [DecidableEq α] in
theorem exists_first (v : List α) : ∃ n v', v.map .elem ++ [Node.tail] = n :: v' :=
  exists_cons_of_ne_nil (append_ne_nil_of_right_ne_nil _ (cons_ne_nil _ _))

omit [DecidableEq α] in
theorem last_nil : Node.head :: ([] : List α).map .elem = [] ++ [.head] := rfl

omit [DecidableEq α] in
theorem first_nil : ([] : List α).map .elem ++ [Node.tail] = .tail :: [] := rfl

section
variable {u v : List α} {p n : Node α} {u' v' : List (Node α)}
  (hu : Node.head :: u.map .elem = u' ++ [p]) (hv : v.map .elem ++ [Node.tail] = n :: v')
include hu hv

omit [DecidableEq α] in
theorem nodes_split (m : List α) : nodes (u ++ m ++ v) = u' ++ p :: (m.map .elem ++ n :: v') := by
  rw [← hv]
  simp only [nodes, map_append, append_assoc]
  rw [← cons_append, hu]
  simp

end

namespace Lists
variable {l u m v w : List α} {p n : Node α} {u' v' : List (Node α)}

omit [DecidableEq α] in
theorem adj {a b : List (Node α)} (h : L.Lists l) (e : nodes l = a ++ x :: y :: b) : L.Adj x y := by
  have hc := h.chain
  rw [e, isChain_append_cons_cons] at hc
  exact hc.2.1

/-- Replace the stretch `m` between `p` and `n` by `w`: detach `m`, then link `p`, `w` and `n`. -/
theorem splice (h : L.Lists (u ++ m ++ v)) (hu : Node.head :: u.map .elem = u' ++ [p])
    (hv : v.map .elem ++ [Node.tail] = n :: v') (hnd : (u ++ w ++ v).Nodup) :
    ((L.detachAll (m.map .elem)).linkAll p (w.map .elem ++ [n])).Lists (u ++ w ++ v) := by
  have hsplit := nodes_split hu hv
  have hc := h.chain
  have hnm := nodup_nodes h.nodup
  rw [hsplit] at hc hnm
  have hleft : (u' ++ [p]).IsChain L.Adj := by
    rw [append_cons] at hc; exact hc.left_of_append
  have hright : (n :: v').IsChain L.Adj := by
    rw [append_cons, ← append_assoc] at hc; exact hc.right_of_append
  rw [append_cons, ← append_assoc, nodup_append, nodup_append] at hnm
  have hpu : ∀ x ∈ u' ++ [p], x ∉ m.map Node.elem := fun x hx hm => hnm.1.2.2 x hx x hm rfl
  have hnv : ∀ x ∈ n :: v', x ∉ m.map Node.elem := fun x hx hm =>
    hnm.2.2 x (mem_append_right _ hm) x hx rfl
  have hp : p ∈ Node.head :: u.map .elem := by rw [hu]; simp
  have hn : n ∈ v.map .elem ++ [Node.tail] := by rw [hv]; simp
  refine ⟨?_, hnd, ?_, fun a ha => ⟨?_, ?_⟩⟩
  · rw [hsplit]
    exact chain_splice (isChain_detachAll hleft hpu) (isChain_detachAll hright hnv)
      (by rw [← hsplit]; exact nodup_nodes hnd)
  · rw [next_linkAll _ _ _ (by rintro rfl; simp at hp) (by simp), next_detachAll, h.tail_next]
    simp
  · simp only [mem_append, not_or] at ha
    rw [prev_linkAll _ _ _ (by
      rintro hx
      simp only [mem_append, mem_map, Node.elem.injEq, exists_eq_right,
        mem_singleton] at hx
      rcases hx with hx | rfl
      · exact ha.1.2 hx
      · simp at hn; exact ha.2 hn), prev_detachAll]
    split
    · rfl
    · next hm => exact (h.free a (by simp_all)).1
  · simp only [mem_append, not_or] at ha
    rw [next_linkAll _ _ _ (by rintro rfl; simp at hp; exact ha.1.1 hp) (by simpa using ha.1.2),
      next_detachAll]
    split
    · rfl
    · next hm => exact (h.free a (by simp_all)).2

/-- Unlink one element: link its neighbours, then detach it. -/
theorem unlink {a : α} (h : L.Lists (u ++ a :: v)) : ∃ p n, L.prev (.elem a) = some p ∧ L.next (.elem a) = some n ∧
      ((L.link p n).detach (.elem a)).Lists (u ++ v) := by
  obtain ⟨u', p, hu⟩ := exists_last u
  obtain ⟨n, v', hv⟩ := exists_first v
  have hl : u ++ a :: v = u ++ [a] ++ v := by simp
  have hnodes : nodes (u ++ a :: v) = u' ++ p :: .elem a :: n :: v' := by
    rw [hl, nodes_split hu hv]; rfl
  have hpa := h.adj hnodes
  have han : L.Adj (.elem a) n := h.adj (hnodes.trans (append_cons ..))
  have hnd := nodup_nodes h.nodup
  rw [hnodes] at hnd
  have hp : p ≠ .elem a := by
    rintro rfl
    exact (nodup_cons.1 (nodup_append.1 hnd).2.1).1 (by simp)
  have hn : n ≠ .elem a := by
    rintro rfl
    exact (nodup_cons.1 (nodup_cons.1 (nodup_append.1 hnd).2.1).2).1 (by simp)
  refine ⟨p, n, hpa.2, han.1, ?_⟩
  have hnew : (u ++ [] ++ v).Nodup := by
    have := h.nodup
    rw [append_nil]
    exact this.sublist ((sublist_cons_self a v).append_left u)
  have := (hl ▸ h).splice hu hv hnew
  rw [link_detach_comm hp hn]
  simpa [detachAll, linkAll] using this

end Lists

end Links
