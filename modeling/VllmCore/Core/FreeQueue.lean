import VllmCore.Lib.Links
import VllmCore.Core.Request

/-! # The free block queue

`FreeKVCacheBlockQueue`: the free blocks as an intrusive doubly linked list between two fake blocks.
`q.Holds l` says that the queue is exactly the list `l`, linked both ways, with `numFreeBlocks` its
length; each operation gets one lemma that says what it does to `l`. -/

namespace VllmCore
open Links

structure FreeKVCacheBlockQueue where
  numFreeBlocks : Nat
  links : Links BlockId

namespace FreeKVCacheBlockQueue

/-- The queue of the given blocks, in order; all pointers start out empty. -/
def init (blocks : List BlockId) : FreeKVCacheBlockQueue where
  numFreeBlocks := blocks.length
  links := linkAll ⟨fun _ => none, fun _ => none⟩ .head (blocks.map .elem ++ [.tail])

def popleft (q : FreeKVCacheBlockQueue) : Except Err (BlockId × FreeKVCacheBlockQueue) :=
  match q.links.next .head with
  | some (.elem first) =>
    match q.links.next (.elem first) with
    | none => .error (.runtimeError
        "Invalid block found in popleft() which doesn't have a valid next_free_block")
    | some second =>
      .ok (first,
        { numFreeBlocks := q.numFreeBlocks - 1
          links := (q.links.link .head second).detach (.elem first) })
  | _ =>
    if q.numFreeBlocks = 0 then .error (.valueError "No free blocks available")
    else .error (.assertionError
      s!"num_free_blocks ({q.numFreeBlocks}) is out of sync with the free list.")

/-- The loop of `popleft_n`: take `n` nodes from `curr` on, clearing the pointers of each. A fake block
has no id to return; it is reached only when the counter is out of sync with the list. -/
def popLoop : Nat → Links BlockId → Option (Node BlockId) →
    Except Err (List BlockId × Links BlockId × Option (Node BlockId))
  | 0, L, curr => .ok ([], L, curr)
  | n + 1, L, some (.elem b) => do
    let (rest, L, curr) ← popLoop n (L.detach (.elem b)) (L.next (.elem b))
    pure (b :: rest, L, curr)
  | _ + 1, _, _ => .error (.assertionError "curr_block is not None")

def popleftN (q : FreeKVCacheBlockQueue) (n : Nat) : Except Err (List BlockId × FreeKVCacheBlockQueue) :=
  if n = 0 then .ok ([], q)
  else do
    Except.ensure (n ≤ q.numFreeBlocks) (.assertionError "self.num_free_blocks >= n")
    let (ret, L, curr) ← popLoop n q.links (q.links.next .head)
    let links := match curr with
      | none => L
      | some curr => L.link .head curr
    pure (ret, { numFreeBlocks := q.numFreeBlocks - n, links })

def remove (q : FreeKVCacheBlockQueue) (b : BlockId) : Except Err FreeKVCacheBlockQueue :=
  match q.links.prev (.elem b), q.links.next (.elem b) with
  | some prev, some next =>
    .ok { numFreeBlocks := q.numFreeBlocks - 1, links := (q.links.link prev next).detach (.elem b) }
  | _, _ => .error (.runtimeError s!"remove() called on an invalid block: {b}")

def append (q : FreeKVCacheBlockQueue) (b : BlockId) : Except Err FreeKVCacheBlockQueue :=
  match q.links.prev .tail with
  | none => .error (.runtimeError "prev_free_block of fake_free_list_tail should always exist")
  | some last =>
    .ok { numFreeBlocks := q.numFreeBlocks + 1, links := q.links.linkAll last [.elem b, .tail] }

def prependN (q : FreeKVCacheBlockQueue) (blocks : List BlockId) : Except Err FreeKVCacheBlockQueue :=
  if blocks = [] then .ok q
  else match q.links.next .head with
    | none => .error (.assertionError "next_free_block of fake_free_list_head should always exist")
    | some first =>
      .ok { numFreeBlocks := q.numFreeBlocks + blocks.length
            links := q.links.linkAll .head (blocks.map .elem ++ [first]) }

def appendN (q : FreeKVCacheBlockQueue) (blocks : List BlockId) : Except Err FreeKVCacheBlockQueue :=
  if blocks = [] then .ok q
  else match q.links.prev .tail with
    | none => .error (.assertionError "prev_free_block of fake_free_list_tail should always exist")
    | some last =>
      .ok { numFreeBlocks := q.numFreeBlocks + blocks.length
            links := q.links.linkAll last (blocks.map .elem ++ [.tail]) }

/-- The walk of `get_all_free_blocks`, which stops at a node without a successor: the fake tail. Fake
blocks have no id of their own. -/
def walk (L : Links BlockId) : Nat → Node BlockId → List BlockId
  | 0, _ => []
  | fuel + 1, curr =>
    match L.next curr, curr with
    | none, _ => []
    | some next, .elem b => b :: walk L fuel next
    | some next, _ => walk L fuel next

def getAllFreeBlocks (q : FreeKVCacheBlockQueue) : Except Err (List BlockId) :=
  match q.links.next .head with
  | none => .error (.runtimeError "next_free_block of fake_free_list_head should always exist")
  | some first => .ok (walk q.links (q.numFreeBlocks + 1) first)

open List

structure Holds (q : FreeKVCacheBlockQueue) (l : List BlockId) : Prop where
  lists : q.links.Lists l
  count : q.numFreeBlocks = l.length

theorem init_holds {l : List BlockId} (hl : l.Nodup) : (init l).Holds l := by
  refine ⟨⟨?_, hl, ?_, ?_⟩, rfl⟩
  · have := chain_splice (L := ⟨fun _ => none, fun _ => none⟩) (u := []) (v := []) (.singleton Node.head)
      (.singleton Node.tail) (nodup_nodes hl)
    exact this
  · show (linkAll _ _ _).next _ = none
    rw [next_linkAll _ _ _ (by simp) (by simp)]
  · intro a ha
    constructor
    · show (linkAll _ _ _).prev _ = none
      rw [prev_linkAll _ _ _ (by simpa using ha)]
    · show (linkAll _ _ _).next _ = none
      rw [next_linkAll _ _ _ (by simp) (by simpa using ha)]

namespace Holds
variable {q q' : FreeKVCacheBlockQueue} {l u v : List BlockId} {b : BlockId}

theorem remove (h : q.Holds (u ++ b :: v)) : ∃ q', q.remove b = .ok q' ∧ q'.Holds (u ++ v) := by
  obtain ⟨p, n, hp, hn, hl⟩ := h.lists.unlink
  refine ⟨_, by simp only [FreeKVCacheBlockQueue.remove, hp, hn]; rfl, hl, ?_⟩
  have := h.count
  simp only [length_append, length_cons] at this ⊢
  omega

theorem remove_error (h : q.Holds l) (hb : b ∉ l) : ∃ e, q.remove b = .error e := by
  obtain ⟨hp, hn⟩ := h.lists.free b hb
  exact ⟨_, by simp only [FreeKVCacheBlockQueue.remove, hp, hn]; rfl⟩

theorem next_head (h : q.Holds (b :: l)) : q.links.next .head = some (.elem b) :=
  (h.lists.adj (a := []) (nil_append _).symm).1

theorem popleft (h : q.Holds (b :: l)) : ∃ q', q.popleft = .ok (b, q') ∧ q'.Holds l := by
  obtain ⟨p, n, hp, hn, hl⟩ := (show q.links.Lists ([] ++ b :: l) from h.lists).unlink
  have hhead : p = .head := by
    have := (h.lists.adj (a := []) (nil_append _).symm).2
    exact Option.some.inj (hp.symm.trans this)
  subst hhead
  refine ⟨_, by simp only [FreeKVCacheBlockQueue.popleft, h.next_head, hn]; rfl, hl, ?_⟩
  have := h.count
  rw [length_cons] at this
  show q.numFreeBlocks - 1 = l.length
  omega

end Holds

/-- The loop of `popleft_n` takes the first nodes of a chain and detaches them. -/
theorem popLoop_spec {L : Links BlockId} {m : List BlockId} {n : Node BlockId} {rest : List (Node BlockId)}
    (hc : (m.map Node.elem ++ n :: rest).IsChain L.Adj) (hnd : (m.map Node.elem ++ n :: rest).Nodup) :
    popLoop m.length L (m.map Node.elem ++ n :: rest).head? = .ok (m, L.detachAll (m.map .elem), some n) := by
  induction m generalizing L with
  | nil => rfl
  | cons b m ih =>
    rw [map_cons, cons_append] at hc hnd ⊢
    rw [nodup_cons] at hnd
    have hnext : L.next (.elem b) = (m.map Node.elem ++ n :: rest).head? := by
      cases hm : m.map Node.elem ++ n :: rest with
      | nil => simp at hm
      | cons y ys =>
        rw [hm, isChain_cons_cons] at hc
        exact hc.1.1
    -- the detached block is not met again, so the rest of the chain is as it was
    have hc' : (m.map Node.elem ++ n :: rest).IsChain (L.detachAll [.elem b]).Adj :=
      isChain_detachAll (isChain_of_isChain_cons hc) fun x hx hxb =>
        hnd.1 (mem_singleton.1 hxb ▸ hx)
    have := ih hc' hnd.2
    simp only [detachAll, foldl_cons, foldl_nil] at this
    simp only [length_cons, head?_cons, popLoop, hnext, this]
    rfl

namespace Holds
variable {q q' : FreeKVCacheBlockQueue} {l u v : List BlockId} {b : BlockId} {bs : List BlockId} (h : q.Holds l)
include h

theorem popleftN {n : Nat} (hn : n ≤ l.length) : ∃ q', q.popleftN n = .ok (l.take n, q') ∧ q'.Holds (l.drop n) := by
  by_cases h0 : n = 0
  · subst h0
    exact ⟨q, rfl, h⟩
  obtain ⟨x, v', hv⟩ := exists_first (l.drop n)
  have hsplit := nodes_split last_nil hv (l.take n)
  rw [nil_append, take_append_drop] at hsplit
  have hc := h.lists.chain
  have hnd := nodup_nodes h.lists.nodup
  rw [hsplit, nil_append] at hc hnd
  have hloop := popLoop_spec (isChain_of_isChain_cons hc) (nodup_cons.1 hnd).2
  have hhead : q.links.next .head = ((l.take n).map Node.elem ++ x :: v').head? := by
    cases hm : (l.take n).map Node.elem ++ x :: v' with
    | nil => simp at hm
    | cons y ys =>
      rw [hm, isChain_cons_cons] at hc
      exact hc.1.1
  rw [length_take, Nat.min_eq_left hn, ← hhead] at hloop
  have hcount : n ≤ q.numFreeBlocks := h.count ▸ hn
  have hl : q.links.Lists ([] ++ l.take n ++ l.drop n) := by
    rw [nil_append, take_append_drop]; exact h.lists
  have hnd' : ([] ++ [] ++ l.drop n).Nodup := h.lists.nodup.sublist (drop_sublist n l)
  refine ⟨⟨q.numFreeBlocks - n, (q.links.detachAll ((l.take n).map .elem)).link .head x⟩, ?_,
    hl.splice last_nil hv hnd', ?_⟩
  · simp only [FreeKVCacheBlockQueue.popleftN, if_neg h0, Except.ensure, if_pos hcount, hloop]
    rfl
  · show q.numFreeBlocks - n = _
    rw [h.count, length_drop]

theorem prependN (hnd : (bs ++ l).Nodup) : ∃ q', q.prependN bs = .ok q' ∧ q'.Holds (bs ++ l) := by
  by_cases h0 : bs = []
  · subst h0
    exact ⟨q, rfl, h⟩
  obtain ⟨x, v', hv⟩ := exists_first l
  have hnodes := nodes_split last_nil hv []
  have hx : q.links.next .head = some x := (h.lists.adj hnodes).1
  refine ⟨_, by simp only [FreeKVCacheBlockQueue.prependN, if_neg h0, hx]; rfl, ?_, ?_⟩
  · exact Links.Lists.splice (m := []) h.lists last_nil hv hnd
  · show q.numFreeBlocks + bs.length = _
    rw [h.count, length_append, Nat.add_comm]

theorem prev_tail : ∃ u' x, Node.head :: l.map .elem = u' ++ [x] ∧ q.links.prev .tail = some x := by
  obtain ⟨u', x, hu⟩ := exists_last l
  have hnodes := nodes_split hu first_nil []
  rw [append_nil, append_nil] at hnodes
  exact ⟨u', x, hu, (h.lists.adj hnodes).2⟩

theorem lists_linkAll_tail (hnd : (l ++ bs).Nodup) {u' : List (Node BlockId)} {x : Node BlockId}
    (hu : Node.head :: l.map .elem = u' ++ [x]) : (q.links.linkAll x (bs.map .elem ++ [.tail])).Lists (l ++ bs) := by
  have hl : q.links.Lists (l ++ [] ++ []) := by simpa using h.lists
  have := hl.splice hu first_nil (by simpa using hnd)
  simpa using this

theorem appendN (hnd : (l ++ bs).Nodup) : ∃ q', q.appendN bs = .ok q' ∧ q'.Holds (l ++ bs) := by
  by_cases h0 : bs = []
  · subst h0
    exact ⟨q, rfl, (append_nil l).symm ▸ h⟩
  obtain ⟨u', x, hu, hx⟩ := h.prev_tail
  refine ⟨_, by simp only [FreeKVCacheBlockQueue.appendN, if_neg h0, hx]; rfl,
    h.lists_linkAll_tail hnd hu, ?_⟩
  show q.numFreeBlocks + bs.length = _
  rw [h.count, length_append]

theorem append (hb : b ∉ l) : ∃ q', q.append b = .ok q' ∧ q'.Holds (l ++ [b]) := by
  have hnd : (l ++ [b]).Nodup := h.lists.nodup.append (nodup_singleton b) (by simpa using hb)
  obtain ⟨u', x, hu, hx⟩ := h.prev_tail
  refine ⟨_, by simp only [FreeKVCacheBlockQueue.append, hx]; rfl, h.lists_linkAll_tail hnd hu, ?_⟩
  show q.numFreeBlocks + 1 = _
  rw [h.count, length_append, length_singleton]

omit h in
theorem walk_eq {L : Links BlockId} {l : List BlockId} {rest : Node BlockId} {fuel : Nat}
    (hc : (l.map Node.elem ++ [Node.tail]).IsChain L.Adj) (ht : L.next .tail = none)
    (hfuel : l.length < fuel) (hrest : (l.map Node.elem ++ [Node.tail]).head? = some rest) : walk L fuel rest = l := by
  induction l generalizing fuel rest with
  | nil =>
    cases hrest
    cases fuel with
    | zero => rfl
    | succ fuel => simp only [walk, ht]
  | cons b l ih =>
    cases fuel with
    | zero => omega
    | succ fuel =>
      cases hrest
      obtain ⟨x, v', hv⟩ := exists_first l
      rw [map_cons, cons_append, hv, isChain_cons_cons] at hc
      have hx : L.next (.elem b) = some x := hc.1.1
      simp only [walk, hx]
      rw [ih (by rw [hv]; exact hc.2) (by simpa using hfuel) (by rw [hv]; rfl)]

theorem getAllFreeBlocks : q.getAllFreeBlocks = .ok l := by
  obtain ⟨x, v', hv⟩ := exists_first l
  have hnodes := nodes_split last_nil hv []
  have hx : q.links.next .head = some x := (h.lists.adj hnodes).1
  simp only [FreeKVCacheBlockQueue.getAllFreeBlocks, hx]
  rw [walk_eq (isChain_of_isChain_cons h.lists.chain) h.lists.tail_next (by rw [h.count]; omega)
    (by rw [hv]; rfl)]

end Holds

/-! ### Runs against a plain list -/

inductive Call where
  | popleft
  | popleftN (n : Nat)
  | remove (b : BlockId)
  | append (b : BlockId)
  | appendN (blocks : List BlockId)
  | prependN (blocks : List BlockId)

/-- A call on the queue, behind the blocks returned so far. -/
def call (s : List BlockId × FreeKVCacheBlockQueue) : Call → Except Err (List BlockId × FreeKVCacheBlockQueue)
  | .popleft => do
    let (b, q) ← s.2.popleft
    pure (s.1 ++ [b], q)
  | .popleftN n => do
    let (bs, q) ← s.2.popleftN n
    pure (s.1 ++ bs, q)
  | .remove b => return (s.1, ← s.2.remove b)
  | .append b => return (s.1, ← s.2.append b)
  | .appendN bs => return (s.1, ← s.2.appendN bs)
  | .prependN bs => return (s.1, ← s.2.prependN bs)

/-- The call on a plain list; there is nothing to pop behind its end. -/
def Call.onList (s : List BlockId × List BlockId) : Call → Except Err (List BlockId × List BlockId)
  | .popleft => match s.2 with
    | [] => .error (.valueError "No free blocks available")
    | b :: l => .ok (s.1 ++ [b], l)
  | .popleftN n =>
    if n ≤ s.2.length then .ok (s.1 ++ s.2.take n, s.2.drop n) else .error (.assertionError "self.num_free_blocks >= n")
  | .remove b => .ok (s.1, s.2.erase b)
  | .append b => .ok (s.1, s.2 ++ [b])
  | .appendN bs => .ok (s.1, s.2 ++ bs)
  | .prependN bs => .ok (s.1, bs ++ s.2)

/-- A block is linked when it is removed, and not when it is added. -/
def Call.Fits (s : List BlockId × List BlockId) : Call → Prop
  | .popleft | .popleftN _ => True
  | .remove b => b ∈ s.2
  | .append b => b ∉ s.2
  | .appendN bs | .prependN bs => bs.Nodup ∧ bs.Disjoint s.2

/-- Both raise, or both go on: the queue with the list. -/
def Refines (x : Except Err (List BlockId × FreeKVCacheBlockQueue)) : Except Err (List BlockId × List BlockId) → Prop
  | .error e => x = .error e
  | .ok s => ∃ q, x = .ok (s.1, q) ∧ q.Holds s.2

theorem refines_call {q : FreeKVCacheBlockQueue} {l out : List BlockId} {c : Call} (h : q.Holds l)
    (hc : c.Fits (out, l)) :
    Refines (call (out, q) c) (c.onList (out, l)) := by
  cases c with
  | popleft =>
    cases l with
    | nil =>
      have hnext : q.links.next .head = some .tail := (h.lists.adj (nil_append _).symm).1
      simp [Refines, Call.onList, call, popleft, hnext, h.count]
    | cons b l =>
      obtain ⟨q', hq, hl⟩ := h.popleft
      exact ⟨q', by rw [call, hq]; rfl, hl⟩
  | popleftN n =>
    by_cases hn : n ≤ l.length
    · obtain ⟨q', hq, hl⟩ := h.popleftN hn
      rw [Call.onList, if_pos hn]
      exact ⟨q', by rw [call, hq]; rfl, hl⟩
    · have h0 : n ≠ 0 := fun h => hn (h ▸ Nat.zero_le _)
      rw [Call.onList, if_neg hn]
      rw [← h.count] at hn
      simp only [Refines, call, popleftN, if_neg h0, Except.ensure, if_neg hn]
      rfl
  | remove b =>
    obtain ⟨u, v, -, rfl, herase⟩ := exists_erase_eq hc
    obtain ⟨q', hq, hl⟩ := h.remove
    exact ⟨q', by rw [call, hq]; rfl, herase ▸ hl⟩
  | append b =>
    obtain ⟨q', hq, hl⟩ := h.append hc
    exact ⟨q', by rw [call, hq]; rfl, hl⟩
  | appendN bs =>
    obtain ⟨q', hq, hl⟩ := h.appendN (h.lists.nodup.append hc.1 (disjoint_comm.1 hc.2))
    exact ⟨q', by rw [call, hq]; rfl, hl⟩
  | prependN bs =>
    obtain ⟨q', hq, hl⟩ := h.prependN (hc.1.append h.lists.nodup hc.2)
    exact ⟨q', by rw [call, hq]; rfl, hl⟩

theorem refines_foldlM {calls : List Call} : ∀ {q : FreeKVCacheBlockQueue} {l out : List BlockId}, q.Holds l →
    calls.Along Call.onList Call.Fits (out, l) →
    Refines (calls.foldlM call (out, q)) (calls.foldlM Call.onList (out, l)) := by
  induction calls with
  | nil => exact fun h _ => ⟨_, rfl, h⟩
  | cons c calls ih =>
    intro q l out h hcalls
    have hstep := refines_call h hcalls.1
    rw [foldlM_cons, foldlM_cons]
    cases hs : c.onList (out, l) with
    | error e =>
      rw [hs] at hstep
      rw [show call (out, q) c = .error e from hstep]
      rfl
    | ok s =>
      rw [hs] at hstep
      obtain ⟨q', hq, hl⟩ := hstep
      rw [hq]
      exact ih hl (hcalls.2 s hs)

/-- The queue behaves as the plain list does under the same calls. -/
theorem freeQueue_refines_list (blocks : List BlockId) (hnd : blocks.Nodup) (calls : List Call)
    (hcalls : calls.Along Call.onList Call.Fits ([], blocks)) :
    match calls.foldlM Call.onList ([], blocks) with
    | .error e => calls.foldlM call ([], init blocks) = .error e
    | .ok (popped, l) => ∃ q, calls.foldlM call ([], init blocks) = .ok (popped, q) ∧ q.getAllFreeBlocks = .ok l ∧
        (nodes l).IsChain q.links.Adj ∧ q.numFreeBlocks = l.length := by
  have hrun := refines_foldlM (init_holds hnd) hcalls
  split
  · next e he => rwa [he] at hrun
  · next popped l he =>
    rw [he] at hrun
    obtain ⟨q, hq, h⟩ := hrun
    exact ⟨q, hq, h.getAllFreeBlocks, h.lists.chain, h.count⟩

theorem freeQueue_refines_list_three : ∃ q,
    [Call.popleft, .append 1, .remove 3, .prependN [5, 3], .popleftN 2, .appendN [4]].foldlM call ([], init [1, 2, 3]) =
      .ok ([1, 5, 3], q) ∧ q.getAllFreeBlocks = .ok [2, 1, 4] := by
  obtain ⟨q, hq, hall, -⟩ := freeQueue_refines_list [1, 2, 3] (by decide)
    [.popleft, .append 1, .remove 3, .prependN [5, 3], .popleftN 2, .appendN [4]] (by
      simp [Along, Call.Fits, Call.onList, List.Disjoint])
  exact ⟨q, hq, hall⟩

end FreeKVCacheBlockQueue

end VllmCore
