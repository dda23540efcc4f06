import VllmCore.Core.Request
import VllmCore.Lib.Heapq

/-! # Request queues

`request_queue.py`. A queue holds requests by id: a deque, or a heap ordered by `Request.__lt__`. The
comparison is an argument because the requests are mutable and a queue does not notice a change. -/

namespace VllmCore

inductive SchedulingPolicy where
  | fcfs
  | priority
deriving DecidableEq, Repr

/-- `Request.__lt__`. Two requests with one id are one object. -/
def Request.lt {η : Type} (r other : Request η) : Bool :=
  if r.priority ≠ other.priority then r.priority < other.priority
  else if r.arrivalTime ≠ other.arrivalTime then r.arrivalTime < other.arrivalTime
  else r.requestId < other.requestId

structure RequestQueue where
  policy : SchedulingPolicy
  /-- the deque from left to right, or the heap array -/
  items : List RequestId := []
deriving DecidableEq, Repr

namespace RequestQueue
variable (lt : RequestId → RequestId → Bool) (q : RequestQueue) {r : RequestId}

def isEmpty : Bool := q.items.isEmpty

def length : Nat := q.items.length

def addRequest (r : RequestId) : RequestQueue :=
  match q.policy with
  | .fcfs => { q with items := q.items ++ [r] }
  | .priority => { q with items := Heapq.heappush lt q.items r }

def peekRequest : Except Err RequestId :=
  match q.items with
  | [] => .error .indexError
  | r :: _ => .ok r

def popRequest : Except Err (RequestId × RequestQueue) :=
  match q.policy, q.items with
  | _, [] => .error .indexError
  | .fcfs, r :: items => .ok (r, { q with items })
  | .priority, items =>
    match Heapq.heappop lt items with
    | none => .error .indexError
    | some (r, items) => .ok (r, { q with items })

/-- A priority queue has no front to prepend to. -/
def prependRequest (r : RequestId) : RequestQueue :=
  match q.policy with
  | .fcfs => { q with items := r :: q.items }
  | .priority => q.addRequest lt r

/-- The order of `__iter__`. -/
def iter : List RequestId :=
  match q.policy with
  | .fcfs => q.items
  | .priority => Heapq.drain lt q.items.length q.items

/-- `extendleft` reverses the requests it prepends. -/
def prependRequests (requests : RequestQueue) : RequestQueue :=
  (requests.iter lt).foldl (fun q r => q.prependRequest lt r) q

/-- `remove` of the deque or the heap array, which raises if the request is not there. -/
def removeRequest (r : RequestId) : Except Err RequestQueue :=
  match q.policy with
  | .fcfs =>
    if r ∈ q.items then .ok { q with items := q.items.erase r }
    else .error (.valueError "deque.remove(x): x not in deque")
  | .priority =>
    if r ∈ q.items then .ok { q with items := Heapq.heapify lt (q.items.erase r) }
    else .error (.valueError "list.remove(x): x not in list")

def removeRequests (requests : List RequestId) : RequestQueue :=
  let rest := q.items.filter fun r => r ∉ requests
  match q.policy with
  | .fcfs => { q with items := rest }
  | .priority => { q with items := Heapq.heapify lt rest }

/-! ### What the operations do to the contents -/

variable {lt q} {q' : RequestQueue}

theorem addRequest_perm (r : RequestId) : (q.addRequest lt r).items.Perm (r :: q.items) := by
  unfold addRequest
  split
  · exact List.perm_append_singleton ..
  · exact Heapq.heappush_perm ..

theorem prependRequest_perm (r : RequestId) : (q.prependRequest lt r).items.Perm (r :: q.items) := by
  unfold prependRequest
  split
  · exact .refl _
  · exact addRequest_perm r

theorem popRequest_perm (h : q.popRequest lt = .ok (r, q')) : q.items.Perm (r :: q'.items) := by
  unfold popRequest at h
  split at h
  · cases h
  · next items _ hitems => cases h; rw [hitems]
  · split at h
    · cases h
    · next hpop => cases h; exact Heapq.heappop_perm lt hpop

theorem peekRequest_of_popRequest (h : q.popRequest lt = .ok (r, q')) : q.peekRequest = .ok r := by
  unfold popRequest at h
  unfold peekRequest
  split at h
  · cases h
  · next hitems => cases h; rw [hitems]
  · split at h
    · cases h
    · next hpop =>
      cases h
      have hhead := Heapq.heappop_head lt hpop
      cases hitems : q.items with
      | nil => rw [hitems] at hhead; cases hhead
      | cons a l => rw [hitems] at hhead; cases hhead; rfl

theorem peekRequest_mem (h : q.peekRequest = .ok r) : r ∈ q.items := by
  unfold peekRequest at h
  split at h
  · cases h
  · next hitems => cases h; rw [hitems]; exact List.mem_cons_self ..

theorem iter_perm : (q.iter lt).Perm q.items := by
  unfold iter
  split
  · exact .refl _
  · exact Heapq.drain_perm lt (Nat.le_refl _)

theorem prependRequests_perm (requests : RequestQueue) :
    (q.prependRequests lt requests).items.Perm (requests.items ++ q.items) := by
  have hfold : ∀ rs : List RequestId, ∀ q : RequestQueue,
      (rs.foldl (fun q r => q.prependRequest lt r) q).items.Perm (rs ++ q.items) := by
    intro rs
    induction rs with
    | nil => intro q; exact .refl _
    | cons r rs ih =>
      intro q
      refine (ih _).trans (((prependRequest_perm r).append_left rs).trans ?_)
      exact List.perm_middle
  exact (hfold _ q).trans (iter_perm.append_right _)

theorem removeRequests_perm (requests : List RequestId) :
    (q.removeRequests lt requests).items.Perm (q.items.filter fun r => r ∉ requests) := by
  unfold removeRequests
  dsimp only
  split
  · exact .refl _
  · exact Heapq.heapify_perm ..

end RequestQueue

end VllmCore
