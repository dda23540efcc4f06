import VllmCore.Lib.HeapOrder
import VllmCore.Sched.Engine

/-! # The order of a priority queue

A `PriorityRequestQueue` and the requests it refers to, under the operations of the scheduler. The queue
compares the requests as they are at each call, and `_update_request_as_session` gives a request that
may be in the queue a new arrival time without telling the queue. -/

namespace VllmCore
variable {η : Type}

def Request.sortKey (q : Request η) : Int × Int × Nat := (q.priority, q.arrivalTime, q.requestId)

/-- `__lt__` compares priorities, arrival times and ids, in this order. -/
theorem Request.lt_iff (a b : Request η) : a.lt b = true ↔ a.sortKey.1 < b.sortKey.1 ∨
    a.sortKey.1 = b.sortKey.1 ∧ (a.sortKey.2.1 < b.sortKey.2.1 ∨
      a.sortKey.2.1 = b.sortKey.2.1 ∧ a.sortKey.2.2 < b.sortKey.2.2) := by
  unfold Request.lt Request.sortKey
  dsimp only
  split
  · rw [decide_eq_true_iff]; omega
  next hp =>
  split
  · rw [decide_eq_true_iff]; omega
  next ht =>
  rw [not_not.1 hp, not_not.1 ht, decide_eq_true_iff]
  simp only [lt_irrefl, false_or, true_and]

theorem Request.lt_comparison : Heapq.Comparison (Request.lt (η := η)) := by
  constructor
  · intro a b h
    rw [Request.lt_iff] at h
    rw [← Bool.not_eq_true, Request.lt_iff]
    omega
  · intro a b c hba hcb
    rw [← Bool.not_eq_true, Request.lt_iff] at hba hcb ⊢
    omega

theorem Request.lt_congr {a a' b b' : Request η} (ha : a'.sortKey = a.sortKey) (hb : b'.sortKey = b.sortKey) :
    a'.lt b' = a.lt b := by
  rw [Bool.eq_iff_iff, Request.lt_iff, Request.lt_iff, ha, hb]

theorem Request.updateAsSession_sortKey {q q' : Request η} {u : StreamingUpdate} (h : q.updateAsSession u = .ok q') :
    q'.sortKey = { q with arrivalTime := u.arrivalTime }.sortKey := by
  unfold Request.updateAsSession at h
  split at h
  · cases h
  · next prompt _ =>
    cases h
    unfold Request.updateBlockHashes
    split <;> rfl

structure SharedQueue (η : Type) where
  request : RequestId → Request η
  queue : RequestQueue

namespace SharedQueue
variable {s s' : SharedQueue η}

def lt (s : SharedQueue η) (a b : RequestId) : Bool := (s.request a).lt (s.request b)

/-- The request is replaced or changed, wherever it is referred to. -/
def setRequest (s : SharedQueue η) (r : RequestId) (q : Request η) : SharedQueue η :=
  { s with request := fun x => if x = r then q else s.request x }

inductive Op (η : Type) where
  | addRequest (r : RequestId)
  | prependRequest (r : RequestId)
  | prependRequests (requests : RequestQueue)
  | popRequest
  | peekRequest
  | removeRequest (r : RequestId)
  | removeRequests (requests : List RequestId)
  | updateRequestAsSession (r : RequestId) (u : StreamingUpdate)
  /-- everything else that happens to requests -/
  | write (r : RequestId) (q : Request η)

/-- What the operations do. Apart from the updates of sessions, a request in the queue keeps its priority,
arrival time and id. -/
inductive Step : SharedQueue η → Op η → SharedQueue η → Prop
  | addRequest (s : SharedQueue η) (r : RequestId) :
      Step s (.addRequest r) { s with queue := s.queue.addRequest s.lt r }
  | prependRequest (s : SharedQueue η) (r : RequestId) :
      Step s (.prependRequest r) { s with queue := s.queue.prependRequest s.lt r }
  | prependRequests (s : SharedQueue η) (requests : RequestQueue) :
      Step s (.prependRequests requests) { s with queue := s.queue.prependRequests s.lt requests }
  | popRequest {s : SharedQueue η} {r : RequestId} {queue : RequestQueue}
      (h : s.queue.popRequest s.lt = .ok (r, queue)) :
      Step s .popRequest { s with queue }
  | peekRequest {s : SharedQueue η} {r : RequestId} (h : s.queue.peekRequest = .ok r) : Step s .peekRequest s
  | removeRequest {s : SharedQueue η} {r : RequestId} {queue : RequestQueue}
      (h : s.queue.removeRequest s.lt r = .ok queue) : Step s (.removeRequest r) { s with queue }
  | removeRequests (s : SharedQueue η) (requests : List RequestId) :
      Step s (.removeRequests requests) { s with queue := s.queue.removeRequests s.lt requests }
  | updateRequestAsSession {s : SharedQueue η} {r : RequestId} {u : StreamingUpdate} {q : Request η}
      (h : (s.request r).updateAsSession u = .ok q) : Step s (.updateRequestAsSession r u) (s.setRequest r q)
  | write {s : SharedQueue η} {r : RequestId} {q : Request η}
      (h : r ∈ s.queue.items → q.sortKey = (s.request r).sortKey) : Step s (.write r q) (s.setRequest r q)

/-- In the heap array the request with the new arrival time stays between its parent and its children. -/
def KeepsPlace (s : SharedQueue η) : Op η → Prop
  | .updateRequestAsSession r u =>
    let moved := s.setRequest r { s.request r with arrivalTime := u.arrivalTime }
    ∀ j a b, 0 < j → s.queue.items[Heapq.parent j]? = some a → s.queue.items[j]? = some b → a = r ∨ b = r →
      moved.lt b a = false
  | _ => True

def Least (s : SharedQueue η) (r : RequestId) : Prop := r ∈ s.queue.items ∧ ∀ x ∈ s.queue.items, s.lt x r = false

/-- What a caller of the queue relies on. -/
structure InOrder (s : SharedQueue η) : Prop where
  peek : ∀ r, s.queue.peekRequest = .ok r → s.Least r
  pop : ∀ r queue, s.queue.popRequest s.lt = .ok (r, queue) → s.Least r
  iter : (s.queue.iter s.lt).Perm s.queue.items ∧ (s.queue.iter s.lt).Pairwise fun a b => s.lt b a = false

theorem lt_comparison (s : SharedQueue η) : Heapq.Comparison s.lt :=
  ⟨Request.lt_comparison.asymm, Request.lt_comparison.trans⟩

structure IsHeap (s : SharedQueue η) : Prop where
  policy : s.queue.policy = .priority
  ordered : Heapq.Ordered s.lt s.queue.items

theorem IsHeap.inOrder (h : s.IsHeap) : s.InOrder := by
  have hpeek : ∀ r, s.queue.peekRequest = .ok r → s.Least r := by
    intro r hr
    refine ⟨RequestQueue.peekRequest_mem hr, fun x hx => h.ordered.root_le s.lt_comparison ?_ hx⟩
    unfold RequestQueue.peekRequest at hr
    split at hr
    · cases hr
    · next hitems => cases hr; rw [hitems]; rfl
  refine ⟨hpeek, fun r queue hpop => hpeek r (RequestQueue.peekRequest_of_popRequest hpop), RequestQueue.iter_perm, ?_⟩
  unfold RequestQueue.iter
  rw [h.policy]
  exact Heapq.drain_pairwise s.lt_comparison h.ordered (Nat.le_refl _)

theorem IsHeap.addRequest (h : s.IsHeap) (r : RequestId) : IsHeap { s with queue := s.queue.addRequest s.lt r } := by
  unfold RequestQueue.addRequest
  rw [h.policy]
  exact ⟨rfl, Heapq.heappush_ordered s.lt_comparison h.ordered r⟩

theorem IsHeap.prependRequest (h : s.IsHeap) (r : RequestId) :
    IsHeap { s with queue := s.queue.prependRequest s.lt r } := by
  unfold RequestQueue.prependRequest
  rw [h.policy]
  exact h.addRequest r

theorem IsHeap.prependAll (h : s.IsHeap) (rs : List RequestId) :
    IsHeap { s with queue := rs.foldl (fun q r => q.prependRequest s.lt r) s.queue } := by
  induction rs generalizing s with
  | nil => exact h
  | cons r rs ih => exact ih (h.prependRequest r)

theorem IsHeap.rekey (h : s.IsHeap) {f : RequestId → Request η}
    (hf : ∀ j a b, 0 < j → s.queue.items[Heapq.parent j]? = some a → s.queue.items[j]? = some b →
      s.lt b a = false → (f b).lt (f a) = false) : IsHeap { s with request := f } :=
  ⟨h.policy, fun j a b hj hs ha hb => hf j a b hj ha hb (h.ordered j a b hj hs ha hb)⟩

theorem IsHeap.step {op : Op η} (h : s.IsHeap) (hstep : Step s op s') (hK : s.KeepsPlace op) : s'.IsHeap := by
  cases hstep with
  | addRequest r => exact h.addRequest r
  | prependRequest r => exact h.prependRequest r
  | prependRequests requests => exact h.prependAll _
  | popRequest hpop =>
    unfold RequestQueue.popRequest at hpop
    split at hpop
    · cases hpop
    · next hp _ => exact absurd (hp.symm.trans h.policy) nofun
    · split at hpop
      · cases hpop
      · next hpop' =>
        cases hpop
        exact ⟨h.policy, Heapq.heappop_ordered s.lt_comparison h.ordered hpop'⟩
  | peekRequest hpeek => exact h
  | removeRequest hrem =>
    unfold RequestQueue.removeRequest at hrem
    rw [h.policy] at hrem
    dsimp only at hrem
    split at hrem
    · cases hrem
      exact ⟨rfl, Heapq.heapify_ordered s.lt_comparison _⟩
    · cases hrem
  | removeRequests requests =>
    unfold RequestQueue.removeRequests
    rw [h.policy]
    exact ⟨rfl, Heapq.heapify_ordered s.lt_comparison _⟩
  | @updateRequestAsSession r u q hu =>
    refine h.rekey fun j a b hj ha hb hab => ?_
    have hkey := Request.updateAsSession_sortKey hu
    by_cases hr : a = r ∨ b = r
    · refine Eq.trans (Request.lt_congr ?_ ?_) (hK j a b hj ha hb hr)
      · dsimp only [setRequest]
        split
        · exact hkey
        · rfl
      · dsimp only [setRequest]
        split
        · exact hkey
        · rfl
    · rw [not_or] at hr
      rw [if_neg hr.1, if_neg hr.2]
      exact hab
  | @write r q hkey =>
    refine h.rekey fun j a b _ ha hb hab => Eq.trans (Request.lt_congr ?_ ?_) hab
    · split
      · next he => subst he; exact hkey (List.mem_of_getElem? hb)
      · rfl
    · split
      · next he => subst he; exact hkey (List.mem_of_getElem? ha)
      · rfl

/-- The runs of a queue in which each update of a session satisfies `K`. -/
def Reaches (K : SharedQueue η → Op η → Prop) : SharedQueue η → SharedQueue η → Prop :=
  Relation.ReflTransGen fun s s' => ∃ op, Step s op s' ∧ K s op

/-- From an empty queue, as long as every session that gets a new arrival time in the queue keeps its place,
pops and peeks return a smallest request and iterations are sorted. -/
theorem priorityQueue_inOrder {request : RequestId → Request η}
    (hrun : Reaches KeepsPlace ⟨request, ⟨.priority, []⟩⟩ s) : s.InOrder := by
  refine IsHeap.inOrder ?_
  induction hrun with
  | refl => exact ⟨rfl, fun j x y _ _ _ hy => by simp at hy⟩
  | tail _ hstep ih =>
    obtain ⟨op, hstep, hK⟩ := hstep
    exact ih.step hstep hK

def sessions (r : RequestId) : Request Nat := { requestId := r, arrivalTime := r, promptTokenIds := some [] }

/-- The second of two sessions gets an arrival time after its own. -/
theorem priorityQueue_inOrder_laterInput : ∃ s : SharedQueue Nat, s.queue.items = [1, 2] ∧
    (s.request 2).arrivalTime = 5 ∧ s.InOrder := by
  have h1 : Step ⟨sessions, ⟨.priority, []⟩⟩ (.addRequest 1) ⟨sessions, ⟨.priority, [1]⟩⟩ := .addRequest _ 1
  have h2 : Step ⟨sessions, ⟨.priority, [1]⟩⟩ (.addRequest 2) ⟨sessions, ⟨.priority, [1, 2]⟩⟩ := .addRequest _ 2
  have h3 : Step { request := sessions, queue := ⟨.priority, [1, 2]⟩ }
      (.updateRequestAsSession 2 ⟨[], none, 1, 5, none⟩) _ :=
    .updateRequestAsSession rfl
  refine ⟨_, rfl, rfl, priorityQueue_inOrder (((Relation.ReflTransGen.refl.tail ⟨_, h1, trivial⟩).tail
    ⟨_, h2, trivial⟩).tail ⟨_, h3, ?_⟩)⟩
  intro j a b hj ha hb _
  have hj1 : j = 1 := by
    have := (List.getElem?_eq_some_iff.1 hb).1
    simp only [List.length_cons, List.length_nil] at this
    omega
  subst hj1
  cases ha
  cases hb
  decide

end SharedQueue

/-! ### Two sessions that wait for input

The first to arrive is the first of `skipped_waiting`. Its next input arrives long after the second
session did. -/

namespace Engine

def priorityConfig : SchedulerConfig where
  policy := .priority
  maxNumRunningReqs := 4
  maxNumScheduledTokens := 16
  maxNumBatchedTokens := 16
  maxModelLen := 16
  maxInFlightTokens := 16
  blockSize := 2
  cacheBlockSize := 2
  hashBlockSize := 2
  enablePrefixCaching := false

def eightBlocks : Coordinator.KVCacheConfig where
  numBlocks := 8
  groups := [⟨⟨2, .fullAttention, Nat.two_pos, 0⟩, false⟩]

def streamedInput (id : RequestId) (arrivalTime : Int) : Request.Args Nat where
  requestId := id
  promptTokenIds := some [1, 2]
  samplingParams := some { maxTokens := 4, eosTokenId := some 9 }
  arrivalTime := arrivalTime
  resumable := true

theorem sessions_out_of_order : ∃ e₀ e q1 q2, Engine.init priorityConfig eightBlocks = .ok e₀ ∧
    e₀.run [.addRequest {} (streamedInput 1 1), .addRequest {} (streamedInput 2 2), .schedule {},
      .updateFromOutput { sampledTokenIds := fun _ => [9] }, .addRequest {} (streamedInput 1 10)] = .ok e ∧
    e.scheduler.skippedWaiting = ⟨.priority, [1, 2]⟩ ∧
    e.scheduler.requests.get? 1 = some q1 ∧ e.scheduler.requests.get? 2 = some q2 ∧ q2.lt q1 = true ∧
    e.scheduler.skippedWaiting.peekRequest = .ok 1 ∧
    (e.scheduler.skippedWaiting.popRequest e.scheduler.before).map Prod.fst = .ok 1 ∧
    e.scheduler.skippedWaiting.iter e.scheduler.before = [1, 2] :=
  ⟨_, _, _, _, rfl, rfl, rfl, rfl, rfl, rfl, rfl, rfl, rfl⟩

end Engine

end VllmCore
