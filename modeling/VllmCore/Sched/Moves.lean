import VllmCore.Sched.Frames

/-! # The lifecycle operations keep requests in their places

Adding, preempting and finishing move requests between the queues. Each of them is one of the moves of
`Placed`, together with what the queue operations do to the lists. -/

namespace VllmCore
open Except List
variable {η : Type} {V : List (RequestId × Request η)} {u : StreamingUpdate}

namespace Request
variable {q q' : Request η}

theorem tag_updateBlockHashes (q : Request η) : q.updateBlockHashes.tag = q.tag := by
  unfold updateBlockHashes
  split <;> rfl

theorem status_updateBlockHashes (q : Request η) : q.updateBlockHashes.status = q.status :=
  status_eq q.tag_updateBlockHashes

theorem requestId_updateBlockHashes (q : Request η) : q.updateBlockHashes.requestId = q.requestId :=
  requestId_eq q.tag_updateBlockHashes

theorem waits_of_status {t : RequestStatus} (h : q.status = t) (hf : t.isFinished = false) (hr : t ≠ .running) :
    q.Waits := ⟨by rw [isFinished, h, hf], by rwa [h]⟩

theorem streamingWeight_of_ne (h : q.status ≠ .waitingForStreamingReq) : q.streamingWeight = 0 := if_neg h

theorem updateAsSession_eq (h : q.updateAsSession u = .ok q') : q'.status = .waiting ∧ q'.requestId = q.requestId := by
  unfold updateAsSession at h
  split at h
  · cases h
  · next prompt _ =>
    cases h
    exact ⟨rfl, requestId_updateBlockHashes (q.withUpdate prompt u)⟩

theorem init_eq {a : Args η} (h : init a = .ok q) :
    q.Waits ∧ q.status ≠ .waitingForStreamingReq ∧ q.requestId = a.requestId := by
  simp only [init, do_eq_ok] at h
  obtain ⟨-, -, n, -, rfl⟩ := h
  refine ⟨⟨?_, ?_⟩, ?_, requestId_updateBlockHashes _⟩
  · rw [isFinished, status_updateBlockHashes]; dsimp only; split <;> rfl
  · rw [status_updateBlockHashes]; dsimp only; split <;> decide
  · rw [status_updateBlockHashes]; dsimp only; split <;> decide

end Request

namespace Scheduler
variable {s s' : Scheduler η} {r : RequestId} {q : Request η} {X W items : List RequestId} {k : Nat} {env : FinishEnv}
  {R ids l : List RequestId} {st : RequestStatus}

def allWaiting (s : Scheduler η) : List RequestId := s.waiting.items ++ s.skippedWaiting.items

theorem SameQueues.allWaiting (h : SameQueues s s') : s'.allWaiting = s.allWaiting := by
  unfold Scheduler.allWaiting
  rw [h.waiting, h.skipped]

/-- Every unfinished request is in its place; `X` is what a pass has put aside. -/
def Consistent (s : Scheduler η) (X : List RequestId) : Prop :=
  Placed s.requests s.numWaitingForStreamingInput s.running (s.allWaiting ++ X)

/-- The same with flaws: the requests in `X` may also be lost to the queues, and the counter is `k` too high. -/
def Adrift (s : Scheduler η) (X : List RequestId) (k : Nat) : Prop :=
  Placed s.requests (s.numWaitingForStreamingInput - k) s.running (s.allWaiting ++ X)

theorem adrift_zero : Adrift s X 0 ↔ Consistent s X := by
  unfold Adrift Consistent
  rw [Int.natCast_zero, Int.sub_zero]

theorem Adrift.same (h : Adrift s X k) (hs : SameQueues s s') : Adrift s' X k := by
  unfold Adrift allWaiting
  rw [hs.streaming, hs.running, hs.waiting, hs.skipped]
  exact Placed.congr h hs.tags (.refl _) (.refl _)

theorem enqueueWaitingRequest_perm (s : Scheduler η) (r : RequestId) (st : RequestStatus) :
    (s.enqueueWaitingRequest r st).allWaiting.Perm (r :: s.allWaiting) := by
  unfold enqueueWaitingRequest allWaiting
  split
  · exact ((RequestQueue.addRequest_perm r).append_left _).trans perm_middle
  · exact (RequestQueue.addRequest_perm r).append_right _

theorem enqueueWaitingRequest_fields (s : Scheduler η) (r : RequestId) (st : RequestStatus) :
    (s.enqueueWaitingRequest r st).requests = s.requests ∧ (s.enqueueWaitingRequest r st).running = s.running ∧
      (s.enqueueWaitingRequest r st).numWaitingForStreamingInput = s.numWaitingForStreamingInput ∧
      (s.enqueueWaitingRequest r st).config = s.config := by
  unfold enqueueWaitingRequest
  split <;> exact ⟨rfl, rfl, rfl, rfl⟩

theorem enqueueWaitingRequest_placed :
    Placed (s.enqueueWaitingRequest r st).requests ((s.enqueueWaitingRequest r st).numWaitingForStreamingInput - k)
      R W ↔
      Placed s.requests (s.numWaitingForStreamingInput - k) R W := by
  obtain ⟨hreq, -, hnum, -⟩ := enqueueWaitingRequest_fields s r st
  rw [hreq, hnum]

theorem removeAll_eq_filter (h : l.Nodup) : removeAll l items = l.filter fun r => r ∉ items := by
  unfold removeAll
  split
  · simp
  · rw [h.erase_eq_filter]
    exact filter_congr fun a _ => by rw [Bool.eq_iff_iff]; simp
  · rfl

/-! ### Preemption -/

theorem preemptRequest_adrift {drop : Bool}
    (h : Placed s.requests (s.numWaitingForStreamingInput - k) R (s.allWaiting ++ X)) (hR : R.Perm (r :: s.running))
    (hstep : s.preemptRequest r drop = .ok s') : Adrift s' X k := by
  simp only [preemptRequest, do_eq_ok, getRequest_eq_ok] at hstep
  obtain ⟨q, hq, -, hrun, s1, h1, encoder, -, rfl⟩ := hstep
  have hfree := freeRequestBlocks_same h1
  have hout : r ∉ s.allWaiting ++ X := h.notMem_waiting hq fun hw => hw.2 hrun
  have hplaced : Placed (s.requests.set r (preempted q drop)) (s.numWaitingForStreamingInput - k) s.running
      (r :: (s.allWaiting ++ X)) := by
    refine h.set ?_ ?_ ?_ (fun he => by cases he) (h.ids r q hq)
    · rw [if_neg (show (preempted q drop).status ≠ .running from fun he => by cases he)]
      exact (Placed.filter_ne_perm hR (nodup_append.1 h.nodup).1).symm
    · rw [if_pos (Request.waits_of_status (t := .preempted) rfl rfl (by decide)), Placed.filter_ne_self hout]
      exact .refl _
    · rw [hq, Option.elim_some, Request.streamingWeight_of_ne (by rw [hrun]; decide)]
      rfl
  unfold Adrift allWaiting
  show Placed (s1.requests.set r _) (s1.numWaitingForStreamingInput - k) s1.running _
  rw [hfree.requests, hfree.running, hfree.same.streaming]
  refine hplaced.perm (.refl _) ?_
  show ((s1.waiting.prependRequest _ r).items ++ s1.skippedWaiting.items ++ X).Perm _
  rw [hfree.same.waiting, hfree.same.skipped]
  exact ((RequestQueue.prependRequest_perm r).append_right _).append_right _

theorem preemptAll_adrift (h : Adrift s X k) (hl : s.running = l.reverse) (hstep : preemptAll l s = .ok s') :
    Adrift s' X k := by
  induction l generalizing s with
  | nil => cases hstep; exact h
  | cons r l ih =>
    simp only [preemptAll, bind_eq_ok] at hstep
    obtain ⟨s1, h1, hstep⟩ := hstep
    have hrunning : s.running.dropLast = l.reverse := by rw [hl, reverse_cons, dropLast_concat]
    have hperm : s.running.Perm (r :: s.running.dropLast) := by
      rw [hrunning, hl, reverse_cons]
      exact perm_append_singleton ..
    have hsame : s1.running = s.running.dropLast := by
      simp only [preemptRequest, do_eq_ok] at h1
      obtain ⟨q, -, -, -, s2, h2, encoder, -, rfl⟩ := h1
      exact (freeRequestBlocks_same h2).running
    exact ih (preemptRequest_adrift (s := { s with running := s.running.dropLast }) h hperm h1)
      (hsame.trans hrunning) hstep

theorem resetPrefixCache_adrift {a b c : Bool} {res : Except Err Bool} (h : Adrift s X k)
    (hstep : s.resetPrefixCache a b c = .ok (res, s')) : Adrift s' X k := by
  simp only [resetPrefixCache, bind_eq_ok] at hstep
  obtain ⟨s1, h1, hstep⟩ := hstep
  have hpreempt : Adrift s1 X k := by
    unfold preemptForReset at h1
    split at h1
    · exact preemptAll_adrift h (reverse_reverse _).symm h1
    · cases h1; exact h
  have hkv : Adrift { s1 with kvCacheManager := s1.kvCacheManager.resetPrefixCache.2 } X k := hpreempt
  split at hstep
  · cases hstep; exact hkv
  split at hstep
  · cases hstep; exact hkv
  · cases hstep; exact hkv

/-! ### Finishing -/

structure Released (s : Scheduler η) (r : RequestId) (s' : Scheduler η) : Prop where
  finished : ∃ q, s.requests.get? r = some q ∧ q.isFinished = true
  view : s'.view = s.view ∨ s'.view = { s.view with requests := s.requests.erase r }

namespace Released

variable (h : Released s r s')
include h

theorem requests : s'.requests = s.requests ∨ s'.requests = s.requests.erase r :=
  h.view.imp (congrArg QueueView.requests) (congrArg QueueView.requests)

theorem get_of_ne {x : RequestId} (hx : x ≠ r) : s'.requests.get? x = s.requests.get? x := by
  rcases h.requests with he | he
  · rw [he]
  · rw [he, Dict.get?_erase, if_neg hx]

theorem placed {n : Int} (hp : Placed s.requests n R W) : Placed s'.requests n R W := by
  obtain ⟨q, hq, hfin⟩ := h.finished
  rcases h.requests with he | he
  · rwa [he]
  · rw [he]; exact hp.erase hq hfin

theorem queues : s'.running = s.running ∧ s'.waiting = s.waiting ∧
    s'.skippedWaiting = s.skippedWaiting ∧ s'.numWaitingForStreamingInput = s.numWaitingForStreamingInput := by
  rcases h.view with he | he
  · exact ⟨congrArg QueueView.running he, congrArg QueueView.waiting he, congrArg QueueView.skippedWaiting he,
      congrArg QueueView.numWaitingForStreamingInput he⟩
  · exact ⟨congrArg QueueView.running he, congrArg QueueView.waiting he, congrArg QueueView.skippedWaiting he,
      congrArg QueueView.numWaitingForStreamingInput he⟩

theorem config : s'.config = s.config := by
  rcases h.view with he | he
  · exact congrArg QueueView.config he
  · exact congrArg QueueView.config he

theorem allWaiting : s'.allWaiting = s.allWaiting := by
  obtain ⟨-, hwait, hskip, -⟩ := h.queues
  unfold Scheduler.allWaiting
  rw [hwait, hskip]

theorem adrift (hs : Adrift s X k) : Adrift s' X k := by
  obtain ⟨hrun, -, -, hnum⟩ := h.queues
  unfold Adrift
  rw [hrun, h.allWaiting, hnum]
  exact h.placed hs

end Released

theorem freeBlocks_released (h : s.freeBlocks r = .ok s') : Released s r s' := by
  simp only [freeBlocks, do_eq_ok, getRequest_eq_ok] at h
  obtain ⟨q, hq, -, hfin, s1, h1, rfl⟩ := h
  have hsame : s1.view = s.view := freeRequestBlocks_same h1
  refine ⟨⟨q, hq, hfin⟩, .inr ?_⟩
  show { s1.view with requests := s1.view.requests.erase r } = _
  rw [hsame]
  rfl

theorem freeRequest_released {delay : Bool} (h : s.freeRequest env r delay = .ok s') : Released s r s' := by
  simp only [freeRequest, bind_eq_ok, getRequest_eq_ok, ensure_eq_ok] at h
  obtain ⟨q, hq, -, hfin, ⟨d, s1⟩, h1, encoder, -, h⟩ := h
  have hsame : s1.view = s.view := connectorFinished_same h1
  split at h
  · cases h
    exact ⟨⟨q, hq, hfin⟩, .inl hsame⟩
  · have hfree := (freeBlocks_released h).view
    refine ⟨⟨q, hq, hfin⟩, ?_⟩
    have hreq : s1.requests = s.requests := congrArg QueueView.requests hsame
    change s'.view = s1.view ∨ s'.view = { s1.view with requests := s1.requests.erase r } at hfree
    rwa [hsame, hreq] at hfree

/-- The second pass of `finish_requests`: the requests leave the lists one after the other, the queues
themselves have been cleaned before. -/
theorem foldlM_finishRequest (hst : st.isFinished = true) (hnd : (V.map Prod.fst).Nodup)
    (hV : ∀ e ∈ V, s.requests.get? e.1 = some e.2 ∧ e.2.isFinished = false) {n : Int} (hp : Placed s.requests n R W)
    (h : (V.map Prod.fst).foldlM (finishRequest env st) s = .ok s') :
    Placed s'.requests (n - V.countP fun e => e.2.status == .waitingForStreamingReq)
        (R.filter (· ∉ V.map Prod.fst)) (W.filter (· ∉ V.map Prod.fst)) ∧
      s'.running = s.running ∧ s'.waiting = s.waiting ∧ s'.skippedWaiting = s.skippedWaiting ∧
      s'.numWaitingForStreamingInput = s.numWaitingForStreamingInput := by
  induction V generalizing s n R W with
  | nil =>
    cases h
    simpa using hp
  | cons e V ih =>
    rw [map_cons, foldlM_cons, bind_eq_ok] at h
    obtain ⟨s1, h1, h⟩ := h
    rw [map_cons, nodup_cons] at hnd
    obtain ⟨hget, hlive⟩ := hV e (mem_cons_self ..)
    simp only [finishRequest, bind_eq_ok, getRequest_eq_ok] at h1
    obtain ⟨q, hq, h1⟩ := h1
    cases hget.symm.trans hq
    have hrel := freeRequest_released h1
    have hone : Placed s1.requests (n - e.2.streamingWeight) (R.filter (· ≠ e.1)) (W.filter (· ≠ e.1)) :=
      hrel.placed (hp.finish hq (by omega) hst (hp.ids e.1 e.2 hq))
    have hkeep : ∀ e' ∈ V, s1.requests.get? e'.1 = some e'.2 ∧ e'.2.isFinished = false := by
      intro e' he'
      have hne : e'.1 ≠ e.1 := fun he => hnd.1 (he ▸ mem_map_of_mem he')
      refine ⟨(hrel.get_of_ne hne).trans ?_, (hV e' (mem_cons_of_mem _ he')).2⟩
      exact (Dict.get?_set ..).trans (by rw [if_neg hne]; exact (hV e' (mem_cons_of_mem _ he')).1)
    obtain ⟨hrest, hrun, hwait, hskip, hnum⟩ := ih hnd.2 hkeep hone h
    obtain ⟨hrun1, hwait1, hskip1, hnum1⟩ := hrel.queues
    refine ⟨?_, hrun.trans hrun1, hwait.trans hwait1, hskip.trans hskip1, hnum.trans hnum1⟩
    have hfilter : ∀ l : List RequestId, (l.filter (· ≠ e.1)).filter (· ∉ V.map Prod.fst) =
        l.filter (· ∉ (e :: V).map Prod.fst) := by
      intro l
      rw [filter_filter]
      exact filter_congr fun a _ => by rw [Bool.eq_iff_iff]; simp [and_comm]
    have hcount : n - e.2.streamingWeight - (V.countP fun e => e.2.status == .waitingForStreamingReq) =
        n - ((e :: V).countP fun e => e.2.status == .waitingForStreamingReq) := by
      rw [countP_cons, Request.streamingWeight]
      simp only [beq_iff_eq]
      omega
    rwa [hfilter, hfilter, hcount] at hrest

theorem mem_validRequests {e : RequestId × Request η} :
    e ∈ s.validRequests ids ↔ e.1 ∈ ids ∧ s.requests.get? e.1 = some e.2 ∧ e.2.isFinished = false := by
  unfold validRequests
  rw [mem_filterMap]
  constructor
  · rintro ⟨r, hr, he⟩
    obtain ⟨q, hq, he⟩ := Option.bind_eq_some_iff.1 he
    split at he
    · cases he
    · next hlive => cases he; exact ⟨hr, hq, by simpa using hlive⟩
  · rintro ⟨hr, hq, hlive⟩
    refine ⟨e.1, hr, Option.bind_eq_some_iff.2 ⟨e.2, hq, ?_⟩⟩
    rw [hlive]
    rfl

theorem nodup_validRequests (h : ids.Nodup) : ((s.validRequests ids).map Prod.fst).Nodup := by
  have hsub : ((s.validRequests ids).map Prod.fst).Sublist ids := by
    unfold validRequests
    induction ids with
    | nil => exact .refl _
    | cons r ids ih =>
      rw [filterMap_cons]
      split
      · exact (ih (nodup_cons.1 h).2).cons r
      · next e he =>
        obtain ⟨q, -, he⟩ := Option.bind_eq_some_iff.1 he
        split at he
        · cases he
        · cases he
          exact (ih (nodup_cons.1 h).2).cons_cons r
  exact h.sublist hsub

theorem removeRequests_ite_perm (Q : RequestQueue) (lt : RequestId → RequestId → Bool) (items : List RequestId) :
    (if items = [] then Q else Q.removeRequests lt items).items.Perm (Q.items.filter (· ∉ items)) := by
  split
  · next hnil => simp [hnil]
  · exact RequestQueue.removeRequests_perm items

theorem removeRequests_ite_subset (W S : RequestQueue) (lt lt' : RequestId → RequestId → Bool)
    (items : List RequestId) :
    (if items = [] then W else W.removeRequests lt items).items ++
      (if items = [] then S else S.removeRequests lt' items).items ⊆ W.items ++ S.items :=
  append_subset.2
    ⟨fun _ hx => mem_append_left _ (mem_of_mem_filter ((removeRequests_ite_perm ..).subset hx)),
      fun _ hx => mem_append_right _ (mem_of_mem_filter ((removeRequests_ite_perm ..).subset hx))⟩

theorem filter_sorted {P : RequestId × Request η → Bool} (hl : ∀ e ∈ V, e.1 ∈ l → P e = true) :
    l.filter (· ∉ (V.filter P).map Prod.fst) = l.filter (· ∉ V.map Prod.fst) := by
  refine filter_congr fun r hr => ?_
  rw [Bool.eq_iff_iff, decide_eq_true_iff, decide_eq_true_iff, not_iff_not]
  constructor
  · intro hmem
    obtain ⟨e, he, rfl⟩ := mem_map.1 hmem
    exact mem_map_of_mem (mem_of_mem_filter he)
  · intro hmem
    obtain ⟨e, he, rfl⟩ := mem_map.1 hmem
    exact mem_map_of_mem (mem_filter.2 ⟨he, hl e he hr⟩)

theorem finishRequests_adrift (h : Adrift s X k) (hstep : s.finishRequests env ids st = .ok s') :
    ∃ X', X'.Sublist X ∧ Adrift s' X' k ∧ s'.allWaiting ⊆ s.allWaiting := by
  simp only [finishRequests, bind_eq_ok, ensure_eq_ok] at hstep
  obtain ⟨-, hst, hstep⟩ := hstep
  have hV : ∀ e ∈ s.validRequests ids.dedup, s.requests.get? e.1 = some e.2 ∧ e.2.isFinished = false :=
    fun e he => (mem_validRequests.1 he).2
  have hnd : ((s.validRequests ids.dedup).map Prod.fst).Nodup := nodup_validRequests ids.nodup_dedup
  generalize s.validRequests ids.dedup = V at hstep hV hnd
  obtain ⟨hp, hrun, hwait, hskip, hnum⟩ := foldlM_finishRequest (s := s.dequeueFinished V) hst hnd hV h hstep
  refine ⟨X.filter (· ∉ V.map Prod.fst), filter_sublist, ?_, ?_⟩
  swap
  · unfold allWaiting
    rw [hwait, hskip]
    exact removeRequests_ite_subset ..
  unfold Adrift at h ⊢
  obtain ⟨hRn, -, -⟩ := nodup_append.1 h.nodup
  -- the status of a request says in which list it is
  have hwaits : ∀ e ∈ V, e.1 ∈ s.allWaiting → (e.2.status != .running) = true := by
    intro e he hr
    obtain ⟨q, hq, hw⟩ := h.waits_of_mem (mem_append_left _ hr)
    cases (hV e he).1.symm.trans hq
    simpa using hw.2
  have hcount : s'.numWaitingForStreamingInput - k = s.numWaitingForStreamingInput - k -
      (V.countP fun e => e.2.status == .waitingForStreamingReq) := by
    rw [hnum]
    show s.numWaitingForStreamingInput - _ - (k : Int) = _
    omega
  rw [hcount]
  refine hp.perm ?_ ?_
  · rw [hrun]
    show (removeAll s.running _).Perm _
    rw [removeAll_eq_filter hRn, filter_sorted]
    intro e he hr
    simpa using (h.running e.1 e.2 (hV e he).1).2 hr
  · unfold allWaiting
    rw [hwait, hskip, filter_append, filter_append]
    refine Perm.append_right _ ?_
    refine (removeRequests_ite_perm ..).append (removeRequests_ite_perm ..) |>.trans (.of_eq ?_)
    show s.waiting.items.filter _ ++ s.skippedWaiting.items.filter _ = _
    rw [filter_sorted fun e he hr => hwaits e he (mem_append_left _ hr),
      filter_sorted fun e he hr => hwaits e he (mem_append_right _ hr)]

/-! ### Adding -/

theorem updateRequestAsSession_view (hq : s.requests.get? r = some q) (hid : q.requestId = r)
    (h : s.updateRequestAsSession r u = .ok s') : ∃ q', s'.view = { s.view with
        requests := s.requests.set r q'
        numWaitingForStreamingInput := s.numWaitingForStreamingInput - q.streamingWeight } ∧
      q'.status = .waiting ∧ q'.requestId = r := by
  simp only [updateRequestAsSession, do_eq_ok, getRequest_eq_ok] at h
  obtain ⟨session, hs, updated, hu, rfl⟩ := h
  cases hq.symm.trans hs
  obtain ⟨hst, hid'⟩ := Request.updateAsSession_eq hu
  refine ⟨updated, ?_, hst, hid'.trans hid⟩
  unfold Request.streamingWeight
  split
  · rfl
  · exact congrArg (fun n => { s.view with requests := s.requests.set r updated, numWaitingForStreamingInput := n })
      (Int.sub_zero _).symm

theorem addRequest_adrift {a : Request.Args η} (h : Adrift s X k) (ha : Request.init a = .ok q)
    (hstep : s.addRequest env q = .ok s') :
    ∃ X', X'.Sublist X ∧ Adrift s' X' k ∧ s'.allWaiting ⊆ q.requestId :: s.allWaiting := by
  obtain ⟨hw, hns, -⟩ := Request.init_eq ha
  unfold addRequest at hstep
  dsimp only at hstep
  split at hstep
  · next existing hq =>
    split at hstep
    · next hst =>
      split at hstep
      · cases hstep
      · cases hstep
        exact ⟨X, .refl X, Placed.rewrite h hq rfl (fun he => absurd he hst) (h.ids q.requestId existing hq),
          subset_cons_self ..⟩
    · next hst =>
      have hst := not_not.1 hst
      split at hstep
      · -- a session that waits for input gets it
        obtain ⟨q', hview, hst', hid⟩ := updateRequestAsSession_view hq (h.ids _ _ hq) hstep
        have hwaits := Request.waits_of_status hst' rfl nofun
        have hweight : q'.streamingWeight = 0 := Request.streamingWeight_of_ne (hst' ▸ nofun)
        have hplaced : Placed _ (s.numWaitingForStreamingInput - existing.streamingWeight - k) _ _ :=
          h.wait hq (Request.waits_of_status hst rfl nofun) hwaits
            (by omega) (fun he => by rw [hst'] at he; cases he) hid
        have hwait : s'.allWaiting = s.allWaiting :=
          congrArg (fun v : QueueView η => v.waiting.items ++ v.skippedWaiting.items) hview
        refine ⟨X, .refl X, ?_, hwait ▸ subset_cons_self ..⟩
        unfold Adrift
        rw [hwait, show s'.requests = _ from congrArg QueueView.requests hview,
          show s'.running = _ from congrArg QueueView.running hview,
          show s'.numWaitingForStreamingInput = _ from congrArg QueueView.numWaitingForStreamingInput hview]
        exact hplaced
      · obtain ⟨X', hX, hs, hwait⟩ := finishRequests_adrift h hstep
        exact ⟨X', hX, hs, fun _ hx => mem_cons_of_mem _ (hwait hx)⟩
  · next hnone =>
    cases hstep
    have hnew : ∀ q' : Request η, q'.tag.status = q.status → q'.requestId = q.requestId →
        Adrift ((s.setRequest q.requestId q').enqueueWaitingRequest q.requestId q'.status) X k := by
      intro q' hst hid
      obtain ⟨-, hrun, -, -⟩ := enqueueWaitingRequest_fields (s.setRequest q.requestId q') q.requestId q'.status
      unfold Adrift
      rw [enqueueWaitingRequest_placed, hrun]
      change q'.status = q.status at hst
      refine Placed.join (h := h) (fun x hx => by rw [hnone] at hx; cases hx) ?_ ?_ ?_ hid ?_
      · exact ⟨by rw [Request.isFinished, hst]; exact hw.1, by rw [hst]; exact hw.2⟩
      · rw [Request.streamingWeight_of_ne (hst ▸ hns)]
        exact (Int.add_zero _).symm
      · exact fun he => absurd he (hst ▸ hns)
      · exact (enqueueWaitingRequest_perm ..).append_right X
    refine ⟨X, .refl X, ?_, (enqueueWaitingRequest_perm ..).subset⟩
    split
    · exact hnew _ rfl rfl
    · exact hnew _ rfl rfl

end Scheduler

end VllmCore
