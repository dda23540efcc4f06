import VllmCore.Sched.PassMoves

/-! # Who is scheduled in a pass

The running loop goes through `running` from the front. What it has passed, what it looks at and what is still to come
are three parts of the list; a preemption takes a request out of one of them and the cursor follows. Requests scheduled
in the loop are among those passed, so no request that is preempted stays scheduled. The waiting loop adds requests to
the end of the list. -/

namespace VllmCore
open Except List Dict
variable {η : Type} {d : Dict RequestId Nat}

theorem Scheduler.preemptRequest_running {s s' : Scheduler η} {r : RequestId} {drop : Bool}
    (h : s.preemptRequest r drop = .ok s') : s'.running = s.running := by
  simp only [preemptRequest, do_eq_ok] at h
  obtain ⟨q, -, -, -, s1, h1, e, -, rfl⟩ := h
  exact (freeRequestBlocks_same h1).running

namespace Pass
open Scheduler
variable {p p' : Pass η} {r v : RequestId} {q : Request η} {before after before' rest : List RequestId} {found : Lookup}
  {p'' : Pass η} {share : Share} {fuel j n : Nat}

theorem recordDrafts_books (p : Pass η) (r : RequestId) (q : Request η) (n : Nat) :
    (p.recordDrafts r q n).books = p.books := by
  unfold recordDrafts
  split
  · rfl
  · dsimp only
    split <;> rfl

/-! ### The running loop -/

/-- The state of the running loop when it has passed `before`. -/
structure Ordered (p : Pass η) (before : List RequestId) : Prop where
  fresh : p.scheduledNewReqs = [] ∧ p.scheduledResumedReqs = []
  order : p.scheduledRunningReqs.Sublist before
  keys : ∀ r, r ∈ p.numScheduledTokens.keys ↔ r ∈ p.scheduledRunningReqs
  gone : ∀ r ∈ p.preemptedReqs, r ∉ p.scheduler.running

theorem Ordered.congr (h : p.Ordered before) (hb : p'.books = p.books)
    (hrun : p'.scheduler.running = p.scheduler.running) : p'.Ordered before := by
  obtain ⟨hnew, hresumed, hrunning, hpre, hnum⟩ := Books.mk.inj hb
  refine ⟨?_, ?_, ?_, ?_⟩
  · rw [hnew, hresumed]; exact h.fresh
  · rw [hrunning]; exact h.order
  · rw [hnum, hrunning]; exact h.keys
  · rw [hpre, hrun]; exact h.gone

theorem Ordered.mono (h : p.Ordered before) (hb : before.Sublist before') : p.Ordered before' :=
  ⟨h.fresh, h.order.trans hb, h.keys, h.gone⟩

theorem mem_keys_erase : r ∈ (d.erase v).keys ↔ r ≠ v ∧ r ∈ d.keys := by
  rw [Dict.mem_keys, Dict.mem_keys, get?_erase]
  split
  · next he => simp [he]
  · next he => simp [he]

theorem mem_keys_set : r ∈ (d.set v n).keys ↔ r = v ∨ r ∈ d.keys := by
  rw [Dict.mem_keys, Dict.mem_keys, get?_set]
  split
  · next he => simp [he]
  · next he => simp [he]

theorem withdraw_ordered (ho : p.Ordered before) (hnd : before.Nodup) (h : p.withdraw v = .ok p') :
    p'.Ordered (before.erase v) ∧ p'.preemptedReqs = p.preemptedReqs := by
  have hsched := hnd.sublist ho.order
  unfold withdraw at h
  split at h
  · rw [bind_eq_ok] at h
    obtain ⟨q, -, h⟩ := h
    split at h
    · simp only [do_eq_ok] at h
      obtain ⟨embeds, -, rfl⟩ := h
      refine ⟨⟨ho.fresh, ho.order.erase v, fun r => ?_, ho.gone⟩, rfl⟩
      dsimp only
      rw [mem_keys_erase, ho.keys, hsched.mem_erase_iff]
    · cases h
  · next hv =>
    cases h
    refine ⟨⟨ho.fresh, ?_, ho.keys, ho.gone⟩, rfl⟩
    rw [← erase_of_not_mem hv]
    exact ho.order.erase v

section
variable (hrun : p.scheduler.running = before ++ r :: after) (hnd : p.scheduler.running.Nodup) (ho : p.Ordered before)
include hrun hnd ho

/-- Where a preemption leaves the loop: the victim is taken from one of the parts, and the cursor stays between them. -/
theorem takeVictim_ordered (h : p.takeVictim before.length = .ok (v, p', j)) :
    ∃ before' after', before'.Sublist before ∧ after'.Sublist after ∧ j = before'.length ∧
      p'.scheduler.running = (if v = r then before' ++ after' else before' ++ r :: after') ∧
      p'.Ordered before' ∧ p'.preemptedReqs = p.preemptedReqs := by
  have hnd' := hrun ▸ hnd
  obtain ⟨hbefore, hrest, hdisj⟩ := nodup_append.1 hnd'
  have hgone : ∀ {l : List RequestId}, l.Sublist p.scheduler.running → ∀ x ∈ p.preemptedReqs, x ∉ l :=
    fun hl x hx hmem => ho.gone x hx (hl.subset hmem)
  unfold takeVictim at h
  dsimp only at h
  split at h
  · split at h
    · cases h
    · next victim hv =>
      simp only [do_eq_ok] at h
      obtain ⟨p1, h1, he⟩ := h
      cases he
      rw [← erase_eq_eraseIdx_of_idxOf rfl] at h1
      have ho1 : Ordered { p with scheduler := { p.scheduler with running := p.scheduler.running.erase v } } before :=
        ⟨ho.fresh, ho.order, ho.keys, hgone erase_sublist⟩
      obtain ⟨ho2, hpre⟩ := withdraw_ordered ho1 hbefore h1
      have hs := (withdraw_scheduler h1).1
      have hrun2 : p'.scheduler.running = (before ++ r :: after).erase v := by rw [hs, ← hrun]
      by_cases hmem : v ∈ before
      · have hvr : v ≠ r := fun he => hdisj v hmem r (mem_cons_self ..) he
        have hidx : p.scheduler.running.idxOf v < before.length := by
          rw [hrun, idxOf_append_of_mem hmem]
          exact idxOf_lt_length_of_mem hmem
        refine ⟨before.erase v, after, erase_sublist, .refl _, ?_, ?_, ho2, hpre⟩
        · rw [if_pos hidx, length_erase_of_mem hmem]
        · rw [hrun2, erase_append_left _ hmem, if_neg hvr]
      · have hidx : ¬ p.scheduler.running.idxOf v < before.length := by
          rw [hrun, idxOf_append_of_notMem hmem]
          omega
        rw [erase_of_not_mem hmem] at ho2
        rw [erase_append_right _ hmem] at hrun2
        refine ⟨before, after.erase v, .refl _, erase_sublist, if_neg hidx, ?_, ho2, hpre⟩
        rw [hrun2]
        by_cases hvr : v = r
        · have hafter : v ∉ after := by rw [hvr]; exact (nodup_cons.1 hrest).1
          rw [if_pos hvr, hvr, erase_cons_head, ← hvr, erase_of_not_mem hafter]
        · rw [if_neg hvr, erase_cons_tail (by simpa using fun he : r = v => hvr he.symm)]
  · split at h
    · cases h
    · next victim hv =>
      cases h
      have hgone' : ∀ x ∈ p.preemptedReqs, x ∉ p.scheduler.running.dropLast := hgone (dropLast_sublist _)
      have ho1 : Ordered { p with scheduler := { p.scheduler with running := p.scheduler.running.dropLast } } before :=
        ⟨ho.fresh, ho.order, ho.keys, hgone'⟩
      refine ⟨before, after.dropLast, .refl _, dropLast_sublist _, rfl, ?_, ho1, rfl⟩
      dsimp only
      rw [hrun] at hv ⊢
      rw [dropLast_append_of_ne_nil (by simp)]
      cases after with
      | nil =>
        simp only [getLast?_append, getLast?_singleton, Option.some_or, Option.some.injEq] at hv
        rw [if_pos hv.symm]
        rfl
      | cons a as =>
        have hlast : v ∈ a :: as := by
          rw [getLast?_append, getLast?_cons_cons] at hv
          rw [getLast?_eq_some_getLast (by simp), Option.some_or, Option.some.injEq] at hv
          rw [← hv]
          exact getLast_mem _
        rw [if_neg fun he : v = r => (nodup_cons.1 hrest).1 (he ▸ hlast)]
        rfl

theorem preemptOne_ordered (h : p.preemptOne before.length = .ok (v, p', j)) :
    ∃ before' after', before'.Sublist before ∧ after'.Sublist after ∧ j = before'.length ∧
      p'.scheduler.running = (if v = r then before' ++ after' else before' ++ r :: after') ∧ p'.Ordered before' := by
  simp only [preemptOne, do_eq_ok] at h
  obtain ⟨⟨v1, p1, j1⟩, h1, s1, h2, he⟩ := h
  cases he
  obtain ⟨before', after', hb, ha, hj, hrun', ho', hpre⟩ := takeVictim_ordered hrun hnd ho h1
  have hs : s1.running = p1.scheduler.running := preemptRequest_running h2
  refine ⟨before', after', hb, ha, hj, hs.trans hrun', ho'.fresh, ho'.order, ho'.keys, ?_⟩
  intro x hx
  dsimp only at hx ⊢
  rw [hs]
  rcases mem_append.1 hx with hx | hx
  · exact ho'.gone x hx
  · -- the victim was in the list once
    rw [mem_singleton.1 hx]
    have hperm := (takeVictim_eq h1).2.1
    exact (nodup_cons.1 (hperm.nodup_iff.1 hnd)).1

end

section
variable [DecidableEq η] {env : ScheduleEnv}

theorem allocateLoop_ordered {blocks : Option (List (List BlockId))} (hrun : p.scheduler.running = before ++ r :: after)
    (hnd : p.scheduler.running.Nodup) (ho : p.Ordered before)
    (h : allocateLoop r n fuel p before.length = .ok (blocks, p', j)) :
    ∃ before' after', before'.Sublist before ∧ after'.Sublist after ∧ j = before'.length ∧
      p'.scheduler.running = (if blocks.isSome then before' ++ r :: after' else before' ++ after') ∧
      p'.Ordered before' ∧
      Keeps p p' := by
  induction fuel generalizing p before after with
  | zero => cases h
  | succ fuel ih =>
    simp only [allocateLoop, bind_eq_ok] at h
    obtain ⟨q, -, ⟨newBlocks, kv⟩, -, h⟩ := h
    have hgo : Keeps p { p with scheduler := { p.scheduler with kvCacheManager := kv } } := ⟨id, rfl⟩
    have ho1 : Ordered { p with scheduler := { p.scheduler with kvCacheManager := kv } } before := ho.congr rfl rfl
    cases newBlocks with
    | some b =>
      cases h
      exact ⟨before, after, .refl _, .refl _, rfl, hrun, ho1, hgo⟩
    | none =>
      simp only [bind_eq_ok] at h
      obtain ⟨⟨v, p1, i1⟩, h1, h⟩ := h
      obtain ⟨before1, after1, hb1, ha1, hi1, hrun1, ho2⟩ :=
        preemptOne_ordered (p := { p with scheduler := { p.scheduler with kvCacheManager := kv } }) hrun hnd ho1 h1
      have hgo1 := hgo.trans (preemptOne_keeps h1)
      dsimp only at h
      split at h
      · next hv =>
        cases h
        rw [if_pos hv] at hrun1
        exact ⟨before1, after1, hb1, ha1, hi1, hrun1, ho2, hgo1⟩
      · next hv =>
        rw [if_neg hv] at hrun1
        have hnd1 : p1.scheduler.running.Nodup := by
          rw [hrun1]
          rw [hrun] at hnd
          exact hnd.sublist (hb1.append (ha1.cons_cons r))
        subst hi1
        obtain ⟨before', after', hb, ha, hj, hrun', ho', hgo'⟩ := ih hrun1 hnd1 ho2 h
        exact ⟨before', after', hb.trans hb1, ha.trans ha1, hj, hrun', ho', hgo1.trans hgo'⟩

omit [DecidableEq η] in
theorem recordRunning_ordered {blocks : List (List BlockId)} {plan : EncoderPlan} (ho : p.Ordered before)
    (h : p.recordRunning r blocks n plan = .ok p') : p'.Ordered (before ++ [r]) := by
  have hrun := (recordRunning_same h).queues.running
  simp only [recordRunning, bind_eq_ok] at h
  obtain ⟨q, -, h⟩ := h
  have hbooks := (recordEncoder_idle h).books.trans (recordDrafts_books ..)
  refine Ordered.congr (p := { p with
    scheduledRunningReqs := p.scheduledRunningReqs ++ [r]
    numScheduledTokens := p.numScheduledTokens.set r n }) ?_ hbooks hrun
  refine ⟨ho.fresh, ho.order.append (.refl _), fun x => ?_, ho.gone⟩
  dsimp only
  rw [mem_keys_set, ho.keys, mem_append, mem_singleton, or_comm]

theorem runningLoop_ordered (hrun : p.scheduler.running = before ++ rest) (hnd : p.scheduler.running.Nodup)
    (ho : p.Ordered before) (h : runningLoop env fuel p before.length = .ok p') :
    p'.Ordered p'.scheduler.running ∧ Keeps p p' := by
  have hstop : ∀ {x : Pass η} {b a : List RequestId}, x.scheduler.running = b ++ a → x.Ordered b →
      x.Ordered x.scheduler.running := fun hx hox => hox.mono (hx ▸ sublist_append_left ..)
  induction fuel generalizing p before rest with
  | zero => cases h; exact ⟨hstop hrun ho, .refl _⟩
  | succ fuel ih =>
    unfold runningLoop at h
    split at h
    · cases h; exact ⟨hstop hrun ho, .refl _⟩
    next r hr =>
    split at h
    · cases h; exact ⟨hstop hrun ho, .refl _⟩
    obtain ⟨after, rfl⟩ : ∃ after, rest = r :: after := by
      rw [hrun, getElem?_append_right (Nat.le_refl _), Nat.sub_self] at hr
      cases rest with
      | nil => cases hr
      | cons a as => cases hr; exact ⟨as, rfl⟩
    have hsplit : ∀ {x : Pass η} {b a : List RequestId}, x.scheduler.running = b ++ r :: a →
        x.scheduler.running = (b ++ [r]) ++ a := fun h => by rw [h, append_assoc]; rfl
    have hnext : ∀ {x : Pass η}, Idle p x → runningLoop env fuel x (before.length + 1) = .ok p' →
        p'.Ordered p'.scheduler.running ∧ Keeps p p' := by
      intro x hidle hx
      have hrunx : x.scheduler.running = before ++ r :: after := hidle.same.queues.running.trans hrun
      obtain ⟨ho', hgo⟩ := ih (hsplit hrunx) (hidle.same.queues.running ▸ hnd)
        ((ho.congr hidle.books hidle.same.queues.running).mono (sublist_append_left before [r]))
        (by rwa [length_append])
      exact ⟨ho', hidle.same.keeps.trans hgo⟩
    simp only [bind_eq_ok] at h
    obtain ⟨q, -, h⟩ := h
    split at h
    · exact hnext (.refl p) h
    simp only [bind_eq_ok] at h
    obtain ⟨⟨plan, p1⟩, h1, h⟩ := h
    have hidle := (runningNumNewTokens_idle p q).trans (planEncoder_idle h1)
    have hsame := hidle.same.queues
    dsimp only at h
    split at h
    · exact hnext hidle h
    simp only [bind_eq_ok] at h
    obtain ⟨⟨blocks, p2, i2⟩, h2, h⟩ := h
    have hnd1 : p1.scheduler.running.Nodup := hsame.running ▸ hnd
    obtain ⟨before', after', hb, ha, rfl, hrun2, ho2, hgo2⟩ :=
      allocateLoop_ordered (hsame.running.trans hrun) hnd1 (ho.congr hidle.books hsame.running) h2
    have hgo := hidle.same.keeps.trans hgo2
    cases blocks with
    | none =>
      cases h
      exact ⟨hstop hrun2 ho2, hgo⟩
    | some b =>
      simp only [bind_eq_ok] at h
      obtain ⟨p3, h3, h⟩ := h
      have hsame3 := recordRunning_same h3
      have hrun3 : p3.scheduler.running = before' ++ r :: after' := hsame3.queues.running.trans hrun2
      have hnd3 : p3.scheduler.running.Nodup := by
        rw [hrun3]
        exact (hrun ▸ hnd).sublist (hb.append (ha.cons_cons r))
      obtain ⟨ho', hgo'⟩ := ih (hsplit hrun3) hnd3 (recordRunning_ordered ho2 h3) (by rwa [length_append])
      exact ⟨ho', hgo.trans (hsame3.keeps.trans hgo')⟩

end

/-! ### The waiting loop -/

def scheduledReqs (p : Pass η) : List RequestId := p.scheduledNewReqs ++ p.scheduledResumedReqs ++
    p.scheduledRunningReqs

/-- Requests are scheduled once each, they run, and none of them was preempted in this pass. -/
structure Enlisted (p : Pass η) : Prop where
  nodup : p.scheduledReqs.Nodup
  running : ∀ r ∈ p.scheduledReqs, r ∈ p.scheduler.running
  keys : ∀ r, r ∈ p.numScheduledTokens.keys ↔ r ∈ p.scheduledReqs
  gone : ∀ r ∈ p.preemptedReqs, r ∉ p.scheduler.running

theorem scheduledReqs_congr (hb : p'.books = p.books) : p'.scheduledReqs = p.scheduledReqs :=
  congrArg (fun b : Books => b.scheduledNewReqs ++ b.scheduledResumedReqs ++ b.scheduledRunningReqs) hb

theorem Ordered.enlisted (h : p.Ordered p.scheduler.running) (hnd : p.scheduler.running.Nodup) : p.Enlisted := by
  have hreqs : p.scheduledReqs = p.scheduledRunningReqs := by
    unfold scheduledReqs
    rw [h.fresh.1, h.fresh.2]
    rfl
  refine ⟨?_, ?_, ?_, h.gone⟩
  · rw [hreqs]; exact hnd.sublist h.order
  · rw [hreqs]; exact fun r hr => h.order.subset hr
  · rw [hreqs]; exact h.keys

theorem Enlisted.congr (h : p.Enlisted) (hb : p'.books = p.books) (hrun : p'.scheduler.running = p.scheduler.running) :
    p'.Enlisted := by
  have hreqs := scheduledReqs_congr hb
  obtain ⟨-, -, -, hpre, hnum⟩ := Books.mk.inj hb
  refine ⟨?_, ?_, ?_, ?_⟩
  · rw [hreqs]; exact h.nodup
  · rw [hreqs, hrun]; exact h.running
  · rw [hnum, hreqs]; exact h.keys
  · rw [hpre, hrun]; exact h.gone

theorem skipWaiting_books {side : WaitingQueue} (h : p.skipWaiting side = .ok p') :
    p'.books = p.books ∧ p'.scheduler.running = p.scheduler.running := by
  simp only [skipWaiting, do_eq_ok] at h
  obtain ⟨⟨r, Q⟩, -, rfl⟩ := h
  exact ⟨rfl, (setQueue_fields p.scheduler side Q).2.1⟩

theorem startLoad_books (h : p.startLoad r found = .ok p') :
    p'.books = p.books ∧ p'.scheduler.running = p.scheduler.running := by
  simp only [startLoad, do_eq_ok] at h
  obtain ⟨q, -, rfl⟩ := h
  exact ⟨rfl, rfl⟩

theorem startRunning_books (h : p.startRunning r found share = .ok p') :
    p'.scheduledReqs.Perm (r :: p.scheduledReqs) ∧ p'.preemptedReqs = p.preemptedReqs ∧
      p'.numScheduledTokens = p.numScheduledTokens.set r share.numNewTokens ∧
      p'.scheduler.running = p.scheduler.running ++ [r] := by
  simp only [startRunning, bind_eq_ok, ensure_eq_ok] at h
  obtain ⟨q, -, p1, h1, -, -, h⟩ := h
  have hbooks := (recordEncoder_idle h).books
  have hrun := (recordEncoder_idle h).same.queues.running
  have hs := (recordAdmitted_eq h1).1
  have hadmitted : p1.scheduledReqs.Perm (r :: p.scheduledReqs) ∧ p1.preemptedReqs = p.preemptedReqs ∧
      p1.numScheduledTokens = p.numScheduledTokens := by
    unfold recordAdmitted at h1
    split at h1
    · cases h1
      refine ⟨?_, rfl, rfl⟩
      unfold scheduledReqs
      dsimp only
      rw [append_assoc, append_assoc, append_assoc]
      exact perm_middle
    · cases h1
      refine ⟨?_, rfl, rfl⟩
      unfold scheduledReqs
      dsimp only
      rw [← append_assoc, append_assoc]
      exact perm_middle
    · cases h1
  refine ⟨?_, ?_, ?_, ?_⟩
  · exact (scheduledReqs_congr hbooks).symm ▸ hadmitted.1
  · exact (congrArg Books.preemptedReqs hbooks).trans hadmitted.2.1
  · refine (congrArg Books.numScheduledTokens hbooks).trans ?_
    show p1.numScheduledTokens.set r _ = _
    rw [hadmitted.2.2]
  · refine hrun.trans ?_
    show p1.scheduler.running = _
    rw [hs]

theorem startRunning_enlisted {X : List RequestId} {k : Nat} (ha : p.Popped r X k) (he : p.Enlisted)
    (hpre : p.preemptedReqs = []) (h : p.startRunning r found share = .ok p') : p'.Enlisted := by
  obtain ⟨hperm, hpre', hnum, hrun⟩ := startRunning_books h
  have hr : r ∉ p.scheduler.running := by
    intro hmem
    obtain ⟨-, -, hdisj⟩ := nodup_append.1 ha.nodup
    exact hdisj r hmem r (mem_cons_self ..) rfl
  refine ⟨?_, ?_, ?_, ?_⟩
  · rw [hperm.nodup_iff]
    exact nodup_cons.2 ⟨fun hmem => hr (he.running r hmem), he.nodup⟩
  · intro x hx
    rw [hrun]
    rcases mem_cons.1 (hperm.subset hx) with rfl | hx
    · exact mem_append_right _ (mem_singleton_self _)
    · exact mem_append_left _ (he.running x hx)
  · intro x
    rw [hnum, mem_keys_set, he.keys, hperm.mem_iff, mem_cons]
  · rw [hpre', hpre]
    nofun

variable {X : List RequestId} {k : Nat} {side : WaitingQueue}

def Admitting (p : Pass η) (X : List RequestId) (k : Nat) : Prop := p.Adrift X k ∧ p.Enlisted ∧ p.preemptedReqs = []

theorem Admitting.congr (h : p.Admitting X k) (ha : p'.Adrift X k) (hb : p'.books = p.books)
    (hrun : p'.scheduler.running = p.scheduler.running) : p'.Admitting X k :=
  ⟨ha, h.2.1.congr hb hrun, (congrArg Books.preemptedReqs hb).trans h.2.2⟩

theorem Admitting.idle (h : p.Admitting X k) (hi : Idle p p') : p'.Admitting X k :=
  h.congr (h.1.same hi.same) hi.books hi.same.queues.running

section
variable [DecidableEq η] {env : ScheduleEnv} {b : Bool}

section
variable (hp : p.Admitting X k)
include hp

omit [DecidableEq η] in
theorem skipWaiting_admitting (h : p.skipWaiting side = .ok p') : p'.Admitting X k :=
  hp.congr (skipWaiting_adrift hp.1 h) (skipWaiting_books h).1 (skipWaiting_books h).2

theorem admitWaiting_admitting (hpeek : (p.scheduler.queue side).peekRequest = .ok r) (hns : p.scheduler.HasInput r)
    (h : p.admitWaiting side r found share = .ok (b, p')) : p'.Admitting X k := by
  simp only [admitWaiting, bind_eq_ok] at h
  obtain ⟨⟨blocks, p1⟩, h1, h⟩ := h
  obtain ⟨kv, rfl⟩ := allocateWaiting_eq h1
  cases blocks with
  | none =>
    simp only [do_eq_ok] at h
    obtain ⟨s2, h2, he⟩ := h
    cases he
    have hp1 : Admitting { p with scheduler := { p.scheduler with kvCacheManager := kv } } X k := hp.congr hp.1 rfl rfl
    exact hp1.idle ⟨untouchEncoder_only h2, rfl, rfl⟩
  | some bs =>
    simp only [bind_eq_ok] at h
    obtain ⟨⟨r1, Q⟩, hpop, h⟩ := h
    have hpop : (p.scheduler.queue side).popRequest p.scheduler.before = .ok (r1, Q) := by
      cases side <;> exact hpop
    cases hpeek.symm.trans (RequestQueue.peekRequest_of_popRequest hpop)
    generalize hs : ({ p.scheduler with kvCacheManager := kv } : Scheduler η).setQueue side Q = s at h
    have hpopped : Popped { p with scheduler := s } r X k := by
      have := popped_of_pop hp.1 hpop
      subst hs
      cases side <;> exact this
    obtain ⟨hreq, hrunQ, -⟩ : s.requests = p.scheduler.requests ∧ s.running = p.scheduler.running ∧ _ :=
      hs ▸ setQueue_fields ({ p.scheduler with kvCacheManager := kv } : Scheduler η) side Q
    dsimp only at h
    split at h
    · simp only [do_eq_ok] at h
      obtain ⟨p2, h2, he⟩ := h
      cases he
      obtain ⟨hbooks, hrun⟩ := startLoad_books h2
      have hns1 : s.HasInput r := by
        unfold HasInput
        rw [hreq]
        exact hns
      exact hp.congr (startLoad_adrift hpopped hns1 h2) hbooks (hrun.trans hrunQ)
    · simp only [do_eq_ok] at h
      obtain ⟨p2, h2, he⟩ := h
      cases he
      have hlisted : Enlisted { p with scheduler := s } := hp.2.1.congr rfl hrunQ
      exact ⟨startRunning_adrift hpopped h2, startRunning_enlisted hpopped hlisted hp.2.2 h2,
        (startRunning_books h2).2.1.trans hp.2.2⟩

theorem considerWaiting_admitting (hpeek : (p.scheduler.queue side).peekRequest = .ok r) (hns : p.scheduler.HasInput r)
    (h : p.considerWaiting env side r = .ok (b, p')) : p'.Admitting X k := by
  have hskip : ∀ {x p' : Pass η} {b : Bool}, x.Admitting X k →
      (do let y ← x.skipWaiting side; pure (false, y) : Except Err (Bool × Pass η)) = .ok (b, p') →
      p'.Admitting X k := by
    intro x p' b hx hstep
    simp only [do_eq_ok] at hstep
    obtain ⟨y, hy, he⟩ := hstep
    cases he
    exact skipWaiting_admitting hx hy
  simp only [considerWaiting, bind_eq_ok] at h
  obtain ⟨q, -, h⟩ := h
  split at h
  · exact hskip hp h
  simp only [bind_eq_ok] at h
  obtain ⟨⟨found, s1⟩, h1, h⟩ := h
  have hsame := lookupComputed_same h1
  have hp1 : Admitting { p with scheduler := s1 } X k := hp.congr (Scheduler.Adrift.same hp.1 hsame) rfl hsame.running
  cases found with
  | none => exact hskip hp1 h
  | some found =>
    simp only [bind_eq_ok] at h
    obtain ⟨q1, -, h⟩ := h
    split at h
    · exact hskip hp1 h
    simp only [bind_eq_ok] at h
    obtain ⟨⟨share, p2⟩, h2, h⟩ := h
    have hidle := shareOf_idle h2
    cases share with
    | none => cases h; exact hp1.idle hidle
    | some share =>
      refine admitWaiting_admitting (hp1.idle hidle) ?_ ((hns.same hsame).same hidle.same.queues) h
      rw [hidle.same.queues.queue, hsame.queue]
      exact hpeek

theorem waitingRound_admitting (h : p.waitingRound env side = .ok (b, p')) : p'.Admitting X k := by
  simp only [waitingRound, bind_eq_ok] at h
  obtain ⟨r, hpeek, ⟨promoted, s1⟩, h1, h⟩ := h
  have hprom := promote_promoted hp.1 (queue_subset (RequestQueue.peekRequest_mem hpeek)) h1
  have hp1 : Admitting { p with scheduler := s1 } X k := hp.congr hprom.adrift rfl hprom.running
  cases promoted with
  | false =>
    simp only [do_eq_ok] at h
    obtain ⟨p2, h2, he⟩ := h
    cases he
    exact skipWaiting_admitting hp1 h2
  | true =>
    refine considerWaiting_admitting hp1 ?_ (hprom.ready rfl) h
    rw [hprom.queue]
    exact hpeek

theorem waitingLoop_admitting (h : waitingLoop env fuel p = .ok p') : p'.Admitting X k := by
  induction fuel generalizing p with
  | zero => cases h; exact hp
  | succ fuel ih =>
    unfold waitingLoop at h
    split at h
    · cases h; exact hp
    split at h
    · cases h; exact hp
    split at h
    · cases h; exact hp
    rw [bind_eq_ok] at h
    obtain ⟨⟨stop, p1⟩, h1, h⟩ := h
    have hround := waitingRound_admitting hp h1
    dsimp only at h
    split at h
    · cases h; exact hround
    · exact ih hround h

end

/-- At the end of the waiting phase nothing is put aside any more. -/
theorem scheduleWaiting_enlisted (ha : p.Adrift X k) (he : p.Enlisted) (hnil : p.stepSkippedWaiting.items = [])
    (h : p.scheduleWaiting env = .ok p') :
    p'.Enlisted ∧ p'.scheduler.Adrift X k := by
  unfold scheduleWaiting at h
  split at h
  · next hidle =>
    simp only [do_eq_ok] at h
    obtain ⟨p1, h1, rfl⟩ := h
    obtain ⟨hloop, hlisted, -⟩ := waitingLoop_admitting ⟨ha, he, hidle.1⟩ h1
    refine ⟨hlisted.congr rfl rfl, Placed.perm hloop (.refl _) ?_⟩
    have hperm : (if p1.stepSkippedWaiting.isEmpty then p1.scheduler.skippedWaiting
        else p1.scheduler.skippedWaiting.prependRequests p1.scheduler.before p1.stepSkippedWaiting).items.Perm
        (p1.scheduler.skippedWaiting.items ++ p1.stepSkippedWaiting.items) := by
      split
      · next hempty => rw [List.isEmpty_iff.1 hempty, append_nil]
      · exact (RequestQueue.prependRequests_perm _).trans perm_append_comm
    unfold allWaiting
    rw [append_assoc, append_assoc, ← append_assoc p1.scheduler.skippedWaiting.items]
    exact (hperm.append_right X).append_left _
  · cases h
    unfold Adrift at ha
    rw [hnil] at ha
    exact ⟨he, ha⟩

end

end Pass

namespace Scheduler
variable [DecidableEq η] {s s' : Scheduler η} {X : List RequestId} {k : Nat} {env : ScheduleEnv} {out : SchedulerOutput}

theorem schedule_enlisted (ha : s.Adrift X k) (h : s.schedule env = .ok (out, s')) :
    ∃ p : Pass η, p.Enlisted ∧ p.scheduler.Adrift X k ∧ emit env p = .ok (out, s') := by
  simp only [schedule, bind_eq_ok] at h
  obtain ⟨s1, h1, p1, h2, p2, h3, p3, h4, h5⟩ := h
  have hrecycle : s1.Adrift X k := ha.same (s.alignDecodes_same.trans (recycleWindows_same h1).same)
  have hstart : (s1.startPass env).Adrift X k := hrecycle
  have hempty : (s1.startPass env).Ordered [] := ⟨⟨rfl, rfl⟩, .refl _, fun _ => Iff.rfl, nofun⟩
  obtain ⟨hordered, hkeeps⟩ := Pass.runningLoop_ordered
    (show (s1.startPass env).scheduler.running = [] ++ s1.running from rfl) (nodup_append.1 hstart.nodup).1 hempty h2
  have hloras := Pass.recordLoras_idle h3
  have hlisted : p2.Enlisted := (hordered.enlisted (nodup_append.1 (hkeeps.adrift hstart).nodup).1).congr
    hloras.books hloras.same.queues.running
  have hrunning := hkeeps.trans hloras.same.keeps
  obtain ⟨hlisted3, hadrift3⟩ := Pass.scheduleWaiting_enlisted (hrunning.adrift hstart) hlisted
    (by rw [hrunning.skipped]; rfl) h4
  exact ⟨p3, hlisted3, hadrift3, h5⟩

theorem schedule_adrift (h : s.Adrift X k) (hstep : s.schedule env = .ok (out, s')) : s'.Adrift X k := by
  obtain ⟨p, -, hp, hemit⟩ := schedule_enlisted h hstep
  exact hp.same (emit_same hemit)

end Scheduler

end VllmCore
