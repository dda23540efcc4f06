import VllmCore.Core.Request
import VllmCore.Lib.Dict

/-! # Where the requests are

The picture behind the three containers of the scheduler: every unfinished request is in one place, with
the running ones or with the waiting ones, and a counter knows how many sessions wait for input. `Placed`
is that picture for a dictionary of requests, the list `R` of running and the list `W` of waiting ids.
`Placed.set` says where the lists have to put a request whose record changes; every transition of the
scheduler is an instance of it. -/

namespace VllmCore
open List Option Dict Request
variable {η : Type}

namespace Request

def Waits (q : Request η) : Prop := q.isFinished = false ∧ q.status ≠ .running

instance (q : Request η) : Decidable q.Waits := inferInstanceAs (Decidable (_ ∧ _))

def streamingWeight (q : Request η) : Nat := if q.status = .waitingForStreamingReq then 1 else 0

def SessionOk (q : Request η) : Prop :=
  q.status = .waitingForStreamingReq → q.resumable = true ∧ q.streamingQueue.getD [] = []

structure Tag where
  requestId : RequestId
  status : RequestStatus
  resumable : Bool
  streamingQueue : Option (List (Option StreamingUpdate))

def tag (q : Request η) : Tag := ⟨q.requestId, q.status, q.resumable, q.streamingQueue⟩

variable {q q' : Request η}

theorem isFinished_running (h : q.status = .running) : q.isFinished = false := by
  rw [isFinished, h]; rfl

theorem status_eq (h : q'.tag = q.tag) : q'.status = q.status := congrArg Tag.status h

theorem requestId_eq (h : q'.tag = q.tag) : q'.requestId = q.requestId := congrArg Tag.requestId h

theorem streamingWeight_finished (h : q.isFinished = true) : q.streamingWeight = 0 := by
  unfold streamingWeight
  rw [if_neg]
  intro hst
  rw [isFinished, hst] at h
  cases h

theorem sessionOk_congr (h : q'.tag = q.tag) : q'.SessionOk ↔ q.SessionOk := by
  unfold SessionOk
  rw [status_eq h, show q'.resumable = q.resumable from congrArg Tag.resumable h,
    show q'.streamingQueue = q.streamingQueue from congrArg Tag.streamingQueue h]

end Request

/-- Every unfinished request is in exactly one of the lists, the running ones in `R`, and `n` sessions
wait for input. -/
structure Placed (d : Dict RequestId (Request η)) (n : Int) (R W : List RequestId) : Prop where
  nodup : (R ++ W).Nodup
  live : ∀ r, r ∈ R ++ W ↔ ∃ q, d.get? r = some q ∧ q.isFinished = false
  running : ∀ r q, d.get? r = some q → (q.status = .running ↔ r ∈ R)
  streaming : n = d.total fun _ q => q.streamingWeight
  session : ∀ r q, d.get? r = some q → q.SessionOk
  ids : ∀ r q, d.get? r = some q → q.requestId = r

namespace Placed
variable {d d' : Dict RequestId (Request η)} {n n' : Int} {R R' W W' : List RequestId} {r : RequestId}
  {q q' : Request η}

theorem empty : Placed (Dict.empty : Dict RequestId (Request η)) 0 [] [] where
  nodup := nodup_nil
  live r := by simp
  running r q h := by cases h
  streaming := rfl
  session r q h := by cases h
  ids r q h := by cases h

variable (h : Placed d n R W) {l l' : List RequestId}
include h

theorem congr (htags : ∀ r, (d'.get? r).map Request.tag = (d.get? r).map Request.tag) (hR : R'.Perm R)
    (hW : W'.Perm W) :
    Placed d' n R' W' := by
  -- a request of one dictionary has its double in the other
  have hback : ∀ r q', d'.get? r = some q' → ∃ q, d.get? r = some q ∧ q'.tag = q.tag := by
    intro r q' hq'
    have := htags r
    rw [hq', map_some, eq_comm, map_eq_some_iff] at this
    obtain ⟨q, hq, ht⟩ := this
    exact ⟨q, hq, ht.symm⟩
  have hforth : ∀ r q, d.get? r = some q → ∃ q', d'.get? r = some q' ∧ q'.tag = q.tag := by
    intro r q hq
    have := htags r
    rwa [hq, map_some, map_eq_some_iff] at this
  constructor
  · exact ((hR.append hW).nodup_iff).2 h.nodup
  · intro r
    rw [(hR.append hW).mem_iff, h.live]
    constructor
    · rintro ⟨q, hq, hlive⟩
      obtain ⟨q', hq', ht⟩ := hforth r q hq
      exact ⟨q', hq', by rwa [Request.isFinished, status_eq ht]⟩
    · rintro ⟨q', hq', hlive⟩
      obtain ⟨q, hq, ht⟩ := hback r q' hq'
      exact ⟨q, hq, by rwa [Request.isFinished, ← status_eq ht]⟩
  · intro r q' hq'
    obtain ⟨q, hq, ht⟩ := hback r q' hq'
    rw [status_eq ht, hR.mem_iff]
    exact h.running r q hq
  · rw [h.streaming]
    refine congrArg _ (total_congr fun r => ?_)
    have := congrArg (Option.map fun t : Request.Tag => if t.status = .waitingForStreamingReq then 1 else 0) (htags r)
    rw [Option.map_map, Option.map_map] at this
    exact this.symm
  · intro r q' hq'
    obtain ⟨q, hq, ht⟩ := hback r q' hq'
    exact (sessionOk_congr ht).2 (h.session r q hq)
  · intro r q' hq'
    obtain ⟨q, hq, ht⟩ := hback r q' hq'
    exact (requestId_eq ht).trans (h.ids r q hq)

theorem perm (hR : R'.Perm R) (hW : W'.Perm W) : Placed d n R' W' :=
  h.congr (fun _ => rfl) hR hW

/-- A request whose record changes goes to the list of its new status, and the counter follows. -/
theorem set (hR : R'.Perm ((if q'.status = .running then [r] else []) ++ R.filter (· ≠ r)))
    (hW : W'.Perm ((if q'.Waits then [r] else []) ++ W.filter (· ≠ r)))
    (hn : n' + ((d.get? r).elim 0 streamingWeight : Nat) = n + (q'.streamingWeight : Nat)) (hs : q'.SessionOk)
    (hid : q'.requestId = r) : Placed (d.set r q') n' R' W' := by
  have hRmem : ∀ x, x ∈ R' ↔ (x = r ∧ q'.status = .running) ∨ (x ≠ r ∧ x ∈ R) := by
    intro x
    rw [hR.mem_iff, mem_append, mem_filter]
    split <;> simp_all [and_comm]
  have hWmem : ∀ x, x ∈ W' ↔ (x = r ∧ q'.Waits) ∨ (x ≠ r ∧ x ∈ W) := by
    intro x
    rw [hW.mem_iff, mem_append, mem_filter]
    split <;> simp_all [and_comm]
  have hlive : q'.isFinished = false ↔ q'.status = .running ∨ q'.Waits := by
    constructor
    · intro hf
      by_cases hrun : q'.status = .running
      · exact .inl hrun
      · exact .inr ⟨hf, hrun⟩
    · rintro (hrun | hw)
      · exact isFinished_running hrun
      · exact hw.1
  have hRn := (nodup_append.1 h.nodup).1
  have hWn := (nodup_append.1 h.nodup).2.1
  have hdisj := (nodup_append.1 h.nodup).2.2
  constructor
  · -- the new lists hold `r` at most once, and never both
    refine nodup_append.2 ⟨?_, ?_, ?_⟩
    · rw [hR.nodup_iff]
      split
      · exact nodup_cons.2 ⟨by simp, hRn.filter _⟩
      · exact hRn.filter _
    · rw [hW.nodup_iff]
      split
      · exact nodup_cons.2 ⟨by simp, hWn.filter _⟩
      · exact hWn.filter _
    · intro a ha b hb hab
      subst hab
      rw [hRmem] at ha
      rw [hWmem] at hb
      rcases ha with ⟨har, hrun⟩ | ⟨har, haR⟩
      · rcases hb with ⟨-, hw⟩ | ⟨hbr, -⟩
        · exact hw.2 hrun
        · exact hbr har
      · rcases hb with ⟨hbr, -⟩ | ⟨-, hbW⟩
        · exact har hbr
        · exact hdisj a haR a hbW rfl
  · intro x
    rw [mem_append, hRmem, hWmem, get?_set]
    have hold := h.live x
    rw [mem_append] at hold
    by_cases hx : x = r
    · subst hx
      simp [hlive]
    · simp only [hx, false_and, ne_eq, not_false_eq_true, true_and, false_or, if_false]
      exact hold
  · intro x qx hqx
    rw [get?_set] at hqx
    rw [hRmem]
    by_cases hx : x = r
    · rw [if_pos hx] at hqx
      cases hqx
      simp [hx]
    · rw [if_neg hx] at hqx
      simp [hx, h.running x qx hqx]
  · have htotal := d.total_set (fun _ q => q.streamingWeight) r q'
    have hst := h.streaming
    change _ + (d.get? r).elim 0 streamingWeight = _ at htotal
    omega
  · intro x qx hqx
    rw [get?_set] at hqx
    by_cases hx : x = r
    · rw [if_pos hx] at hqx
      cases hqx
      exact hs
    · rw [if_neg hx] at hqx
      exact h.session x qx hqx
  · intro x qx hqx
    rw [get?_set] at hqx
    by_cases hx : x = r
    · rw [if_pos hx] at hqx
      cases hqx
      exact hid.trans hx.symm
    · rw [if_neg hx] at hqx
      exact h.ids x qx hqx

section
variable (hq : d.get? r = some q)
include hq

theorem erase (hfin : q.isFinished = true) : Placed (d.erase r) n R W := by
  have hweight := streamingWeight_finished hfin
  constructor
  · exact h.nodup
  · intro x
    rw [h.live, get?_erase]
    by_cases hx : x = r
    · subst hx
      rw [if_pos rfl, hq]
      simp [hfin]
    · rw [if_neg hx]
  · intro x qx hqx
    rw [get?_erase] at hqx
    split at hqx
    · cases hqx
    · exact h.running x qx hqx
  · have htotal := d.total_erase (fun _ q => q.streamingWeight) r
    rw [hq, elim_some, hweight] at htotal
    rw [h.streaming]
    exact_mod_cast htotal.symm
  · intro x qx hqx
    rw [get?_erase] at hqx
    split at hqx
    · cases hqx
    · exact h.session x qx hqx
  · intro x qx hqx
    rw [get?_erase] at hqx
    split at hqx
    · cases hqx
    · exact h.ids x qx hqx

/-! ### Where a request is -/

theorem mem_running (hst : q.status = .running) : r ∈ R :=
  (h.running r q hq).1 hst

theorem notMem_running (hst : q.status ≠ .running) : r ∉ R :=
  fun hr => hst ((h.running r q hq).2 hr)

theorem mem_waiting (hw : q.Waits) : r ∈ W := by
  have := (h.live r).2 ⟨q, hq, hw.1⟩
  rcases mem_append.1 this with hr | hr
  · exact absurd hr (h.notMem_running hq hw.2)
  · exact hr

theorem notMem_waiting (hw : ¬ q.Waits) : r ∉ W := by
  intro hr
  obtain ⟨q', hq', hlive⟩ := (h.live r).1 (mem_append_right _ hr)
  cases hq.symm.trans hq'
  have hrun : q.status = .running := by
    by_contra hne
    exact hw ⟨hlive, hne⟩
  exact (nodup_append.1 h.nodup).2.2 r (h.mem_running hq hrun) r hr rfl

end

theorem get_of_mem (hr : r ∈ R ++ W) : ∃ q, d.get? r = some q ∧ q.isFinished = false :=
  (h.live r).1 hr

theorem waits_of_mem (hr : r ∈ W) : ∃ q, d.get? r = some q ∧ q.Waits := by
  obtain ⟨q, hq, hlive⟩ := (h.live r).1 (mem_append_right _ hr)
  refine ⟨q, hq, hlive, fun hrun => ?_⟩
  exact (nodup_append.1 h.nodup).2.2 r (h.mem_running hq hrun) r hr rfl

omit h in
theorem filter_ne_self (h : r ∉ l) : l.filter (· ≠ r) = l :=
  filter_eq_self.2 fun a ha => by simpa using fun hab : a = r => h (hab ▸ ha)

omit h in
theorem filter_ne_perm (hp : l.Perm (r :: l')) (hnd : l.Nodup) : (l.filter (· ≠ r)).Perm l' := by
  have hnot : r ∉ l' := (nodup_cons.1 (hp.nodup_iff.1 hnd)).1
  refine (hp.filter _).trans ?_
  rw [filter_cons_of_neg (by simp), filter_ne_self hnot]

omit h in
theorem filter_ne_cons (hr : r ∈ l) (hnd : l.Nodup) : l.Perm (r :: l.filter (· ≠ r)) := by
  obtain ⟨a, b, rfl⟩ := append_of_mem hr
  have hp : (a ++ r :: b).Perm (r :: (a ++ b)) := perm_middle
  exact hp.trans ((filter_ne_perm hp hnd).symm.cons r)

/-! ### The moves -/

theorem rewrite (hq : d.get? r = some q) (hst : q'.status = q.status) (hs : q'.SessionOk) (hid : q'.requestId = r) :
    Placed (d.set r q') n R W := by
  obtain ⟨hRn, hWn, -⟩ := nodup_append.1 h.nodup
  have hwaits : q'.Waits ↔ q.Waits := by unfold Request.Waits Request.isFinished; rw [hst]
  refine h.set ?_ ?_ ?_ hs hid
  · split
    · next hrun => exact filter_ne_cons (h.mem_running hq (hst ▸ hrun)) hRn
    · next hrun => rw [filter_ne_self (h.notMem_running hq (hst ▸ hrun))]; exact .refl _
  · split
    · next hw => exact filter_ne_cons (h.mem_waiting hq (hwaits.1 hw)) hWn
    · next hw => rw [filter_ne_self (h.notMem_waiting hq (mt hwaits.2 hw))]; exact .refl _
  · rw [hq, elim_some, streamingWeight, streamingWeight, hst]

theorem wait (hq : d.get? r = some q) (hw : q.Waits) (hw' : q'.Waits)
    (hn : n' + q.streamingWeight = n + q'.streamingWeight) (hs : q'.SessionOk) (hid : q'.requestId = r) :
    Placed (d.set r q') n' R W := by
  refine h.set ?_ ?_ ?_ hs hid
  · rw [if_neg hw'.2, filter_ne_self (h.notMem_running hq hw.2)]
    exact .refl _
  · rw [if_pos hw']
    exact filter_ne_cons (h.mem_waiting hq hw) (nodup_append.1 h.nodup).2.1
  · rw [hq, elim_some]
    exact hn

theorem finish (hq : d.get? r = some q) (hn : n' + q.streamingWeight = n) (hfin : q'.isFinished = true)
    (hid : q'.requestId = r) : Placed (d.set r q') n' (R.filter (· ≠ r)) (W.filter (· ≠ r)) := by
  have hnot : ∀ st : RequestStatus, st.isFinished = false → q'.status ≠ st := by
    intro st hst he
    rw [Request.isFinished, he, hst] at hfin
    cases hfin
  refine h.set ?_ ?_ ?_ (fun he => absurd he (hnot _ rfl)) hid
  · rw [if_neg (hnot _ rfl)]
    exact .refl _
  · rw [if_neg fun hw => by rw [hw.1] at hfin; cases hfin]
    exact .refl _
  · rw [hq, elim_some, streamingWeight_finished hfin]
    simpa using hn

theorem join (hnew : ∀ q, d.get? r = some q → q.isFinished = true) (hw : q'.Waits) (hn : n' = n + q'.streamingWeight)
    (hs : q'.SessionOk) (hid : q'.requestId = r) (hW : W'.Perm (r :: W)) : Placed (d.set r q') n' R W' := by
  have hout : r ∉ R ++ W := by
    intro hr
    obtain ⟨q, hq, hlive⟩ := h.get_of_mem hr
    rw [hnew q hq] at hlive
    cases hlive
  rw [mem_append, not_or] at hout
  refine h.set ?_ ?_ ?_ hs hid
  · rw [if_neg hw.2, filter_ne_self hout.1]
    exact .refl _
  · rw [if_pos hw, filter_ne_self hout.2]
    exact hW
  · cases hq : d.get? r with
    | none => simpa using hn
    | some q =>
      rw [elim_some, streamingWeight_finished (hnew q hq)]
      simpa using hn

theorem start (hq : d.get? r = some q) (hweight : q.streamingWeight = 0) (hrun : q'.status = .running)
    (hid : q'.requestId = r) (hR : R'.Perm (r :: R)) (hW : W.Perm (r :: W')) : Placed (d.set r q') n R' W' := by
  obtain ⟨q1, hq1, hw⟩ := h.waits_of_mem (hW.mem_iff.2 (mem_cons_self ..))
  cases hq.symm.trans hq1
  refine h.set ?_ ?_ ?_ (fun he => by rw [hrun] at he; cases he) hid
  · rw [if_pos hrun, filter_ne_self (h.notMem_running hq hw.2)]
    exact hR
  · rw [if_neg fun hw' => hw'.2 hrun]
    exact (filter_ne_perm hW (nodup_append.1 h.nodup).2.1).symm
  · rw [hq, elim_some, hweight, streamingWeight, if_neg (by rw [hrun]; nofun)]

end Placed

end VllmCore
