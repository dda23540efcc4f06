import Mathlib

/-! # The replies of the workers

`collective_rpc` broadcasts a call and collects one reply from the queue of every rank that it asks. Replies carry no
identifier. A rank replies in the order of the calls, and the calls are collected in their order, so the next reply
in the queue of a rank is for the call that is being collected, as long as no collection stops before it has read the
replies to its own call. -/

namespace VllmCore.MultiprocExecutor
open List Function
variable {V : Type}

structure FutureWrapper where
  call : Nat
  outputRank : Option Nat
deriving DecidableEq

def FutureWrapper.ranks (n : Nat) (f : FutureWrapper) : List Nat := f.outputRank.elim (range n) fun r => [r]

structure GetResponse (V : Type) where
  future : FutureWrapper
  pending : List Nat
  responses : Nat → Option V := fun _ => none

/-- The executor and its workers: `rpcs` are the output ranks of all calls that were broadcast, of which each rank has
`executed` the first ones. A reply is an error text or a value. -/
structure Executor (V : Type) where
  rpcs : List (Option Nat) := []
  executed : Nat → Nat := fun _ => 0
  responseMqs : Nat → List (Except String V) := fun _ => []
  futuresQueue : List FutureWrapper := []
  getResponse : Option (GetResponse V) := none
  finished : List (FutureWrapper × Except String (List (Option V))) := []

inductive Op where
  | collectiveRpc (outputRank : Option Nat)
  | executeWorkerRpc (rank : Nat)
  | waitForResponse
  | dequeue (rank : Nat)
  | setResult

section Model
variable (n : Nat) (output : Nat → Nat → Except String V)

/-- `collective_rpc` up to its future. -/
def Executor.collectiveRpc (s : Executor V) (outputRank : Option Nat) : Executor V :=
  if ∀ r ∈ outputRank, r < n then
    { s with
      rpcs := s.rpcs ++ [outputRank]
      futuresQueue := s.futuresQueue ++ [⟨s.rpcs.length, outputRank⟩] }
  else s

/-- A rank takes the next call; `output rank call` is what it computes for it. -/
def Executor.executeWorkerRpc (s : Executor V) (rank : Nat) : Executor V :=
  match s.rpcs[s.executed rank]? with
  | none => s
  | some outputRank =>
    { s with
      executed := update s.executed rank (s.executed rank + 1)
      responseMqs := update s.responseMqs rank (s.responseMqs rank ++
        if outputRank = none ∨ outputRank = some rank then [output rank (s.executed rank)] else []) }

/-- `result` of a future that is not done takes the oldest one off the queue. -/
def Executor.waitForResponse (s : Executor V) : Executor V :=
  match s.getResponse, s.futuresQueue with
  | none, future :: futuresQueue =>
    { s with futuresQueue, getResponse := some { future, pending := future.ranks n } }
  | _, _ => s

/-- The text of the `RuntimeError` for a worker that failed. -/
def workerFailed (result : String) : String :=
  s!"Worker failed with error '{result}', please check the stack trace above for the root cause"

/-- `get_response` reads the queue of a rank. After a failure it reads no other. -/
def Executor.dequeue (s : Executor V) (rank : Nat) : Executor V :=
  match s.getResponse, s.responseMqs rank with
  | some g, reply :: rest =>
    if rank ∈ g.pending then
      let s := { s with responseMqs := update s.responseMqs rank rest }
      match reply with
      | .ok result =>
        let responses := update g.responses rank (some result)
        { s with getResponse := some { g with pending := g.pending.erase rank, responses } }
      | .error result =>
        { s with getResponse := none, finished := s.finished ++ [(g.future, .error (workerFailed result))] }
    else s
  | _, _ => s

def Executor.setResult (s : Executor V) : Executor V :=
  match s.getResponse with
  | some g =>
    if g.pending = [] then
      { s with getResponse := none, finished := s.finished ++ [(g.future, .ok ((g.future.ranks n).map g.responses))] }
    else s
  | none => s

/-- An operation that has to wait does nothing. -/
def Executor.step (s : Executor V) : Op → Executor V
  | .collectiveRpc outputRank => s.collectiveRpc n outputRank
  | .executeWorkerRpc rank => s.executeWorkerRpc output rank
  | .waitForResponse => s.waitForResponse n
  | .dequeue rank => s.dequeue rank
  | .setResult => s.setResult n

def run (ops : List Op) : Executor V := ops.foldl (Executor.step n output) {}

/-- The reply of every rank asked is that to the call itself, and the call raises only if one of them failed. -/
def Own (e : FutureWrapper × Except String (List (Option V))) : Prop :=
  match e.2 with
  | .ok results => results = (e.1.ranks n).map (fun r => (output r e.1.call).toOption) ∧
      ∀ r ∈ e.1.ranks n, (output r e.1.call).toOption.isSome
  | .error text => ∃ r ∈ e.1.ranks n, ∃ result, output r e.1.call = .error result ∧ text = workerFailed result

/-- No call raises while the reply of another rank has not been read. -/
def ReadsAll (s : Executor V) : Op → Prop
  | .dequeue rank =>
    match s.getResponse, s.responseMqs rank with
    | some g, .error _ :: _ => g.pending ⊆ [rank]
    | _, _ => True
  | _ => True

def Along : List Op → Executor V → Prop
  | [], _ => True
  | op :: ops, s => ReadsAll s op ∧ Along ops (s.step n output op)

/-! ### The queue of a rank -/

/-- What a rank replies to the calls `cs`, of which the first has number `k`. -/
def replies (r : Nat) : Nat → List (Option Nat) → List (Except String V)
  | _, [] => []
  | k, c :: cs => if c = none ∨ c = some r then output r k :: replies r (k + 1) cs else replies r (k + 1) cs

def Executor.ReadTo (s : Executor V) (r p : Nat) : Prop :=
  replies output r 0 (s.rpcs.take (s.executed r)) = replies output r 0 (s.rpcs.take p) ++ s.responseMqs r

end Model

variable {n : Nat} {output : Nat → Nat → Except String V} {s : Executor V} {r p k : Nat} {c : Option Nat}
  {f : FutureWrapper}

theorem replies_append (k : Nat) (cs ds : List (Option Nat)) :
    replies output r k (cs ++ ds) = replies output r k cs ++ replies output r (k + cs.length) ds := by
  induction cs generalizing k with
  | nil => rfl
  | cons c cs ih =>
    rw [cons_append, replies, replies, ih, length_cons, Nat.add_right_comm, Nat.add_assoc]
    split <;> rfl

theorem replies_take_succ (h : s.rpcs[k]? = some c) : replies output r 0 (s.rpcs.take (k + 1)) =
      replies output r 0 (s.rpcs.take k) ++ if c = none ∨ c = some r then [output r k] else [] := by
  have hk := (List.getElem?_eq_some_iff.1 h).1
  rw [take_add_one, h, Option.toList_some, replies_append, length_take, Nat.min_eq_left (by omega), Nat.zero_add]
  rfl

theorem asked_iff (hr : r < n) : r ∈ f.ranks n ↔ f.outputRank = none ∨ f.outputRank = some r := by
  cases h : f.outputRank with
  | none => simp [FutureWrapper.ranks, h, hr]
  | some x => simp [FutureWrapper.ranks, h, eq_comm]

theorem lt_of_mem_ranks (hf : ∀ r ∈ f.outputRank, r < n) (hr : r ∈ f.ranks n) : r < n := by
  cases h : f.outputRank with
  | none => simpa [FutureWrapper.ranks, h] using hr
  | some x => exact hf r (by simpa [FutureWrapper.ranks, h, eq_comm] using hr)

theorem Executor.ReadTo.head {reply : Except String V} {rest : List (Except String V)} (h : s.ReadTo output r k)
    (hk : s.rpcs[k]? = some c) (hc : c = none ∨ c = some r) (hq : s.responseMqs r = reply :: rest) :
    reply = output r k := by
  rw [ReadTo, hq] at h
  rcases Nat.lt_or_ge k (s.executed r) with hlt | hge
  · have hsplit : s.rpcs.take (s.executed r) = s.rpcs.take (k + 1) ++ (s.rpcs.take (s.executed r)).drop (k + 1) := by
      conv_lhs => rw [← take_append_drop (k + 1) (s.rpcs.take (s.executed r)), take_take, Nat.min_eq_left hlt]
    rw [hsplit, replies_append, replies_take_succ hk, if_pos hc, append_assoc] at h
    exact (cons.inj (append_cancel_left h)).1.symm
  · have hsplit : s.rpcs.take k = s.rpcs.take (s.executed r) ++ (s.rpcs.take k).drop (s.executed r) := by
      conv_lhs => rw [← take_append_drop (s.executed r) (s.rpcs.take k), take_take, Nat.min_eq_left hge]
    rw [hsplit, replies_append] at h
    have := congrArg length h
    simp only [length_append, length_cons] at this
    omega

/-! ### The invariant -/

def futuresFrom (rpcs : List (Option Nat)) (m : Nat) : List FutureWrapper :=
    (rpcs.zipIdx.drop m).map fun e => ⟨e.2, e.1⟩

/-- The call `g` is being collected: the ranks that are not pending have given their own replies to it. -/
structure Collects (n : Nat) (output : Nat → Nat → Except String V) (rpcs : List (Option Nat)) (g : GetResponse V) :
    Prop where
  call : rpcs[g.future.call]? = some g.future.outputRank
  nodup : g.pending.Nodup
  subset : g.pending ⊆ g.future.ranks n
  responses : ∀ r ∈ g.future.ranks n, r ∉ g.pending →
    g.responses r = (output r g.future.call).toOption ∧ (g.responses r).isSome

/-- The calls before number `m` have been collected, but for the replies that are pending. -/
structure Inv (n : Nat) (output : Nat → Nat → Except String V) (s : Executor V) (m : Nat) : Prop where
  finished : ∀ e ∈ s.finished, Own n output e
  ranks : ∀ c ∈ s.rpcs, ∀ r ∈ c, r < n
  executed : ∀ r, s.executed r ≤ s.rpcs.length
  le : m ≤ s.rpcs.length
  futures : s.futuresQueue = futuresFrom s.rpcs m
  readTo : ∀ r < n, s.ReadTo output r (if r ∈ s.getResponse.elim [] GetResponse.pending then m - 1 else m)
  collects : ∀ g ∈ s.getResponse, m = g.future.call + 1 ∧ Collects n output s.rpcs g

namespace Inv
variable {m : Nat} {g : GetResponse V}

section
variable (h : Inv n output s m)
include h

theorem collectiveRpc (c : Option Nat) : Inv n output (s.collectiveRpc n c) m := by
  unfold Executor.collectiveRpc
  split
  · next hc =>
    have htake : ∀ p ≤ s.rpcs.length, (s.rpcs ++ [c]).take p = s.rpcs.take p := fun p => take_append_of_le_length
    refine { h with ranks := ?_, executed := ?_, le := ?_, futures := ?_, readTo := ?_, collects := ?_ }
    · exact forall_mem_append.2 ⟨h.ranks, forall_mem_singleton.2 hc⟩
    · exact fun r => Nat.le_trans (h.executed r) (by simp)
    · exact Nat.le_trans h.le (by simp)
    · have hdrop : m ≤ s.rpcs.zipIdx.length := by rw [length_zipIdx]; exact h.le
      dsimp only
      rw [h.futures, futuresFrom, futuresFrom, zipIdx_append, drop_append_of_le_length hdrop, map_append, Nat.zero_add]
      rfl
    · intro r hr
      have hread := h.readTo r hr
      unfold Executor.ReadTo at *
      dsimp only
      rw [htake _ (h.executed r), htake _ (by have := h.le; split <;> omega)]
      exact hread
    · intro g hg
      obtain ⟨hm, hcol⟩ := h.collects g hg
      exact ⟨hm, { hcol with call := (getElem?_append_left (List.getElem?_eq_some_iff.1 hcol.call).1).trans hcol.call }⟩
  · exact h

theorem executeWorkerRpc (r : Nat) : Inv n output (s.executeWorkerRpc output r) m := by
  unfold Executor.executeWorkerRpc
  split
  · exact h
  · next c hc =>
    have hlt := (List.getElem?_eq_some_iff.1 hc).1
    refine { h with executed := fun x => ?_, readTo := fun x hx => ?_ }
    · have := h.executed x
      simp only [update_apply]
      split <;> omega
    · have hread := h.readTo x hx
      unfold Executor.ReadTo at *
      dsimp only
      by_cases hxr : x = r
      · subst hxr
        rw [update_self, update_self, replies_take_succ hc, hread, append_assoc]
      · rw [update_of_ne hxr, update_of_ne hxr, hread]

theorem waitForResponse : ∃ m', Inv n output (s.waitForResponse n) m' := by
  unfold Executor.waitForResponse
  split
  · next future futures hg hf =>
    have hread := h.readTo
    have hfut := h.futures
    simp only [hg, Option.elim_none, not_mem_nil, if_false] at hread
    rw [hf, futuresFrom, eq_comm, map_eq_cons_iff] at hfut
    obtain ⟨⟨c, i⟩, es, hdrop, rfl, rfl⟩ := hfut
    have hget : s.rpcs.zipIdx[m]? = some (c, i) := by rw [← head?_drop, hdrop, head?_cons]
    rw [getElem?_zipIdx, Option.map_eq_some_iff] at hget
    obtain ⟨_, hget, he⟩ := hget
    cases he
    rw [Nat.zero_add]
    have hlt := (List.getElem?_eq_some_iff.1 hget).1
    refine ⟨m + 1, { h with le := hlt, futures := ?_, readTo := fun r hr => ?_, collects := ?_ }⟩
    · rw [futuresFrom, drop_add_one_eq_tail_drop, hdrop, tail_cons]
    · unfold Executor.ReadTo at *
      by_cases hasked : r ∈ FutureWrapper.ranks n ⟨m, c⟩
      · rw [Option.elim_some, if_pos hasked]
        exact hread r hr
      · rw [Option.elim_some, if_neg hasked, replies_take_succ hget, if_neg fun hc => hasked ((asked_iff hr).2 hc),
          append_nil]
        exact hread r hr
    · rintro _ ⟨⟩
      exact ⟨rfl, hget, by cases c <;> simp [FutureWrapper.ranks, nodup_range], fun _ => id,
        fun r hr hnot => absurd hr hnot⟩
  · exact ⟨m, h⟩

theorem dequeue {r : Nat} (hK : ReadsAll s (.dequeue r)) : Inv n output (s.dequeue r) m := by
  unfold Executor.dequeue
  unfold ReadsAll at hK
  dsimp only at hK
  split
  · next g reply rest hg hq =>
    rw [hg, hq] at hK
    split
    · next hr =>
      obtain ⟨rfl, hcall, hnd, hsub, hresp⟩ := h.collects g hg
      have hrn : r < n := lt_of_mem_ranks (h.ranks _ (mem_of_getElem? hcall)) (hsub hr)
      have hasked := (asked_iff hrn).1 (hsub hr)
      have hread := h.readTo
      simp only [hg, Option.elim_some, Nat.add_sub_cancel] at hread
      have hrow := hread r hrn
      rw [if_pos hr] at hrow
      have hhead := hrow.head hcall hasked hq
      -- the reply leaves the queue, and the rank is not pending any more
      have hread' : ∀ x < n, ({ s with responseMqs := update s.responseMqs r rest } : Executor V).ReadTo output x
          (if x ∈ g.pending.erase r then g.future.call else g.future.call + 1) := by
        intro x hx
        unfold Executor.ReadTo at *
        dsimp only
        by_cases hxr : x = r
        · subst hxr
          rw [if_neg hnd.not_mem_erase, update_self, hrow, hq, replies_take_succ hcall, if_pos hasked,
            append_assoc, hhead]
          rfl
        · simp only [mem_erase_of_ne hxr, update_of_ne hxr]
          exact hread x hx
      cases reply with
      | ok v =>
        refine { h with readTo := hread', collects := ?_ }
        rintro _ ⟨⟩
        refine ⟨rfl, hcall, hnd.erase r, fun _ hx => hsub (erase_subset hx), fun x hx hnot => ?_⟩
        by_cases hxr : x = r
        · subst hxr
          simp [← hhead, Except.toOption]
        · simpa [hxr] using hresp x hx fun hm => hnot ((mem_erase_of_ne hxr).2 hm)
      | error e =>
        have hnil : g.pending.erase r = [] := by
          refine eq_nil_iff_forall_not_mem.2 fun x hx => ?_
          obtain ⟨hne, hx⟩ := hnd.mem_erase_iff.1 hx
          exact hne (mem_singleton.1 (hK hx))
        refine { h with finished := ?_, readTo := hnil ▸ hread', collects := nofun }
        exact forall_mem_append.2 ⟨h.finished, forall_mem_singleton.2 ⟨r, hsub hr, e, hhead.symm, rfl⟩⟩
    · exact h
  · exact h

theorem setResult : Inv n output (s.setResult n) m := by
  unfold Executor.setResult
  split
  · next g hg =>
    split
    · next hnil =>
      obtain ⟨-, hcol⟩ := h.collects g hg
      have hresp := fun r hr => hcol.responses r hr (hnil ▸ not_mem_nil)
      have hread := h.readTo
      simp only [hg, Option.elim_some, hnil, not_mem_nil, if_false] at hread
      refine { h with finished := ?_, readTo := by simpa [Executor.ReadTo] using hread, collects := nofun }
      refine forall_mem_append.2 ⟨h.finished, forall_mem_singleton.2 ⟨?_, fun r hr => ?_⟩⟩
      · exact map_congr_left fun r hr => (hresp r hr).1
      · exact (hresp r hr).1 ▸ (hresp r hr).2
    · exact h
  · exact h

theorem step {op : Op} (hK : ReadsAll s op) : ∃ m', Inv n output (s.step n output op) m' := by
  cases op with
  | collectiveRpc c => exact ⟨m, h.collectiveRpc c⟩
  | executeWorkerRpc r => exact ⟨m, h.executeWorkerRpc r⟩
  | waitForResponse => exact h.waitForResponse
  | dequeue r => exact ⟨m, h.dequeue hK⟩
  | setResult => exact ⟨m, h.setResult⟩

end

end Inv

theorem foldl_inv {ops : List Op} (h : ∃ m, Inv n output s m) (hK : Along n output ops s) :
    ∃ m, Inv n output (ops.foldl (Executor.step n output) s) m := by
  induction ops generalizing s with
  | nil => exact h
  | cons op ops ih =>
    obtain ⟨m, h⟩ := h
    exact ih (h.step hK.1) hK.2

/-- Every call that has returned or raised did so with the replies to this very call. -/
theorem replies_own_call (n : Nat) (output : Nat → Nat → Except String V) (ops : List Op) (hK : Along n output ops {}) :
    ∀ e ∈ (run n output ops).finished, Own n output e := by
  have hinit : Inv n output ({} : Executor V) 0 :=
    ⟨nofun, nofun, fun _ => Nat.le_refl _, Nat.le_refl _, rfl, fun _ _ => rfl, nofun⟩
  obtain ⟨m, h⟩ := foldl_inv ⟨0, hinit⟩ hK
  exact h.finished

theorem replies_own_call_two :
    let output : Nat → Nat → Except String Nat := fun rank call => if call =
      1 then .error "failed" else .ok (10 * call + rank)
    let ops := [.collectiveRpc none, .collectiveRpc (some 1), .executeWorkerRpc 1, .executeWorkerRpc 1,
      .executeWorkerRpc 0, .waitForResponse, .dequeue 1, .dequeue 0, .setResult, .waitForResponse, .dequeue 1]
    Along 2 output ops {} ∧ (run 2 output ops).finished =
        [(⟨0, none⟩, .ok [some 0, some 1]), (⟨1, some 1⟩, .error (workerFailed "failed"))] ∧
      ∀ e ∈ (run 2 output ops).finished, Own 2 output e := by
  intro output ops
  have hK : Along 2 output ops {} :=
    ⟨trivial, trivial, trivial, trivial, trivial, trivial, trivial, trivial, trivial, trivial, fun _ => id, trivial⟩
  exact ⟨hK, by decide +kernel, replies_own_call 2 output ops hK⟩

/-- Rank `0` fails in the first call, which raises before the reply of rank `1` is there. The second call returns that
reply for its own. -/
theorem failed_call_shifts : let output : Nat → Nat → Except String Nat := fun rank call =>
      if rank = 0 ∧ call = 0 then .error "failed" else .ok (10 * call + rank)
    let ops := [.collectiveRpc none, .executeWorkerRpc 0, .waitForResponse, .dequeue 0, .executeWorkerRpc 1,
      .collectiveRpc none, .executeWorkerRpc 0, .executeWorkerRpc 1, .waitForResponse, .dequeue 0,
      .dequeue 1, .setResult]
    (run 2 output ops).finished = [(⟨0, none⟩, .error (workerFailed "failed")), (⟨1, none⟩, .ok [some 10, some 1])] ∧
      ¬ ∀ e ∈ (run 2 output ops).finished, Own 2 output e := by
  intro output ops
  have hrun : (run 2 output ops).finished = [(⟨0, none⟩, .error (workerFailed "failed")),
      (⟨1, none⟩, .ok [some 10, some 1])] := by
    decide +kernel
  refine ⟨hrun, fun h => ?_⟩
  rw [hrun] at h
  cases (h _ (mem_cons_of_mem _ (mem_cons_self ..))).1

end VllmCore.MultiprocExecutor
