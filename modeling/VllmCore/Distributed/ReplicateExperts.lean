import VllmCore.Lib.Except

/-! # Replicating experts

`replicate_experts` gives every logical expert one replica, and then one replica after another to the expert whose
replicas carry the highest load. An expert that got a second replica carried, before that, at least the load that is
the highest in the end; so a distribution that gives it fewer replicas is no better. -/

namespace VllmCore.Eplb
open Except Function List

variable {n : Nat}

inductive ReplicateError where
  | assertionError | valueError
deriving DecidableEq

/-- A row of `phy2log` and of `logcnt`. -/
structure Replicas (n : Nat) where
  phy2log : List Nat
  logcnt : Fin n → Nat

section Model
variable (weight : Fin n → ℚ)

def load (logcnt : Fin n → Nat) (e : Fin n) : ℚ :=
  weight e / logcnt e

/-- One round. `argmax` takes the first of the most loaded experts, and raises if there is none. -/
def addReplica (row : Replicas n) (i : Nat) : Except ReplicateError (Replicas n) :=
  match (finRange n).argmax (load weight row.logcnt) with
  | none => .error .valueError
  | some e => .ok { phy2log := row.phy2log.set i e, logcnt := update row.logcnt e (row.logcnt e + 1) }

/-- `replicate_experts` for one row of `weight`; the rows do not meet. -/
def replicateExperts (numPhy : Nat) : Except ReplicateError (Replicas n) := do
  ensure (n ≤ numPhy) .assertionError
  (range' n (numPhy - n)).foldlM (addReplica weight) { phy2log := range numPhy, logcnt := fun _ => 1 }

def maxLoad (logcnt : Fin n → Nat) : ℚ :=
  Finset.univ.fold max 0 (load weight logcnt)

/-- What holds when the first `i` physical experts are assigned. -/
structure Assigned (numPhy i : Nat) (row : Replicas n) : Prop where
  pos : ∀ e, 1 ≤ row.logcnt e
  sum : ∑ e, row.logcnt e = i
  length : row.phy2log.length = numPhy
  logical : ∀ p ∈ row.phy2log.take i, p < n
  count : ∀ e : Fin n, (row.phy2log.take i).count e.val = row.logcnt e
  -- without its last replica an expert would carry the highest load
  last : ∀ e, 1 < row.logcnt e → ∀ e', load weight row.logcnt e' ≤ weight e / (row.logcnt e - 1 : Nat)

end Model

variable {weight : Fin n → ℚ} {numPhy i : Nat} {row : Replicas n}

theorem assigned_init (hle : n ≤ numPhy) :
    Assigned weight numPhy n { phy2log := range numPhy, logcnt := fun _ => 1 } := by
  have htake : (range numPhy).take n = range n := by rw [take_range, Nat.min_eq_left hle]
  refine ⟨fun _ => Nat.le_refl 1, by simp, length_range, fun p hp => ?_, fun e => ?_, nofun⟩
  · rw [htake] at hp
    exact mem_range.1 hp
  · dsimp only
    rw [htake, count_eq_one_of_mem nodup_range (mem_range.2 e.isLt)]

theorem load_update_le (hweight : ∀ e, 0 ≤ weight e) (hpos : ∀ e, 1 ≤ row.logcnt e) (e e' : Fin n) :
    load weight (update row.logcnt e (row.logcnt e + 1)) e' ≤ load weight row.logcnt e' := by
  unfold load
  rcases eq_or_ne e' e with rfl | hne
  · rw [update_self]
    have hc : (0 : ℚ) < row.logcnt e' := by exact_mod_cast hpos e'
    exact div_le_div_of_nonneg_left (hweight e') hc (by exact_mod_cast Nat.le_succ _)
  · rw [update_of_ne hne]

theorem Assigned.addReplica (h : Assigned weight numPhy i row) (hweight : ∀ e, 0 ≤ weight e) (hn : 0 < n)
    (hi : i < numPhy) : ∃ row', addReplica weight row i = .ok row' ∧ Assigned weight numPhy (i + 1) row' := by
  cases hmax : (finRange n).argmax (load weight row.logcnt) with
  | none =>
    have hnil := argmax_eq_none.1 hmax
    exact absurd (mem_finRange ⟨0, hn⟩) (hnil ▸ not_mem_nil)
  | some e =>
    have hbest : ∀ e', load weight row.logcnt e' ≤ load weight row.logcnt e := fun e' =>
      le_of_mem_argmax (mem_finRange e') hmax
    have htake : (row.phy2log.set i e.val).take (i + 1) = row.phy2log.take i ++ [e.val] := by
      rw [take_succ_eq_append_getElem (by rw [length_set, h.length]; exact hi), take_set_of_le (Nat.le_refl i),
        getElem_set_self]
    have hrun : Eplb.addReplica weight row i =
        .ok { phy2log := row.phy2log.set i e, logcnt := update row.logcnt e (row.logcnt e + 1) } := by
      rw [Eplb.addReplica, hmax]
    refine ⟨_, hrun, fun e' => ?_, ?_, length_set.trans h.length, fun p hp => ?_, fun e' => ?_, fun e' he' e'' => ?_⟩
    · dsimp only
      rw [update_apply]
      split
      · exact Nat.le_add_left ..
      · exact h.pos e'
    · have hold := Finset.sum_update_of_mem (Finset.mem_univ e) row.logcnt (row.logcnt e)
      rw [update_eq_self, h.sum] at hold
      rw [Finset.sum_update_of_mem (Finset.mem_univ e), hold, Nat.add_right_comm]
    · rw [htake] at hp
      rcases mem_append.1 hp with hp | hp
      · exact h.logical p hp
      · rw [mem_singleton.1 hp]
        exact e.isLt
    · dsimp only
      rw [htake, count_append, h.count, update_apply]
      split
      next he => rw [he, count_singleton_self]
      next he => rw [count_eq_zero.2 fun hm => he (Fin.ext (mem_singleton.1 hm)), Nat.add_zero]
    · refine (load_update_le hweight h.pos e e'').trans ?_
      dsimp only at he' ⊢
      rcases eq_or_ne e' e with rfl | hne
      · rw [update_self, Nat.add_sub_cancel]
        exact hbest e''
      · rw [update_of_ne hne] at he' ⊢
        exact h.last e' he' e''

theorem exists_assigned (hweight : ∀ e, 0 ≤ weight e) (hn : 0 < n) (k : Nat) (hk : n + k ≤ numPhy) :
    ∃ row, (range' n k).foldlM (addReplica weight) { phy2log := range numPhy, logcnt := fun _ => 1 } = .ok row ∧
      Assigned weight numPhy (n + k) row := by
  induction k with
  | zero => exact ⟨_, rfl, assigned_init hk⟩
  | succ k ih =>
    obtain ⟨row, hrow, h⟩ := ih (by omega)
    obtain ⟨row', hrow', h'⟩ := h.addReplica hweight hn (by omega)
    refine ⟨row', ?_, h'⟩
    rw [range'_1_concat, foldlM_append, hrow, ok_bind, foldlM_cons, hrow', ok_bind]
    rfl

/-- Another distribution gives some expert fewer replicas, and so at least the load of the last one this expert got. -/
theorem Assigned.maxLoad_le (h : Assigned weight numPhy numPhy row) (hweight : ∀ e, 0 ≤ weight e) {cnt : Fin n → Nat}
    (hpos : ∀ e, 1 ≤ cnt e) (hsum : ∑ e, cnt e = numPhy) : maxLoad weight row.logcnt ≤ maxLoad weight cnt := by
  by_cases hfewer : ∃ e, cnt e < row.logcnt e
  · obtain ⟨e, he⟩ := hfewer
    have hc : (0 : ℚ) < cnt e := by exact_mod_cast hpos e
    have hload : weight e / (row.logcnt e - 1 : Nat) ≤ load weight cnt e :=
      div_le_div_of_nonneg_left (hweight e) hc (by exact_mod_cast Nat.le_sub_one_of_lt he)
    have hmax : load weight cnt e ≤ maxLoad weight cnt :=
        Finset.le_fold_max _ |>.2 (.inr ⟨e, Finset.mem_univ e, le_rfl⟩)
    refine (Finset.fold_max_le _).2 ⟨Finset.le_fold_max _ |>.2 (.inl le_rfl), fun e' _ => ?_⟩
    exact (h.last e (Nat.lt_of_le_of_lt (hpos e) he) e').trans (hload.trans hmax)
  · have heq : row.logcnt = cnt := by
      funext e
      have hle : ∀ e ∈ Finset.univ, row.logcnt e ≤ cnt e := fun e _ => Nat.not_lt.1 fun he => hfewer ⟨e, he⟩
      exact (Finset.sum_eq_sum_iff_of_le hle).1 (h.sum.trans hsum.symm) e (Finset.mem_univ e)
    rw [heq]

/-- The replicas are at least one for each expert and `num_phy` together, they are those that `phy2log` lists, and no
other such distribution has a smaller highest load. It raises just where there is nothing to replicate. -/
theorem replicateExperts_optimal (weight : Fin n → ℚ) (numPhy : Nat) (hweight : ∀ e, 0 ≤ weight e) (hle : n ≤ numPhy) :
    (n = 0 ∧ 0 < numPhy ∧ replicateExperts weight numPhy = .error .valueError) ∨
    ∃ row, replicateExperts weight numPhy = .ok row ∧ (∀ e, 1 ≤ row.logcnt e) ∧ ∑ e, row.logcnt e = numPhy ∧
      row.phy2log.length = numPhy ∧ (∀ p ∈ row.phy2log, p < n) ∧ (∀ e : Fin n, row.phy2log.count e.val = row.logcnt e) ∧
      ∀ cnt : Fin n → Nat, (∀ e, 1 ≤ cnt e) → ∑ e, cnt e = numPhy → maxLoad weight row.logcnt ≤ maxLoad weight cnt := by
  by_cases hn : n = 0 ∧ 0 < numPhy
  · obtain ⟨rfl, hphy⟩ := hn
    obtain ⟨k, rfl⟩ := Nat.exists_eq_succ_of_ne_zero hphy.ne'
    exact .inl ⟨rfl, hphy, rfl⟩
  refine .inr ?_
  obtain ⟨row, hrow, h⟩ : ∃ row, replicateExperts weight numPhy = .ok row ∧ Assigned weight numPhy numPhy row := by
    unfold replicateExperts
    rw [ensure_pos hle, ok_bind]
    rcases Nat.eq_zero_or_pos n with rfl | hpos
    · obtain rfl : numPhy = 0 := by omega
      exact ⟨_, rfl, assigned_init hle⟩
    · have hend := exists_assigned hweight hpos (numPhy - n) (Nat.le_of_eq (Nat.add_sub_cancel' hle))
      rwa [Nat.add_sub_cancel' hle] at hend
  have htake : row.phy2log.take numPhy = row.phy2log := take_of_length_le (Nat.le_of_eq h.length)
  exact ⟨row, hrow, h.pos, h.sum, h.length, htake ▸ h.logical, htake ▸ h.count,
    fun cnt hpos => h.maxLoad_le hweight hpos⟩

theorem replicateExperts_five : ∃ row, replicateExperts ![6, 4] 5 = .ok row ∧ row.phy2log = [0, 1, 0, 1, 0] ∧
    ∀ cnt : Fin 2 → Nat, (∀ e, 1 ≤ cnt e) → ∑ e, cnt e = 5 → maxLoad ![6, 4] row.logcnt ≤ maxLoad ![6, 4] cnt := by
  obtain ⟨h, -⟩ | ⟨row, hrow, -, -, -, -, -, hbest⟩ := replicateExperts_optimal ![6, 4] 5 (by decide) (by decide)
  · cases h
  refine ⟨row, hrow, ?_, hbest⟩
  have hrun : (replicateExperts ![6, 4] 5).map Replicas.phy2log = .ok [0, 1, 0, 1, 0] := by decide +kernel
  rw [hrow] at hrun
  exact Except.ok.inj hrun

end VllmCore.Eplb
