import Mathlib

/-! # Insertion-ordered dictionaries

A `Dict` is an association list whose keys are distinct, kept in insertion order: writing an existing
key keeps its place, writing a new one appends. `total` adds up a weight over the entries; `total_set`
and `total_erase` say how one write moves it, which is what an accounting invariant needs. -/

universe u v

/-- An association list with distinct keys, in insertion order. -/
structure Dict (α : Type u) (β : Type v) where
  entries : List (α × β)
  nodup : (entries.map Prod.fst).Nodup
deriving DecidableEq

namespace Dict
open List
variable {α : Type u} {β : Type v} [DecidableEq α] {d : Dict α β} {k : α} {l : List (α × β)}

def setEntry (k : α) (v : β) : List (α × β) → List (α × β)
  | [] => [(k, v)]
  | e :: l => if e.1 = k then (k, v) :: l else e :: setEntry k v l

theorem keys_setEntry (k : α) (v : β) (l : List (α × β)) : (setEntry k v l).map Prod.fst =
      if k ∈ l.map Prod.fst then l.map Prod.fst else l.map Prod.fst ++ [k] := by
  induction l with
  | nil => simp [setEntry]
  | cons e l ih =>
    by_cases h : e.1 = k
    · simp [setEntry, h]
    · simp only [setEntry, h, if_false, map_cons, ih, mem_cons, Ne.symm h, false_or]
      split <;> simp

theorem nodup_setEntry (k : α) (v : β) (h : (l.map Prod.fst).Nodup) : ((setEntry k v l).map Prod.fst).Nodup := by
  rw [keys_setEntry]
  split
  · exact h
  · next hk => exact h.append (nodup_singleton k) (by simpa using hk)

def empty : Dict α β := ⟨[], nodup_nil⟩

instance : Inhabited (Dict α β) := ⟨empty⟩

def keys (d : Dict α β) : List α := d.entries.map Prod.fst

def values (d : Dict α β) : List β := d.entries.map Prod.snd

def get? (d : Dict α β) (k : α) : Option β := d.entries.lookup k

def getD (d : Dict α β) (k : α) (dflt : β) : β := (d.get? k).getD dflt

def contains (d : Dict α β) (k : α) : Bool := (d.get? k).isSome

def set (d : Dict α β) (k : α) (v : β) : Dict α β := ⟨setEntry k v d.entries, nodup_setEntry k v d.nodup⟩

def erase (d : Dict α β) (k : α) : Dict α β :=
  ⟨d.entries.filter fun e => e.1 ≠ k, d.nodup.sublist (filter_sublist.map _)⟩

def total (d : Dict α β) (w : α → β → Nat) : Nat := (d.entries.map fun e => w e.1 e.2).sum

@[simp] theorem get?_empty (k : α) : (empty : Dict α β).get? k = none := rfl

omit [DecidableEq α] in
@[simp] theorem total_empty (w : α → β → Nat) : (empty : Dict α β).total w = 0 := rfl

theorem lookup_cons_ite (e : α × β) (l : List (α × β)) (k : α) :
    (e :: l).lookup k = if k = e.1 then some e.2 else l.lookup k := by
  by_cases h : k = e.1
  · simp [List.lookup, h]
  · simp [List.lookup, h, beq_false_of_ne h]

theorem lookup_setEntry (k k' : α) (v : β) (l : List (α × β)) :
    (setEntry k v l).lookup k' = if k' = k then some v else l.lookup k' := by
  induction l with
  | nil => simp [setEntry, lookup_cons_ite]
  | cons e l ih =>
    by_cases he : e.1 = k
    · by_cases h : k' = k <;> simp [setEntry, he, lookup_cons_ite, h]
    · simp only [setEntry, he, if_false, lookup_cons_ite, ih]
      by_cases h : k' = k
      · simp [h, Ne.symm he]
      · simp [h]

@[simp] theorem get?_set (d : Dict α β) (k k' : α) (v : β) :
    (d.set k v).get? k' = if k' = k then some v else d.get? k' :=
  lookup_setEntry k k' v d.entries

theorem lookup_filter_ne (k k' : α) (l : List (α × β)) :
    (l.filter fun e => e.1 ≠ k).lookup k' = if k' = k then none else l.lookup k' := by
  induction l with
  | nil => simp
  | cons e l ih =>
    by_cases he : e.1 = k
    · rw [filter_cons_of_neg (by simpa using he), ih, lookup_cons_ite, he]
      by_cases h : k' = k <;> simp [h]
    · rw [filter_cons_of_pos (by simpa using he), lookup_cons_ite, ih, lookup_cons_ite]
      by_cases h : k' = k
      · simp [h, Ne.symm he]
      · simp [h]

@[simp] theorem get?_erase (d : Dict α β) (k k' : α) : (d.erase k).get? k' = if k' = k then none else d.get? k' :=
  lookup_filter_ne k k' d.entries

theorem mem_entries {v : β} : (k, v) ∈ d.entries ↔ d.get? k = some v := by
  obtain ⟨l, hl⟩ := d
  simp only [get?]
  induction l with
  | nil => simp
  | cons e l ih =>
    obtain ⟨k', v'⟩ := e
    simp only [map_cons, nodup_cons] at hl
    by_cases h : k = k'
    · have hk : (k, v) ∉ l := fun hw => hl.1 (h ▸ mem_map.2 ⟨_, hw, rfl⟩)
      simp [lookup_cons_ite, h, h ▸ hk, eq_comm]
    · simp [lookup_cons_ite, h, ih hl.2]

theorem mem_keys : k ∈ d.keys ↔ (d.get? k).isSome := by
  simp only [keys, mem_map, Option.isSome_iff_exists, ← mem_entries, Prod.exists]
  exact ⟨fun ⟨a, b, h, e⟩ => ⟨b, e ▸ h⟩, fun ⟨b, h⟩ => ⟨k, b, h, rfl⟩⟩

theorem total_setEntry (w : α → β → Nat) (k : α) (v : β) (l : List (α × β)) :
    ((setEntry k v l).map fun e => w e.1 e.2).sum + (l.lookup k).elim 0 (w k) =
      (l.map fun e => w e.1 e.2).sum + w k v := by
  induction l with
  | nil => simp [setEntry]
  | cons e l ih =>
    by_cases he : e.1 = k
    · simp only [setEntry, he, if_true, map_cons, sum_cons, lookup_cons_ite, Option.elim_some]
      omega
    · simp only [setEntry, he, if_false, map_cons, sum_cons, lookup_cons_ite, Ne.symm he]
      omega

theorem total_set (d : Dict α β) (w : α → β → Nat) (k : α) (v : β) :
    (d.set k v).total w + (d.get? k).elim 0 (w k) = d.total w + w k v :=
  total_setEntry w k v d.entries

theorem total_filter_ne (w : α → β → Nat) (k : α) (hl : (l.map Prod.fst).Nodup) :
    ((l.filter fun e => e.1 ≠ k).map fun e => w e.1 e.2).sum + (l.lookup k).elim 0 (w k) =
      (l.map fun e => w e.1 e.2).sum := by
  induction l with
  | nil => simp
  | cons e l ih =>
    simp only [map_cons, nodup_cons] at hl
    have ih := ih hl.2
    by_cases he : e.1 = k
    · have hk : l.filter (fun e => e.1 ≠ k) = l :=
        filter_eq_self.2 fun a ha => by
          simpa using fun h : a.1 = k => hl.1 (mem_map.2 ⟨a, ha, h.trans he.symm⟩)
      rw [filter_cons_of_neg (by simpa using he), hk, lookup_cons_ite, if_pos he.symm]
      simp only [Option.elim_some, map_cons, sum_cons, he]
      omega
    · rw [filter_cons_of_pos (by simpa using he), lookup_cons_ite, if_neg (Ne.symm he)]
      simp only [map_cons, sum_cons]
      omega

theorem total_erase (d : Dict α β) (w : α → β → Nat) (k : α) :
    (d.erase k).total w + (d.get? k).elim 0 (w k) = d.total w :=
  total_filter_ne w k d.nodup

theorem total_congr {γ : Type v} {d' : Dict α γ} {w : α → β → Nat} {w' : α → γ → Nat}
    (h : ∀ k, (d.get? k).map (w k) = (d'.get? k).map (w' k)) : d.total w = d'.total w' := by
  have hnodup : ∀ {δ : Type v} (x : Dict α δ) (u : α → δ → Nat), (x.entries.map fun e => (e.1, u e.1 e.2)).Nodup := by
    intro δ x u
    exact Nodup.of_map Prod.fst (by simpa [map_map, Function.comp_def] using x.nodup)
  have hmem : ∀ {δ : Type v} (x : Dict α δ) (u : α → δ → Nat) (k : α) (n : Nat),
      (k, n) ∈ (x.entries.map fun e => (e.1, u e.1 e.2)) ↔ (x.get? k).map (u k) = some n := by
    intro δ x u k n
    simp only [mem_map, Prod.exists, Prod.mk.injEq, Option.map_eq_some_iff, ← mem_entries]
    constructor
    · rintro ⟨a, b, hab, rfl, rfl⟩; exact ⟨b, hab, rfl⟩
    · rintro ⟨b, hb, rfl⟩; exact ⟨k, b, hb, rfl, rfl⟩
  have hperm : (d.entries.map fun e => (e.1, w e.1 e.2)).Perm (d'.entries.map fun e => (e.1, w' e.1 e.2)) := by
    refine (perm_ext_iff_of_nodup (hnodup d w) (hnodup d' w')).2 fun ⟨k, n⟩ => ?_
    rw [hmem, hmem, h]
  simpa [total, map_map, Function.comp_def] using (hperm.map Prod.snd).sum_eq

omit [DecidableEq α] in
theorem total_ite (d : Dict α β) (p : β → Prop) [DecidablePred p] :
    (d.total fun _ v => if p v then 1 else 0) = d.values.countP fun v => decide (p v) := by
  unfold total values
  induction d.entries with
  | nil => rfl
  | cons e l ih =>
    rw [map_cons, sum_cons, map_cons, countP_cons, ih]
    simp only [decide_eq_true_iff]
    omega

end Dict
