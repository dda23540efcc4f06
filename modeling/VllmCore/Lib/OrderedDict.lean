import VllmCore.Lib.Dict

/-! # Ordered dictionaries

What `OrderedDict` adds to a dictionary: moving a key to the end and dropping the oldest entries. The
entries are compared up to permutation, which is all an accounting argument looks at. -/

universe u v w

namespace Dict
open List
variable {α : Type u} {β : Type v} [DecidableEq α] {d d' : Dict α β} {k : α} {v : β}

/-- `move_to_end`; a missing key is left alone. -/
def moveToEnd (d : Dict α β) (k : α) : Dict α β :=
  match d.get? k with
  | some v => (d.erase k).set k v
  | none => d

/-- `popitem(last=False)`, as often as `n` says. -/
def dropFirst (d : Dict α β) (n : Nat) : Dict α β :=
  ⟨d.entries.drop n, d.nodup.sublist ((drop_sublist n _).map _)⟩

def eraseAll (d : Dict α β) (ks : List α) : Dict α β := ks.foldl erase d

/-! ### Lookups -/

@[simp] theorem get?_moveToEnd (d : Dict α β) (k k' : α) : (d.moveToEnd k).get? k' = d.get? k' := by
  unfold moveToEnd
  split
  · next v hv =>
    rw [get?_set, get?_erase]
    split
    · next h => rw [h, hv]
    · rfl
  · rfl

theorem mem_dropFirst {n : Nat} (h : (d.dropFirst n).get? k = some v) : d.get? k = some v :=
  mem_entries.1 (mem_of_mem_drop (mem_entries.2 h))

theorem entries_eraseAll (d : Dict α β) (ks : List α) :
    (d.eraseAll ks).entries = d.entries.filter fun e => e.1 ∉ ks := by
  unfold eraseAll
  induction ks generalizing d with
  | nil => simp
  | cons k ks ih =>
    rw [foldl_cons, ih, erase, filter_filter]
    refine filter_congr fun e _ => ?_
    simp [Bool.and_comm]

theorem get?_eraseAll (d : Dict α β) (ks : List α) (k : α) :
    (d.eraseAll ks).get? k = if k ∈ ks then none else d.get? k := by
  unfold eraseAll
  induction ks generalizing d with
  | nil => simp
  | cons a ks ih =>
    rw [foldl_cons, ih, get?_erase]
    by_cases hk : k ∈ ks
    · simp [hk]
    · by_cases ha : k = a <;> simp [hk, ha]

theorem contains_iff : d.contains k = true ↔ k ∈ d.keys := by
  rw [mem_keys]; rfl

theorem get?_eq_none_iff : d.get? k = none ↔ k ∉ d.keys := by
  rw [mem_keys]; simp

/-! ### Entries up to order -/

omit [DecidableEq α] in
theorem nodup_entries (d : Dict α β) : d.entries.Nodup := d.nodup.of_map

theorem entries_perm_of_get? (h : ∀ k, d.get? k = d'.get? k) : d.entries.Perm d'.entries :=
  (perm_ext_iff_of_nodup d.nodup_entries d'.nodup_entries).2 fun ⟨k, v⟩ => by
    rw [mem_entries, mem_entries, h]

theorem entries_erase_perm (h : d.get? k = some v) : d.entries.Perm ((k, v) :: (d.erase k).entries) := by
  have hk : k ∉ (d.erase k).keys := get?_eq_none_iff.1 (by simp)
  have hnd : ((k, v) :: (d.erase k).entries).Nodup :=
    nodup_cons.2 ⟨fun hm => hk (mem_map_of_mem hm), (d.erase k).nodup_entries⟩
  refine (perm_ext_iff_of_nodup d.nodup_entries hnd).2 fun e => ?_
  obtain ⟨a, w⟩ := e
  rw [mem_cons, mem_entries, mem_entries, get?_erase, Prod.mk.injEq]
  by_cases ha : a = k
  · simp [ha, h, eq_comm]
  · simp [ha]

theorem entries_erase_of_none (h : d.get? k = none) : (d.erase k).entries.Perm d.entries :=
  entries_perm_of_get? fun k' => by
    rw [get?_erase]
    split
    · next hk => rw [hk, h]
    · rfl

theorem entries_set_perm (d : Dict α β) (k : α) (v : β) : (d.set k v).entries.Perm ((k, v) :: (d.erase k).entries) := by
  have h := entries_erase_perm (d := d.set k v) (k := k) (v := v) (by simp)
  refine h.trans (Perm.cons _ (entries_perm_of_get? fun k' => ?_))
  rw [get?_erase, get?_erase, get?_set]
  split
  · rfl
  · rfl

theorem entries_set_perm_cons {w : β} {rest : List (α × β)} (h : d.entries.Perm ((k, v) :: rest)) :
    (d.set k w).entries.Perm ((k, w) :: rest) := by
  have hk : d.get? k = some v := mem_entries.1 (h.mem_iff.2 (mem_cons_self ..))
  have hrest : (d.erase k).entries.Perm rest := ((entries_erase_perm hk).symm.trans h).cons_inv
  exact (entries_set_perm d k w).trans (hrest.cons _)

theorem entries_set_perm_of_none (h : d.get? k = none) (v : β) : (d.set k v).entries.Perm ((k, v) :: d.entries) :=
  (entries_set_perm d k v).trans ((entries_erase_of_none h).cons _)

theorem setEntry_of_not_mem (k : α) (v : β) {l : List (α × β)} (h : k ∉ l.map Prod.fst) :
    setEntry k v l = l ++ [(k, v)] := by
  induction l with
  | nil => rfl
  | cons e l ih =>
    rw [map_cons, mem_cons, not_or] at h
    rw [setEntry, if_neg (Ne.symm h.1), ih h.2, cons_append]

theorem entries_set_of_none (h : d.get? k = none) (v : β) : (d.set k v).entries = d.entries ++ [(k, v)] :=
  setEntry_of_not_mem k v (get?_eq_none_iff.1 h)

theorem setEntry_setEntry (k : α) (v w : β) (l : List (α × β)) : setEntry k w (setEntry k v l) = setEntry k w l := by
  induction l with
  | nil => simp [setEntry]
  | cons e l ih =>
    by_cases he : e.1 = k
    · simp [setEntry, he]
    · simp [setEntry, he, ih]

theorem entries_moveToEnd_set (h : d.get? k = some v) (w : β) :
    ((d.moveToEnd k).set k w).entries = (d.erase k).entries ++ [(k, w)] := by
  have hnone : (d.erase k).get? k = none := by simp
  rw [moveToEnd, h]
  show setEntry k w (setEntry k v (d.erase k).entries) = _
  rw [setEntry_setEntry]
  exact entries_set_of_none hnone w

theorem entries_moveToEnd (d : Dict α β) (k : α) : (d.moveToEnd k).entries.Perm d.entries :=
  entries_perm_of_get? fun k' => get?_moveToEnd d k k'

theorem mem_keys_moveToEnd {k' : α} : k' ∈ (d.moveToEnd k).keys ↔ k' ∈ d.keys := by
  rw [mem_keys, mem_keys, get?_moveToEnd]

omit [DecidableEq α] in
theorem length_dropFirst (d : Dict α β) (n : Nat) : (d.dropFirst n).entries.length = d.entries.length - n :=
  length_drop ..

end Dict
