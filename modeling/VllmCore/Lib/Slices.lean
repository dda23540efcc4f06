import VllmCore.Lib.Dict

/-! # Slices with a step, transposition, grouping by a key

The three list idioms by which a loop deals out items: `l[i::n]`, `zip(*ls)` and a `defaultdict(list)`.
Dealing out loses nothing: `flatMap_strided_perm`, `groupBy_flatten_perm`, and `zipAll_flatten_perm` for
lists of one length. `zip` stops at the shortest list: `zipAll_flatten_lt`. -/

universe u v w

namespace List
variable {α : Type u} {k n : Nat} {ls : List (List α)}

/-! ### `l[i::n]` -/

/-- The items at the positions `i, i + n, …`, for `i < n`. -/
def strided (l : List α) (i n : Nat) : List α := (l.zipIdx.filter fun e => e.2 % n = i).map Prod.fst

theorem flatMap_ite_perm (a : α) (h : k < n) : ((range n).flatMap fun i => if k = i then [a] else []).Perm [a] := by
  induction n with
  | zero => omega
  | succ n ih =>
    rw [range_succ, flatMap_append]
    rcases Nat.lt_succ_iff_lt_or_eq.1 h with h | rfl
    · simpa [show k ≠ n by omega] using ih h
    · have hnil : ((range k).flatMap fun i => if k = i then [a] else []) = [] := by
        refine flatMap_eq_nil_iff.2 fun i hi => if_neg ?_
        have := mem_range.1 hi
        omega
      simp [hnil]

/-- Dealt out by a number below `n`, every item goes to one hand. -/
theorem flatMap_filter_perm (f : α → Nat) : ∀ {l : List α}, (∀ a ∈ l, f a < n) →
    ((range n).flatMap fun i => l.filter fun a => f a = i).Perm l
  | [], _ => by simp
  | a :: l, h => by
    have ih := flatMap_filter_perm f (fun b hb => h b (mem_cons_of_mem a hb))
    have hcons : (fun i => (a :: l).filter fun b => f b = i) =
        fun i => (if f a = i then [a] else []) ++ l.filter fun b => f b = i := by
      funext i
      by_cases hi : f a = i <;> simp [hi]
    rw [hcons]
    exact (flatMap_append_perm _ _ _).symm.trans
      ((flatMap_ite_perm a (h a (mem_cons_self ..))).append ih)

theorem flatMap_strided_perm (l : List α) (hn : 0 < n) : ((range n).flatMap fun i => l.strided i n).Perm l := by
  have h := flatMap_filter_perm (fun e : α × Nat => e.2 % n) (l := l.zipIdx) (fun _ _ => Nat.mod_lt _ hn)
  simpa [strided, map_flatMap] using h.map Prod.fst

/-! ### `zip(*ls)` -/

/-- The rows of the columns `ls`, as many as the shortest column has. -/
def zipAll (ls : List (List α)) : List (List α) :=
  (range ((ls.map length).min?.getD 0)).map fun i => ls.filterMap fun l => l[i]?

theorem flatMap_getElem?_perm : ∀ {ls : List (List α)}, (∀ l ∈ ls, l.length = k) →
    ((range k).flatMap fun i : Nat => ls.filterMap fun l => l[i]?).Perm ls.flatten
  | [], _ => by simp
  | l :: ls, h => by
    have ih := flatMap_getElem?_perm (fun l' hl => h l' (mem_cons_of_mem l hl))
    have hcons : (fun i : Nat => (l :: ls).filterMap fun l => l[i]?) =
        fun i => l[i]?.toList ++ ls.filterMap fun l => l[i]? := by
      funext i
      cases hi : l[i]? <;> simp [hi]
    have hl : (range k).flatMap (fun i => l[i]?.toList) = l := by
      rw [← h l (mem_cons_self ..)]
      clear hcons ih h
      induction l using List.reverseRecOn with
      | nil => rfl
      | append_singleton l a ih =>
        rw [length_append, length_singleton, range_succ, flatMap_append]
        have hcut : (range l.length).flatMap (fun i => (l ++ [a])[i]?.toList) =
            (range l.length).flatMap fun i => l[i]?.toList := by
          refine flatMap_congr fun i hi => ?_
          rw [getElem?_append_left (mem_range.1 hi)]
        rw [hcut, ih]
        simp
    rw [hcons, flatten_cons]
    exact (flatMap_append_perm _ _ _).symm.trans (by rw [hl]; exact ih.append_left l)

theorem zipAll_flatten_perm (h : ∀ l ∈ ls, l.length = k) : (zipAll ls).flatten.Perm ls.flatten := by
  cases ls with
  | nil => simp [zipAll]
  | cons l ls =>
    have hmin : ((l :: ls).map length).min?.getD 0 = k := by
      have hmap : (l :: ls).map length = replicate (ls.length + 1) k :=
        eq_replicate_iff.2 ⟨by simp, by simpa using h⟩
      rw [hmap, min?_replicate_of_pos (by omega)]
      rfl
    rw [zipAll, hmin, ← flatMap_def]
    exact flatMap_getElem?_perm h

/-- With columns of different lengths, the items below the end of the shortest one are lost. -/
theorem zipAll_flatten_lt {a b : List α} (ha : a ∈ ls) (hb : b ∈ ls) (hab : a.length ≠ b.length) :
    (zipAll ls).flatten.length < ls.flatten.length := by
  cases hm : (ls.map length).min? with
  | none =>
    rw [map_eq_nil_iff.1 (min?_eq_none_iff.1 hm)] at ha
    cases ha
  | some m =>
    have hle : ∀ l ∈ ls, m ≤ l.length := fun l hl => (min?_eq_some_iff.1 hm).2 _ (mem_map_of_mem hl)
    have hlt : ∃ l ∈ ls, m < l.length := by
      have := hle a ha
      have := hle b hb
      by_cases h : m < a.length
      · exact ⟨a, ha, h⟩
      · exact ⟨b, hb, by omega⟩
    -- every row has at most one item of each column
    have hrows : (zipAll ls).flatten.length ≤ m * ls.length := by
      rw [zipAll, hm, Option.getD_some, length_flatten, map_map]
      have := sum_le_card_nsmul ((range m).map (length ∘ fun i => ls.filterMap fun l => l[i]?)) ls.length
        (by simpa using fun i _ => length_filterMap_le ..)
      simpa using this
    calc (zipAll ls).flatten.length ≤ m * ls.length := hrows
      _ = (ls.map fun _ => m).sum := by simp [Nat.mul_comm]
      _ < (ls.map length).sum := sum_lt_sum _ _ hle hlt
      _ = ls.flatten.length := length_flatten.symm

end List

/-! ### `defaultdict(list)` -/

namespace Dict
open List
variable {α : Type u} [DecidableEq α] {β : Type v} {γ : Type w}
variable (key : γ → α) (item : γ → β)

/-- The items under their keys, filled in by one loop. -/
def groupBy (l : List γ) : Dict α (List β) :=
  l.foldl (fun d x => d.set (key x) (d.getD (key x) [] ++ [item x])) empty

theorem setEntry_flatten_perm (k : α) (x : β) : ∀ l : List (α × List β),
    ((setEntry k ((l.lookup k).getD [] ++ [x]) l).map Prod.snd).flatten.Perm ((l.map Prod.snd).flatten ++ [x])
  | [] => by simp [setEntry]
  | e :: l => by
    by_cases h : e.1 = k
    · simp only [setEntry, h, if_true, lookup_cons_ite, Option.getD_some, map_cons, flatten_cons,
        append_assoc]
      exact (perm_append_comm).append_left _
    · simp only [setEntry, h, if_false, lookup_cons_ite, Ne.symm h, map_cons, flatten_cons,
        append_assoc]
      exact (setEntry_flatten_perm k x l).append_left _

theorem foldl_groupBy_perm : ∀ (l : List γ) (d : Dict α (List β)),
    ((l.foldl (fun d x => d.set (key x) (d.getD (key x) [] ++ [item x])) d).values.flatten).Perm
      (d.values.flatten ++ l.map item)
  | [], d => by simp
  | x :: l, d => by
    rw [foldl_cons, map_cons]
    refine (foldl_groupBy_perm l _).trans ?_
    have h := (setEntry_flatten_perm (key x) (item x) d.entries).append_right (l.map item)
    rwa [append_assoc, singleton_append] at h

theorem groupBy_flatten_perm (l : List γ) : (groupBy key item l).values.flatten.Perm (l.map item) := by
  simpa [groupBy, values, empty] using foldl_groupBy_perm key item l empty

theorem groupBy_ne_nil (l : List γ) : ∀ e ∈ (groupBy key item l).entries, e.2 ≠ [] := by
  have hset : ∀ (k : α) (v : List β) (es : List (α × List β)), v ≠ [] → (∀ e ∈ es, e.2 ≠ []) →
      ∀ e ∈ setEntry k v es, e.2 ≠ [] := by
    intro k v es hv hes
    induction es with
    | nil => simpa [setEntry] using hv
    | cons e es ih =>
      rw [forall_mem_cons] at hes
      by_cases h : e.1 = k
      · simpa [setEntry, h] using ⟨hv, fun a b hab => hes.2 (a, b) hab⟩
      · simpa only [setEntry, h, if_false, forall_mem_cons] using ⟨hes.1, ih hes.2⟩
  suffices ∀ (l : List γ) (d : Dict α (List β)), (∀ e ∈ d.entries, e.2 ≠ []) → ∀ e ∈
      (l.foldl (fun d x => d.set (key x) (d.getD (key x) [] ++ [item x])) d).entries, e.2 ≠ [] from
    this l empty (by simp [empty])
  intro l
  induction l with
  | nil => exact fun d hd => hd
  | cons x l ih => exact fun d hd => ih _ (hset _ _ _ (by simp) hd)

theorem mem_setEntry {k : α} {v : β} : ∀ {l : List (α × β)} {e : α × β}, e ∈ setEntry k v l → e = (k, v) ∨ e ∈ l
  | [], e, h => .inl (mem_singleton.1 h)
  | d :: l, e, h => by
    by_cases hd : d.1 = k
    · rw [setEntry, if_pos hd] at h
      rcases mem_cons.1 h with h | h
      · exact .inl h
      · exact .inr (mem_cons_of_mem _ h)
    · rw [setEntry, if_neg hd] at h
      rcases mem_cons.1 h with h | h
      · exact .inr (h ▸ mem_cons_self ..)
      · rcases mem_setEntry h with h | h
        · exact .inl h
        · exact .inr (mem_cons_of_mem _ h)

theorem mem_groupBy (l : List γ) {k : α} {xs : List β} (h : (k, xs) ∈ (groupBy key item l).entries) {x : β}
    (hx : x ∈ xs) : ∃ a ∈ l, key a = k ∧ item a = x := by
  suffices ∀ (l : List γ) (d : Dict α (List β)) (P : α → β → Prop), (∀ e ∈ d.entries, ∀ x ∈ e.2, P e.1 x) →
      (∀ a ∈ l, P (key a) (item a)) → ∀ e ∈
        (l.foldl (fun d x => d.set (key x) (d.getD (key x) [] ++ [item x])) d).entries, ∀ x ∈ e.2, P e.1 x from
    this l empty (fun k x => ∃ a ∈ l, key a = k ∧ item a = x) (by simp [empty]) (fun a ha => ⟨a, ha, rfl, rfl⟩) _ h x hx
  intro l
  induction l with
  | nil => exact fun d P hd _ => hd
  | cons a l ih =>
    intro d P hd hl
    rw [forall_mem_cons] at hl
    refine ih _ P (fun e he x hx => ?_) hl.2
    rcases mem_setEntry he with rfl | he
    · rcases mem_append.1 hx with hx | hx
      · cases hget : d.get? (key a) with
        | none => simp [getD, hget] at hx
        | some ys =>
          rw [getD, hget] at hx
          exact hd _ (mem_entries.2 hget) x hx
      · exact mem_singleton.1 hx ▸ hl.1
    · exact hd e he x hx

theorem total_groupBy (w : α → Nat) (l : List γ) :
    ((groupBy key item l).total fun k xs => xs.length * w k) = (l.map fun a => w (key a)).sum := by
  suffices ∀ (l : List γ) (d : Dict α (List β)),
      ((l.foldl (fun d x => d.set (key x) (d.getD (key x) [] ++ [item x])) d).total fun k xs => xs.length * w k) =
        (d.total fun k xs => xs.length * w k) + (l.map fun a => w (key a)).sum from
    (this l empty).trans (by simp)
  intro l
  induction l with
  | nil => exact fun d => by simp
  | cons a l ih =>
    intro d
    rw [foldl_cons, ih, map_cons, sum_cons]
    have hset := d.total_set (fun k xs => xs.length * w k) (key a) (d.getD (key a) [] ++ [item a])
    cases hget : d.get? (key a) with
    | none => simp [getD, hget] at hset ⊢; omega
    | some ys => simp [getD, hget, Nat.add_mul] at hset ⊢; omega

end Dict
