import VllmCore.Worker.InputBatch

/-! # Rows, the index and the freed rows

Between the operations of a step `Indexed` holds: `req_id_to_index` inverts the row list, and the rows
without a request are those the builder lists as removed. During `condense` the rows above `last` are
empty too (`Gapped`); when the loop ends no hole is left below, and cutting the lists leaves no hole. -/

namespace VllmCore.Worker

open Except Function List Option Dict BatchUpdateBuilder

/-! ### Partial maps that invert each other -/

def Inverts {α β : Type} (g : α → Option β) (r : β → Option α) : Prop := ∀ a b, g a = some b ↔ r b = some a

namespace Inverts

variable {α β : Type} [DecidableEq α] [DecidableEq β] {g : α → Option β} {r : β → Option α} {a : α} {b : β}

omit [DecidableEq α] [DecidableEq β] in
theorem injective {b' : β} (h : Inverts g r) (hb : r b = some a) (hb' : r b' = some a) : b = b' := by
  have hg := (h a b).mpr hb
  rw [(h a b').mpr hb'] at hg
  exact (some.inj hg).symm

theorem remove (h : Inverts g r) (hb : r b = some a) : Inverts (update g a none) (update r b none) := by
  intro x y
  have hga := (h a b).mpr hb
  by_cases hx : x = a
  · subst hx
    by_cases hy : y = b
    · simp [hy]
    · simpa [hy] using fun he => hy (h.injective he hb)
  · by_cases hy : y = b
    · subst hy
      simp only [update_of_ne hx, update_self, reduceCtorEq, iff_false]
      intro he
      rw [(h x y).mp he] at hb
      exact hx (some.inj hb)
    · simpa [hx, hy] using h x y

theorem insert (h : Inverts g r) (ha : g a = none) (hb : r b = none) :
    Inverts (update g a (some b)) (update r b (some a)) := by
  intro x y
  by_cases hx : x = a
  · subst hx
    by_cases hy : y = b
    · simp [hy]
    · simp only [update_self, some.injEq, update_of_ne hy, Ne.symm hy, false_iff]
      intro he
      rw [(h x y).mpr he] at ha
      cases ha
  · by_cases hy : y = b
    · subst hy
      simp only [update_of_ne hx, update_self, some.injEq, Ne.symm hx, iff_false]
      intro he
      rw [(h x y).mp he] at hb
      cases hb
    · simpa [hx, hy] using h x y

omit [DecidableEq α] [DecidableEq β] in
theorem permute (h : Inverts g r) (e : Equiv.Perm β) : Inverts (fun a => (g a).map e) (fun b => r (e.symm b)) := by
  intro x y
  rw [← h x (e.symm y), map_eq_some_iff]
  exact ⟨fun ⟨z, hz, he⟩ => by rw [← he, e.symm_apply_apply]; exact hz,
    fun hg => ⟨_, hg, e.apply_symm_apply y⟩⟩

end Inverts

namespace BatchUpdateBuilder

variable {u : BatchUpdateBuilder}

def Sorted (u : BatchUpdateBuilder) : Prop := u.isRemovedSorted = true → u.removed.Pairwise (· ≥ ·)

theorem ensureRemovedSorted_eq (u : BatchUpdateBuilder) :
    ∃ l, u.ensureRemovedSorted = { u with removed := l, isRemovedSorted := true } ∧ l.Perm u.removed ∧
      (u.Sorted → l.Pairwise (· ≥ ·)) := by
  unfold ensureRemovedSorted
  split
  · next hs => exact ⟨u.removed, by rw [← hs], Perm.refl _, fun h => h hs⟩
  · exact ⟨_, rfl, perm_insertionSort _ _, fun _ => pairwise_insertionSort _ _⟩

/-- Popping takes the lowest removed index and leaves the others sorted. -/
structure Popped (u : BatchUpdateBuilder) (lo : Nat) : Prop where
  pop : u.popRemoved.1 = some lo
  peek : u.peekRemoved = some lo
  hole : lo ∈ u.removed
  lowest : ∀ i ∈ u.removed, lo ≤ i
  mem : ∀ i, i ∈ u.popRemoved.2.removed ↔ i ∈ u.removed ∧ i ≠ lo
  perm : (u.popRemoved.2.removed ++ [lo]).Perm u.removed
  nodup : u.popRemoved.2.removed.Nodup
  sorted : u.popRemoved.2.Sorted

theorem Popped.length {lo : Nat} (h : u.Popped lo) : u.popRemoved.2.removed.length + 1 = u.removed.length := by
  rw [← h.perm.length_eq]; simp

theorem exists_popped (h : u.Sorted) (hnd : u.removed.Nodup) (hne : u.removed ≠ []) : ∃ lo, u.Popped lo := by
  obtain ⟨s, hs, hperm, hsort⟩ := ensureRemovedSorted_eq u
  obtain rfl | ⟨l, lo, rfl⟩ := eq_nil_or_concat s
  · exact absurd hperm.symm.eq_nil hne
  · rw [concat_eq_append] at hs hperm hsort
    have hpop : u.popRemoved = (some lo, { u with removed := l, isRemovedSorted := true }) := by
      simp [popRemoved, hne, hs]
    obtain ⟨hl, -, hdisj⟩ := nodup_append.mp (hperm.nodup_iff.mpr hnd)
    obtain ⟨hls, -, hlo⟩ := pairwise_append.mp (hsort h)
    refine ⟨lo, by rw [hpop], by simp [peekRemoved, hs], hperm.mem_iff.mp (by simp), fun i hi => ?_, fun i => ?_,
      by rw [hpop]; exact hperm, by rw [hpop]; exact hl, fun _ => by rw [hpop]; exact hls⟩
    · rcases mem_append.mp (hperm.mem_iff.mpr hi) with hi | hi
      · exact hlo i hi lo (by simp)
      · exact Nat.le_of_eq (mem_singleton.mp hi).symm
    · rw [hpop, ← hperm.mem_iff, mem_append, mem_singleton]
      constructor
      · exact fun hi => ⟨.inl hi, hdisj i hi lo (by simp)⟩
      · rintro ⟨hi | hi, hne⟩
        · exact hi
        · exact absurd hi hne

theorem popRemoved_rest (u : BatchUpdateBuilder) : u.popRemoved.2.added = u.added ∧ u.popRemoved.2.moved = u.moved := by
  obtain ⟨l, hl, -⟩ := ensureRemovedSorted_eq u
  unfold popRemoved
  split
  · exact ⟨rfl, rfl⟩
  · simp [hl]

end BatchUpdateBuilder

namespace InputBatch
variable {empty i1 i2 last : Nat} {old1 old2 : RequestId}

def rowId (b : InputBatch) (i : Nat) : Option RequestId := (b.reqIds[i]?).join

def Inverse (b : InputBatch) : Prop := Inverts b.reqIdToIndex.get? b.rowId

/-- While requests are removed and added, the rows without a request are the removed ones. -/
structure Indexed (b : InputBatch) : Prop where
  inverse : b.Inverse
  hole : ∀ i < b.reqIds.length, b.rowId i = none ↔ i ∈ b.builder.removed
  bound : ∀ i ∈ b.builder.removed, i < b.reqIds.length
  nodup : b.builder.removed.Nodup
  sorted : b.builder.Sorted
  count : b.numReqs + b.builder.removed.length = b.reqIds.length

variable {b b' : InputBatch} {i j : Nat} {id : RequestId} {request : CachedRequestState} {P : InputBatch → Prop}

theorem lt_of_rowId (h : b.rowId i = some id) : i < b.reqIds.length := by
  unfold rowId at h
  by_contra hge
  rw [getElem?_eq_none (by omega)] at h
  cases h

theorem rowId_of_ge (h : b.reqIds.length ≤ i) : b.rowId i = none := by
  simp [rowId, getElem?_eq_none h]

theorem getElem?_of_rowId (h : b.rowId i = some id) : b.reqIds[i]? = some (some id) := by
  unfold rowId at h
  cases hi : b.reqIds[i]? with
  | none => simp [hi] at h
  | some x => rw [hi] at h; exact congrArg some h

theorem join_set (l : List (Option RequestId)) (i j : Nat) (x : Option RequestId) (hi : i < l.length) :
    ((l.set i x)[j]?).join = update (fun k => (l[k]?).join) i x j := by
  rw [getElem?_set]
  by_cases hij : i = j
  · subst hij; simp [hi]
  · simp [hij, Ne.symm hij]

/-! ### What each operation does to the rows -/

theorem rowId_clearRow (hi : i < b.reqIds.length) : (b.clearRow i id).rowId = update b.rowId i none := by
  funext j
  exact join_set b.reqIds i j none hi

theorem rowId_fillRow (request : CachedRequestState) (hi : i ≤ b.reqIds.length) :
    (b.fillRow i request).rowId = update b.rowId i (some request.reqId) := by
  funext j
  by_cases he : i = b.reqIds.length
  · simp only [rowId, fillRow, he, if_true, getElem?_append]
    rcases Nat.lt_trichotomy j b.reqIds.length with hj | rfl | hj
    · simp [hj, Nat.ne_of_lt hj, rowId]
    · simp
    · have hne : j - b.reqIds.length ≠ 0 := by omega
      rw [if_neg (by omega), update_of_ne (by omega), rowId_of_ge (by omega),
        getElem?_eq_none (by simp; omega)]
      rfl
  · simp only [rowId, fillRow, he, if_false]
    exact join_set b.reqIds i j _ (by omega)

theorem rowId_moveDown (hl : last < b.reqIds.length) (he : empty < b.reqIds.length) :
    (b.moveDown last empty id).rowId = update (update b.rowId empty (some id)) last none := by
  funext j
  simp only [rowId, moveDown]
  rw [join_set _ _ _ _ (by simpa using hl)]
  congr 1
  funext k
  exact join_set b.reqIds empty k _ he

theorem rowId_swapRows {index1 index2 : Nat} (h1 : i1 < b.reqIds.length) (h2 : i2 < b.reqIds.length) :
    (b.swapRows i1 i2 old1 old2 index1 index2).rowId = swapAt b.rowId i1 i2 := by
  funext j
  have hs : swapList b.reqIds i1 i2 = (b.reqIds.set i1 (b.reqIds[i2])).set i2 (b.reqIds[i1]) := by
    simp [swapList, h1, h2]
  simp only [rowId, swapRows, hs]
  rw [join_set _ _ _ _ (by simpa using h2)]
  unfold swapAt
  have e1 : b.rowId i1 = b.reqIds[i1] := by simp [rowId, h1]
  have e2 : b.rowId i2 = b.reqIds[i2] := by simp [rowId, h2]
  rw [e1, e2]
  congr 1
  funext k
  exact join_set b.reqIds i1 k _ h1

/-! ### Removals and additions -/

theorem numReqs_eq (b : InputBatch) : b.numReqs = b.reqIdToIndex.total fun _ _ => 1 := by
  simp [numReqs, Dict.total]

theorem removeRequest_cases (h : b.removeRequest id = .ok b') : (b.reqIdToIndex.get? id = none ∧ b' = b) ∨
      ∃ i, b.reqIdToIndex.get? id = some i ∧ b.builder.isRemovedSorted = false ∧
        b' = { b with builder := { b.builder with removed := b.builder.removed ++ [i] } }.clearRow i id := by
  unfold removeRequest at h
  split at h
  · next hn =>
    cases h
    exact .inl ⟨hn, rfl⟩
  · next i hi =>
    obtain ⟨u, hu, h⟩ := bind_eq_ok.mp h
    obtain ⟨_, hs, hu⟩ := bind_eq_ok.mp hu
    cases hu
    cases h
    exact .inr ⟨i, hi, ensure_eq_ok.mp hs, rfl⟩

theorem Indexed.clear (h : b.Indexed) (hi : b.rowId i = some id) (hs : b.builder.isRemovedSorted = false) :
    ({ b with builder := { b.builder with removed := b.builder.removed ++ [i] } }.clearRow i id).Indexed := by
  have hlt := lt_of_rowId hi
  have hrow : ({ b with builder := { b.builder with removed := b.builder.removed ++ [i] } }.clearRow i id).rowId
      = update b.rowId i none := rowId_clearRow hlt
  have hget := (h.inverse id i).mpr hi
  refine ⟨?_, ?_, ?_, ?_, ?_, ?_⟩
  · have hinv := Inverts.remove h.inverse hi
    rw [← hrow] at hinv
    exact fun id' j => by rw [← hinv id' j, clearRow, get?_erase, update_apply]
  · intro j hj
    rw [hrow]
    simp only [clearRow, length_set, mem_append, mem_singleton] at hj ⊢
    by_cases hji : j = i
    · simp [hji]
    · simpa [update_of_ne hji, hji] using h.hole j hj
  · intro j hj
    simp only [clearRow, length_set, mem_append, mem_singleton] at hj ⊢
    rcases hj with hj | rfl
    · exact h.bound j hj
    · exact hlt
  · refine Nodup.append h.nodup (nodup_singleton i) ?_
    simp only [disjoint_singleton]
    intro hm
    rw [(h.hole i hlt).mpr hm] at hi
    cases hi
  · intro hs'
    rw [show b.builder.isRemovedSorted = true from hs'] at hs
    cases hs
  · have hc := h.count
    have he := b.reqIdToIndex.total_erase (fun _ _ => 1) id
    rw [hget, ← numReqs_eq b] at he
    simp only [elim_some] at he
    rw [numReqs_eq]
    simp only [clearRow, length_append, length_singleton, length_set]
    omega

/-- The row the next request gets has no request, and it is not listed as removed any more. -/
structure Fresh (b : InputBatch) (row : Nat) (u : BatchUpdateBuilder) : Prop where
  empty : b.rowId row = none
  le : row ≤ b.reqIds.length
  mem : ∀ i, i ∈ u.removed ↔ i ∈ b.builder.removed ∧ i ≠ row
  nodup : u.removed.Nodup
  sorted : u.Sorted
  count : b.numReqs + 1 + u.removed.length = max b.reqIds.length (row + 1)
  added : u.added = b.builder.added
  moved : u.moved = b.builder.moved

theorem Indexed.fresh (h : b.Indexed) : b.Fresh b.nextRow b.builder.popRemoved.2 := by
  have hc := h.count
  by_cases hr : b.builder.removed = []
  · have hrow : b.nextRow = b.reqIds.length := by
      simp [nextRow, popRemoved, hr] at hc ⊢
      omega
    have hu : b.builder.popRemoved.2 = b.builder := by simp [popRemoved, hr]
    rw [hrow, hu]
    exact ⟨rowId_of_ge (Nat.le_refl _), Nat.le_refl _, by simp [hr], h.nodup, h.sorted,
      by rw [hr] at hc ⊢; simp at hc ⊢; omega, rfl, rfl⟩
  · obtain ⟨lo, hpop⟩ := exists_popped h.sorted h.nodup hr
    have hrow : b.nextRow = lo := by simp [nextRow, hpop.pop]
    have hlt := h.bound lo hpop.hole
    have hlen := hpop.length
    rw [hrow]
    exact ⟨(h.hole lo hlt).mpr hpop.hole, Nat.le_of_lt hlt, hpop.mem, hpop.nodup, hpop.sorted, by omega,
      b.builder.popRemoved_rest.1, b.builder.popRemoved_rest.2⟩

theorem addRequest_cases (h : b.addRequest request = .ok b') :
    b.nextRow < b.maxNumReqs ∧ b' = { b with builder := { b.builder.popRemoved.2 with
      added := if request.samplingParams.isSome then b.builder.popRemoved.2.added ++ [(b.nextRow, request)]
        else b.builder.popRemoved.2.added } }.fillRow b.nextRow request := by
  obtain ⟨⟨i, b1⟩, h1, h⟩ := bind_eq_ok.mp h
  obtain ⟨_, hm, h1⟩ := bind_eq_ok.mp h1
  cases h1
  cases h
  exact ⟨ensure_eq_ok.mp hm, rfl⟩

theorem Indexed.fill (h : b.Indexed) {row : Nat} {u : BatchUpdateBuilder} (hf : b.Fresh row u)
    (hnew : b.reqIdToIndex.get? request.reqId = none) (added : List (Nat × CachedRequestState)) :
    ({ b with builder := { u with added := added } }.fillRow row request).Indexed := by
  have hrow : ({ b with builder := { u with added := added } }.fillRow row request).rowId
      = update b.rowId row (some request.reqId) := rowId_fillRow request hf.le
  have hlen : ({ b with builder := { u with added := added } }.fillRow row request).reqIds.length
      = max b.reqIds.length (row + 1) := by
    have := hf.le
    simp only [fillRow]
    split <;> simp <;> omega
  refine ⟨?_, ?_, ?_, hf.nodup, hf.sorted, ?_⟩
  · have hinv := Inverts.insert h.inverse hnew hf.empty
    rw [← hrow] at hinv
    exact fun id j => by rw [← hinv id j, fillRow, get?_set, update_apply]
  · intro j hj
    rw [hrow]
    rw [hlen] at hj
    show _ ↔ j ∈ u.removed
    rw [hf.mem j]
    by_cases hjr : j = row
    · simp [hjr]
    · have := hf.le
      simpa [update_of_ne hjr, hjr] using h.hole j (by omega)
  · intro j hj
    rw [hlen]
    have := h.bound j ((hf.mem j).mp hj).1
    omega
  · rw [hlen, ← hf.count, numReqs_eq, numReqs_eq b]
    have hs := b.reqIdToIndex.total_set (fun _ _ => 1) request.reqId row
    simp only [hnew, elim_none, Nat.add_zero] at hs
    simp only [fillRow, hs]

/-- After `condense` no row is a hole; what the builder still lists as removed was cut off. -/
structure Dense (b : InputBatch) : Prop where
  inverse : b.Inverse
  full : ∀ i < b.reqIds.length, b.rowId i ≠ none
  count : b.numReqs = b.reqIds.length
  freed : ∀ i ∈ b.builder.removed, b.reqIds.length ≤ i

theorem numReqs_set_old {d : Dict RequestId Nat} {k : RequestId} {v w : Nat} (h : d.get? k = some w) :
    (d.set k v).entries.length = d.entries.length := by
  have e := d.total_set (fun _ _ => 1) k v
  rw [h] at e
  simpa [Dict.total] using e

/-! ### Swaps -/

theorem indexOf_eq_ok (h : b.indexOf id = .ok i) : b.reqIdToIndex.get? id = some i := by
  unfold indexOf at h
  split at h
  · next he => cases h; exact he
  · cases h

theorem swapStates_cases (hb : b.Inverse) (h : b.swapStates i1 i2 = .ok b') :
    ∃ old1 old2, b.rowId i1 = some old1 ∧ b.rowId i2 = some old2 ∧ b' = b.swapRows i1 i2 old1 old2 i1 i2 := by
  unfold swapStates at h
  split at h
  · next old1 old2 h1 h2 =>
    have hr1 : b.rowId i1 = some old1 := by simp [rowId, h1]
    have hr2 : b.rowId i2 = some old2 := by simp [rowId, h2]
    obtain ⟨index1, hi1, h⟩ := bind_eq_ok.mp h
    obtain ⟨index2, hi2, h⟩ := bind_eq_ok.mp h
    cases h
    obtain rfl := Inverts.injective hb ((hb _ _).mp (indexOf_eq_ok hi1)) hr1
    obtain rfl := Inverts.injective hb ((hb _ _).mp (indexOf_eq_ok hi2)) hr2
    exact ⟨old1, old2, hr1, hr2, rfl⟩
  · cases h
  · cases h

theorem swapAt_eq {α : Type} (f : Nat → α) (i1 i2 j : Nat) : swapAt f i1 i2 j = f (Equiv.swap i1 i2 j) := by
  unfold swapAt
  by_cases h2 : j = i2
  · subst h2; simp
  · rw [update_of_ne h2]
    by_cases h1 : j = i1
    · subst h1; simp
    · rw [update_of_ne h1, Equiv.swap_apply_of_ne_of_ne h1 h2]

theorem Inverse.swap (h : b.Inverse) (h1 : b.rowId i1 = some old1) (h2 : b.rowId i2 = some old2) :
    (b.swapRows i1 i2 old1 old2 i1 i2).Inverse := by
  have hrow : (b.swapRows i1 i2 old1 old2 i1 i2).rowId = fun j => b.rowId ((Equiv.swap i1 i2).symm j) := by
    rw [rowId_swapRows (lt_of_rowId h1) (lt_of_rowId h2)]
    funext j
    rw [swapAt_eq, Equiv.symm_swap]
  have hget : (b.swapRows i1 i2 old1 old2 i1 i2).reqIdToIndex.get? =
      fun id => (b.reqIdToIndex.get? id).map (Equiv.swap i1 i2) := by
    funext id
    simp only [swapRows, get?_set]
    by_cases he2 : id = old2
    · simp [he2, (h old2 i2).mpr h2]
    · by_cases he1 : id = old1
      · simp [he1, he1 ▸ he2, (h old1 i1).mpr h1]
      · simp only [he1, he2, if_false]
        cases hg : b.reqIdToIndex.get? id with
        | none => rfl
        | some j =>
          have hj := (h id j).mp hg
          have hj1 : j ≠ i1 := fun he => he1 (some.inj ((he ▸ hj).symm.trans h1))
          have hj2 : j ≠ i2 := fun he => he2 (some.inj ((he ▸ hj).symm.trans h2))
          rw [map_some, Equiv.swap_apply_of_ne_of_ne hj1 hj2]
  unfold Inverse
  rw [hrow, hget]
  exact Inverts.permute h _

theorem Dense.swap (h : b.Dense) (h1 : b.rowId i1 = some old1) (h2 : b.rowId i2 = some old2) :
    (b.swapRows i1 i2 old1 old2 i1 i2).Dense := by
  have hlen : (b.swapRows i1 i2 old1 old2 i1 i2).reqIds.length = b.reqIds.length := by
    simp only [swapRows, swapList]
    split <;> simp
  have hbuild : (b.swapRows i1 i2 old1 old2 i1 i2).builder.removed = b.builder.removed := by
    simp only [swapRows]
    split <;> rfl
  have g1 := (h.inverse _ _).mpr h1
  have g2 := (h.inverse _ _).mpr h2
  refine ⟨h.inverse.swap h1 h2, ?_, ?_, by rw [hbuild, hlen]; exact h.freed⟩
  · intro j hj
    rw [rowId_swapRows (lt_of_rowId h1) (lt_of_rowId h2), swapAt_eq]
    by_cases hj1 : j = i1
    · subst hj1; simp [h2]
    · by_cases hj2 : j = i2
      · subst hj2; simp [h1]
      · rw [Equiv.swap_apply_of_ne_of_ne hj1 hj2]
        exact h.full j (hlen ▸ hj)
  · rw [hlen, ← h.count]
    obtain ⟨k, hk⟩ : ∃ k, (b.reqIdToIndex.set old1 i2).get? old2 = some k := by
      rw [get?_set]; split <;> simp [g2]
    exact (numReqs_set_old hk).trans (numReqs_set_old g1)

/-! ### Condensing -/

/-- In the loop of `condense` the rows above `last` are holes besides the removed ones. -/
structure Gapped (b : InputBatch) (last : Nat) : Prop where
  inverse : b.Inverse
  hole : ∀ i < b.reqIds.length, b.rowId i = none ↔ i ∈ b.builder.removed ∨ last < i
  bound : ∀ i ∈ b.builder.removed, i < b.reqIds.length
  nodup : b.builder.removed.Nodup
  sorted : b.builder.Sorted
  inside : last < b.reqIds.length
  count : b.numReqs + b.builder.removed.countP (· ≤ last) = last + 1
  live : 0 < b.numReqs

theorem countP_le_succ {l : List Nat} (h : l.Nodup) (n : Nat) :
    l.countP (· ≤ n + 1) = l.countP (· ≤ n) + if n + 1 ∈ l then 1 else 0 := by
  induction l with
  | nil => simp
  | cons a l ih =>
    obtain ⟨ha, hl⟩ := nodup_cons.mp h
    rw [countP_cons, countP_cons, ih hl]
    by_cases he : a = n + 1
    · subst he
      simp [ha]
    · have : (n + 1 ∈ a :: l) ↔ n + 1 ∈ l := by simp [Ne.symm he]
      simp only [this, decide_eq_true_eq]
      split <;> split <;> split <;> omega

theorem Gapped.slide (h : b.Gapped last) :
    b.Gapped (lastNonEmpty b.builder.removed last) ∧ lastNonEmpty b.builder.removed last ∉ b.builder.removed := by
  induction last with
  | zero =>
    refine ⟨h, fun hm => ?_⟩
    have hc := h.count
    have hp : 0 < b.builder.removed.countP (· ≤ 0) := countP_pos_iff.mpr ⟨0, hm, by simp⟩
    have := h.live
    omega
  | succ last ih =>
    unfold lastNonEmpty
    split
    · next hm =>
      refine ih { h with hole := ?_, inside := by have := h.inside; omega, count := ?_ }
      · intro i hi
        rw [h.hole i hi]
        constructor
        · rintro (hr | hlt)
          · exact .inl hr
          · exact .inr (by omega)
        · rintro (hr | hlt)
          · exact .inl hr
          · rcases Nat.lt_or_ge (last + 1) i with hlt' | hge
            · exact .inr hlt'
            · exact .inl ((by omega : i = last + 1) ▸ hm)
      · have hc := h.count
        rw [countP_le_succ h.nodup, if_pos hm] at hc
        omega
    · next hm => exact ⟨h, hm⟩

/-- One round of `condense`: the last request moves into the lowest hole. -/
structure Moves (b : InputBatch) (last empty : Nat) (id : RequestId) : Prop where
  source : b.rowId last = some id
  hole : empty ∈ b.builder.removed
  below : empty < b.numReqs
  above : b.numReqs ≤ last
  left : ∀ i, i ∈ (b.moveDown last empty id).builder.removed ↔ i ∈ b.builder.removed ∧ i ≠ empty

theorem Moves.lt (h : b.Moves last empty id) : empty < last :=
  Nat.lt_of_lt_of_le h.below h.above

theorem Moves.hole_lt (h : b.Moves last empty id) : empty < b.reqIds.length :=
  Nat.lt_trans h.lt (lt_of_rowId h.source)

theorem Moves.rowId (h : b.Moves last empty id) :
    (b.moveDown last empty id).rowId = update (update b.rowId empty (some id)) last none :=
  rowId_moveDown (lt_of_rowId h.source) h.hole_lt

theorem Moves.numReqs (h : b.Moves last empty id) (hb : b.Inverse) : (b.moveDown last empty id).numReqs = b.numReqs :=
  numReqs_set_old ((hb id last).mpr h.source)

theorem Gapped.moves (h : b.Gapped last) (hl : last ∉ b.builder.removed) (hpeek : b.builder.peekRemoved = some empty)
    (hlt : empty < last) : ∃ id, b.Moves last empty id ∧ (b.moveDown last empty id).Gapped (last - 1) ∧
      (b.moveDown last empty id).builder.removed.length + 1 = b.builder.removed.length := by
  have hne : b.builder.removed ≠ [] := by
    intro he
    obtain ⟨s, hs, hperm, -⟩ := ensureRemovedSorted_eq b.builder
    rw [he] at hperm
    simp [peekRemoved, hs, hperm.eq_nil] at hpeek
  obtain ⟨lo, hpop⟩ := exists_popped h.sorted h.nodup hne
  obtain rfl : lo = empty := some.inj (hpop.peek.symm.trans hpeek)
  obtain ⟨id, hid⟩ : ∃ id, b.rowId last = some id := by
    cases hr : b.rowId last with
    | some id => exact ⟨id, rfl⟩
    | none =>
      rcases (h.hole last h.inside).mp hr with hm | hlt
      · exact absurd hm hl
      · exact absurd hlt (Nat.lt_irrefl _)
  -- the removed rows up to `last` lie in `[empty, last)`, so they are at most `last - empty`
  have hfit : b.builder.removed.countP (· ≤ last) ≤ last - lo := by
    rw [countP_eq_length_filter]
    have hsub : b.builder.removed.filter (· ≤ last) ⊆ List.range' lo (last - lo) := by
      intro i hi
      obtain ⟨hi, hle⟩ := mem_filter.mp hi
      have hle : i ≤ last := by simpa using hle
      have hge := hpop.lowest i hi
      have : i ≠ last := fun he => hl (he ▸ hi)
      exact mem_range'_1.mpr ⟨hge, by omega⟩
    simpa using (subperm_of_subset (h.nodup.filter _) hsub).length_le
  have hcount : b.builder.removed.countP (· ≤ last) =
      b.builder.popRemoved.2.removed.countP (· ≤ last) + 1 := by
    rw [← hpop.perm.countP_eq, countP_append]
    simp [Nat.le_of_lt hlt]
  have hc := h.count
  have hm : b.Moves last lo id := ⟨hid, hpop.hole, by omega, by omega, hpop.mem⟩
  have hnum := hm.numReqs h.inverse
  have hlen : (b.moveDown last lo id).reqIds.length = b.reqIds.length := by simp [moveDown]
  refine ⟨id, hm, ⟨?_, ?_, ?_, hpop.nodup, hpop.sorted, ?_, ?_, ?_⟩, hpop.length⟩
  · -- a move empties the one row and fills the other
    have hinv := Inverts.insert (a := id) (b := lo) (Inverts.remove h.inverse hid) (by simp)
      (by rw [update_of_ne (by omega)]; exact (h.hole lo hm.hole_lt).mpr (.inl hpop.hole))
    rw [update_idem, update_comm (Nat.ne_of_gt hlt), ← hm.rowId] at hinv
    exact fun id' j => by rw [← hinv id' j, moveDown, get?_set, update_apply]
  · intro j hj
    rw [hlen] at hj
    rw [hm.rowId, hm.left j]
    by_cases hjl : j = last
    · subst hjl
      simp only [update_self, true_iff]
      exact .inr (by omega)
    · rw [update_of_ne hjl]
      by_cases hje : j = lo
      · subst hje
        simp; omega
      · rw [update_of_ne hje, h.hole j hj]
        constructor
        · rintro (hr | hlt)
          · exact .inl ⟨hr, hje⟩
          · exact .inr (by omega)
        · rintro (hr | hlt)
          · exact .inl hr.1
          · exact .inr (by omega)
  · intro j hj
    rw [hlen]
    exact h.bound j ((hpop.mem j).mp hj).1
  · rw [hlen]
    have := h.inside
    omega
  · obtain ⟨k, rfl⟩ : ∃ k, last = k + 1 := ⟨last - 1, by omega⟩
    have hk := countP_le_succ hpop.nodup k
    rw [if_neg fun hk => hl ((hpop.mem _).mp hk).1] at hk
    show _ + b.builder.popRemoved.2.removed.countP _ = _
    simp only [Nat.add_sub_cancel]
    omega
  · rw [hnum]; exact h.live

theorem condenseLoop_inv
    (hstep : ∀ (b : InputBatch) (last empty : Nat) (id : RequestId), b.Gapped last → b.Moves last empty id → P b →
      P (b.moveDown last empty id)) :
    ∀ (fuel : Nat) (b : InputBatch) (last : Nat), b.Gapped last → b.builder.removed.length ≤ fuel → P b →
      ∀ b', condenseLoop fuel b last = .ok b' → P b' ∧ b'.numReqs = b.numReqs ∧
        ∃ last', b'.Gapped last' ∧ ∀ i ∈ b'.builder.removed, last' < i := by
  intro fuel
  induction fuel with
  | zero =>
    intro b last h hf hp b' hr
    cases hr
    have hnil := eq_nil_of_length_eq_zero (Nat.le_zero.mp hf)
    exact ⟨hp, rfl, last, h, by simp [hnil]⟩
  | succ fuel ih =>
    intro b last h hf hp b' hr
    unfold condenseLoop at hr
    split at hr
    · next hpk =>
      cases hr
      have hnil : b.builder.removed = [] := by
        by_contra hne
        obtain ⟨lo, hpop⟩ := exists_popped h.sorted h.nodup hne
        cases hpk.symm.trans hpop.peek
      exact ⟨hp, rfl, last, h, by simp [hnil]⟩
    · next empty hpk =>
      obtain ⟨hg, hl⟩ := h.slide
      dsimp only at hr
      split at hr
      · next hle =>
        cases hr
        refine ⟨hp, rfl, _, hg, fun i hi => ?_⟩
        obtain ⟨lo, hpop⟩ := exists_popped h.sorted h.nodup (ne_nil_of_mem hi)
        obtain rfl : lo = empty := some.inj (hpop.peek.symm.trans hpk)
        have hge := hpop.lowest i hi
        have hne : i ≠ lastNonEmpty b.builder.removed last := fun he => hl (he ▸ hi)
        omega
      · next hlt =>
        obtain ⟨id, hm, hg', hlen⟩ := hg.moves hl hpk (by omega)
        obtain ⟨b1, h1, hr⟩ := bind_eq_ok.mp hr
        have hb1 : b1 = b.moveDown (lastNonEmpty b.builder.removed last) empty id := by
          rw [moveRow, getElem?_of_rowId hm.source] at h1
          exact (Except.ok.inj h1).symm
        subst hb1
        obtain ⟨hP, hn, hend⟩ := ih _ _ hg' (by omega) (hstep b _ _ id hg hm hp) b' hr
        exact ⟨hP, hn.trans (hm.numReqs hg.inverse), hend⟩

theorem Dense.condensed {n : Nat} (h : b.Gapped last) (hr : ∀ i ∈ b.builder.removed, last < i) (hn : b.numReqs = n) :
    (b.cut n).Dense ∧ (b.cut n).rowId = b.rowId := by
  have hz : b.builder.removed.countP (· ≤ last) = 0 :=
    countP_eq_zero.mpr fun i hi => by simpa using hr i hi
  have hc := h.count
  have hin := h.inside
  have hrow : (b.cut n).rowId = b.rowId := by
    funext i
    simp only [rowId, cut, getElem?_take]
    split
    · rfl
    · rcases Nat.lt_or_ge i b.reqIds.length with hi | hi
      · exact ((h.hole i hi).mpr (.inr (by omega))).symm
      · exact (rowId_of_ge hi).symm
  have hlen : (b.cut n).reqIds.length = n := by simp [cut]; omega
  refine ⟨⟨fun id i => by rw [hrow]; exact h.inverse id i, ?_, by rw [hlen]; exact hn, ?_⟩, hrow⟩
  · intro i hi he
    rw [hlen] at hi
    rw [hrow, h.hole i (by omega)] at he
    rcases he with he | he
    · have := hr i he
      omega
    · omega
  · intro i hi
    have := hr i hi
    omega

theorem condense_inv (h : b.Indexed) (hrun : b.condense = .ok b') (hp : P b)
    (hsort : ∀ l, l.Perm b.builder.removed → P b →
      P { b with builder := { b.builder with removed := l, isRemovedSorted := true } })
    (hstep : ∀ (b : InputBatch) (last empty : Nat) (id : RequestId), b.Gapped last → b.Moves last empty id → P b →
      P (b.moveDown last empty id)) (hcut : ∀ (b : InputBatch) (n : Nat), (b.cut n).rowId = b.rowId →
      P b → P (b.cut n)) :
    P b' ∧ b'.Dense := by
  obtain ⟨l, hl, hperm, hsorted⟩ := ensureRemovedSorted_eq b.builder
  have hlen := hperm.length_eq
  have hc := h.count
  unfold condense at hrun
  rw [hl] at hrun
  dsimp only at hrun
  have hP := hsort l hperm hp
  split at hrun
  · next hnil =>
    cases hrun
    subst hnil
    have hfull : b.numReqs = b.reqIds.length := by
      rw [← hlen] at hc
      exact hc
    refine ⟨hP, ⟨h.inverse, fun i hi he => ?_, hfull, by simp⟩⟩
    simpa using hperm.mem_iff.mpr ((h.hole i hi).mp he)
  · next hne =>
    split at hrun
    · next hz =>
      cases hrun
      have hnone : ∀ i, b.rowId i = none := by
        intro i
        cases hr : b.rowId i with
        | none => rfl
        | some id =>
          have hm := mem_entries.mpr ((h.inverse id i).mpr hr)
          rw [eq_nil_of_length_eq_zero hz] at hm
          cases hm
      have hrow : ∀ i, ((({ b with builder := { b.builder with removed := l, isRemovedSorted := true } } :
          InputBatch).cut 0).rowId i) = b.rowId i := by
        intro i
        rw [hnone i]
        simp [rowId, cut]
      refine ⟨hcut _ _ (funext hrow) hP, ⟨fun id i => ?_, by simp [cut], hz, by simp [cut]⟩⟩
      rw [hrow i]
      exact h.inverse id i
    · next hz =>
      obtain ⟨b1, h1, hrun⟩ := bind_eq_ok.mp hrun
      cases hrun
      have hpos := length_pos_iff.mpr hne
      have hall : l.countP (· ≤ b.numReqs + l.length - 1) = l.length := by
        refine countP_eq_length.mpr fun i hi => ?_
        have := h.bound i (hperm.mem_iff.mp hi)
        simp only [decide_eq_true_eq]
        omega
      have hg : Gapped { b with builder := { b.builder with removed := l, isRemovedSorted := true } }
          (b.numReqs + l.length - 1) := by
        refine ⟨h.inverse, fun i hi => ?_, fun i hi => h.bound i (hperm.mem_iff.mp hi),
          hperm.nodup_iff.mpr h.nodup, fun _ => hsorted h.sorted, ?_, ?_, Nat.pos_of_ne_zero hz⟩
        · have := h.hole i hi
          rw [← hperm.mem_iff] at this
          exact this.trans ⟨.inl, fun hr => hr.resolve_right fun hlt => by dsimp only at hi; omega⟩
        · dsimp only
          omega
        · show b.numReqs + l.countP _ = _
          rw [hall]
          omega
      obtain ⟨hP1, hn, last, hg1, hr1⟩ := condenseLoop_inv hstep _ _ _ hg (Nat.le_refl _) hP _ h1
      obtain ⟨hd, hrow⟩ := Dense.condensed hg1 hr1 hn
      exact ⟨hcut _ _ hrow hP1, hd⟩

end InputBatch

/-! ### Steps -/

/-- Where a worker is in its step; `idle` is between two steps. -/
inductive Phase where
  | idle | removing | adding | condensed
deriving DecidableEq

def Op.next (p : Phase) : Op → Option Phase
  | .remove _ => if p = .idle ∨ p = .removing then some .removing else none
  | .add _ | .updateSpec _ _ => if p = .condensed then none else some .adding
  | .condense => if p = .condensed then none else some .condensed
  | .swap _ _ => if p = .condensed then some .condensed else none
  | .refresh => if p = .condensed then some .idle else none
  | .sample _ => if p = .idle then some .idle else none

theorem Op.phases {op : Op} {p p' : Phase} (h : op.next p = some p') : match op with
    | .remove _ => p ≠ .condensed ∧ (p = .idle ∨ p = .removing) ∧ p' = .removing
    | .add _ | .updateSpec _ _ => p ≠ .condensed ∧ p' = .adding
    | .condense => p ≠ .condensed ∧ p' = .condensed
    | .swap _ _ => p = .condensed ∧ p' = .condensed
    | .refresh => p = .condensed ∧ p' = .idle
    | .sample _ => p = .idle ∧ p' = .idle := by
  cases op <;> cases p <;> cases h <;> simp

/-- What the worker promises: it adds requests that are not in the batch, and sampling requests to
sampling models only. -/
def Op.Promised (b : InputBatch) : Op → Prop
  | .add request => b.reqIdToIndex.get? request.reqId = none ∧ request.samplingParams.isSome = !b.isPoolingModel
  | _ => True

/-- What holds of rows, index and update in each phase. -/
structure Shape (p : Phase) (b : InputBatch) : Prop where
  indexed : p ≠ .condensed → b.Indexed
  dense : p = .condensed → b.Dense
  added : ∀ e ∈ b.builder.added, e.1 ∉ b.builder.removed
  moved : p ≠ .condensed → b.builder.moved = []
  fresh : p = .idle ∨ p = .removing → b.builder.added = []
  idle : p = .idle → b.builder.removed = []
  apart : ∀ m ∈ b.builder.moved, m.2.2 = .unidirectional → m.1 ≠ m.2.1

namespace Shape

variable {p p' : Phase} {b b' : InputBatch} {op : Op}

theorem step (h : Shape p b) (hnext : op.next p = some p') (hop : op.Promised b) (hrun : b.step op = .ok b') :
    Shape p' b' := by
  cases op with
  | remove id =>
    obtain ⟨hq, hp, rfl⟩ := Op.phases hnext
    have hI := h.indexed hq
    have hnone := h.fresh hp
    obtain ⟨-, rfl⟩ | ⟨i, hi, hs, rfl⟩ := InputBatch.removeRequest_cases hrun
    · exact ⟨fun _ => hI, nofun, h.added, fun _ => h.moved hq, fun _ => hnone, nofun, h.apart⟩
    · exact ⟨fun _ => hI.clear ((hI.inverse id i).mp hi) hs, nofun, by simp [InputBatch.clearRow, hnone],
        fun _ => h.moved hq, fun _ => hnone, nofun, h.apart⟩
  | add request =>
    obtain ⟨hp, rfl⟩ := Op.phases hnext
    obtain ⟨-, rfl⟩ := InputBatch.addRequest_cases hrun
    have hf := (h.indexed hp).fresh
    have hmoved := hf.moved.trans (h.moved hp)
    refine ⟨fun _ => (h.indexed hp).fill hf hop.1 _, nofun, fun e he => ?_, fun _ => hmoved, by simp,
      nofun, fun m hm => absurd (hmoved ▸ hm) not_mem_nil⟩
    show e.1 ∉ b.builder.popRemoved.2.removed
    rw [hf.mem, not_and, not_not]
    intro hm
    rw [InputBatch.fillRow, hf.added] at he
    dsimp only at he
    split at he
    · rcases mem_append.mp he with he | he
      · exact absurd hm (h.added e he)
      · rw [mem_singleton.mp he]
    · exact absurd hm (h.added e he)
  | updateSpec id spec =>
    obtain ⟨hp, rfl⟩ := Op.phases hnext
    obtain ⟨i, -, h2⟩ := bind_eq_ok.mp hrun
    cases h2
    have hI := h.indexed hp
    exact ⟨fun _ => ⟨hI.inverse, hI.hole, hI.bound, hI.nodup, hI.sorted, hI.count⟩, nofun, h.added,
      fun _ => h.moved hp, by simp, nofun, h.apart⟩
  | condense =>
    obtain ⟨hp, rfl⟩ := Op.phases hnext
    have hend := InputBatch.condense_inv
      (P := fun b => (∀ e ∈ b.builder.added, e.1 ∉ b.builder.removed) ∧
        ∀ m ∈ b.builder.moved, m.2.2 = .unidirectional → m.1 ≠ m.2.1)
      (h.indexed hp) hrun ⟨h.added, h.apart⟩ (fun l hl ha => ⟨fun e he hm => ha.1 e he (hl.mem_iff.mp hm), ha.2⟩) ?_
      (fun _ _ _ ha => ha)
    · exact ⟨fun hc => absurd rfl hc, fun _ => hend.2, hend.1.1, fun hc => absurd rfl hc, by simp, nofun, hend.1.2⟩
    · intro b last empty id _ hm ha
      refine ⟨fun e he hr => ha.1 e (b.builder.popRemoved_rest.1 ▸ he) ((hm.left e.1).mp hr).1, fun m hmem hu => ?_⟩
      simp only [InputBatch.moveDown] at hmem
      split at hmem
      · exact ha.2 m hmem hu
      · rcases mem_append.mp hmem with hmem | hmem
        · exact ha.2 m hmem hu
        · rw [mem_singleton.mp hmem]
          exact Nat.ne_of_gt hm.lt
  | swap i1 i2 =>
    obtain ⟨rfl, rfl⟩ := Op.phases hnext
    have hD := h.dense rfl
    obtain ⟨old1, old2, h1, h2, rfl⟩ := InputBatch.swapStates_cases hD.inverse hrun
    refine ⟨fun hc => absurd rfl hc, fun _ => hD.swap h1 h2, ?_, fun hc => absurd rfl hc, by simp, nofun, ?_⟩
    · have ha := h.added
      simp only [InputBatch.swapRows]
      split <;> exact ha
    · intro m hm hu
      simp only [InputBatch.swapRows] at hm
      split at hm
      · exact h.apart m hm hu
      · rcases mem_append.mp hm with hm | hm
        · exact h.apart m hm hu
        · rw [mem_singleton.mp hm] at hu
          cases hu
  | refresh =>
    obtain ⟨rfl, rfl⟩ := Op.phases hnext
    cases hrun
    have hD := h.dense rfl
    exact ⟨fun _ => ⟨hD.inverse, fun i hi => iff_of_false (hD.full i hi) (by simp), by simp, nodup_nil, nofun,
      hD.count⟩, nofun, by simp, fun _ => rfl, fun _ => rfl, fun _ => rfl, by simp⟩
  | sample k =>
    obtain ⟨rfl, rfl⟩ := Op.phases hnext
    cases hrun
    exact h

theorem config (h : Shape p b) (hnext : op.next p = some p') (hrun : b.step op = .ok b') :
    b'.toBatchConfig = b.toBatchConfig := by
  cases op with
  | remove id =>
    obtain ⟨-, rfl⟩ | ⟨i, -, -, rfl⟩ := InputBatch.removeRequest_cases hrun <;> rfl
  | add request =>
    obtain ⟨-, rfl⟩ := InputBatch.addRequest_cases hrun
    rfl
  | updateSpec id spec =>
    obtain ⟨i, -, h2⟩ := bind_eq_ok.mp hrun
    cases h2
    rfl
  | condense =>
    obtain ⟨hp, -⟩ := Op.phases hnext
    exact (InputBatch.condense_inv (P := fun x => x.toBatchConfig = b.toBatchConfig) (h.indexed hp) hrun rfl
      (fun _ _ hx => hx) (fun _ _ _ _ _ _ hx => hx) (fun _ _ _ hx => hx)).1
  | swap i1 i2 =>
    obtain ⟨hp, -⟩ := Op.phases hnext
    obtain ⟨old1, old2, -, -, rfl⟩ := InputBatch.swapStates_cases (h.dense hp).inverse hrun
    rfl
  | refresh => cases hrun; rfl
  | sample k => cases hrun; rfl

theorem empty (config : BatchConfig) : Shape .idle { config with } :=
  ⟨fun _ => ⟨fun id i => by simp [InputBatch.rowId], by simp, by simp, nodup_nil, nofun, rfl⟩, nofun, by simp,
    fun _ => rfl, fun _ => rfl, fun _ => rfl, by simp⟩

/-- Between two steps the rows below `num_reqs` are taken and the others are not. -/
theorem rowId_iff (h : Shape .idle b) (i : Nat) : i < b.numReqs ↔ ∃ id, b.rowId i = some id := by
  have hI := h.indexed (by simp)
  have hc := hI.count
  rw [h.idle rfl, length_nil, Nat.add_zero] at hc
  constructor
  · intro hi
    refine ne_none_iff_exists'.mp fun he => ?_
    have := (hI.hole i (by omega)).mp he
    simp [h.idle rfl] at this
  · rintro ⟨id, hid⟩
    have := InputBatch.lt_of_rowId hid
    omega

end Shape

section Runs

variable {G : Type} {onOp : InputBatch → Op → G → G} {C : G → InputBatch → Op → Prop} {P : G → InputBatch → Prop}

theorem runWith_inv (hC : ∀ g b op, C g b op → op.Promised b)
    (hstep : ∀ (p p' : Phase) (g : G) (b b' : InputBatch) (op : Op), Shape p b → op.next p = some p' → C g b op →
      b.step op = .ok b' → P g b → P (onOp b op g) b')
    {ops : List Op} {p p' : Phase} (hphase : ops.foldlM Op.next p = some p') {x y : G × InputBatch}
    (hx : Shape p x.2 ∧ P x.1 x.2) (hrun : runWith onOp ops x = .ok y) (hal : Along onOp C ops x) :
    Shape p' y.2 ∧ P y.1 y.2 := by
  induction ops generalizing p x with
  | nil =>
    cases hphase
    cases hrun
    exact hx
  | cons op ops ih =>
    rw [foldlM_cons] at hphase
    obtain ⟨q, hq, hphase⟩ := bind_eq_some_iff.mp hphase
    rw [runWith, foldlM_cons] at hrun
    obtain ⟨z, hz, hrun⟩ := bind_eq_ok.mp hrun
    have hnext := hal.2 z hz
    obtain ⟨b', hb, hz⟩ := bind_eq_ok.mp hz
    cases hz
    exact ih hphase ⟨hx.1.step hq (hC _ _ _ hal.1) hb, hstep p q _ _ _ op hx.1 hq hal.1 hb hx.2⟩ hrun hnext

theorem phases_ops (st : WorkerStep) : st.ops.foldlM Op.next .idle = some .idle := by
  have hremove : ∀ (l : List RequestId) (p : Phase), p = .idle ∨ p = .removing →
      ∃ q ≠ Phase.condensed, (l.map Op.remove).foldlM Op.next p = some q := by
    intro l p hp
    induction l generalizing p with
    | nil => exact ⟨p, by rcases hp with rfl | rfl <;> simp, rfl⟩
    | cons e l ih => simpa [Op.next, hp] using ih .removing (.inr rfl)
  have hedit : ∀ (l : List (CachedRequestState ⊕ RequestId × List TokenId)) (p : Phase), p ≠ .condensed →
      ∃ q ≠ Phase.condensed, (l.map (Sum.elim Op.add fun e => Op.updateSpec e.1 e.2)).foldlM Op.next p = some q := by
    intro l p hp
    induction l generalizing p with
    | nil => exact ⟨p, hp, rfl⟩
    | cons e l ih => cases e <;> simpa [Op.next, hp] using ih .adding (by simp)
  have hswap : ∀ l : List (Nat × Nat),
      (l.map fun p => Op.swap p.1 p.2).foldlM Op.next .condensed = some .condensed := by
    intro l
    induction l with
    | nil => rfl
    | cons a l ih => exact ih
  obtain ⟨p, hp, h1⟩ := hremove st.removals .idle (.inl rfl)
  obtain ⟨q, hq, h2⟩ := hedit st.edits p hp
  simp [WorkerStep.ops, h1, h2, hswap, Op.next, hq]

theorem phases_steps (steps : List WorkerStep) : (steps.flatMap WorkerStep.ops).foldlM Op.next .idle = some .idle := by
  induction steps with
  | nil => rfl
  | cons st steps ih => rw [flatMap_cons, foldlM_append, phases_ops]; exact ih

end Runs

def oneToken (reqId : RequestId) (samplingParams : SamplingParams) : CachedRequestState :=
  { reqId, promptTokenIds := some [7], numPromptTokens := 1, prompt_ok := rfl, samplingParams := some samplingParams }

end VllmCore.Worker
