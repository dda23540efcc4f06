import VllmCore.Worker.BatchIndex

/-! # State kept per row beside the batch

The logits processors and the thinking-budget holder keep one state per row and learn of the changes
to the batch only from the update handed over at `refresh_metadata`. `replay` is what such an update
means for a map from rows to states: additions write, removals erase, moves carry along. Replaying the
update a step records turns the states of the old rows into those of the new ones (`Follows`), provided
a move overwrites what its destination held. The holder's `sync_batch` does not when the moved request
has no state, and so it needs a condition. -/

namespace VllmCore.Worker

open Except Function InputBatch List

section Replay
variable {u : BatchUpdateBuilder} {i : Nat}
variable {σ : Type} (z : σ) (uni : σ → σ → σ) (f : CachedRequestState → σ)

/-- The rows after additions and removals, a row without state being `z`. -/
def settle (u : BatchUpdateBuilder) (c : Nat → σ) : Nat → σ := fun i =>
  if i ∈ u.removed then z else u.added.foldl (fun c e => update c e.1 (f e.2)) c i

/-- `uni` says what the destination of a move holds, given what the source and it held. -/
def shift (c : Nat → σ) (m : Nat × Nat × MoveDirectionality) : Nat → σ :=
  match m.2.2 with
  | .swap => swapAt c m.1 m.2.1
  | .unidirectional => update (update c m.2.1 (uni (c m.1) (c m.2.1))) m.1 z

def replay (u : BatchUpdateBuilder) (c : Nat → σ) : Nat → σ := u.moved.foldl (shift z uni) (settle z f u c)

def rowState (b : InputBatch) (s : RequestId → σ) : Nat → σ := fun i => (b.rowId i).elim z s

variable {z uni f} {b b' : InputBatch} {c c' : Nat → σ} {s : RequestId → σ} {added : List (Nat × CachedRequestState)}
  {request : CachedRequestState} {row : Nat} {id : RequestId}

theorem foldl_update_of_not_mem (h : ∀ e ∈ added, e.1 ≠ i) :
    added.foldl (fun c e => update c e.1 (f e.2)) c i = c i := by
  induction added generalizing c with
  | nil => rfl
  | cons e added ih =>
    rw [foldl_cons, ih fun e he => h e (mem_cons_of_mem _ he),
      update_of_ne (h e (mem_cons_self ..)).symm]

theorem foldl_update_congr (h : c i = c' i) : added.foldl (fun c e => update c e.1 (f e.2)) c i
      = added.foldl (fun c e => update c e.1 (f e.2)) c' i := by
  induction added generalizing c c' with
  | nil => exact h
  | cons e added ih =>
    refine ih ?_
    simp only [update_apply, h]

theorem foldl_shift_update {moved : List (Nat × Nat × MoveDirectionality)} {x : σ}
    (h : ∀ m ∈ moved, m.1 ≠ i ∧ m.2.1 ≠ i) :
    moved.foldl (shift z uni) (update c i x) = update (moved.foldl (shift z uni) c) i x := by
  induction moved generalizing c with
  | nil => rfl
  | cons m moved ih =>
    obtain ⟨h1, h2⟩ := h m (mem_cons_self ..)
    have hm : shift z uni (update c i x) m = update (shift z uni c m) i x := by
      unfold shift
      split
      · simp only [swapAt, update_of_ne h1, update_of_ne h2]
        rw [update_comm h1.symm, update_comm h2.symm]
      · simp only [update_of_ne h1, update_of_ne h2]
        rw [update_comm h2.symm, update_comm h1.symm]
    rw [foldl_cons, foldl_cons, hm, ih fun m hm => h m (mem_cons_of_mem _ hm)]

/-! ### The batch and the update it records -/

theorem rowState_clear (hi : i < b.reqIds.length) :
    rowState z ({ b with builder := u }.clearRow i id) s = update (rowState z b s) i z := by
  funext j
  have hrow : ({ b with builder := u }.clearRow i id).rowId = update b.rowId i none := rowId_clearRow hi
  simp only [rowState, hrow, update_apply]
  split <;> rfl

theorem settle_remove : settle z f { u with removed := u.removed ++ [i] } c = update (settle z f u c) i z := by
  funext j
  by_cases hj : j = i
  · simp [settle, hj]
  · simp [settle, hj]

theorem rowState_fill {v : σ} (hb : b.Inverse) (hrow : row ≤ b.reqIds.length)
    (hnew : b.reqIdToIndex.get? request.reqId = none) :
    rowState z ({ b with builder := u }.fillRow row request) (update s request.reqId v)
      = update (rowState z b s) row v := by
  funext j
  have hid : ({ b with builder := u }.fillRow row request).rowId
      = update b.rowId row (some request.reqId) := rowId_fillRow request hrow
  simp only [rowState, hid]
  by_cases hj : j = row
  · simp [hj]
  · rw [update_of_ne hj, update_of_ne hj]
    unfold rowState
    cases hr : b.rowId j with
    | none => rfl
    | some id =>
      have hne : id ≠ request.reqId := by
        rintro rfl
        rw [(hb _ j).mpr hr] at hnew
        cases hnew
      exact update_of_ne hne v s

theorem settle_add (hf : b.Fresh row u) : settle z f { u with added := u.added ++ [(row, request)] } c
      = update (settle z f b.builder c) row (f request) := by
  funext j
  by_cases hj : j = row
  · have : row ∉ u.removed := fun hm => ((hf.mem row).mp hm).2 rfl
    simp [settle, hj, this]
  · have : j ∈ u.removed ↔ j ∈ b.builder.removed := by simp [hf.mem j, hj]
    simp [settle, this, hf.added, hj]

/-- During `condense` the moves recorded so far stay clear of the remaining holes. -/
structure Follows (uni : σ → σ → σ) (z : σ) (f : CachedRequestState → σ) (c : Nat → σ) (s : RequestId → σ)
    (b : InputBatch) : Prop where
  eq : replay z uni f b.builder c = rowState z b s
  added : ∀ e ∈ b.builder.added, e.1 ∉ b.builder.removed
  clear : ∀ m ∈ b.builder.moved, m.1 ∉ b.builder.removed ∧ m.2.1 ∉ b.builder.removed

/-- One round of `condense`: the hole shows its stale state again, and the move covers it. -/
theorem Follows.move {last empty : Nat} (h : Follows uni z f c s b) (hp : b.isPoolingModel = false) (hg : b.Gapped last)
    (hm : b.Moves last empty id) (hu : uni (s id) (c empty) = s id) :
    Follows uni z f c s (b.moveDown last empty id) := by
  have hmoved : (b.moveDown last empty id).builder.moved = b.builder.moved ++ [(last, empty, .unidirectional)] := by
    simp [moveDown, hp]
  have hadded : (b.moveDown last empty id).builder.added = b.builder.added := b.builder.popRemoved_rest.1
  have hlast : last ∉ b.builder.removed := fun hr => by
    have := (hg.hole last hg.inside).mpr (.inl hr)
    rw [hm.source] at this
    cases this
  have hsettle : settle z f (b.moveDown last empty id).builder c
      = update (settle z f b.builder c) empty (c empty) := by
    funext j
    unfold settle
    rw [hadded]
    by_cases hj : j = empty
    · subst hj
      rw [if_neg fun hr => ((hm.left j).mp hr).2 rfl, update_self,
        foldl_update_of_not_mem fun e he hej => h.added e he (hej ▸ hm.hole)]
    · rw [update_of_ne hj]
      simp [hm.left j, hj]
  refine ⟨?_, ?_, ?_⟩
  · unfold replay
    rw [hmoved, hsettle, foldl_append, foldl_shift_update fun m hmem =>
      ⟨fun he => (h.clear m hmem).1 (he ▸ hm.hole), fun he => (h.clear m hmem).2 (he ▸ hm.hole)⟩]
    have heq := h.eq
    unfold replay at heq
    rw [heq, foldl_cons, foldl_nil]
    have hne : last ≠ empty := Nat.ne_of_gt hm.lt
    have hs : rowState z b s last = s id := by simp [rowState, hm.source]
    simp only [shift, update_self, update_of_ne hne, update_idem, hs, hu]
    funext j
    simp only [rowState, hm.rowId, update_apply]
    split
    · rfl
    · split <;> rfl
  · intro e he hr
    exact h.added e (hadded ▸ he) ((hm.left e.1).mp hr).1
  · intro m hmem
    rw [hmoved] at hmem
    simp only [hm.left, not_and]
    rcases mem_append.mp hmem with hmem | hmem
    · exact ⟨fun hr => absurd hr (h.clear m hmem).1, fun hr => absurd hr (h.clear m hmem).2⟩
    · rw [mem_singleton.mp hmem]
      exact ⟨fun hr => absurd hr hlast, fun _ => by simp⟩

/-- What the ghost of a consumer does at a call: a new request comes with its own state. -/
def onAdd (f : CachedRequestState → σ) (op : Op) (s : RequestId → σ) : RequestId → σ :=
  match op with
  | .add request => update s request.reqId (f request)
  | _ => s

/-- A move into a row that still has a state must cover it. -/
def Covered (uni : σ → σ → σ) (c : Nat → σ) (s : RequestId → σ) (b : InputBatch) : Op → Prop
  | .condense => ∀ i ∈ b.builder.removed, i < b.numReqs → ∀ j id, b.numReqs ≤ j → b.rowId j = some id →
    uni (s id) (c i) = s id
  | _ => True

theorem Covered.overwrite (c : Nat → σ) (s : RequestId → σ) (b : InputBatch) (op : Op) :
    Covered (fun x _ => x) c s b op := by
  cases op <;> simp [Covered]

theorem replay_step {p p' : Phase} {op : Op} (h : Shape p b) (hnext : op.next p = some p') (hop : op.Promised b)
    (hp : b.isPoolingModel = false) (hc : Covered uni c s b op) (hrun : b.step op = .ok b') (hne : op ≠ .refresh)
    (heq : replay z uni f b.builder c = rowState z b s) :
    replay z uni f b'.builder c = rowState z b' (onAdd f op s) := by
  cases op with
  | remove id =>
    obtain ⟨hq, -⟩ := Op.phases hnext
    have hI := h.indexed hq
    obtain ⟨-, rfl⟩ | ⟨i, hi, -, rfl⟩ := removeRequest_cases hrun
    · exact heq
    · have hmoved := h.moved hq
      unfold replay at heq
      rw [hmoved] at heq
      show replay z uni f { b.builder with removed := b.builder.removed ++ [i] } c = _
      unfold replay
      rw [hmoved, rowState_clear (lt_of_rowId ((hI.inverse id i).mp hi)), foldl_nil, settle_remove]
      exact congrArg (update · i z) heq
  | add request =>
    obtain ⟨hq, -⟩ := Op.phases hnext
    obtain ⟨-, rfl⟩ := addRequest_cases hrun
    have hf := (h.indexed hq).fresh
    have hmoved := h.moved hq
    have hsome : request.samplingParams.isSome = true := by simpa [hp] using hop.2
    unfold replay at heq
    rw [hmoved] at heq
    rw [onAdd, rowState_fill (h.indexed hq).inverse hf.le hop.1]
    simp only [hsome, if_true]
    show replay z uni f { b.builder.popRemoved.2 with
      added := b.builder.popRemoved.2.added ++ [(b.nextRow, request)] } c = _
    unfold replay
    rw [hf.moved, hmoved, foldl_nil, settle_add hf]
    exact congrArg (update · _ _) heq
  | updateSpec id spec =>
    obtain ⟨i, -, h2⟩ := bind_eq_ok.mp hrun
    cases h2
    exact heq
  | condense =>
    obtain ⟨hq, -⟩ := Op.phases hnext
    refine (condense_inv (P := fun b => (Follows uni z f c s b ∧ b.isPoolingModel = false) ∧
      Covered uni c s b .condense) (h.indexed hq) hrun ⟨⟨⟨heq, h.added, by simp [h.moved hq]⟩, hp⟩, hc⟩ ?_
        ?_ ?_).1.1.1.eq
    · rintro l hl ⟨⟨hF, hp⟩, hc⟩
      refine ⟨⟨⟨?_, fun e he hm => hF.added e he (hl.mem_iff.mp hm), fun m hm =>
        ⟨fun hr => (hF.clear m hm).1 (hl.mem_iff.mp hr), fun hr => (hF.clear m hm).2 (hl.mem_iff.mp hr)⟩⟩, hp⟩,
        fun i hi => hc i (hl.mem_iff.mp hi)⟩
      have hs : settle z f { b.builder with removed := l, isRemovedSorted := true } c = settle z f b.builder c := by
        funext i
        simp [settle, hl.mem_iff]
      exact (congrArg (fun w => b.builder.moved.foldl (shift z uni) w) hs).trans hF.eq
    · rintro b last empty id hg hm ⟨⟨hF, hp⟩, hc⟩
      refine ⟨⟨hF.move hp hg hm (hc empty hm.hole hm.below last id hm.above hm.source), hp⟩, ?_⟩
      intro i hi hlt j id' hj hid
      rw [hm.numReqs hg.inverse] at hlt hj
      refine hc i ((hm.left i).mp hi).1 hlt j id' hj ?_
      rw [hm.rowId, update_apply] at hid
      split at hid
      · cases hid
      · rwa [update_of_ne (by have := hm.below; omega)] at hid
    · rintro b n hrow ⟨⟨hF, hp⟩, hc⟩
      have hs : rowState z (b.cut n) s = rowState z b s := by
        unfold rowState
        rw [hrow]
      refine ⟨⟨⟨hF.eq.trans hs.symm, hF.added, hF.clear⟩, hp⟩, ?_⟩
      intro i hi hlt j id hj hid
      exact hc i hi hlt j id hj (hrow ▸ hid)
  | swap i1 i2 =>
    obtain ⟨hq, -⟩ := Op.phases hnext
    obtain ⟨old1, old2, h1, h2, rfl⟩ := swapStates_cases (h.dense hq).inverse hrun
    have hb : (b.swapRows i1 i2 old1 old2 i1 i2).builder =
        { b.builder with moved := b.builder.moved ++ [(i1, i2, .swap)] } := by
      simp [swapRows, hp]
    rw [hb]
    unfold replay at heq ⊢
    show (b.builder.moved ++ [(i1, i2, MoveDirectionality.swap)]).foldl (shift z uni) (settle z f b.builder c) = _
    rw [foldl_append, heq, foldl_cons, foldl_nil]
    funext j
    simp only [shift, onAdd, rowState, rowId_swapRows (lt_of_rowId h1) (lt_of_rowId h2), swapAt_eq]
  | refresh => exact absurd rfl hne
  | sample k =>
    cases hrun
    exact heq

theorem replay_nil (hr : u.removed = []) (ha : u.added = []) (hm : u.moved = []) (uni : σ → σ → σ)
    (f : CachedRequestState → σ) (c : Nat → σ) : replay z uni f u c = c := by
  funext i
  simp [replay, settle, hr, ha, hm]

theorem foldl_erase (l : List Nat) (c : Nat → σ) :
    l.foldl (fun c i => update c i z) c = fun i => if i ∈ l then z else c i := by
  induction l generalizing c with
  | nil => simp
  | cons a l ih =>
    rw [foldl_cons, ih]
    funext i
    by_cases hi : i = a <;> simp [hi]

theorem foldl_view {D α : Type} (view : D → Nat → σ) (I : D → Prop) (g : D → α → D)
    (g' : (Nat → σ) → α → Nat → σ) {l : List α}
    (h : ∀ a ∈ l, ∀ d, I d → view (g d a) = g' (view d) a ∧ I (g d a)) {d : D} (hd : I d) :
    view (l.foldl g d) = l.foldl g' (view d) ∧ I (l.foldl g d) := by
  induction l generalizing d with
  | nil => exact ⟨rfl, hd⟩
  | cons a l ih =>
    obtain ⟨hv, hI⟩ := h a (mem_cons_self ..) d hd
    rw [foldl_cons, foldl_cons, ← hv]
    exact ih (fun a ha => h a (mem_cons_of_mem _ ha)) hI

/-- When the additions leave nothing, there is nothing to remove or move. -/
theorem replay_zero (hz : uni z z = z)
    (hc : u.added.foldl (fun c e => update c e.1 (f e.2)) c = fun _ => z) : replay z uni f u c = fun _ => z := by
  have hs : settle z f u c = fun _ => z := by
    funext i
    rw [settle, hc, ite_self]
  rw [replay, hs]
  induction u.moved with
  | nil => rfl
  | cons m moved ih =>
    have hm : shift z uni (fun _ => z) m = fun _ => z := by
      funext i
      obtain ⟨i1, i2, dir⟩ := m
      cases dir <;> simp [shift, swapAt, update_apply, hz]
    rw [foldl_cons, hm, ih]

end Replay

/-- `get_and_reset`: no update if nothing happened. -/
def BatchUpdateBuilder.getAndReset (u : BatchUpdateBuilder) : Option BatchUpdateBuilder :=
  if u.removed = [] ∧ u.moved = [] ∧ u.added = [] then none else some u

theorem BatchUpdateBuilder.replay_of_none {σ : Type} {z : σ} {uni : σ → σ → σ} {f : CachedRequestState → σ}
    {u : BatchUpdateBuilder} (h : u.getAndReset = none) (c : Nat → σ) : replay z uni f u c = c := by
  unfold getAndReset at h
  split at h
  · next he => exact replay_nil he.1 he.2.2 he.2.1 _ _ _
  · cases h

theorem BatchUpdateBuilder.eq_of_getAndReset {u u' : BatchUpdateBuilder} (h : u.getAndReset = some u') : u = u' := by
  unfold getAndReset at h
  split at h
  · cases h
  · exact Option.some.inj h

/-! ### Min-p -/

section MinP
variable {F : Type} [Zero F] [DecidableEq F]

/-- `n` rows are non-zero. -/
def Counts (c : Nat → F) (n : Int) : Prop := ∃ S : Finset Nat, (∀ i, i ∈ S ↔ c i ≠ 0) ∧ n = S.card

theorem Counts.update {c : Nat → F} {n : Int} (h : Counts c n) (i : Nat) (v : F) :
    Counts (update c i v) (n + (if v ≠ 0 then 1 else 0) - if c i ≠ 0 then 1 else 0) := by
  obtain ⟨S, hS, rfl⟩ := h
  by_cases hv : v = 0
  · refine ⟨S.erase i, fun j => ?_, ?_⟩
    · by_cases hj : j = i
      · simp [hj, hv]
      · simp [hj, hS]
    · by_cases hi : c i = 0
      · rw [Finset.erase_eq_of_notMem (by simp [hS, hi])]
        simp [hv, hi]
      · have hm : i ∈ S := (hS i).mpr hi
        have := Finset.card_erase_add_one hm
        simp [hv, hi]
        omega
  · refine ⟨insert i S, fun j => ?_, ?_⟩
    · by_cases hj : j = i
      · simp [hj, hv]
      · simp [hj, hS]
    · by_cases hi : c i = 0
      · have := Finset.card_insert_of_notMem (by simp [hS, hi] : i ∉ S)
        simp [hv, hi]
        omega
      · rw [Finset.insert_eq_of_mem ((hS i).mpr hi)]
        simp [hv, hi]

/-- An array of floats: how it stores a parameter, and how one of its values compares with a parameter. -/
structure FloatStore (F : Type) [Zero F] where
  store : Rat → F
  differs : F → Rat → Bool
  store_zero : store 0 = 0
  eq_of_not_differs : ∀ {x p}, differs x p = false → x = store p

structure MinPLogitsProcessor (F : Type) [Zero F] where
  minPCount : Int := 0
  minPCpu : Nat → F := fun _ => 0

namespace MinPLogitsProcessor

def minPOf (request : CachedRequestState) : Rat := (request.samplingParams.map (·.minP)).getD 0

variable (fs : FloatStore F)

def add (p : MinPLogitsProcessor F) (e : Nat × CachedRequestState) : MinPLogitsProcessor F :=
  let minP := minPOf e.2
  let minPBefore := p.minPCpu e.1
  if fs.differs minPBefore minP then
    { minPCpu := update p.minPCpu e.1 (fs.store minP)
      minPCount := if minP ≠ 0 ∧ minPBefore = 0 then p.minPCount + 1
        else if minP = 0 ∧ minPBefore ≠ 0 then p.minPCount - 1 else p.minPCount }
  else p

def remove (p : MinPLogitsProcessor F) (index : Nat) : MinPLogitsProcessor F :=
  if p.minPCpu index ≠ 0 then
    { minPCpu := update p.minPCpu index 0, minPCount := p.minPCount - 1 }
  else p

def move (p : MinPLogitsProcessor F) (m : Nat × Nat × MoveDirectionality) : MinPLogitsProcessor F :=
  let minPA := p.minPCpu m.1
  let minPB := p.minPCpu m.2.1
  let written := if minPA ≠ minPB then update p.minPCpu m.2.1 minPA else p.minPCpu
  match m.2.2 with
  | .swap => { p with minPCpu := if minPA ≠ minPB then update written m.1 minPB else written }
  | .unidirectional =>
    { minPCpu := if minPA ≠ 0 then update written m.1 0 else written
      minPCount := if minPB ≠ 0 then p.minPCount - 1 else p.minPCount }

def updateState (p : MinPLogitsProcessor F) : Option BatchUpdateBuilder → MinPLogitsProcessor F
  | none => p
  | some u =>
    let p := u.added.foldl (add fs) p
    if p.minPCount ≠ 0 then u.moved.foldl move (u.removed.foldl remove p) else p

/-- What the array holds for a request. -/
def stored (request : CachedRequestState) : F := fs.store (minPOf request)

/-- The array keeps a min-p other than zero apart from zero. -/
def Keeps (request : CachedRequestState) : Prop := stored fs request = 0 → minPOf request = 0

def Counted (p : MinPLogitsProcessor F) : Prop := Counts p.minPCpu p.minPCount

variable {fs} {p : MinPLogitsProcessor F}

omit [DecidableEq F] in
theorem Keeps.eq_zero_iff {request : CachedRequestState} (h : Keeps fs request) :
    minPOf request = 0 ↔ stored fs request = 0 :=
  ⟨fun h0 => by rw [stored, h0, fs.store_zero], h⟩

theorem add_view (h : p.Counted) {e : Nat × CachedRequestState} (he : Keeps fs e.2) :
    (p.add fs e).minPCpu = update p.minPCpu e.1 (stored fs e.2) ∧ (p.add fs e).Counted := by
  have hc := Counts.update h e.1 (stored fs e.2)
  unfold add Counted
  simp only [ne_eq, he.eq_zero_iff]
  split
  · refine ⟨rfl, ?_⟩
    show Counts (update p.minPCpu e.1 (stored fs e.2)) _
    convert hc using 1
    by_cases hv : stored fs e.2 = 0 <;> by_cases hb : p.minPCpu e.1 = 0 <;> simp [hv, hb]
  · next heq =>
    rw [← show p.minPCpu e.1 = stored fs e.2 from fs.eq_of_not_differs (Bool.not_eq_true _ ▸ heq), update_eq_self]
    exact ⟨rfl, h⟩

theorem remove_view (h : p.Counted) (i : Nat) : (p.remove i).minPCpu = update p.minPCpu i 0 ∧ (p.remove i).Counted := by
  have hc := Counts.update h i 0
  unfold remove Counted
  split
  · next hne =>
    refine ⟨rfl, ?_⟩
    simpa [hne] using hc
  · next heq =>
    rw [not_not] at heq
    rw [← heq, update_eq_self]
    exact ⟨rfl, h⟩

theorem move_view (h : p.Counted) (m : Nat × Nat × MoveDirectionality) (hm : m.2.2 = .unidirectional → m.1 ≠ m.2.1) :
    (p.move m).minPCpu = shift 0 (fun x _ => x) p.minPCpu m ∧ (p.move m).Counted := by
  obtain ⟨i, j, dir⟩ := m
  have hw : (if p.minPCpu i ≠ p.minPCpu j then update p.minPCpu j (p.minPCpu i) else p.minPCpu)
      = update p.minPCpu j (p.minPCpu i) := by
    split
    · rfl
    · next heq => rw [not_not] at heq; rw [heq, update_eq_self]
  unfold move Counted
  dsimp only
  rw [hw]
  cases dir with
  | swap =>
    have hv : (if p.minPCpu i ≠ p.minPCpu j then update (update p.minPCpu j (p.minPCpu i)) i
        (p.minPCpu j) else update p.minPCpu j (p.minPCpu i)) = swapAt p.minPCpu i j := by
      split
      · next hne => exact update_comm (fun he => hne (by rw [he])) _ _ _
      · next heq =>
        rw [not_not] at heq
        rw [swapAt, ← heq, update_eq_self]
    refine ⟨hv, ?_⟩
    rw [hv, swapAt]
    by_cases hij : i = j
    · subst hij
      simpa [Counted] using h
    · have hc := (Counts.update h i (p.minPCpu j)).update j (p.minPCpu i)
      rw [update_of_ne (Ne.symm hij)] at hc
      convert hc using 1
      by_cases hi : p.minPCpu i = 0 <;> by_cases hj : p.minPCpu j = 0 <;> simp [hi, hj]
  | unidirectional =>
    have hij := hm rfl
    have hc := (Counts.update h j (p.minPCpu i)).update i 0
    rw [update_of_ne hij] at hc
    have hv : (if p.minPCpu i ≠ 0 then update (update p.minPCpu j (p.minPCpu i)) i 0
        else update p.minPCpu j (p.minPCpu i))
        = update (update p.minPCpu j (p.minPCpu i)) i 0 := by
      split
      · rfl
      · next heq =>
        rw [not_not] at heq
        rw [update_comm hij.symm, ← heq, update_eq_self]
    refine ⟨hv, ?_⟩
    rw [hv]
    convert hc using 1
    by_cases hi : p.minPCpu i = 0 <;> by_cases hj : p.minPCpu j = 0 <;> simp [hi, hj]

theorem updateState_view (h : p.Counted) {u : BatchUpdateBuilder} (hk : ∀ e ∈ u.added, Keeps fs e.2)
    (hu : ∀ m ∈ u.moved, m.2.2 = .unidirectional → m.1 ≠ m.2.1) :
    (p.updateState fs u.getAndReset).minPCpu = replay 0 (fun x _ => x) (stored fs) u p.minPCpu ∧
      (p.updateState fs u.getAndReset).Counted := by
  cases hg : u.getAndReset with
  | none => exact ⟨(u.replay_of_none hg p.minPCpu).symm, h⟩
  | some u' =>
    obtain rfl := BatchUpdateBuilder.eq_of_getAndReset hg
    obtain ⟨ha, hca⟩ := foldl_view minPCpu Counted (add fs) (fun c e => update c e.1 (stored fs e.2)) (l := u.added)
      (fun e he p hp => add_view hp (hk e he)) h
    obtain ⟨hr, hcr⟩ := foldl_view minPCpu Counted remove (fun c i => update c i 0) (l := u.removed)
      (fun i _ p hp => remove_view hp i) hca
    obtain ⟨hm, hcm⟩ := foldl_view minPCpu Counted move (shift 0 fun x _ => x) (l := u.moved)
      (fun m hmem p hp => move_view hp m (hu m hmem)) hcr
    rw [foldl_erase, ha] at hr
    rw [hr] at hm
    simp only [updateState]
    split
    · exact ⟨hm, hcm⟩
    · next hz =>
      obtain ⟨S, hS, hn⟩ := hca
      rw [not_not] at hz
      rw [hz] at hn
      have hS0 : S = ∅ := Finset.card_eq_zero.mp (by omega)
      have hzero : (u.added.foldl (add fs) p).minPCpu = fun _ => 0 := by
        funext i
        by_contra hi
        have := (hS i).mpr hi
        simp [hS0] at this
      rw [replay_zero rfl (ha.symm.trans hzero)]
      exact ⟨hzero, S, hS, by omega⟩

end MinPLogitsProcessor

end MinP

/-! ### Dictionaries of row states -/

section Dicts

variable {T : Type}

/-- One move of `process_dict_updates`. -/
def moveEntries (d : Dict Nat T) (m : Nat × Nat × MoveDirectionality) : Dict Nat T :=
  let aEntry := d.get? m.1
  let bEntry := (d.erase m.1).get? m.2.1
  let moved := setSome ((d.erase m.1).erase m.2.1) m.2.1 aEntry
  match m.2.2 with
  | .swap => setSome moved m.1 bEntry
  | .unidirectional => moved

def processDictUpdates (newState : CachedRequestState → Option T) (reqEntries : Dict Nat T) :
    Option BatchUpdateBuilder → Dict Nat T
  | none => reqEntries
  | some u =>
    let d := u.added.foldl (fun d e => assign d e.1 (newState e.2)) reqEntries
    if d.entries = [] then d
    else u.moved.foldl moveEntries (u.removed.foldl (fun d i => d.erase i) d)

/-- A swap is as above, but a move keeps the destination's state when the source has none. -/
def syncMove (d : Dict Nat T) (m : Nat × Nat × MoveDirectionality) : Dict Nat T :=
  match m.2.2 with
  | .swap => moveEntries d m
  | .unidirectional => moveEntry d m.1 m.2.1

def syncBatch (initState : CachedRequestState → Option T) (state : Dict Nat T) : Option BatchUpdateBuilder → Dict Nat T
  | none => state
  | some u =>
    let d := u.removed.foldl (fun d i => d.erase i) state
    u.moved.foldl syncMove (u.added.foldl (fun d e => assign d e.1 (initState e.2)) d)

theorem moveEntries_view (d : Dict Nat T) (m : Nat × Nat × MoveDirectionality)
    (hm : m.2.2 = .unidirectional → m.1 ≠ m.2.1) : (moveEntries d m).get? = shift none (fun x _ => x) d.get? m := by
  obtain ⟨i, j, dir⟩ := m
  funext k
  cases dir with
  | swap =>
    by_cases hki : k = i
    · by_cases hij : i = j
      · simp_all [moveEntries, shift, swapAt]
      · simp_all [moveEntries, shift, swapAt, Ne.symm hij]
    · by_cases hkj : k = j <;> simp_all [moveEntries, shift, swapAt]
  | unidirectional =>
    have hij := hm rfl
    by_cases hki : k = i
    · simp_all [moveEntries, shift]
    · by_cases hkj : k = j <;> simp_all [moveEntries, shift]

theorem syncMove_view (d : Dict Nat T) (m : Nat × Nat × MoveDirectionality)
    (hm : m.2.2 = .unidirectional → m.1 ≠ m.2.1) : (syncMove d m).get? = shift none Option.or d.get? m := by
  obtain ⟨i, j, dir⟩ := m
  cases dir with
  | swap => exact moveEntries_view d _ hm
  | unidirectional =>
    have hij := hm rfl
    funext k
    by_cases hki : k = i
    · simp_all [syncMove, moveEntry, shift]
    · by_cases hkj : k = j <;> simp_all [syncMove, moveEntry, shift]

variable {f : CachedRequestState → Option T} {u : BatchUpdateBuilder}

theorem foldl_assign (d : Dict Nat T) (l : List (Nat × CachedRequestState)) :
    (l.foldl (fun d e => assign d e.1 (f e.2)) d).get?
      = l.foldl (fun c e => update c e.1 (f e.2)) d.get? :=
  (foldl_view Dict.get? (fun _ => True) _ _ (fun e _ d _ => ⟨by funext j; simp [update_apply], trivial⟩)
    trivial).1

theorem foldl_dict_erase (d : Dict Nat T) (l : List Nat) :
    (l.foldl (fun d i => d.erase i) d).get? = fun i => if i ∈ l then none else d.get? i := by
  rw [← foldl_erase]
  exact (foldl_view Dict.get? (fun _ => True) _ _
    (fun e _ d _ => ⟨by funext j; simp [update_apply], trivial⟩) trivial).1

theorem processDictUpdates_view (d : Dict Nat T) (hu : ∀ m ∈ u.moved, m.2.2 = .unidirectional → m.1 ≠ m.2.1) :
    (processDictUpdates f d u.getAndReset).get? = replay none (fun x _ => x) f u d.get? := by
  cases hg : u.getAndReset with
  | none => exact (u.replay_of_none hg d.get?).symm
  | some u' =>
    obtain rfl := BatchUpdateBuilder.eq_of_getAndReset hg
    have ha := foldl_assign (f := f) d u.added
    simp only [processDictUpdates]
    split
    · next hnil =>
      have hnone : (u.added.foldl (fun d e => assign d e.1 (f e.2)) d).get? = fun _ => none := by
        funext i
        simp [Dict.get?, hnil]
      rw [replay_zero rfl (ha.symm.trans hnone), hnone]
    · rw [(foldl_view Dict.get? (fun _ => True) _ _
        (fun m hm d _ => ⟨moveEntries_view d m (hu m hm), trivial⟩) trivial).1, foldl_dict_erase, ha]
      rfl

theorem syncBatch_view (d : Dict Nat T) (hu : ∀ m ∈ u.moved, m.2.2 = .unidirectional → m.1 ≠ m.2.1)
    (hdisj : ∀ e ∈ u.added, e.1 ∉ u.removed) :
    (syncBatch f d u.getAndReset).get? = replay none Option.or f u d.get? := by
  cases hg : u.getAndReset with
  | none => exact (u.replay_of_none hg d.get?).symm
  | some u' =>
    obtain rfl := BatchUpdateBuilder.eq_of_getAndReset hg
    -- additions and removals name different rows, so their order does not matter
    have hs : (u.added.foldl (fun d e => assign d e.1 (f e.2)) (u.removed.foldl (fun d i => d.erase i) d)).get?
        = settle none f u d.get? := by
      rw [foldl_assign, foldl_dict_erase]
      funext i
      unfold settle
      split
      · next hi => rw [foldl_update_of_not_mem fun e he hei => hdisj e he (hei ▸ hi), if_pos hi]
      · next hi => exact foldl_update_congr (by rw [if_neg hi])
    simp only [syncBatch]
    rw [(foldl_view Dict.get? (fun _ => True) _ _
      (fun m hm d _ => ⟨syncMove_view d m (hu m hm), trivial⟩) trivial).1, hs]
    rfl

/-- A loop over the kept states that replaces or drops each of them. -/
def advanceRows (g : Nat → T → Option T) (d : Dict Nat T) : Dict Nat T :=
  d.keys.foldl (fun d i => assign d i ((d.get? i).bind (g i))) d

theorem get?_advanceRows (g : Nat → T → Option T) (d : Dict Nat T) (i : Nat) :
    (advanceRows g d).get? i = (d.get? i).bind (g i) := by
  have hfold : ∀ (l : List Nat) (d : Dict Nat T), l.Nodup →
      (l.foldl (fun d i => assign d i ((d.get? i).bind (g i))) d).get? i
        = if i ∈ l then (d.get? i).bind (g i) else d.get? i := by
    intro l
    induction l with
    | nil => simp
    | cons a l ih =>
      intro d hnd
      obtain ⟨ha, hl⟩ := nodup_cons.mp hnd
      rw [foldl_cons, ih _ hl]
      by_cases hi : i = a
      · simp [hi, ha]
      · simp [hi]
  rw [advanceRows, hfold d.keys d d.nodup]
  split
  · rfl
  · next hi =>
    have : d.get? i = none := by
      rw [Dict.mem_keys] at hi
      simpa using hi
    rw [this]
    rfl

end Dicts

/-! ### All three beside the batch -/

/-- The consumers of an update, and for comparison what each request's own state is. -/
structure Samplers (F T U : Type) [Zero F] where
  minP : MinPLogitsProcessor F := {}
  reqEntries : Dict Nat T := Dict.empty
  budgets : Dict Nat U := Dict.empty
  ownMinP : RequestId → F := fun _ => 0
  ownEntry : RequestId → Option T := fun _ => none
  ownBudget : RequestId → Option U := fun _ => none

namespace Samplers

variable {F T U : Type} [Zero F] [DecidableEq F] (fs : FloatStore F)
  (newState : CachedRequestState → Option T) (initStateEntry : CachedRequestState → Nat → U)
  (advance : Nat → Nat → T → Option T) (think : Nat → Nat → U → U)

/-- The state a request starts with in the holder: none without a `thinking_token_budget`. -/
def budgetOf (request : CachedRequestState) : Option U :=
  (request.samplingParams.bind (·.thinkingTokenBudget)).map (initStateEntry request)

/-- A request's own state moves on with the row that shows it. -/
def moveOn {S : Type} (b : InputBatch) (own : RequestId → Option S) (g : Nat → S → Option S) :
    RequestId → Option S := fun id =>
  match b.reqIdToIndex.get? id with
  | some i => (own id).bind (g i)
  | none => own id

/-- A request starts with the state its parameters ask for; the `k`-th forward pass moves every kept
state on, by `advance k` and `think k` of its row. -/
def onOp (b : InputBatch) (op : Op) (g : Samplers F T U) : Samplers F T U :=
  match op with
  | .add _ => { g with
      ownMinP := onAdd (MinPLogitsProcessor.stored fs) op g.ownMinP
      ownEntry := onAdd newState op g.ownEntry
      ownBudget := onAdd (budgetOf initStateEntry) op g.ownBudget }
  | .refresh => { g with
      minP := g.minP.updateState fs b.builder.getAndReset
      reqEntries := processDictUpdates newState g.reqEntries b.builder.getAndReset
      budgets := syncBatch (budgetOf initStateEntry) g.budgets b.builder.getAndReset }
  | .sample k => { g with
      reqEntries := advanceRows (advance k) g.reqEntries
      budgets := advanceRows (fun i x => some (think k i x)) g.budgets
      ownEntry := moveOn b g.ownEntry (advance k)
      ownBudget := moveOn b g.ownBudget fun i x => some (think k i x) }
  | _ => g

/-- No row that `condense` fills still has a budget state, unless every request it may move has one. -/
def NoStaleBudget (g : Samplers F T U) (b : InputBatch) : Op → Prop
  | .condense => ∀ i ∈ b.builder.removed, i < b.numReqs → g.budgets.get? i ≠ none →
    ∀ j id, b.numReqs ≤ j → b.rowId j = some id → g.ownBudget id ≠ none
  | _ => True

/-- No min-p that an update brings is lost when it is stored. -/
def NoUnderflow (b : InputBatch) : Op → Prop
  | .refresh => ∀ e ∈ b.builder.added, MinPLogitsProcessor.Keeps fs e.2
  | _ => True

/-- What each consumer keeps, once the recorded update is replayed, is the rows' own state. -/
structure Kept (g : Samplers F T U) (b : InputBatch) : Prop where
  sampling : b.isPoolingModel = false
  counted : g.minP.Counted
  minP : replay 0 (fun x _ => x) (MinPLogitsProcessor.stored fs) b.builder g.minP.minPCpu = rowState 0 b g.ownMinP
  entry : replay none (fun x _ => x) newState b.builder g.reqEntries.get? = rowState none b g.ownEntry
  budget : replay none Option.or (budgetOf initStateEntry) b.builder g.budgets.get? = rowState none b g.ownBudget

variable {fs newState initStateEntry advance think} {b b' : InputBatch} {g : Samplers F T U} {op : Op}

omit [DecidableEq F] in
theorem NoStaleBudget.covered (h : g.NoStaleBudget b op) : Covered Option.or g.budgets.get? g.ownBudget b op := by
  cases op with
  | condense =>
    intro i hi hlt j id hj hid
    by_cases hs : g.budgets.get? i = none
    · rw [hs]
      cases g.ownBudget id <;> rfl
    · cases ho : g.ownBudget id with
      | none => exact absurd ho (h i hi hlt hs j id hj hid)
      | some x => rfl
  | _ => trivial

theorem replay_moveOn {S : Type} {uni : Option S → Option S → Option S} {f : CachedRequestState → Option S}
    {d : Dict Nat S} {own : RequestId → Option S} (h : Shape .idle b) (G : Nat → S → Option S)
    (heq : replay none uni f b.builder d.get? = rowState none b own) :
    replay none uni f b.builder (advanceRows G d).get? = rowState none b (moveOn b own G) := by
  have hadded := h.fresh (.inl rfl)
  have hmoved := h.moved (by simp)
  funext i
  have hi := congrFun heq i
  simp only [replay, settle, hadded, hmoved, h.idle rfl, not_mem_nil, if_false, foldl_nil, rowState] at hi ⊢
  rw [get?_advanceRows, hi]
  cases hr : b.rowId i with
  | none => rfl
  | some id => simp [moveOn, ((h.indexed (by simp)).inverse id i).mpr hr]

theorem Kept.step {p p' : Phase} (hg : Kept fs newState initStateEntry g b) (h : Shape p b)
    (hnext : op.next p = some p') (hop : op.Promised b) (hc : g.NoStaleBudget b op) (hk : NoUnderflow fs b op)
    (hrun : b.step op = .ok b') :
    Kept fs newState initStateEntry (onOp fs newState initStateEntry advance think b op g) b' := by
  have hpool : b'.isPoolingModel = false := by
    rw [h.config hnext hrun]
    exact hg.sampling
  by_cases hr : op = .refresh
  · subst hr
    cases hrun
    have hmin := MinPLogitsProcessor.updateState_view hg.counted hk h.apart
    refine ⟨hpool, hmin.2, ?_, ?_, ?_⟩
    · rw [replay_nil rfl rfl rfl]
      exact hmin.1.trans hg.minP
    · rw [replay_nil rfl rfl rfl]
      exact (processDictUpdates_view _ h.apart).trans hg.entry
    · rw [replay_nil rfl rfl rfl]
      exact (syncBatch_view _ h.apart h.added).trans hg.budget
  · have h1 := replay_step h hnext hop hg.sampling (Covered.overwrite ..) hrun hr hg.minP
    have h2 := replay_step h hnext hop hg.sampling (Covered.overwrite ..) hrun hr hg.entry
    have h3 := replay_step h hnext hop hg.sampling hc.covered hrun hr hg.budget
    cases op with
    | refresh => exact absurd rfl hr
    | sample k =>
      cases hrun
      obtain ⟨rfl, -⟩ := Op.phases hnext
      exact ⟨hpool, hg.counted, h1, replay_moveOn h _ hg.entry, replay_moveOn h _ hg.budget⟩
    | _ => exact ⟨hpool, hg.counted, h1, h2, h3⟩

/-- After every step of a sampling model, each row's kept state is that of the request now there, there
is none above, and `min_p_count` counts the rows with a min-p, as long as `condense` never fills a row
whose budget state is still kept with a request that has none, and no min-p is stored as zero. -/
theorem row_states_follow (config : BatchConfig) (hp : config.isPoolingModel = false) (steps : List WorkerStep)
    {g : Samplers F T U} {b : InputBatch}
    (hrun : runWith (onOp fs newState initStateEntry advance think) (steps.flatMap WorkerStep.ops)
      ({}, { config with }) = .ok (g, b))
    (hal : Along (onOp fs newState initStateEntry advance think)
      (fun g b op => op.Promised b ∧ g.NoStaleBudget b op ∧ NoUnderflow fs b op)
      (steps.flatMap WorkerStep.ops) ({}, { config with })) :
    (∀ i < b.numReqs, ∃ id, b.reqIds[i]? = some (some id) ∧ g.minP.minPCpu i = g.ownMinP id ∧
      g.reqEntries.get? i = g.ownEntry id ∧ g.budgets.get? i = g.ownBudget id) ∧
    (∀ i, b.numReqs ≤ i → g.minP.minPCpu i = 0 ∧ g.reqEntries.get? i = none ∧ g.budgets.get? i = none) ∧
    g.minP.minPCount = (List.range b.numReqs).countP fun i => g.minP.minPCpu i ≠ 0 := by
  have hinit : Kept fs newState initStateEntry ({} : Samplers F T U) { config with } := by
    refine ⟨hp, ⟨∅, by simp, rfl⟩, ?_, ?_, ?_⟩ <;> (funext i; simp [replay, settle, rowState, rowId])
  obtain ⟨hS, hK⟩ := runWith_inv (P := Kept fs newState initStateEntry) (fun _ _ _ h => h.1)
    (fun p p' g b b' op hS hn hC hr hK => hK.step hS hn hC.1 hC.2.1 hC.2.2 hr) (phases_steps steps)
    ⟨Shape.empty config, hinit⟩ hrun hal
  have hr := hS.idle rfl
  have ha := hS.fresh (.inl rfl)
  have hm := hS.moved (by simp)
  have hmin : ∀ i, g.minP.minPCpu i = rowState 0 b g.ownMinP i := fun i =>
    congrFun ((replay_nil hr ha hm _ _ _).symm.trans hK.minP) i
  have hentry : ∀ i, g.reqEntries.get? i = rowState none b g.ownEntry i := fun i =>
    congrFun ((replay_nil hr ha hm _ _ _).symm.trans hK.entry) i
  have hbudget : ∀ i, g.budgets.get? i = rowState none b g.ownBudget i := fun i =>
    congrFun ((replay_nil hr ha hm _ _ _).symm.trans hK.budget) i
  have habove : ∀ i, b.numReqs ≤ i → b.rowId i = none := fun i hi => by
    by_contra hne
    have := (hS.rowId_iff i).mpr (Option.ne_none_iff_exists'.mp hne)
    dsimp only at this
    omega
  refine ⟨fun i hi => ?_, fun i hi => ?_, ?_⟩
  · obtain ⟨id, hid⟩ := (hS.rowId_iff i).mp hi
    exact ⟨id, getElem?_of_rowId hid, by simp [hmin, rowState, hid], by simp [hentry, rowState, hid],
      by simp [hbudget, rowState, hid]⟩
  · exact ⟨by simp [hmin, rowState, habove i hi], by simp [hentry, rowState, habove i hi],
      by simp [hbudget, rowState, habove i hi]⟩
  · obtain ⟨S, hSm, hcard⟩ := hK.counted
    have hset : S = ((List.range b.numReqs).filter fun i => g.minP.minPCpu i ≠ 0).toFinset := by
      ext i
      rw [hSm i, mem_toFinset, mem_filter, mem_range]
      simp only [decide_eq_true_eq]
      refine ⟨fun hne => ⟨?_, hne⟩, fun h => h.2⟩
      by_contra hi
      exact hne (by simp [hmin, rowState, habove i (by omega)])
    rw [hcard, hset, toFinset_card_of_nodup (nodup_range.filter _), countP_eq_length_filter]

/-! ### Requests with a min-p and perhaps a thinking budget -/

/-- An array of eighths. -/
def eighths : FloatStore Nat where
  store p := p.num.toNat * 8 / p.den
  differs x p := x ≠ p.num.toNat * 8 / p.den
  store_zero := rfl
  eq_of_not_differs h := by simpa using h

def asking (reqId : RequestId) (minP : Rat) (budget : Option Nat) : CachedRequestState :=
  oneToken reqId { minP := minP, thinkingTokenBudget := budget }

/-- The states of the batch after some steps; `new_state` asks for nothing. -/
def runAsking (steps : List WorkerStep) : Except Err (Samplers Nat Unit Nat × InputBatch) :=
  runWith (onOp eighths (fun _ => none) (fun _ n => n) (fun _ _ x => some x) fun _ _ n => n)
    (steps.flatMap WorkerStep.ops) ({}, { maxNumReqs := 2, vocabSize := 9 })

/-- Beside a request that stays, one with a budget takes the row of one that left without. -/
theorem row_states_follow_budget : ∃ (g : Samplers Nat Unit Nat) (b : InputBatch),
    runAsking [{ edits := [.inl (asking 0 1 none), .inl (asking 1 0 (some 7))] },
      { removals := [0], edits := [.inl (asking 2 (mkRat 1 2) (some 5))] }] = .ok (g, b) ∧
    b.reqIds = [some 2, some 1] ∧ g.ownBudget 2 = some 5 ∧ g.ownBudget 1 = some 7 ∧
    (∀ i < 2, ∃ id, b.reqIds[i]? = some (some id) ∧ g.minP.minPCpu i = g.ownMinP id ∧
      g.reqEntries.get? i = g.ownEntry id ∧ g.budgets.get? i = g.ownBudget id) := by
  refine ⟨_, _, rfl, rfl, rfl, rfl, (row_states_follow { maxNumReqs := 2, vocabSize := 9 } rfl
    [{ edits := [.inl (asking 0 1 none), .inl (asking 1 0 (some 7))] },
      { removals := [0], edits := [.inl (asking 2 (mkRat 1 2) (some 5))] }]
    (show runAsking _ = _ from rfl) ?_).1⟩
  refine .cons rfl ⟨⟨rfl, rfl⟩, trivial, trivial⟩ (.cons rfl ⟨⟨rfl, rfl⟩, trivial, trivial⟩
    (.cons rfl ⟨trivial, nofun, trivial⟩ (.cons rfl ⟨trivial, trivial, ?_⟩ (.cons rfl ⟨trivial, trivial, trivial⟩
      (.cons rfl ⟨trivial, trivial, trivial⟩ (.cons rfl ⟨⟨rfl, rfl⟩, trivial, trivial⟩
        (.cons rfl ⟨trivial, nofun, trivial⟩ (.cons rfl ⟨trivial, trivial, ?_⟩
          (.cons rfl ⟨trivial, trivial, trivial⟩ trivial)))))))))
  · show ∀ e ∈ [(0, asking 0 1 none), (1, asking 1 0 (some 7))], MinPLogitsProcessor.Keeps eighths e.2
    exact forall_mem_cons.2 ⟨(by cases ·), forall_mem_singleton.2 fun _ => rfl⟩
  · show ∀ e ∈ [(0, asking 2 (mkRat 1 2) (some 5))], MinPLogitsProcessor.Keeps eighths e.2
    exact forall_mem_singleton.2 fun h => by cases h

/-- A move into the row of a request with a budget leaves that budget to a request without one. -/
theorem budget_outlives_request : ∃ (g : Samplers Nat Unit Nat) (b : InputBatch),
    runAsking [{ edits := [.inl (asking 0 1 (some 5)), .inl (asking 1 1 none)] }, { removals := [0] }] = .ok (g, b) ∧
      b.reqIds = [some 1] ∧ g.ownBudget 1 = none ∧ g.budgets.get? 0 = some 5 :=
  ⟨_, _, rfl, rfl, rfl, rfl⟩

/-- A min-p that is stored as zero is counted all the same. -/
theorem underflow_counted : ∃ (g : Samplers Nat Unit Nat) (b : InputBatch),
    runAsking [{ edits := [.inl (asking 0 1 none)] }, { removals := [0], edits := [.inl (asking 1 (mkRat 1 9) none)] }]
      = .ok (g, b) ∧ b.reqIds = [some 1] ∧ g.minP.minPCpu 0 = 0 ∧ g.minP.minPCount = 1 :=
  ⟨_, _, rfl, rfl, rfl, rfl⟩

end Samplers

end VllmCore.Worker
