import Mathlib

/-! # Computations that may raise

Inversion rules for the `Except` monad, and the loop rules for a fold over it: what every step keeps,
the loop keeps. -/

universe u v w

namespace Except
variable {ε : Type u} {α β : Type v}

theorem bind_eq_ok {x : Except ε α} {f : α → Except ε β} {b : β} :
    (x >>= f) = .ok b ↔ ∃ a, x = .ok a ∧ f a = .ok b := by
  cases x with
  | error e => simp [bind, Except.bind]
  | ok a => simp [bind, Except.bind]

@[simp] theorem ok_bind (a : α) (f : α → Except ε β) : (Except.ok a >>= f) = f a := rfl

theorem pure_eq_ok {a b : α} : (pure a : Except ε α) = .ok b ↔ a = b := by
  simp [pure, Except.pure]

/-- Raise `e` unless `c` holds. -/
def ensure (c : Prop) [Decidable c] (e : ε) : Except ε PUnit :=
  if c then .ok ⟨⟩ else .error e

@[simp] theorem ensure_eq_ok {c : Prop} [Decidable c] {e : ε} {a : PUnit} :
    (ensure c e : Except ε PUnit) = .ok a ↔ c := by
  unfold ensure; split <;> simp_all

/-- The inversion rules of a `do` block. -/
theorem do_eq_ok :
    (∀ {ε : Type u} {α β : Type v} {x : Except ε α} {f : α → Except ε β} {b : β},
      (x >>= f) = .ok b ↔ ∃ a, x = .ok a ∧ f a = .ok b) ∧
    (∀ {ε : Type u} {α : Type v} {a b : α}, (pure a : Except ε α) = .ok b ↔ a = b) ∧
    ∀ {ε : Type u} {c : Prop} [Decidable c] {e : ε} {a : PUnit.{v + 1}}, ensure c e = .ok a ↔ c :=
  ⟨bind_eq_ok, pure_eq_ok, ensure_eq_ok⟩

theorem ensure_pos {c : Prop} [Decidable c] {e : ε} (h : c) : (ensure c e : Except ε PUnit) = .ok ⟨⟩ := if_pos h

end Except

namespace List
variable {ε : Type u} {α : Type w} {β : Type v} {l : List α} {f : β → α → Except ε β} {l' : List β} {R : α → β → Prop}
  {P : β → Prop}

/-- The loop rule: an invariant of every step is an invariant of the loop. -/
theorem foldlM_inv {b b' : β} (hstep : ∀ a ∈ l, ∀ x y, P x → f x a = .ok y → P y) (h : l.foldlM f b = .ok b')
    (hb : P b) :
    P b' := by
  induction l generalizing b with
  | nil =>
    cases Except.pure_eq_ok.1 h
    exact hb
  | cons a l ih =>
    rw [foldlM_cons, Except.bind_eq_ok] at h
    obtain ⟨c, hc, h⟩ := h
    exact ih (fun a ha => hstep a (mem_cons_of_mem _ ha)) h (hstep a (mem_cons_self ..) b c hb hc)

/-- Every step of the loop is made in a state that satisfies `K`. -/
def Along (f : β → α → Except ε β) (K : β → α → Prop) : List α → β → Prop
  | [], _ => True
  | a :: l, b => K b a ∧ ∀ c, f b a = .ok c → Along f K l c

/-- The loop rule for steps that keep the invariant under a condition. -/
theorem Along.inv {K : β → α → Prop} {b b' : β} (hK : Along f K l b)
    (hstep : ∀ x a y, P x → K x a → f x a = .ok y → P y) (h : l.foldlM f b = .ok b') (hb : P b) : P b' := by
  induction l generalizing b with
  | nil =>
    cases Except.pure_eq_ok.1 h
    exact hb
  | cons a l ih =>
    rw [foldlM_cons, Except.bind_eq_ok] at h
    obtain ⟨c, hc, h⟩ := h
    exact ih (hK.2 c hc) h (hstep b a c hb hK.1 hc)

theorem Forall₂.exists_right (h : Forall₂ R l l') {a : α} (ha : a ∈ l) : ∃ b ∈ l', R a b := by
  induction h with
  | nil => cases ha
  | @cons x y l l' hxy _ ih =>
    rcases mem_cons.1 ha with rfl | ha
    · exact ⟨y, mem_cons_self .., hxy⟩
    · obtain ⟨b, hb, hab⟩ := ih ha
      exact ⟨b, mem_cons_of_mem _ hb, hab⟩

theorem Forall₂.exists_left (h : Forall₂ R l l') {b : β} (hb : b ∈ l') : ∃ a ∈ l, R a b :=
  h.flip.exists_right hb

theorem mapM_eq_ok {f : α → Except ε β} : l.mapM f = .ok l' ↔ Forall₂ (fun a b => f a = .ok b) l l' := by
  induction l generalizing l' with
  | nil => rw [mapM_nil, Except.pure_eq_ok, forall₂_nil_left_iff, eq_comm]
  | cons a l ih =>
    simp only [mapM_cons, Except.bind_eq_ok, Except.pure_eq_ok, forall₂_cons_left_iff]
    constructor
    · rintro ⟨b, hb, bs, hbs, rfl⟩
      exact ⟨b, bs, hb, ih.1 hbs, rfl⟩
    · rintro ⟨b, bs, hb, hbs, rfl⟩
      exact ⟨b, hb, bs, ih.2 hbs, rfl⟩

end List
