/-
  File:      Xv6Clock/Lib/Result.lean
  Subject:   Peeling a computation that may fail: from the outcome of `x >>= f` back to the
             outcomes of its parts.
-/
import Mathlib.Logic.Basic

namespace Xv6Clock.Lib

universe u v

variable {ε : Type u} {α β : Type v} {x : Except ε α} {f : α → Except ε β}

@[simp] theorem ok_bind (a : α) : (Except.ok a >>= f) = f a := rfl

@[simp] theorem error_bind (e : ε) : (Except.error e >>= f) = .error e := rfl

/-- **A computation that returned: its first part returned, and so did the rest.** -/
theorem bind_eq_ok {b : β} : (x >>= f) = .ok b ↔ ∃ a, x = .ok a ∧ f a = .ok b := by
  cases x with
  | error e => simp
  | ok a => simp

/-- **A computation that failed: in its first part, or after it.** -/
theorem bind_eq_error {e : ε} :
    (x >>= f) = .error e ↔ x = .error e ∨ ∃ a, x = .ok a ∧ f a = .error e := by
  cases x with
  | error e' => simp
  | ok a => simp

/-- The second part does not fail with `e`. -/
theorem bind_ne_error {e : ε} (h : ∀ a, f a ≠ .error e) :
    (x >>= f) ≠ .error e ↔ x ≠ .error e := by
  refine not_congr (bind_eq_error.trans ⟨fun hx => ?_, .inl⟩)
  rcases hx with hx | ⟨a, -, ha⟩
  · exact hx
  · exact absurd ha (h a)

/-- The errors a computation can end with all satisfy `P`. -/
def Errs (P : ε → Prop) (x : Except ε α) : Prop := ∀ e, x = .error e → P e

section
variable {P : ε → Prop}

theorem errs_ok (a : α) : Errs P (Except.ok a : Except ε α) := fun e h => by cases h

theorem errs_error {e : ε} (h : P e) : Errs P (Except.error e : Except ε α) := fun e' h' => by
  cases h'
  exact h

/-- Both parts of a computation keep to `P`. -/
theorem Errs.bind (hx : Errs P x) (hf : ∀ a, x = .ok a → Errs P (f a)) : Errs P (x >>= f) := by
  intro e h
  rcases bind_eq_error.mp h with h1 | ⟨a, h1, h2⟩
  · exact hx e h1
  · exact hf a h1 e h2

/-- A computation that returns. -/
theorem Errs.of_total (h : ∃ a, x = .ok a) : Errs P x := by
  obtain ⟨a, rfl⟩ := h
  exact errs_ok a

end

/-- What the computation returns satisfies `Q`, and what it fails with satisfies `P`. -/
def Meets (Q : α → Prop) (P : ε → Prop) : Except ε α → Prop
  | .ok a => Q a
  | .error e => P e

theorem Meets.of_ok {Q : α → Prop} {P : ε → Prop} {a : α} (h : Meets Q P x) (hx : x = .ok a) :
    Q a := by
  subst hx
  exact h

theorem Meets.ok_of {Q : α → Prop} {P : ε → Prop} (h : Meets Q P x)
    (hP : ∀ e, x = .error e → ¬ P e) : ∃ a, x = .ok a ∧ Q a := by
  cases x with
  | error e => exact absurd h (hP e rfl)
  | ok a => exact ⟨a, rfl, h⟩

theorem Meets.mono {Q Q' : α → Prop} {P : ε → Prop} (h : Meets Q P x) (hQ : ∀ a, Q a → Q' a) :
    Meets Q' P x := by
  cases x with
  | error e => exact h
  | ok a => exact hQ a h

/-- The second part starts from what the first one returns. -/
theorem Meets.bind {Q : α → Prop} {Q' : β → Prop} {P : ε → Prop} (h : Meets Q P x)
    (hf : ∀ a, Q a → Meets Q' P (f a)) : Meets Q' P (x >>= f) := by
  cases x with
  | error e => exact h
  | ok a => exact hf a h

/-- The computation returns something that passes the test. -/
def okAnd (r : Except ε α) (test : α → Bool) : Bool :=
  match r with
  | .ok a => test a
  | .error _ => false

theorem okAnd_iff {r : Except ε α} {test : α → Bool} :
    okAnd r test = true ↔ ∃ a, r = .ok a ∧ test a = true := by
  cases r with
  | error e => simp [okAnd]
  | ok a => simp [okAnd]

end Xv6Clock.Lib
