/-
  File:      Xv6Clock/Lib/Refine.lean
  Subject:   One computation refining another: both return related values, or both fail with the
             same error.
-/
import Xv6Clock.Lib.Result

namespace Xv6Clock.Lib

universe u v w

variable {ε : Type u} {α β γ δ : Type v} {R : α → β → Prop} {S : γ → δ → Prop}

/-- **The outcomes agree up to `R`.** -/
def Agree (R : α → β → Prop) : Except ε α → Except ε β → Prop
  | .ok a, .ok b => R a b
  | .error e, .error e' => e = e'
  | _, _ => False

theorem agree_ok {a : α} {b : β} (h : R a b) : Agree R (.ok a : Except ε α) (.ok b) := h

theorem agree_error (e : ε) : Agree R (.error e) (.error e) := rfl

/-- Agreement goes through a sequence of two computations. -/
theorem Agree.bind {x : Except ε α} {y : Except ε β} {f : α → Except ε γ} {g : β → Except ε δ}
    (h : Agree R x y) (hf : ∀ a b, R a b → Agree S (f a) (g b)) :
    Agree S (x >>= f) (y >>= g) := by
  cases x with
  | error e =>
    cases y with
    | error e' => exact h
    | ok b => exact h.elim
  | ok a =>
    cases y with
    | error e' => exact h.elim
    | ok b => exact hf a b h

/-- Agreement up to a relation is agreement up to a weaker one. -/
theorem Agree.mono {S : α → β → Prop} {x : Except ε α} {y : Except ε β} (h : Agree R x y)
    (hRS : ∀ a b, R a b → S a b) : Agree S x y := by
  cases x with
  | error e =>
    cases y with
    | error e' => exact h
    | ok b => exact h.elim
  | ok a =>
    cases y with
    | error e' => exact h.elim
    | ok b => exact hRS a b h

/-- What the refined computation returns, the refining one returns up to `R`. -/
theorem Agree.of_ok {x : Except ε α} {b : β} (h : Agree R x (.ok b)) :
    ∃ a, x = .ok a ∧ R a b := by
  cases x with
  | error e => exact h.elim
  | ok a => exact ⟨a, rfl, h⟩

/-- Where the refined computation fails, the refining one fails with the same error. -/
theorem Agree.of_error {x : Except ε α} {e : ε} (h : Agree R x (.error e : Except ε β)) :
    x = .error e := by
  cases x with
  | error e' => exact congrArg Except.error h
  | ok a => exact h.elim

/-- What the refining computation returns, the refined one returns up to `R`. -/
theorem Agree.ok_of {a : α} {y : Except ε β} (h : Agree R (.ok a) y) :
    ∃ b, y = .ok b ∧ R a b := by
  cases y with
  | error e => exact h.elim
  | ok b => exact ⟨b, rfl, h⟩

end Xv6Clock.Lib
