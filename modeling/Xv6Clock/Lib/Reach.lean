/-
  File:      Xv6Clock/Lib/Reach.lean
  Subject:   Reachable states of a labelled transition system, and the rule for invariants.
-/
import Mathlib.Logic.Basic

namespace Xv6Clock.Lib

variable {σ ε : Type*}

/-- **The states reached from `s0`** by steps of the system. -/
inductive Reach (step : σ → ε → σ → Prop) (s0 : σ) : σ → Prop where
  | start : Reach step s0 s0
  | step {s s' : σ} {e : ε} (h : Reach step s0 s) (hs : step s e s') : Reach step s0 s'

variable {step : σ → ε → σ → Prop} {s0 s : σ}

/-- What holds at the start and is kept by every step holds in every reachable state. -/
theorem Reach.inv {I : σ → Prop} (h : Reach step s0 s) (h0 : I s0)
    (hstep : ∀ {s s' : σ} {e : ε}, I s → step s e s' → I s') : I s := by
  induction h with
  | start => exact h0
  | step _ hs ih => exact hstep ih hs

/-- A list of actions of a system whose steps are computed. -/
def exec {α : Type*} (f : σ → α → Option σ) (s : σ) : List α → Option σ
  | [] => some s
  | a :: as =>
    match f s a with
    | some s' => exec f s' as
    | none => none

/-- What a list of actions reaches is reachable. -/
theorem Reach.exec {α : Type*} {f : σ → α → Option σ}
    (hf : ∀ {s s' : σ} {a : α}, f s a = some s' → ∃ e, step s e s') {as : List α} :
    ∀ {s s' : σ}, Reach step s0 s → Lib.exec f s as = some s' → Reach step s0 s' := by
  induction as with
  | nil =>
    intro s s' h he
    cases he
    exact h
  | cons a as ih =>
    intro s s' h he
    unfold Lib.exec at he
    split at he
    · rename_i s1 h1
      obtain ⟨e, hs⟩ := hf h1
      exact ih (.step h hs) he
    · cases he

end Xv6Clock.Lib
