/-
  File:      Xv6Clock/Lib/Prog.lean
  Subject:   Programs of atomic commands, and what one owes while others run in between.

  A program is a tree of commands and answers. Each process has a private state that only its own
  commands change; `Rules` says what a command needs of it and how an answer changes it. `wp` is
  the weakest precondition over the private state alone: whatever other processes do between two
  commands, the answers cover it.
-/
import Mathlib.Logic.Basic

namespace Xv6Clock.Lib

/-- A program: `R c` are the answers to command `c`. -/
inductive Prog (C : Type) (R : C → Type) (α : Type) where
  | ret (a : α)
  | cmd (c : C) (k : R c → Prog C R α)

variable {C : Type} {R : C → Type} {α β L : Type}

def Prog.bind (p : Prog C R α) (f : α → Prog C R β) : Prog C R β :=
  match p with
  | .ret a => f a
  | .cmd c k => .cmd c fun r => (k r).bind f

instance : Monad (Prog C R) where
  pure := .ret
  bind := .bind

/-- One command. -/
def Prog.op (c : C) : Prog C R (R c) := .cmd c .ret

/-- What commands need of the private state, and what it becomes with an answer. -/
structure Rules (C : Type) (R : C → Type) (L : Type) where
  need : C → L → Prop
  eff : (c : C) → L → R c → L → Prop

/-- **The weakest precondition.** -/
def wp (S : Rules C R L) (Q : α → L → Prop) : Prog C R α → L → Prop
  | .ret a, l => Q a l
  | .cmd c k, l => S.need c l ∧ ∀ r l', S.eff c l r l' → wp S Q (k r) l'

variable {S : Rules C R L} {Q Q' : α → L → Prop} {l : L}

@[simp] theorem wp_pure (a : α) : wp S Q (pure a : Prog C R α) l ↔ Q a l := Iff.rfl

theorem wp_bind (p : Prog C R α) (f : α → Prog C R β) {Q : β → L → Prop} :
    wp S Q (p >>= f) l ↔ wp S (fun a => wp S Q (f a)) p l := by
  induction p generalizing l with
  | ret a => exact Iff.rfl
  | cmd c k ih => exact and_congr_right fun _ => forall_congr' fun r =>
      forall_congr' fun l' => imp_congr_right fun _ => ih r

/-- One command or function after the other. -/
theorem wp_seq {p : Prog C R α} {f : α → Prog C R β} {Q : β → L → Prop}
    (h : wp S (fun a => wp S Q (f a)) p l) : wp S Q (p >>= f) l :=
  (wp_bind p f).mpr h

theorem wp_mono (h : ∀ a l, Q a l → Q' a l) {p : Prog C R α} :
    ∀ {l}, wp S Q p l → wp S Q' p l := by
  induction p with
  | ret a => exact h a _
  | cmd c k ih => exact fun hw => ⟨hw.1, fun r l' he => ih r (hw.2 r l' he)⟩

end Xv6Clock.Lib
