/-
  File:      Xv6Clock/Lib/Copy.lean
  Subject:   Copying a range of a memory cell by cell, from its first cell on or from its last one,
             when the two ranges may overlap.

  * `copyUp_chain`: what the upward copy leaves in a cell, in terms of what it leaves below;
  * `copyUp_eq_moved`: the upward copy is a move exactly where the overlap already repeats;
  * `copyDown_eq_moved`: the downward copy is a move when the target is above the source.
-/
import Mathlib.Logic.Function.Basic

namespace Xv6Clock.Lib

universe u

variable {α : Type u}

/-- The `n` cells at `s` are copied to `d`, the first one first. -/
def copyUp : Nat → (Nat → α) → Nat → Nat → Nat → α
  | 0, m, _, _ => m
  | n + 1, m, d, s => copyUp n (Function.update m d (m s)) (d + 1) (s + 1)

/-- The `n` cells at `s` are copied to `d`, the last one first. -/
def copyDown : Nat → (Nat → α) → Nat → Nat → Nat → α
  | 0, m, _, _ => m
  | n + 1, m, d, s => copyDown n (Function.update m (d + n) (m (s + n))) d s

/-- The `n` cells at `d` get what the cells at `s` had. -/
def moved (m : Nat → α) (d s n : Nat) : Nat → α := fun a =>
  if d ≤ a ∧ a < d + n then m (s + (a - d)) else m a

theorem moved_in (m : Nat → α) (s : Nat) {d n j : Nat} (h : j < n) :
    moved m d s n (d + j) = m (s + j) := by
  unfold moved
  rw [if_pos ⟨by omega, by omega⟩, Nat.add_sub_cancel_left]

theorem moved_out (m : Nat → α) (s : Nat) {d n a : Nat} (h : a < d ∨ d + n ≤ a) :
    moved m d s n a = m a := if_neg fun ha => by omega

/-- Two memories that agree outside the target, cell by cell in the target. -/
theorem eq_moved {f m : Nat → α} {d s n : Nat} (hout : ∀ a, a < d ∨ d + n ≤ a → f a = m a)
    (hin : ∀ j, j < n → f (d + j) = m (s + j)) : f = moved m d s n := by
  funext a
  by_cases ha : d ≤ a ∧ a < d + n
  · obtain ⟨j, rfl⟩ := Nat.exists_eq_add_of_le ha.1
    rw [moved_in m s (by omega)]
    exact hin j (by omega)
  · rw [moved_out m s (by omega)]
    exact hout a (by omega)

/-! ## Upward -/

theorem copyUp_out {n : Nat} : ∀ {m : Nat → α} {d s a : Nat}, a < d ∨ d + n ≤ a →
    copyUp n m d s a = m a := by
  induction n with
  | zero => exact fun _ => rfl
  | succ n ih =>
    intro m d s a ha
    unfold copyUp
    rw [ih (by omega), Function.update_of_ne (by omega)]

/-- **A cell of the target** gets what the source cell holds when its turn comes: the final value,
    if the source cell is a target cell that has been written, and the old one otherwise. -/
theorem copyUp_chain {n : Nat} : ∀ {m : Nat → α} {d s j : Nat}, j < n →
    copyUp n m d s (d + j) = if d ≤ s + j ∧ s + j < d + j then copyUp n m d s (s + j)
      else m (s + j) := by
  induction n with
  | zero => exact fun h => absurd h (Nat.not_lt_zero _)
  | succ n ih =>
    intro m d s j hj
    -- the first cell is not written again
    have hfirst : copyUp (n + 1) m d s d = m s := by
      unfold copyUp
      rw [copyUp_out (.inl (Nat.lt_succ_self d)), Function.update_self]
    cases j with
    | zero =>
      rw [Nat.add_zero, Nat.add_zero, if_neg (by omega)]
      exact hfirst
    | succ j =>
      by_cases hd : s + (j + 1) = d
      · rw [hd, if_pos ⟨by omega, by omega⟩, hfirst]
        unfold copyUp
        rw [show d + (j + 1) = d + 1 + j by omega, ih (by omega), if_neg (by omega),
          show s + 1 + j = d by omega, Function.update_self]
      · unfold copyUp
        rw [show d + (j + 1) = d + 1 + j by omega, show s + (j + 1) = s + 1 + j by omega,
          ih (by omega)]
        by_cases hw : d + 1 ≤ s + 1 + j ∧ s + 1 + j < d + 1 + j
        · rw [if_pos hw, if_pos (by omega)]
        · rw [if_neg hw, if_neg (by omega), Function.update_of_ne (by omega)]

/-- **The upward copy is a move exactly when** every cell in the overlap of a source with a target
    above it has what is to be copied into it. -/
theorem copyUp_eq_moved {m : Nat → α} {d s n : Nat} : copyUp n m d s = moved m d s n ↔
    (s < d → ∀ j, d + j < s + n → m (d + j) = m (s + j)) := by
  refine ⟨fun h hlt j hj => ?_, fun h => eq_moved (fun a ha => copyUp_out ha) fun j => ?_⟩
  · -- the cell `d + j` of the source is copied after it has become `s + j`
    obtain ⟨e, rfl⟩ := Nat.exists_eq_add_of_lt hlt
    have hchain := copyUp_chain (m := m) (d := s + e + 1) (s := s) (j := e + 1 + j)
      (n := n) (by omega)
    rw [if_pos ⟨by omega, by omega⟩, h, moved_in m s (by omega),
      show s + (e + 1 + j) = s + e + 1 + j by omega, moved_in m s (by omega)] at hchain
    exact hchain
  · -- from below, since the chain goes down
    induction j using Nat.strongRecOn with
    | ind j ih =>
      intro hj
      rw [copyUp_chain hj]
      split
      · rename_i hw
        obtain ⟨i, hi⟩ := Nat.exists_eq_add_of_le hw.1
        rw [hi, ih i (by omega) (by omega), h (by omega) i (by omega)]
      · rfl

/-! ## Downward -/

theorem copyDown_eq_moved {n : Nat} : ∀ {m : Nat → α} {d s : Nat}, s ≤ d →
    copyDown n m d s = moved m d s n := by
  induction n with
  | zero =>
    intro m d s _
    exact eq_moved (fun _ _ => rfl) fun j hj => absurd hj (Nat.not_lt_zero j)
  | succ n ih =>
    intro m d s h
    unfold copyDown
    rw [ih h]
    refine eq_moved (fun a ha => ?_) fun j hj => ?_
    · rw [moved_out _ s (by omega), Function.update_of_ne (by omega)]
    · by_cases hlast : j = n
      · rw [hlast, moved_out _ s (.inr (Nat.le_refl _)), Function.update_self]
      · rw [moved_in _ s (by omega), Function.update_of_ne (by omega)]

end Xv6Clock.Lib
