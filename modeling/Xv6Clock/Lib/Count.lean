/-
  File:      Xv6Clock/Lib/Count.lean
  Subject:   Counting by finite sums: what one changed entry does to a total, and what a total
             of one says about its summands.

  An array of `n` entries is a function on `Nat` read below `n`. A resource is counted by summing
  a weight over the entries; changing entry `i` moves the total by exactly the difference of the
  two weights (`sum_update_entry`). A total that is not zero has a summand that is not zero
  (`exists_of_sum_pos`), and two different entries weigh at most the total (`add_le_sum`).
-/
import Mathlib.Algebra.BigOperators.Group.Finset.Basic
import Mathlib.Algebra.Order.BigOperators.Group.Finset

namespace Xv6Clock.Lib

open Finset

variable {α : Type*}

/-- **One changed entry.** -/
theorem sum_update_entry (F : Nat → α → Nat) (g : Nat → α) {n i : Nat} (hi : i < n) (x : α) :
    ∑ j ∈ range n, F j (Function.update g i x j) + F i (g i) =
      ∑ j ∈ range n, F j (g j) + F i x := by
  have hm : i ∈ range n := mem_range.mpr hi
  rw [← Finset.add_sum_erase _ _ hm, ← Finset.add_sum_erase (range n) (fun j => F j (g j)) hm]
  have he : ∑ j ∈ (range n).erase i, F j (Function.update g i x j) =
      ∑ j ∈ (range n).erase i, F j (g j) := by
    refine sum_congr rfl fun j hj => ?_
    rw [Function.update_of_ne (ne_of_mem_erase hj)]
  rw [he, Function.update_self]
  omega

/-- An entry's weight is part of the total. -/
theorem le_sum (F : Nat → Nat) {n i : Nat} (hi : i < n) : F i ≤ ∑ j ∈ range n, F j :=
  single_le_sum (fun _ _ => Nat.zero_le _) (mem_range.mpr hi)

/-- Two different entries' weights are part of the total together. -/
theorem add_le_sum (F : Nat → Nat) {n i j : Nat} (hi : i < n) (hj : j < n) (hij : i ≠ j) :
    F i + F j ≤ ∑ l ∈ range n, F l := by
  have hm : i ∈ range n := mem_range.mpr hi
  rw [← Finset.add_sum_erase _ _ hm]
  have hj' : j ∈ (range n).erase i := mem_erase.mpr ⟨hij.symm, mem_range.mpr hj⟩
  have := single_le_sum (f := F) (fun _ _ => Nat.zero_le _) hj'
  omega

/-- A total that is not zero has a summand that is not zero. -/
theorem exists_of_sum_pos (F : Nat → Nat) {n : Nat} (h : 0 < ∑ j ∈ range n, F j) :
    ∃ i, i < n ∧ 0 < F i := by
  by_contra hne
  push Not at hne
  have : ∑ j ∈ range n, F j = 0 :=
    sum_eq_zero fun j hj => Nat.le_zero.mp (hne j (mem_range.mp hj))
  omega

/-- Weights of one at most, of which no two are not zero. -/
theorem sum_le_one (F : Nat → Nat) {n : Nat} (h1 : ∀ i, i < n → F i ≤ 1)
    (h2 : ∀ i j, i < n → j < n → 0 < F i → 0 < F j → i = j) : ∑ j ∈ range n, F j ≤ 1 := by
  by_cases h0 : ∑ j ∈ range n, F j = 0
  · omega
  · obtain ⟨i, hi, hpos⟩ := exists_of_sum_pos F (Nat.pos_of_ne_zero h0)
    have hrest : ∑ j ∈ (range n).erase i, F j = 0 := sum_eq_zero fun j hj => by
      obtain ⟨hne, hmem⟩ := mem_erase.mp hj
      by_contra hj0
      exact hne (h2 j i (mem_range.mp hmem) hi (Nat.pos_of_ne_zero hj0) hpos)
    have hle := h1 i hi
    rw [← Finset.add_sum_erase _ _ (mem_range.mpr hi), hrest]
    omega

/-- How many of the first `m` numbers are below `n`. -/
theorem sum_lt (m n : Nat) : ∑ d ∈ range m, (if d < n then 1 else 0) = min m n := by
  induction m with
  | zero => simp
  | succ m ih =>
    rw [sum_range_succ, ih]
    split <;> omega

end Xv6Clock.Lib
