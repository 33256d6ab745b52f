/-
  File:      Xv6Clock/Lib/Front.lean
  Subject:   An array in use up to a count, read as a list: appending, overwriting, and taking an
             entry out by shifting the rest down.

  The array is a function on `Nat`; `front a n` lists its first `n` entries. `shift` is the usual
  loop `a[j] = a[j + 1]` that closes the gap and puts a filler into the last place.
-/
import Mathlib.Data.List.Basic
import Mathlib.Logic.Function.Basic

namespace Xv6Clock.Lib

variable {α : Type*}

/-- The first `n` entries. -/
def front (a : Nat → α) (n : Nat) : List α := (List.range n).map a

@[simp] theorem length_front (a : Nat → α) (n : Nat) : (front a n).length = n := by
  simp [front]

theorem front_succ (a : Nat → α) (n : Nat) : front a (n + 1) = front a n ++ [a n] := by
  simp [front, List.range_succ]

theorem getElem?_front {a : Nat → α} {n i : Nat} (h : i < n) : (front a n)[i]? = some (a i) := by
  simp [front, h]

theorem mem_front {a : Nat → α} {n : Nat} {x : α} : x ∈ front a n ↔ ∃ i, i < n ∧ a i = x := by
  simp [front]

/-- Arrays that agree below the count have the same entries. -/
theorem front_congr {a b : Nat → α} {n : Nat} (h : ∀ i, i < n → a i = b i) :
    front a n = front b n :=
  List.map_congr_left fun i hi => h i (List.mem_range.mp hi)

/-- Writing just behind the entries appends. -/
theorem front_update_end (a : Nat → α) (n : Nat) (x : α) :
    front (Function.update a n x) (n + 1) = front a n ++ [x] := by
  rw [front_succ, Function.update_self]
  congr 1
  exact front_congr fun i hi => Function.update_of_ne (by omega) _ _

/-- Writing inside overwrites. -/
theorem front_update (a : Nat → α) {n i : Nat} (h : i < n) (x : α) :
    front (Function.update a i x) n = (front a n).set i x := by
  apply List.ext_getElem?
  intro j
  by_cases hj : j < n
  · rw [getElem?_front hj, List.getElem?_set, length_front, getElem?_front hj]
    by_cases hij : i = j
    · subst hij
      simp [h]
    · rw [if_neg hij, Function.update_of_ne (Ne.symm hij)]
  · have h1 : (front (Function.update a i x) n)[j]? = none := by
      rw [List.getElem?_eq_none_iff, length_front]
      omega
    have h2 : ((front a n).set i x)[j]? = none := by
      rw [List.getElem?_eq_none_iff, List.length_set, length_front]
      omega
    rw [h1, h2]

/-- `for (; j < last; j++) a[j] = a[j + 1]`, and the filler into `a[last]`; `r` rounds are left. -/
def shift (filler : α) : Nat → (Nat → α) → Nat → Nat → α
  | 0, a, j => Function.update a j filler
  | r + 1, a, j => shift filler r (Function.update a j (a (j + 1))) (j + 1)

theorem shift_apply (filler : α) {r : Nat} : ∀ (a : Nat → α) (j u : Nat),
    shift filler r a j u = if u < j then a u else
      if u < j + r then a (u + 1) else if u = j + r then filler else a u := by
  induction r with
  | zero =>
    intro a j u
    rw [shift, Function.update_apply]
    split_ifs <;> first | rfl | omega
  | succ r ih =>
    intro a j u
    rw [shift, ih]
    simp only [Function.update_apply]
    split_ifs <;> first | rfl | omega | skip
    subst_vars
    rfl

/-- **Closing the gap takes one entry out.** -/
theorem front_shift (filler : α) (a : Nat → α) {n i : Nat} (h : i ≤ n) :
    front (shift filler (n - i) a i) n = (front a (n + 1)).eraseIdx i := by
  apply List.ext_getElem?
  intro j
  rw [List.getElem?_eraseIdx]
  by_cases hj : j < n
  · rw [getElem?_front hj, shift_apply]
    by_cases hji : j < i
    · rw [if_pos hji, if_pos hji, getElem?_front (by omega)]
    · rw [if_neg hji, if_neg hji, if_pos (by omega), getElem?_front (by omega)]
  · have h1 : (front (shift filler (n - i) a i) n)[j]? = none := by
      rw [List.getElem?_eq_none_iff, length_front]
      omega
    rw [h1, if_neg (by omega), eq_comm, List.getElem?_eq_none_iff, length_front]
    omega

end Xv6Clock.Lib
