/-
  File:      Xv6Clock/Lib/Ring.lean
  Subject:   A ring buffer with two counters that wrap around.

  The ring has `N` cells and counts what was read and what was written modulo `M`, a multiple of
  `N`. `Ring` ties it to a history: all elements ever stored, of which the first `R` were taken.
  Full and empty can be told by comparing the wrapped counters, since at most `N < M` elements are
  in the ring.
-/
import Mathlib.Data.List.Basic
import Mathlib.Data.Nat.ModEq
import Mathlib.Logic.Function.Basic

namespace Xv6Clock.Lib

variable {α : Type*}

/-- **The ring `data`, `r`, `w` holds the history from `R` on.** -/
structure Ring (N M : Nat) (data : Nat → α) (r w : Nat) (hist : List α) (R : Nat) : Prop where
  read : r = R % M
  write : w = hist.length % M
  le : R ≤ hist.length
  fits : hist.length ≤ R + N
  cell : ∀ j, R ≤ j → j < hist.length → hist[j]? = some (data (j % N))

variable {N M : Nat} {data : Nat → α} {r w R : Nat} {hist : List α}

theorem Ring.empty (data : Nat → α) : Ring N M data 0 0 [] 0 where
  read := (Nat.zero_mod M).symm
  write := (Nat.zero_mod M).symm
  le := Nat.le_refl 0
  fits := Nat.zero_le _
  cell _ _ hj := absurd hj (Nat.not_lt_zero _)

section
variable (h : Ring N M data r w hist R)
include h

/-- The wrapped counters are equal in an empty ring only. -/
theorem Ring.empty_iff (hM : N < M) : r = w ↔ R = hist.length := by
  rw [h.read, h.write]
  refine ⟨fun he => ?_, fun he => by rw [he]⟩
  have h1 := h.le
  have h2 := h.fits
  -- congruent modulo M and less than M apart
  have h3 : (hist.length - R) % M = 0 := Nat.sub_mod_eq_zero_of_mod_eq he.symm
  have h4 : hist.length - R = 0 := by rwa [Nat.mod_eq_of_lt (by omega)] at h3
  omega

/-- They are `N` apart in a full ring only. -/
theorem Ring.full_iff (hM : N < M) : w = (r + N) % M ↔ hist.length = R + N := by
  rw [h.read, h.write, Nat.mod_add_mod]
  refine ⟨fun he => ?_, fun he => by rw [he]⟩
  have h1 := h.le
  have h2 := h.fits
  have h3 : (R + N - hist.length) % M = 0 := Nat.sub_mod_eq_zero_of_mod_eq he.symm
  have h4 : R + N - hist.length = 0 := by rwa [Nat.mod_eq_of_lt (by omega)] at h3
  omega

/-- The distance of the wrapped counters is the number of elements. -/
theorem Ring.count (hM : N < M) : (w + (M - r)) % M = hist.length - R := by
  have h1 := h.le
  have h2 := h.fits
  have h3 : r < M := by
    rw [h.read]
    exact Nat.mod_lt _ (by omega)
  have h4 : Nat.ModEq M (w + (M - r) + r) (hist.length - R + r) := by
    unfold Nat.ModEq
    rw [show w + (M - r) + r = w + M by omega, Nat.add_mod_right, h.write, Nat.mod_mod, h.read,
      Nat.add_mod_mod, Nat.sub_add_cancel h1]
  have h5 : (w + (M - r)) % M = (hist.length - R) % M := h4.add_right_cancel' r
  rw [h5, Nat.mod_eq_of_lt (by omega)]

/-- **Storing into a ring that is not full appends**, and no unread element is lost. -/
theorem Ring.store (hN : N ∣ M) (hfull : hist.length ≠ R + N) (x : α) :
    Ring N M (Function.update data (w % N) x) r ((w + 1) % M) (hist ++ [x]) R := by
  have h1 := h.le
  have h2 := h.fits
  have hlen : (hist ++ [x]).length = hist.length + 1 := by simp
  have hw : w % N = hist.length % N := by rw [h.write, Nat.mod_mod_of_dvd _ hN]
  refine ⟨h.read, ?_, by omega, by omega, fun j hj hlt => ?_⟩
  · rw [hlen, h.write, Nat.mod_add_mod]
  · rw [hw]
    by_cases he : j = hist.length
    · subst he
      rw [List.getElem?_concat_length, Function.update_self]
    · -- an unread element is less than N behind, so its cell is another one
      have hne : j % N ≠ hist.length % N := by
        intro hc
        have h3 : (hist.length - j) % N = 0 := Nat.sub_mod_eq_zero_of_mod_eq hc.symm
        rw [Nat.mod_eq_of_lt (by omega)] at h3
        omega
      rw [Function.update_of_ne hne, List.getElem?_append_left (by omega)]
      exact h.cell j hj (by omega)

/-- **Taking from a ring that is not empty gives the oldest element.** -/
theorem Ring.take (hN : N ∣ M) (hne : R ≠ hist.length) :
    hist[R]? = some (data (r % N)) ∧ Ring N M data ((r + 1) % M) w hist (R + 1) := by
  have h1 := h.le
  have h2 := h.fits
  refine ⟨?_, ?_, h.write, by omega, by omega, fun j hj hlt => h.cell j (by omega) hlt⟩
  · rw [h.read, Nat.mod_mod_of_dvd _ hN]
    exact h.cell R (Nat.le_refl R) (by omega)
  · rw [h.read, Nat.mod_add_mod]

/-- **What is in the ring**, from the read counter on. -/
theorem Ring.contents (hN : N ∣ M) :
    (List.range (hist.length - R)).map (fun j => data ((r + j) % M % N)) = hist.drop R := by
  refine List.ext_getElem? fun j => ?_
  rw [List.getElem?_map, List.getElem?_drop]
  by_cases hj : j < hist.length - R
  · have hcell : (r + j) % M % N = (R + j) % N := by
      rw [h.read, Nat.mod_add_mod, Nat.mod_mod_of_dvd _ hN]
    rw [List.getElem?_range hj, h.cell (R + j) (by omega) (by omega), Option.map_some, hcell]
  · rw [List.getElem?_eq_none (by simpa using Nat.le_of_not_lt hj),
      List.getElem?_eq_none (by omega)]
    rfl

end

/-- **The cell behind the write counter holds the newest element**, and stepping back forgets it. -/
theorem Ring.undo {x : α} (h : Ring N M data r w (hist ++ [x]) R) (hN : N ∣ M) (hM : 0 < M)
    (hR : R ≤ hist.length) : data ((w + (M - 1)) % M % N) = x ∧
      Ring N M data r ((w + (M - 1)) % M) hist R := by
  have hlen : (hist ++ [x]).length = hist.length + 1 := by simp
  have hw : (w + (M - 1)) % M = hist.length % M := by
    rw [h.write, hlen, Nat.mod_add_mod, show hist.length + 1 + (M - 1) = hist.length + M by omega,
      Nat.add_mod_right]
  have hfits := h.fits
  refine ⟨?_, h.read, hw, hR, by omega, fun j hj hlt => ?_⟩
  · have hc := h.cell hist.length hR (by omega)
    rw [List.getElem?_concat_length] at hc
    rw [hw, Nat.mod_mod_of_dvd _ hN]
    exact (Option.some.inj hc).symm
  · have hc := h.cell j hj (by omega)
    rwa [List.getElem?_append_left hlt] at hc

/-- A counter between the two splits the ring. -/
theorem Ring.split {a b : List α} {v : Nat} (h : Ring N M data r w (a ++ b) R)
    (hv : v = a.length % M) (hR : R ≤ a.length) :
    Ring N M data r v a R ∧ Ring N M data v w (a ++ b) a.length := by
  have hlen : (a ++ b).length = a.length + b.length := List.length_append
  have h2 := h.fits
  refine ⟨⟨h.read, hv, hR, by omega, fun j hj hlt => ?_⟩,
    ⟨hv, h.write, by omega, by omega, fun j hj hlt => h.cell j (by omega) hlt⟩⟩
  have hc := h.cell j hj (by omega)
  rwa [List.getElem?_append_left hlt] at hc

end Xv6Clock.Lib
