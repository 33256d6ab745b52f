/-
  File:      Xv6Clock/Lib/Fold.lean
  Subject:   Folds of a step that commutes with itself and has no effect the second time.

  Such a fold does not depend on the order of the list, and an element that was in the list already
  adds nothing.
-/
import Mathlib.Data.List.Perm.Basic

namespace Xv6Clock.Lib

section
variable {α β : Type} {f : β → α → β} [RightCommutative f]

/-- An element of the list adds nothing. -/
theorem foldl_absorb (hid : ∀ b a, f (f b a) a = f b a) {a : α} {l : List α} (h : a ∈ l) (b : β) :
    f (l.foldl f b) a = l.foldl f b := by
  obtain ⟨l1, l2, rfl⟩ := List.append_of_mem h
  have hp : (l1 ++ a :: l2).Perm (a :: (l1 ++ l2)) := List.perm_middle
  have hq : ((l1 ++ a :: l2) ++ [a]).Perm (a :: a :: (l1 ++ l2)) :=
    (List.perm_append_singleton a _).trans (hp.cons a)
  calc f ((l1 ++ a :: l2).foldl f b) a
      = ((l1 ++ a :: l2) ++ [a]).foldl f b := (List.foldl_concat ..).symm
    _ = (a :: a :: (l1 ++ l2)).foldl f b := hq.foldl_eq b
    _ = (a :: (l1 ++ l2)).foldl f b := by rw [List.foldl_cons, List.foldl_cons, hid]; rfl
    _ = (l1 ++ a :: l2).foldl f b := (hp.foldl_eq b).symm

/-- So does a list of them. -/
theorem foldl_absorb_list (hid : ∀ b a, f (f b a) a = f b a) {l l' : List α} (h : ∀ a ∈ l', a ∈ l)
    (b : β) : l'.foldl f (l.foldl f b) = l.foldl f b := by
  induction l' with
  | nil => rfl
  | cons a l' ih =>
    rw [List.foldl_cons, foldl_absorb hid (h a List.mem_cons_self)]
    exact ih fun x hx => h x (List.mem_cons_of_mem _ hx)

/-- Two lists in either order. -/
theorem foldl_swap (l l' : List α) (b : β) :
    l'.foldl f (l.foldl f b) = l.foldl f (l'.foldl f b) := by
  rw [← List.foldl_append, ← List.foldl_append]
  exact List.perm_append_comm.foldl_eq b

end

end Xv6Clock.Lib
