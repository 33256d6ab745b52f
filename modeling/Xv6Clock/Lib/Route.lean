/-
  File:      Xv6Clock/Lib/Route.lean
  Subject:   Circular lists with one pointer per node, and searching them from anywhere.

  `Route next l z` says that `next` runs through `l`, node by node, and from its last node to `z`.
  A circular list is a route that ends where it starts; from each of its nodes a route leads round
  to the node itself.
-/
import Mathlib.Data.List.Basic

namespace Xv6Clock.Lib

variable {α : Type*} {next next' : α → α} {l k u v : List α} {a t z : α}

/-- **`next` runs through `l` to `z`.** -/
def Route (next : α → α) : List α → α → Prop
  | [], _ => True
  | a :: l, z => next a = l.headD z ∧ Route next l z

theorem headD_append (l k : List α) (z : α) : (l ++ k).headD z = l.headD (k.headD z) := by
  cases l <;> rfl

theorem Route.append : Route next (l ++ k) z ↔ Route next l (k.headD z) ∧ Route next k z := by
  induction l with
  | nil => exact (iff_of_eq (true_and _)).symm
  | cons a l ih => rw [List.cons_append, Route, Route, ih, headD_append, and_assoc]

/-- The node after `a`. -/
theorem Route.next_eq (h : Route next (u ++ a :: v) z) : next a = v.headD z :=
  (Route.append.mp h).2.1

/-- A route reads the pointers of its nodes only. -/
theorem Route.congr (h : Route next l z) (hn : ∀ a ∈ l, next' a = next a) : Route next' l z := by
  induction l with
  | nil => trivial
  | cons a l ih =>
    exact ⟨(hn a (List.mem_cons_self ..)).trans h.1,
      ih h.2 fun b hb => hn b (List.mem_cons_of_mem _ hb)⟩

/-- **Round a circular list**, from a node of it to itself. -/
theorem Route.around (h : Route next (u ++ a :: v) (u.headD a)) :
    next a = (v ++ u).headD a ∧ Route next (v ++ u) a := by
  obtain ⟨h1, h2, h3⟩ := Route.append.mp h
  exact ⟨h2.trans (headD_append v u a).symm, Route.append.mpr ⟨h3, h1⟩⟩

/-- The first node at which `stop` holds, within so many. -/
def seek (next : α → α) (stop : α → Bool) : Nat → α → Option α
  | 0, _ => none
  | n + 1, a => if stop a then some a else seek next stop n (next a)

variable {stop : α → Bool} {n m : Nat}

theorem seek_mono (hm : n ≤ m) : ∀ {a : α}, seek next stop n a = some t →
    seek next stop m a = some t := by
  induction n generalizing m with
  | zero =>
    intro a h
    cases h
  | succ n ih =>
    intro a h
    obtain ⟨m, rfl⟩ : ∃ k, m = k + 1 := ⟨m - 1, by omega⟩
    unfold seek at h ⊢
    split
    · rename_i hs
      rwa [if_pos hs] at h
    · rename_i hs
      rw [if_neg hs] at h
      exact ih (by omega) h

theorem Route.seek (h : Route next l t) (hl : ∀ a ∈ l, stop a = false) (ht : stop t = true) :
    Lib.seek next stop (l.length + 1) (l.headD t) = some t := by
  induction l with
  | nil =>
    unfold Lib.seek
    exact if_pos ht
  | cons a l ih =>
    unfold Lib.seek
    rw [List.headD_cons, if_neg (by rw [hl a (List.mem_cons_self ..)]; decide), h.1]
    exact ih h.2 fun b hb => hl b (List.mem_cons_of_mem _ hb)

/-- **A search in a circular list finds the one node where it stops**, wherever it starts. -/
theorem Route.seek_around (h : Route next (u ++ t :: v) (u.headD t)) (ha : a ∈ u ++ t :: v)
    (hno : ∀ b, b ∈ u ∨ b ∈ v → stop b = false) (ht : stop t = true)
    (hn : (u ++ t :: v).length ≤ n) : Lib.seek next stop n a = some t := by
  have hround := h.around.2
  by_cases hat : a = t
  · subst hat
    obtain ⟨n, rfl⟩ : ∃ k, n = k + 1 := ⟨n - 1, by simp at hn; omega⟩
    unfold Lib.seek
    exact if_pos ht
  have hmem : a ∈ v ++ u := by
    simp only [List.mem_append, List.mem_cons] at ha ⊢
    tauto
  obtain ⟨w1, w2, hw⟩ := List.append_of_mem hmem
  rw [hw] at hround
  have hpath : Route next (a :: w2) t := (Route.append.mp hround).2
  have hfree : ∀ b ∈ a :: w2, stop b = false := fun b hb => by
    have : b ∈ v ++ u := by
      rw [hw]
      exact List.mem_append_right _ hb
    rw [List.mem_append] at this
    exact hno b this.symm
  refine seek_mono ?_ (hpath.seek hfree ht)
  have hlen := congrArg List.length hw
  simp only [List.length_append, List.length_cons] at hlen hn ⊢
  omega

end Xv6Clock.Lib
