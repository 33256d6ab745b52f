/-
  File:      Xv6Clock/Lib/Tiling.lean
  Subject:   Blocks of memory, and how many of them cover an address.

  A block is an address and a number of units of `c` bytes. Blocks do not overlap if no address is
  covered twice; cutting a block in two or joining two neighbours changes no count.
-/
import Mathlib.Data.List.Count

namespace Xv6Clock.Lib

variable (c : Nat)

/-- Address `x` is in block `b`. -/
def Within (b : Nat × Nat) (x : Nat) : Prop := b.1 ≤ x ∧ x < b.1 + c * b.2

instance (b : Nat × Nat) (x : Nat) : Decidable (Within c b x) := inferInstanceAs (Decidable (_ ∧ _))

/-- **How many blocks of the list cover `x`.** -/
def cover (l : List (Nat × Nat)) (x : Nat) : Nat := l.countP fun b => decide (Within c b x)

variable {c} {b : Nat × Nat} {l k : List (Nat × Nat)} {x : Nat}

@[simp] theorem cover_nil : cover c [] x = 0 := rfl

theorem cover_cons : cover c (b :: l) x = (if Within c b x then 1 else 0) + cover c l x := by
  unfold cover
  rw [List.countP_cons, Nat.add_comm]
  simp only [decide_eq_true_eq]

theorem cover_append : cover c (l ++ k) x = cover c l x + cover c k x := List.countP_append

theorem cover_empty (a : Nat) : cover c ((a, 0) :: l) x = cover c l x := by
  rw [cover_cons, if_neg, Nat.zero_add]
  rintro ⟨h1, h2⟩
  dsimp only at h1 h2
  omega

theorem one_le_cover (hb : b ∈ l) (hx : Within c b x) : 1 ≤ cover c l x :=
  List.countP_pos_iff.mpr ⟨b, hb, decide_eq_true hx⟩

/-- Two neighbours cover what one block covers. -/
theorem cover_join (a m n : Nat) : cover c ((a, m + n) :: l) x =
    cover c ((a, m) :: (a + c * m, n) :: l) x := by
  have hw : Within c (a, m + n) x ↔ Within c (a, m) x ∨ Within c (a + c * m, n) x := by
    unfold Within
    dsimp only
    rw [Nat.mul_add]
    omega
  have hnot : ¬ (Within c (a, m) x ∧ Within c (a + c * m, n) x) := by
    unfold Within
    dsimp only
    omega
  rw [cover_cons, cover_cons, cover_cons]
  by_cases h1 : Within c (a, m) x
  · have h2 : ¬ Within c (a + c * m, n) x := fun h2 => hnot ⟨h1, h2⟩
    rw [if_pos (hw.mpr (.inl h1)), if_pos h1, if_neg h2, Nat.zero_add]
  · by_cases h2 : Within c (a + c * m, n) x
    · rw [if_pos (hw.mpr (.inr h2)), if_neg h1, if_pos h2, Nat.zero_add]
    · rw [if_neg fun h => (hw.mp h).elim h1 h2, if_neg h1, if_neg h2, Nat.zero_add,
        Nat.zero_add]

/-- Blocks that no address is in together lie one after the other. -/
theorem apart_of_not_both {d : Nat × Nat} (hb : 0 < c * b.2) (hd : 0 < c * d.2)
    (h : ∀ x, ¬ (Within c b x ∧ Within c d x)) :
    b.1 + c * b.2 ≤ d.1 ∨ d.1 + c * d.2 ≤ b.1 := by
  have h1 := h b.1
  have h2 := h d.1
  unfold Within at h1 h2
  omega

end Xv6Clock.Lib
