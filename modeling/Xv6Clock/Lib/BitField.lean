/-
  File:      Xv6Clock/Lib/BitField.lean
  Subject:   Bit-fields of a machine word: reading one, and storing to one.

  A field is given by its first bit and its width. A store leaves the bits outside the field alone,
  so a field that does not meet it keeps its value.
-/
import Mathlib.Algebra.Group.Nat.Defs

namespace Xv6Clock.Lib

/-- The `n` lowest bits. -/
def lowMask (n : Nat) : BitVec 32 := BitVec.ofNat 32 (2 ^ n - 1)

/-- The field of `n` bits at `lo`. -/
def getBits (w : BitVec 32) (lo n : Nat) : BitVec 32 := (w >>> lo) &&& lowMask n

/-- The field of `n` bits at `lo` becomes the lowest bits of `x`. -/
def putBits (w : BitVec 32) (lo n : Nat) (x : BitVec 32) : BitVec 32 :=
  (w &&& ~~~(lowMask n <<< lo)) ||| ((x &&& lowMask n) <<< lo)

variable {w x : BitVec 32} {lo n lo' n' : Nat}

theorem getLsbD_lowMask (n i : Nat) (hi : i < 32) : (lowMask n).getLsbD i = decide (i < n) := by
  unfold lowMask
  rw [BitVec.getLsbD_ofNat, Nat.testBit_two_pow_sub_one]
  simp [hi]

theorem getLsbD_getBits (w : BitVec 32) (lo n i : Nat) (hi : i < 32) :
    (getBits w lo n).getLsbD i = (w.getLsbD (lo + i) && decide (i < n)) := by
  unfold getBits
  rw [BitVec.getLsbD_and, getLsbD_lowMask n i hi, BitVec.getLsbD_ushiftRight]

theorem getLsbD_putBits (w x : BitVec 32) (lo n i : Nat) (hi : i < 32) :
    (putBits w lo n x).getLsbD i =
      if lo ≤ i ∧ i < lo + n then x.getLsbD (i - lo) else w.getLsbD i := by
  unfold putBits
  have hmask : (lowMask n <<< lo).getLsbD i = decide (lo ≤ i ∧ i < lo + n) := by
    rw [BitVec.getLsbD_shiftLeft, getLsbD_lowMask n (i - lo) (by omega)]
    by_cases h1 : i < lo
    · simp [h1, Nat.not_le.mpr h1]
    · by_cases h2 : i < lo + n
      · simp [hi, h1, h2, show lo ≤ i by omega, show i - lo < n by omega]
      · simp [h2, show ¬ i - lo < n by omega]
  have hval : ((x &&& lowMask n) <<< lo).getLsbD i =
      (decide (lo ≤ i ∧ i < lo + n) && x.getLsbD (i - lo)) := by
    rw [BitVec.getLsbD_shiftLeft, BitVec.getLsbD_and, getLsbD_lowMask n (i - lo) (by omega)]
    by_cases h1 : i < lo
    · simp [h1, Nat.not_le.mpr h1]
    · by_cases h2 : i < lo + n
      · simp [hi, h1, h2, show lo ≤ i by omega, show i - lo < n by omega]
      · simp [h2, show ¬ i - lo < n by omega]
  rw [BitVec.getLsbD_or, BitVec.getLsbD_and, BitVec.getLsbD_not, hmask, hval]
  by_cases h : lo ≤ i ∧ i < lo + n
  · rw [if_pos h, decide_eq_true h]
    simp [hi]
  · rw [if_neg h, decide_eq_false h]
    simp [hi]

/-- What was stored is read back, if it fits. -/
theorem getBits_putBits (h : lo + n ≤ 32) (hx : x &&& lowMask n = x) :
    getBits (putBits w lo n x) lo n = x := by
  apply BitVec.eq_of_getLsbD_eq
  intro i hi
  rw [getLsbD_getBits _ _ _ _ hi, ← hx, BitVec.getLsbD_and, getLsbD_lowMask n i hi]
  by_cases hn : i < n
  · rw [getLsbD_putBits _ _ _ _ _ (by omega), if_pos ⟨by omega, by omega⟩, BitVec.getLsbD_and,
      Nat.add_sub_cancel_left, getLsbD_lowMask n i hi]
    simp [hn]
  · simp [hn]

/-- A store to another field. -/
theorem getBits_putBits_ne (h : lo' + n' ≤ 32) (hd : lo' + n' ≤ lo ∨ lo + n ≤ lo') :
    getBits (putBits w lo n x) lo' n' = getBits w lo' n' := by
  apply BitVec.eq_of_getLsbD_eq
  intro i hi
  rw [getLsbD_getBits _ _ _ _ hi, getLsbD_getBits _ _ _ _ hi]
  by_cases hn : i < n'
  · rw [getLsbD_putBits _ _ _ _ _ (by omega), if_neg (by omega)]
  · simp [hn]

end Xv6Clock.Lib
