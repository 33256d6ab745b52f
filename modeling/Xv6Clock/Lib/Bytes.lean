/-
  File:      Xv6Clock/Lib/Bytes.lean
  Subject:   Byte memories: little-endian numbers, arrays of words, copied ranges, strings.
-/
import Mathlib.Algebra.Group.Nat.Defs
import Mathlib.Logic.Function.Basic

namespace Xv6Clock.Lib

abbrev Bytes := Nat → BitVec 8

/-! ## 1. Numbers -/

/-- Byte `k` of a number. -/
def digit (n k : Nat) : BitVec 8 := BitVec.ofNat 8 (n / 256 ^ k)

/-- The number in `w` bytes at `o`. -/
def getLE : Nat → Bytes → Nat → Nat
  | 0, _, _ => 0
  | w + 1, b, o => (b o).toNat + 256 * getLE w b (o + 1)

/-- The `w` bytes at `o` become a number. -/
def putLE (w : Nat) (b : Bytes) (o n : Nat) : Bytes := fun i =>
  if o ≤ i ∧ i < o + w then digit n (i - o) else b i

variable {b b' : Bytes} {w o n : Nat}

theorem getLE_congr (h : ∀ i, o ≤ i → i < o + w → b i = b' i) : getLE w b o = getLE w b' o := by
  induction w generalizing o with
  | zero => rfl
  | succ w ih =>
    unfold getLE
    rw [h o (Nat.le_refl _) (by omega), ih fun i h1 h2 => h i (by omega) (by omega)]

theorem getLE_zero (h : ∀ i, o ≤ i → i < o + w → b i = 0) : getLE w b o = 0 := by
  induction w generalizing o with
  | zero => rfl
  | succ w ih =>
    unfold getLE
    rw [h o (Nat.le_refl _) (by omega), ih fun i h1 h2 => h i (by omega) (by omega)]
    rfl

theorem getLE_lt (w : Nat) (b : Bytes) (o : Nat) : getLE w b o < 256 ^ w := by
  induction w generalizing o with
  | zero => exact Nat.one_pos
  | succ w ih =>
    have hb := (b o).isLt
    have hw := ih (o + 1)
    unfold getLE
    rw [Nat.pow_succ]
    omega

theorem getLE_digits (h : ∀ k, k < w → b (o + k) = digit n k) : getLE w b o = n % 256 ^ w := by
  induction w generalizing o n with
  | zero => rw [Nat.pow_zero, Nat.mod_one]; rfl
  | succ w ih =>
    have hrest : getLE w b (o + 1) = n / 256 % 256 ^ w := ih fun k hk => by
      have hb := h (k + 1) (by omega)
      rw [show o + (k + 1) = o + 1 + k by omega] at hb
      rw [hb, digit, digit, Nat.div_div_eq_div_mul, Nat.pow_succ, Nat.mul_comm]
    have hhead : (b o).toNat = n % 256 := by
      have hb := h 0 (by omega)
      rw [Nat.add_zero] at hb
      rw [hb, digit, BitVec.toNat_ofNat, Nat.pow_zero, Nat.div_one]
    unfold getLE
    rw [hhead, hrest, Nat.pow_succ, Nat.mul_comm (256 ^ w), Nat.mod_mul]

theorem getLE_putLE (hn : n < 256 ^ w) : getLE w (putLE w b o n) o = n := by
  rw [getLE_digits (n := n) fun k hk => ?_, Nat.mod_eq_of_lt hn]
  unfold putLE
  rw [if_pos ⟨by omega, by omega⟩, Nat.add_sub_cancel_left]

/-- A number elsewhere stays. -/
theorem getLE_putLE_other {w' o' : Nat} (h : o' + w' ≤ o ∨ o + w ≤ o') :
    getLE w' (putLE w b o n) o' = getLE w' b o' :=
  getLE_congr fun i h1 h2 => if_neg fun hi => by omega

/-! ## 2. Words -/

/-- The bytes as an array of words. -/
def words (b : Bytes) : Nat → Nat := fun k => getLE 4 b (4 * k)

variable {f : Nat → Nat}

/-! ## 3. Copied ranges -/

/-- The list is copied to `o`. -/
def splice (b : Bytes) (o : Nat) (xs : List (BitVec 8)) : Bytes := fun i =>
  if o ≤ i ∧ i < o + xs.length then xs.getD (i - o) 0 else b i

theorem splice_in {xs : List (BitVec 8)} {i : Nat} (h1 : o ≤ i) (h2 : i < o + xs.length) :
    splice b o xs i = xs.getD (i - o) 0 := if_pos ⟨h1, h2⟩

theorem splice_out {xs : List (BitVec 8)} {i : Nat} (h : i < o ∨ o + xs.length ≤ i) :
    splice b o xs i = b i := if_neg fun hi => by omega

/-! ## 4. Strings -/

/-- The bytes of a list, and NULs behind it. -/
def bytesOf (xs : List (BitVec 8)) : Bytes := fun j => xs.getD j 0

theorem bytesOf_tail (x : BitVec 8) (xs : List (BitVec 8)) :
    (fun j => bytesOf (x :: xs) (j + 1)) = bytesOf xs := rfl

theorem range_bytesOf (xs : List (BitVec 8)) : (List.range xs.length).map (bytesOf xs) = xs := by
  refine List.ext_getElem (by simp) fun c h1 h2 => ?_
  simp [bytesOf, h2]

/-- The string in a field of `n` bytes: it ends at a NUL, or with the field. -/
def cstr : Nat → Bytes → List (BitVec 8)
  | 0, _ => []
  | n + 1, p => if p 0 = 0 then [] else p 0 :: cstr n fun j => p (j + 1)

/-- The string in a buffer that holds the bytes, with a NUL behind them if there is room. -/
theorem cstr_of_bytes {n : Nat} : ∀ {xs : List (BitVec 8)} {p : Bytes}, 0 ∉ xs → xs.length ≤ n →
    (∀ j, j < xs.length → p j = xs.getD j 0) → (xs.length < n → p xs.length = 0) →
    cstr n p = xs := by
  induction n with
  | zero =>
    intro xs p _ hlen _ _
    exact (List.length_eq_zero_iff.mp (Nat.le_zero.mp hlen)).symm
  | succ n ih =>
    intro xs p h0 hlen hbytes hend
    unfold cstr
    cases xs with
    | nil => exact if_pos (hend (Nat.succ_pos n))
    | cons x xs =>
      rw [List.length_cons] at hlen hbytes hend
      have hx : p 0 = x := hbytes 0 (Nat.succ_pos _)
      have hx0 : x ≠ 0 := fun e => h0 (e ▸ List.mem_cons_self)
      rw [hx, if_neg hx0]
      congr 1
      exact ih (fun h => h0 (List.mem_cons_of_mem _ h)) (by omega)
        (fun j hj => hbytes (j + 1) (by omega)) fun hlt => hend (by omega)

end Xv6Clock.Lib
