/-
  File:      Xv6Clock/Memmove.lean
  Subject:   `memmove` of the user library (ulib.c) and of the kernel (string.c).

  Both copy byte by byte. The kernel's goes down where the target begins inside the source; the
  user's always goes up.
  * `kernel_moved`: the kernel's is a move, for ranges that overlap in any way;
  * `user_eq_copyUp`: the user's is the upward copy;
  * `memmove_agree`: where the two leave the same memory.
-/
import Xv6Clock.Lib.Bytes
import Xv6Clock.Lib.Copy

namespace Xv6Clock.Memmove

open Lib (Bytes copyUp copyDown moved)

/-! ## 1. The calls -/

/-- `while(n-- > 0) *dst++ = *src++;` -/
def upLoop : Nat → Bytes → Nat → Nat → Bytes
  | 0, m, _, _ => m
  | n + 1, m, dst, src =>
    upLoop n (Function.update m dst (m src)) ((dst + 1) % 2 ^ 32) ((src + 1) % 2 ^ 32)

/-- `while(n-- > 0) *--d = *--s;` -/
def downLoop : Nat → Bytes → Nat → Nat → Bytes
  | 0, m, _, _ => m
  | n + 1, m, d, s =>
    let d := (d + (2 ^ 32 - 1)) % 2 ^ 32
    let s := (s + (2 ^ 32 - 1)) % 2 ^ 32
    downLoop n (Function.update m d (m s)) d s

/-- `memmove` of ulib.c, whose `n` is an `int`: its result, and the memory. -/
def user (m : Bytes) (dst src : Nat) (n : Int) : Nat × Bytes :=
  (dst, upLoop (n.bmod (2 ^ 32)).toNat m dst src)

/-- `memmove` of string.c: its result, and the memory. -/
def kernel (m : Bytes) (dst src n : Nat) : Nat × Bytes :=
  if src < dst ∧ dst < (src + n) % 2 ^ 32 then
    (dst, downLoop n m ((dst + n) % 2 ^ 32) ((src + n) % 2 ^ 32))
  else (dst, upLoop n m dst src)

/-! ## 2. The loops -/

section
variable {n dst src : Nat}

/-- In ranges that do not pass the end of the address space no pointer wraps before its last
    byte. -/
theorem upLoop_eq {n : Nat} : ∀ {m : Bytes} {dst src : Nat}, dst + n ≤ 2 ^ 32 →
    src + n ≤ 2 ^ 32 → upLoop n m dst src = copyUp n m dst src := by
  induction n with
  | zero => exact fun _ _ => rfl
  | succ n ih =>
    intro m dst src hd hs
    unfold upLoop copyUp
    cases n with
    | zero => rfl
    | succ n =>
      rw [Nat.mod_eq_of_lt (show dst + 1 < 2 ^ 32 by omega),
        Nat.mod_eq_of_lt (show src + 1 < 2 ^ 32 by omega), ih (by omega) (by omega)]

theorem before_end {p n : Nat} (h : p + (n + 1) ≤ 2 ^ 32) :
    ((p + (n + 1)) % 2 ^ 32 + (2 ^ 32 - 1)) % 2 ^ 32 = p + n := by omega

theorem downLoop_eq {n : Nat} : ∀ {m : Bytes} {dst src : Nat}, dst + n ≤ 2 ^ 32 →
    src + n ≤ 2 ^ 32 →
    downLoop n m ((dst + n) % 2 ^ 32) ((src + n) % 2 ^ 32) = copyDown n m dst src := by
  induction n with
  | zero => exact fun _ _ => rfl
  | succ n ih =>
    intro m dst src hd hs
    unfold downLoop copyDown
    dsimp only
    rw [before_end hd, before_end hs, ← ih (by omega) (by omega),
      Nat.mod_eq_of_lt (show dst + n < 2 ^ 32 by omega),
      Nat.mod_eq_of_lt (show src + n < 2 ^ 32 by omega)]

/-- **The kernel's `memmove` is a move.** -/
theorem kernel_moved (m : Bytes) (hd : dst + n ≤ 2 ^ 32) (hs : src + n ≤ 2 ^ 32) :
    kernel m dst src n = (dst, moved m dst src n) := by
  unfold kernel
  split
  · rename_i hinside
    rw [downLoop_eq hd hs, Lib.copyDown_eq_moved (Nat.le_of_lt hinside.1)]
  · rename_i hinside
    have hapart : ¬(src < dst ∧ dst < src + n) := by
      -- a source that ends with the address space is not below a target
      intro h
      rw [Nat.mod_eq_of_lt (by omega)] at hinside
      exact hinside h
    rw [upLoop_eq hd hs, Lib.copyUp_eq_moved.mpr fun hlt j hj => absurd hj (by omega)]

/-- The user's `memmove` is the upward copy. -/
theorem user_eq_copyUp (m : Bytes) (hn : n < 2 ^ 31) (hd : dst + n ≤ 2 ^ 32)
    (hs : src + n ≤ 2 ^ 32) : user m dst src n = (dst, copyUp n m dst src) := by
  have hint : (n : Int).bmod (2 ^ 32) = n := Int.bmod_eq_of_le (by omega) (by omega)
  unfold user
  rw [hint, Int.toNat_natCast, upLoop_eq hd hs]

end

/-! ## 3. The two -/

/-- Both leave the memory in which the target has what the source had, and nothing else has
    changed. -/
def Agree (m : Bytes) (dst src n : Nat) : Prop :=
  user m dst src n = kernel m dst src n ∧ (kernel m dst src n).2 = moved m dst src n

/-- **The two agree** exactly where each byte that is in the source and in a target above it is the
    byte that is to be copied there. -/
theorem memmove_agree (m : Bytes) {dst src n : Nat} (hn : n < 2 ^ 31) (hd : dst + n ≤ 2 ^ 32)
    (hs : src + n ≤ 2 ^ 32) : Agree m dst src n ↔
      (src < dst → ∀ j, dst + j < src + n → m (dst + j) = m (src + j)) := by
  unfold Agree
  rw [kernel_moved m hd hs, user_eq_copyUp m hn hd hs, ← Lib.copyUp_eq_moved]
  exact ⟨fun h => (Prod.mk.inj h.1).2, fun h => ⟨congrArg (Prod.mk dst) h, rfl⟩⟩

/-- Three bytes that go down by one. -/
theorem memmove_agree_down :
    Agree (fun a => BitVec.ofNat 8 a) 100 101 3 :=
  (memmove_agree _ (by decide) (by decide) (by decide)).mpr fun h => absurd h (by decide)

/-- **Two bytes that go up by one**: the user's `memmove` has overwritten the second byte before it
    copies it. -/
theorem memmove_up : (user (fun a => BitVec.ofNat 8 a) 101 100 2).2 102 = 100 ∧
    (kernel (fun a => BitVec.ofNat 8 a) 101 100 2).2 102 = 101 ∧
    ¬Agree (fun a => BitVec.ofNat 8 a) 101 100 2 := by
  have huser : (user (fun a => BitVec.ofNat 8 a) 101 100 2).2 102 = 100 := by decide
  have hkernel : (kernel (fun a => BitVec.ofNat 8 a) 101 100 2).2 102 = 101 := by decide
  refine ⟨huser, hkernel, fun h => ?_⟩
  have hsame : (user (fun a => BitVec.ofNat 8 a) 101 100 2).2 102 =
      (kernel (fun a => BitVec.ofNat 8 a) 101 100 2).2 102 := congrArg (fun x => x.2 102) h.1
  rw [huser, hkernel] at hsame
  exact absurd hsame (by decide)

end Xv6Clock.Memmove
