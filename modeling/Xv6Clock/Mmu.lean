/-
  File:      Xv6Clock/Mmu.lean
  Subject:   Words, page-table flags and address arithmetic (mmu.h, memlayout.h).

  A page-table entry is a 32-bit word, tested and changed with the masks of mmu.h; a physical
  frame is named by the upper 20 bits of its address. Virtual addresses and sizes are natural
  numbers: wherever the source computes on `uint`, the wrap at 2^32 is written out.
-/
import Mathlib.Algebra.BigOperators.Group.Finset.Basic
import Mathlib.Tactic.Linarith
import Mathlib.Tactic.Ring

namespace Xv6Clock

/-- A machine word (`uint`, `pte_t`). -/
abbrev Word := BitVec 32

/-- A byte of memory. -/
abbrev Byte := BitVec 8

/-- A physical frame: the upper 20 bits of a page-aligned physical address. -/
abbrev Frame := BitVec 20

/-- The 4096 bytes of a frame, by offset. -/
abbrev Page := Nat → Byte

/-! ## 1. Constants -/

def pgSize : Nat := 4096
def npdEntries : Nat := 1024
def kernBase : Nat := 0x80000000
def extMem : Nat := 0x100000
def kernLink : Nat := kernBase + extMem
def phystop : Nat := 0xE000000
def devSpace : Nat := 0xFE000000

def pteP : Word := 0x001
def pteW : Word := 0x002
def pteU : Word := 0x004
def pteA : Word := 0x020
def pteE : Word := 0x400

/-! ## 2. Flags of an entry -/

/-- `w & m` as a C condition. -/
def has (w m : Word) : Bool := w &&& m != 0#32

theorem has_eq_true {w m : Word} : has w m = true ↔ w &&& m ≠ 0#32 := by simp [has]

theorem has_or (w v m : Word) : has (w ||| v) m = (has w m || has v m) := by
  rw [Bool.eq_iff_iff, Bool.or_eq_true, has_eq_true, has_eq_true, has_eq_true,
    BitVec.and_or_distrib_right, ne_eq, BitVec.or_eq_zero_iff, not_and_or]

/-- Clearing bits of `w` is the same as not asking for them. -/
theorem has_clear (w c m : Word) : has (w &&& ~~~c) m = has w (m &&& ~~~c) := by
  unfold has
  rw [BitVec.and_assoc, BitVec.and_comm (~~~c) m]

theorem has_mask_or (w m n : Word) : has w (m ||| n) = (has w m || has w n) := by
  have h : ∀ a b : Word, has a b = has b a := fun a b => by unfold has; rw [BitVec.and_comm]
  rw [h w, has_or, h m, h n]

@[simp] theorem has_zero (m : Word) : has 0#32 m = false := by
  unfold has
  rw [BitVec.zero_and]
  rfl

@[simp] theorem has_none (w : Word) : has w 0#32 = false := by
  unfold has
  rw [BitVec.and_zero]
  rfl

/-- The mapping test of the source: `*pte & (PTE_P | PTE_E)`. -/
def mapped (w : Word) : Bool := has w (pteP ||| pteE)

theorem mapped_eq (w : Word) : mapped w = (has w pteP || has w pteE) := has_mask_or w pteP pteE

@[simp] theorem mapped_zero : mapped 0#32 = false := has_zero _

/-- PTE_FLAGS. -/
def pteFlags (w : Word) : Word := w &&& 0xFFF

/-- The frame of PTE_ADDR. -/
def pteFrame (w : Word) : Frame := w.extractLsb' 12 20

/-- The physical address of a frame (`V2P(mem)` for a page the allocator returned). -/
def frameAddr (f : Frame) : Word := f.setWidth 32 <<< 12

/-- A mask inside the twelve flag bits. -/
def IsFlags (m : Word) : Prop := m.toNat < 2 ^ 12

instance (m : Word) : Decidable (IsFlags m) := inferInstanceAs (Decidable (_ < _))

theorem isFlags_bit {m : Word} (h : IsFlags m) {i : Nat} (hi : 12 ≤ i) : m.getLsbD i = false :=
  Nat.testBit_lt_two_pow (Nat.lt_of_lt_of_le h (Nat.pow_le_pow_right (by decide) hi))

theorem isFlags_pteFlags (w : Word) : IsFlags (pteFlags w) := by
  unfold IsFlags pteFlags
  rw [BitVec.toNat_and]
  exact Nat.lt_of_le_of_lt Nat.and_le_right (by decide)

/-- **Setting flag bits keeps the frame.** -/
theorem pteFrame_or (w : Word) {m : Word} (hm : IsFlags m) : pteFrame (w ||| m) = pteFrame w := by
  apply BitVec.eq_of_getLsbD_eq
  intro i hi
  simp [pteFrame, hi, isFlags_bit hm (show 12 ≤ 12 + i by omega)]

/-- **Clearing flag bits keeps the frame.** -/
theorem pteFrame_clear (w : Word) {m : Word} (hm : IsFlags m) :
    pteFrame (w &&& ~~~m) = pteFrame w := by
  apply BitVec.eq_of_getLsbD_eq
  intro i hi
  have hb := isFlags_bit hm (show 12 ≤ 12 + i by omega)
  simp only [pteFrame, BitVec.getLsbD_extractLsb', hi, decide_true, Bool.true_and,
    BitVec.getLsbD_and, BitVec.getLsbD_not, hb, Bool.not_false, Bool.and_true]
  have h32 : 12 + i < 32 := by omega
  simp [h32]

@[simp] theorem pteFrame_frameAddr (f : Frame) : pteFrame (frameAddr f) = f := by
  apply BitVec.eq_of_getLsbD_eq
  intro i hi
  have h32 : 12 + i < 32 := by omega
  simp [pteFrame, frameAddr, hi, h32]

/-- A page-aligned address sets no flag. -/
theorem has_frameAddr (f : Frame) {m : Word} (hm : IsFlags m) : has (frameAddr f) m = false := by
  have h : frameAddr f &&& m = 0#32 := by
    apply BitVec.eq_of_getLsbD_eq
    intro i hi
    by_cases h12 : i < 12
    · simp [frameAddr, h12]
    · simp [isFlags_bit hm (show 12 ≤ i by omega)]
  simp [has, h]

/-! ## 3. Address arithmetic -/

/-- PDX. -/
def pdx (va : Nat) : Nat := va / 2 ^ 22 % 1024

/-- PTX. -/
def ptx (va : Nat) : Nat := va / 2 ^ 12 % 1024

/-- PPN of a virtual address: its 20-bit page number. -/
def vpn (va : Nat) : Nat := va / 2 ^ 12 % 2 ^ 20

/-- PGADDR. -/
def pgAddr (d t o : Nat) : Nat := (d * 2 ^ 22 + t * 2 ^ 12 + o) % 2 ^ 32

/-- PGROUNDUP, on `uint`. -/
def pgRoundUp (sz : Nat) : Nat := (sz + 4095) % 2 ^ 32 / 4096 * 4096

/-- PGROUNDDOWN. -/
def pgRoundDown (a : Nat) : Nat := a / 4096 * 4096

/-- `p + n` on pointers and `uint`. -/
def addU (a n : Nat) : Nat := (a + n) % 2 ^ 32

/-- A signed sum converted to `uint`. -/
def toU (z : Int) : Nat := (z % 2 ^ 32).toNat

/-- A value converted to `int`. -/
def toI (z : Int) : Int := Int.bmod z (2 ^ 32)

theorem vpn_div (va : Nat) : vpn va / 1024 = pdx va := by
  unfold vpn pdx
  omega

theorem vpn_mod (va : Nat) : vpn va % 1024 = ptx va := by
  unfold vpn ptx
  omega

theorem vpn_lt (va : Nat) : vpn va < 2 ^ 20 := Nat.mod_lt _ (by decide)

theorem pdx_lt (va : Nat) : pdx va < 1024 := Nat.mod_lt _ (by decide)

theorem ptx_lt (va : Nat) : ptx va < 1024 := Nat.mod_lt _ (by decide)

/-- The page number of the `v`th page. -/
theorem vpn_page {v : Nat} (h : v < 2 ^ 20) : vpn (v * 4096) = v := by
  unfold vpn
  omega

theorem vpn_pgRoundDown (va : Nat) : vpn (pgRoundDown va) = vpn va := by
  unfold vpn pgRoundDown
  omega

theorem pgRoundUp_eq {sz : Nat} (h : sz ≤ 2 ^ 31) : pgRoundUp sz = (sz + 4095) / 4096 * 4096 := by
  unfold pgRoundUp
  rw [Nat.mod_eq_of_lt (by omega)]

/-- Number of pages of a user size. -/
def pages (sz : Nat) : Nat := (sz + 4095) / 4096

theorem pgRoundUp_pages {sz : Nat} (h : sz ≤ 2 ^ 31) : pgRoundUp sz = pages sz * 4096 :=
  pgRoundUp_eq h

theorem toI_of_bounds {z : Int} (h1 : -2 ^ 31 ≤ z) (h2 : z < 2 ^ 31) : toI z = z := by
  unfold toI
  rw [Int.bmod_def]
  norm_num
  omega

end Xv6Clock
