/-
  File:      Xv6Clock/Kalloc.lean
  Subject:   The physical page allocator (kalloc.c) and the memory it hands out.

  The free list is the list of free frames, head first. Frame contents are bytes; a frame that
  serves as page directory or page-table page keeps its entries in the page-table structure
  (PageTable.lean), so `mem` is read for user pages only.

  The field `twice` is ghost: it records whether `kfree` was ever given a frame that was already
  on the list. No modelled function reads it.
-/
import Xv6Clock.Mmu

namespace Xv6Clock

/-! ## 1. What the linker and param.h fix -/

/-- The constants of a build: CLOCKSIZE of param.h, and the page numbers of the linker symbols
    `data` and (rounded up) `end`. The facts carried along are kernel.ld's layout (text, then
    data, then the end, all below PHYSTOP) and that `struct proc[NPROC]`, with its twelve-byte
    nodes, fits the 32-bit address space. -/
structure Config where
  clockSize : Nat
  dataPage : Nat
  endPage : Nat
  clockPos : 1 ≤ clockSize
  clockFits : 64 * 12 * clockSize < 2 ^ 32
  textLt : extMem / pgSize < dataPage
  dataLe : dataPage ≤ endPage
  endLt : endPage < phystop / pgSize

/-- The build in the repository: CLOCKSIZE of param.h, `data` and `end` of kernel.sym. -/
def xv6 : Config where
  clockSize := 8
  dataPage := 0x10b
  endPage := 0x11a
  clockPos := by decide
  clockFits := by decide
  textLt := by decide
  dataLe := by decide
  endLt := by decide

/-- The panics of the modelled functions. -/
inductive Panic where
  | kfree | remap | phystopTooHigh | copyuvmPte | copyuvmPresent | loaduvmAlign | loaduvmAddress
  | clearpteu | trap | initExiting | filedup | fileclose
  deriving DecidableEq, Repr

/-- How a kernel path can end without returning. -/
inductive Err where
  /-- `panic(..)`. -/
  | panic (p : Panic)
  /-- A null PTE pointer was dereferenced. -/
  | nullPte
  /-- `nodes[i]` with `i` outside the array. -/
  | oob (i : Int)
  /-- `copyout` took frame `f` from a null PTE pointer and wrote user bytes to it. -/
  | wild (f : Frame)
  /-- A kernel access to user address 0 faulted more often than the run allows for. -/
  | refault
  /-- The caller is not a running process. -/
  | notRunning
  /-- A `struct pipe` was used after it was freed. -/
  | badPipe
  /-- Boot ran out of memory. -/
  | noMemory
  deriving DecidableEq, Repr

/-! ## 2. Free list and frame contents -/

structure Kmem where
  freelist : List Frame
  mem : Frame → Page
  twice : Bool

/-- Replace the contents of one frame. -/
def Kmem.setPage (m : Kmem) (f : Frame) (pg : Page) : Kmem :=
  { m with mem := Function.update m.mem f pg }

@[simp] theorem Kmem.setPage_freelist (m : Kmem) (f : Frame) (pg : Page) :
    (m.setPage f pg).freelist = m.freelist := rfl

@[simp] theorem Kmem.setPage_mem_self (m : Kmem) (f : Frame) (pg : Page) :
    (m.setPage f pg).mem f = pg := by simp [Kmem.setPage]

variable {f : Frame}

theorem Kmem.setPage_mem_ne (m : Kmem) {g : Frame} (pg : Page) (h : g ≠ f) :
    (m.setPage f pg).mem g = m.mem g := by simp [Kmem.setPage, h]

/-- How often a frame stands on the free list. -/
def Kmem.free (m : Kmem) (f : Frame) : Nat := m.freelist.count f

@[simp] theorem Kmem.setPage_free (m : Kmem) (f g : Frame) (pg : Page) :
    (m.setPage f pg).free g = m.free g := rfl

/-- `kalloc`: the head of the free list, or null. -/
def kalloc (m : Kmem) : Option (Frame × Kmem) :=
  match m.freelist with
  | [] => none
  | f :: fl => some (f, { m with freelist := fl })

/-- `memset(v, c, PGSIZE)`. -/
def fill (c : Byte) : Page := fun _ => c

/-- `kfree`: the address check, the junk fill, the push. -/
def kfree (cfg : Config) (m : Kmem) (f : Frame) : Except Err Kmem :=
  if f.toNat < cfg.endPage ∨ phystop / pgSize ≤ f.toNat then .error (.panic .kfree)
  else .ok
    { freelist := f :: m.freelist
      mem := Function.update m.mem f (fill 1)
      twice := m.twice || decide (f ∈ m.freelist) }

/-- One frame, as a count. -/
def one (f g : Frame) : Nat := if f = g then 1 else 0

@[simp] theorem one_self (f : Frame) : one f f = 1 := if_pos rfl

theorem one_pos {g : Frame} (h : 0 < one f g) : f = g := by
  unfold one at h
  split at h
  · assumption
  · omega

theorem one_le (f g : Frame) : one f g ≤ 1 := by
  unfold one
  split <;> omega

variable {m m' : Kmem}

/-- What `kalloc` does: the frame leaves the list, nothing else changes. -/
theorem kalloc_some (h : kalloc m = some (f, m')) :
    m.freelist = f :: m'.freelist ∧ m'.mem = m.mem ∧ m'.twice = m.twice := by
  unfold kalloc at h
  split at h
  · cases h
  · rename_i g fl hfl
    cases h
    exact ⟨hfl, rfl, rfl⟩

theorem kalloc_free (h : kalloc m = some (f, m')) (g : Frame) : m.free g = m'.free g + one f g := by
  unfold Kmem.free one
  rw [(kalloc_some h).1, List.count_cons]
  simp

/-- The frames the allocator was given: `[PGROUNDUP(end), PHYSTOP)`. -/
def managed (cfg : Config) (f : Frame) : Prop :=
  cfg.endPage ≤ f.toNat ∧ f.toNat < phystop / pgSize

instance (cfg : Config) (f : Frame) : Decidable (managed cfg f) :=
  inferInstanceAs (Decidable (_ ∧ _))

variable {cfg : Config}

/-- Frame 0 is not the allocator's: the kernel image lies below `end`. -/
theorem managed_ne_zero (h : managed cfg f) : f ≠ 0 := by
  rintro rfl
  have h1 : cfg.endPage ≤ 0 := h.1
  have h2 : 0 < cfg.dataPage := Nat.lt_of_le_of_lt (Nat.zero_le _) cfg.textLt
  have h3 := cfg.dataLe
  omega

/-- `kfree` on a managed frame pushes it. -/
theorem kfree_managed (h : managed cfg f) :
    kfree cfg m f = .ok
      { freelist := f :: m.freelist
        mem := Function.update m.mem f (fill 1)
        twice := m.twice || decide (f ∈ m.freelist) } := by
  unfold kfree
  rw [if_neg]
  have h1 := h.1
  have h2 := h.2
  omega

section
variable (h : kfree cfg m f = .ok m')
include h

/-- What `kfree` does when it returns. -/
theorem kfree_ok :
    managed cfg f ∧ m'.freelist = f :: m.freelist ∧ m'.mem = Function.update m.mem f (fill 1) ∧
      m'.twice = (m.twice || decide (f ∈ m.freelist)) := by
  unfold kfree at h
  split at h
  · cases h
  · rename_i hf
    cases h
    exact ⟨⟨by omega, by omega⟩, rfl, rfl, rfl⟩

theorem kfree_free (g : Frame) : m'.free g = m.free g + one f g := by
  unfold Kmem.free one
  rw [(kfree_ok h).2.1, List.count_cons]
  simp

/-- Freeing a frame that is not on the list leaves the ghost flag alone. -/
theorem kfree_twice (hf : m.free f = 0) : m'.twice = m.twice := by
  have hn : f ∉ m.freelist := List.count_eq_zero.mp hf
  rw [(kfree_ok h).2.2.2, decide_eq_false hn, Bool.or_false]

end

end Xv6Clock
