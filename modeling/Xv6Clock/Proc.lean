/-
  File:      Xv6Clock/Proc.lean
  Subject:   Processes (proc.h), growing and shrinking them (`growproc`, `sys_sbrk`), the
             `mencrypt` system call, user accesses and page faults (trap.c).

  A process that the scheduler may run is `runnable`; RUNNING and SLEEPING are not told apart
  from it, since every modelled call is one step of the process that makes it.
-/
import Xv6Clock.Clock

namespace Xv6Clock

variable (cfg : Config)

/-! ## 1. `struct proc` -/

/-- `enum procstate`, without the scheduler's RUNNING and SLEEPING. -/
inductive ProcState where
  | unused | embryo | runnable | zombie
  deriving DecidableEq, Repr

/-- The fields of `struct trapframe` that fork and exec write. -/
structure Trapframe where
  eax : Nat
  eip : Nat
  esp : Nat

/-- `struct proc`: `ofile` holds indices of the file table, `parent` an index of the process
    table, `kstack` a frame (0 is null). -/
structure Proc where
  sz : Nat
  pgdir : PgDir
  kstack : Frame
  state : ProcState
  pid : Nat
  parent : Option Nat
  tf : Trapframe
  killed : Bool
  ofile : Nat → Option Nat
  name : List Byte
  q : ClockQ

/-- The page table of a process with the allocator. -/
def Proc.vm (p : Proc) (m : Kmem) : Vm := ⟨m, p.pgdir⟩

@[simp] theorem Proc.vm_m (p : Proc) (m : Kmem) : (p.vm m).m = m := rfl

@[simp] theorem Proc.vm_pd (p : Proc) (m : Kmem) : (p.vm m).pd = p.pgdir := rfl

/-! ## 2. `growproc` -/

/-- `growproc`. -/
def growproc (m : Kmem) (p : Proc) (n : Int) : Except Err (Int × Kmem × Proc) :=
  if 0 < n then do
    let (sz, s) ← allocuvm cfg (p.vm m) p.sz (toU (p.sz + n))
    if sz = 0 then .ok (-1, s.m, { p with pgdir := s.pd }) else do
    let (_, s) ← mencrypt s (if p.sz % pgSize = 0 then p.sz else pgRoundUp p.sz) (n / pgSize)
    .ok (0, s.m, { p with pgdir := s.pd, sz := sz })
  else if n < 0 then do
    let q := removeFreed p.q.inClock p.q (toU (p.sz + n)) 0
    let (sz, s) ← deallocuvm cfg (p.vm m) p.sz (toU (p.sz + n))
    if sz = 0 then .ok (-1, s.m, { p with pgdir := s.pd, q := q }) else
    .ok (0, s.m, { p with pgdir := s.pd, q := q, sz := sz })
  else .ok (0, m, p)

/-- `sys_sbrk`. -/
def sysSbrk (m : Kmem) (p : Proc) (n : Int) : Except Err (Int × Kmem × Proc) := do
  let (r, m, p') ← growproc cfg m p n
  if r < 0 then .ok (-1, m, p') else .ok (toI p.sz, m, p')

/-! ## 3. `sys_mencrypt` and faults -/

/-- `sys_mencrypt`, its arguments fetched: the checks, then `mencrypt`. -/
def sysMencrypt (m : Kmem) (p : Proc) (va : Nat) (len : Int) :
    Except Err (Int × Kmem × Proc) :=
  if len ≤ 0 then .ok (-1, m, p) else
  if p.sz ≤ va ∨ p.sz < addU va 1 then .ok (-1, m, p) else
  if kernBase + phystop ≤ va then .ok (-1, m, p) else do
  let (r, s) ← mencrypt (p.vm m) va len
  .ok (r, s.m, { p with pgdir := s.pd })

/-- The T_PGFLT case of `trap`: the result of `mdecrypt`. -/
def pageFault (m : Kmem) (p : Proc) (va : Nat) : Except Err (Int × Kmem × Proc) := do
  let (r, s, q) ← mdecrypt cfg (p.vm m) p.q va
  .ok (r, s.m, { p with pgdir := s.pd, q := q })

/-- The MMU lets user code reach the page of `va`. -/
def Proc.reaches (p : Proc) (va : Nat) : Bool :=
  has (p.pgdir.pteAt (vpn va)) pteP && has (p.pgdir.pteAt (vpn va)) pteU

/-- The page of `va` is marked referenced. -/
def Proc.touch (p : Proc) (va : Nat) : Proc :=
  { p with pgdir := p.pgdir.store (vpn va) (setRef (p.pgdir.pteAt (vpn va))) }

/-- The frame a virtual address is in. -/
def Proc.frameOf (p : Proc) (va : Nat) : Frame := pteFrame (p.pgdir.pteAt (vpn va))

/-! ## 4. The null pointer

A null PTE pointer is user address 0, which every process has mapped; dereferencing it in the
kernel faults if that page is encrypted, and `trap` then decrypts it. The page may be chosen for
eviction at once, so the access may fault again; the first argument bounds the retries. -/

/-- The little-endian word at offset `o`. -/
def le32 (pg : Nat → Byte) (o : Nat) : Word :=
  (pg o).setWidth 32 ||| (pg (o + 1)).setWidth 32 <<< 8 ||| (pg (o + 2)).setWidth 32 <<< 16 |||
    (pg (o + 3)).setWidth 32 <<< 24

/-- The byte `i` of a little-endian word. -/
def byteOf (w : Word) (i : Nat) : Byte := (w >>> (8 * i)).setWidth 8

/-- A word is the one its bytes spell. -/
theorem le32_byteOf {pg : Page} {o : Nat} {w : Word} (h : ∀ i, i < 4 → pg (o + i) = byteOf w i) :
    le32 pg o = w := by
  have h0 := h 0 (by decide)
  rw [Nat.add_zero] at h0
  unfold le32
  rw [h0, h 1 (by decide), h 2 (by decide), h 3 (by decide)]
  apply BitVec.eq_of_getLsbD_eq
  intro i hi
  simp only [byteOf, BitVec.getLsbD_or, BitVec.getLsbD_setWidth, BitVec.getLsbD_shiftLeft,
    BitVec.getLsbD_ushiftRight]
  have hc : i < 8 ∨ (8 ≤ i ∧ i < 16) ∨ (16 ≤ i ∧ i < 24) ∨ (24 ≤ i ∧ i < 32) := by omega
  rcases hc with hc | ⟨h1, h2⟩ | ⟨h1, h2⟩ | ⟨h1, h2⟩
  · simp [hc, show i < 16 by omega, show i < 24 by omega, hi]
  · simp [show ¬ i < 8 by omega, h2, show i < 24 by omega, hi, show i - 8 < 8 by omega,
      show i - 8 < 32 by omega, show 8 + (i - 8) = i by omega]
  · simp [show ¬ i < 8 by omega, show ¬ i < 16 by omega, h2, hi, show ¬ i - 8 < 8 by omega,
      show i - 16 < 8 by omega, show i - 16 < 32 by omega, show 16 + (i - 16) = i by omega]
  · simp [show ¬ i < 8 by omega, show ¬ i < 16 by omega, show ¬ i < 24 by omega, hi,
      show ¬ i - 8 < 8 by omega, show ¬ i - 16 < 8 by omega, show i - 24 < 8 by omega,
      show i - 24 < 32 by omega, show 24 + (i - 24) = i by omega]

/-- Bytes copied over a page from offset `o` on. -/
def overlay (pg : Page) (o : Nat) (bs : List Byte) : Page :=
  fun j => if o ≤ j ∧ j < o + bs.length then bs.getD (j - o) 0 else pg j

/-- Fault user address 0 in. -/
def faultNull : Nat → Kmem → Proc → Except Err (Kmem × Proc)
  | 0, _, _ => .error .refault
  | n + 1, m, p =>
    if has (p.pgdir.pteAt 0) pteP then .ok (m, p.touch 0) else do
    let (r, m, p) ← pageFault cfg m p 0
    if r ≠ 0 then .error (.panic .trap) else faultNull n m p

/-- `*(pte_t *)0`. -/
def loadNull (fuel : Nat) (m : Kmem) (p : Proc) : Except Err (Word × Kmem × Proc) := do
  let (m, p) ← faultNull cfg fuel m p
  .ok (le32 (m.mem (p.frameOf 0)) 0, m, p)

/-- `*(pte_t *)0 = w`. -/
def storeNull (fuel : Nat) (m : Kmem) (p : Proc) (w : Word) : Except Err (Kmem × Proc) := do
  let (m, p) ← faultNull cfg fuel m p
  .ok (m.setPage (p.frameOf 0) (overlay (m.mem (p.frameOf 0)) 0
    [byteOf w 0, byteOf w 1, byteOf w 2, byteOf w 3]), p)

end Xv6Clock
