/-
  File:      Xv6Clock/Kernel.lean
  Subject:   The process table: `allocproc`, `fork`, `exit`, `wait` (proc.c), and starting the
             machine (`main`, main.c).

  The kernel state holds every place where a page of the allocator can be: the free list, the
  process table (page directories and kernel stacks), the kernel's own page directory, the stacks
  of the other processors, and the pipes.
-/
import Xv6Clock.Exec
import Xv6Clock.Files

namespace Xv6Clock

variable (cfg : Config)

/-! ## 1. The state -/

structure Kernel where
  kmem : Kmem
  proc : Nat → Proc
  nextpid : Nat
  initproc : Nat
  kpgdir : PgDir
  cpuStacks : List Frame
  files : Files

def nproc : Nat := 64

def Kernel.setProc (k : Kernel) (i : Nat) (p : Proc) : Kernel :=
  { k with proc := Function.update k.proc i p }

def Kernel.setKmem (k : Kernel) (m : Kmem) : Kernel := { k with kmem := m }

def Kernel.setFiles (k : Kernel) (t : Files) : Kernel := { k with files := t }

theorem Kernel.setProc_proc (k : Kernel) (i : Nat) (p : Proc) (j : Nat) :
    (k.setProc i p).proc j = if j = i then p else k.proc j := Function.update_apply _ _ _ _

@[simp] theorem Kernel.setProc_self (k : Kernel) (i : Nat) (p : Proc) :
    (k.setProc i p).proc i = p := Function.update_self _ _ _

theorem Kernel.setProc_ne (k : Kernel) {i j : Nat} (p : Proc) (h : j ≠ i) :
    (k.setProc i p).proc j = k.proc j := Function.update_of_ne h _ _

@[simp] theorem Kernel.setProc_kmem (k : Kernel) (i : Nat) (p : Proc) :
    (k.setProc i p).kmem = k.kmem := rfl

@[simp] theorem Kernel.setProc_files (k : Kernel) (i : Nat) (p : Proc) :
    (k.setProc i p).files = k.files := rfl

@[simp] theorem Kernel.setKmem_proc (k : Kernel) (m : Kmem) : (k.setKmem m).proc = k.proc := rfl

@[simp] theorem Kernel.setKmem_kmem (k : Kernel) (m : Kmem) : (k.setKmem m).kmem = m := rfl

@[simp] theorem Kernel.setKmem_files (k : Kernel) (m : Kmem) : (k.setKmem m).files = k.files := rfl

@[simp] theorem Kernel.setFiles_proc (k : Kernel) (t : Files) : (k.setFiles t).proc = k.proc := rfl

@[simp] theorem Kernel.setFiles_kmem (k : Kernel) (t : Files) : (k.setFiles t).kmem = k.kmem := rfl

@[simp] theorem Kernel.setFiles_files (k : Kernel) (t : Files) : (k.setFiles t).files = t := rfl

/-! ## 2. `allocproc` and `fork` -/

/-- The first UNUSED entry of the process table. -/
def findUnused (k : Kernel) : Option Nat :=
  (List.range nproc).find? fun i => (k.proc i).state == .unused

/-- `allocproc`: the entry, or none; without memory for the kernel stack the entry is given back,
    but not its process number. -/
def allocproc (k : Kernel) : Option Nat × Kernel :=
  match findUnused k with
  | none => (none, k)
  | some j =>
    let p := { k.proc j with
      state := .embryo, pid := k.nextpid, q := { (k.proc j).q with inClock := 0 } }
    let k := { k.setProc j p with nextpid := k.nextpid + 1 }
    match kalloc k.kmem with
    | none => (none, k.setProc j { p with kstack := 0, state := .unused })
    | some (f, m) => (some j, (k.setKmem m).setProc j { p with kstack := f })

/-- What the deep copy of the queue works on: allocator and parent (both change when a null
    pointer faults), the child's page table and the child's nodes. -/
structure ForkState where
  m : Kmem
  cur : Proc
  d : PgDir
  nodes : Nat → Nat

/-- `*p` for an entry of the parent, or for the null pointer. -/
def ForkState.loadParent (fuel : Nat) (x : ForkState) : Option Nat → Except Err (Word × ForkState)
  | some v => .ok (x.cur.pgdir.pteAt v, x)
  | none => do
    let (w, m, cur) ← loadNull cfg fuel x.m x.cur
    .ok (w, { x with m := m, cur := cur })

/-- `*c` for an entry of the child, or for the null pointer. -/
def ForkState.loadChild (fuel : Nat) (x : ForkState) : Option Nat → Except Err (Word × ForkState)
  | some v => .ok (x.d.pteAt v, x)
  | none => do
    let (w, m, cur) ← loadNull cfg fuel x.m x.cur
    .ok (w, { x with m := m, cur := cur })

/-- `*c = w`. -/
def ForkState.storeChild (fuel : Nat) (x : ForkState) (w : Word) :
    Option Nat → Except Err ForkState
  | some v => .ok { x with d := x.d.store v w }
  | none => do
    let (m, cur) ← storeNull cfg fuel x.m x.cur w
    .ok { x with m := m, cur := cur }

/-- One node of the deep copy, and the fix-up of the child's PTE_P. -/
def forkNode (fuel i : Nat) (x : ForkState) : Except Err ForkState := do
  let p := x.cur.pgdir.walk (x.cur.q.nodes i)
  let x := { x with nodes := Function.update x.nodes i (x.cur.q.nodes i) }
  let c := x.d.walk (x.nodes i)
  let (wp, x) ← x.loadParent cfg fuel p
  if has wp pteP then .ok x else do
  let (wc, x) ← x.loadChild cfg fuel c
  if !has wc pteP then .ok x else do
  let (wc, x) ← x.loadChild cfg fuel c
  x.storeChild cfg fuel (wc &&& ~~~pteP) c

/-- The loop of the deep copy, with `r` rounds left. A fault may lengthen the parent's queue, so
    the bound is read again in every round. -/
def forkNodes (fuel : Nat) : Nat → Nat → ForkState → Except Err ForkState
  | 0, i, x => if x.cur.q.inClock ≤ i then .ok x else .error .refault
  | r + 1, i, x =>
    if x.cur.q.inClock ≤ i then .ok x else do
    let x ← forkNode cfg fuel i x
    forkNodes fuel r (i + 1) x

/-- `fork` by process `i`. -/
def fork (fuel : Nat) (k : Kernel) (i : Nat) : Except Err (Int × Kernel) :=
  match allocproc k with
  | (none, k) => .ok (-1, k)
  | (some j, k) => do
    let np := k.proc j
    let (d, m) ← copyuvm cfg k.kmem (k.proc i).pgdir (k.proc i).sz
    match d with
    | none => do
      let m ← kfree cfg m np.kstack
      .ok (-1, (k.setKmem m).setProc j { np with kstack := 0, state := .unused })
    | some d => do
      let x ← forkNodes cfg fuel cfg.clockSize 0 ⟨m, k.proc i, d, np.q.nodes⟩
      let q : ClockQ := ⟨x.nodes, (k.proc i).q.inClock, toI ((k.proc i).q.currInd + 3)⟩
      let (t, ofile) ← dupAll nofile k.files x.cur.ofile np.ofile
      let np := { np with
        pgdir := x.d, q := q, sz := x.cur.sz, parent := some i, tf := { x.cur.tf with eax := 0 },
        ofile := ofile, name := x.cur.name, state := .runnable }
      .ok (toI np.pid, (((k.setKmem x.m).setFiles t).setProc i x.cur).setProc j np)

/-! ## 3. `exit` and `wait` -/

/-- Children of `i` are passed to init. -/
def Kernel.reparent (k : Kernel) (i : Nat) : Kernel :=
  { k with proc := fun j =>
      if j < nproc ∧ (k.proc j).parent = some i then { k.proc j with parent := some k.initproc }
      else k.proc j }

/-- `exit` by process `i`. -/
def exit (k : Kernel) (i : Nat) : Except Err Kernel :=
  if i = k.initproc then .error (.panic .initExiting) else do
  let (m, t, ofile) ← closeAll cfg nofile k.kmem k.files (k.proc i).ofile
  let k := ((k.setKmem m).setFiles t).setProc i { k.proc i with ofile := ofile }
  let k := k.reparent i
  .ok (k.setProc i { k.proc i with state := .zombie })

/-- What a scan of `wait` finds. -/
inductive Waited where
  | reaped (pid : Nat) | children | none
  deriving DecidableEq, Repr

/-- `wait` by process `i`, one scan of the table: a zombie child is freed. With children that
    still run, the source sleeps and scans again. -/
def wait (k : Kernel) (i : Nat) : Except Err (Waited × Kernel) :=
  match (List.range nproc).find? fun j =>
      (k.proc j).parent == some i && (k.proc j).state == .zombie with
  | some j => do
    let p := k.proc j
    let m ← kfree cfg k.kmem p.kstack
    let m ← freevm cfg (p.vm m)
    .ok (.reaped p.pid, (k.setKmem m).setProc j { p with
      kstack := 0, pid := 0, parent := none, name := p.name.set 0 0, killed := false,
      state := .unused })
  | none =>
    if (List.range nproc).any fun j => (k.proc j).parent == some i then .ok (.children, k)
    else .ok (.none, k)

/-! ## 4. Starting the machine -/

/-- `freerange` over the frames `[lo, lo + n)`. -/
def freerange : Nat → Kmem → Nat → Except Err Kmem
  | 0, m, _ => .ok m
  | n + 1, m, lo => do
    let m ← kfree cfg m (BitVec.ofNat 20 lo)
    freerange n m (lo + 1)

/-- The stacks of the other processors (`startothers`). -/
def startothers : Nat → Kmem → List Frame → Except Err (List Frame × Kmem)
  | 0, m, fs => .ok (fs, m)
  | n + 1, m, fs =>
    match kalloc m with
    | none => .error .noMemory
    | some (f, m) => startothers n m (f :: fs)

/-- `inituvm` for less than a page of code. -/
def inituvm (m : Kmem) (pd : PgDir) (code : List Byte) : Except Err Vm :=
  match kalloc m with
  | none => .error .noMemory
  | some (f, m) => do
    let (r, s) ← mappages ⟨m.setPage f (fill 0), pd⟩ 0 pgSize (frameAddr f) (pteW ||| pteU)
    if r < 0 then .error .noMemory else
    .ok ⟨s.m.setPage f (overlay (s.m.mem f) 0 code), s.pd⟩

/-- An entry of the process table before its first use. -/
def Proc.zero : Proc where
  sz := 0
  pgdir := ⟨0, fun _ => none⟩
  kstack := 0
  state := .unused
  pid := 0
  parent := none
  tf := ⟨0, 0, 0⟩
  killed := false
  ofile := fun _ => none
  name := []
  q := ⟨fun _ => 0, 0, 0⟩

/-- `userinit`. -/
def userinit (k : Kernel) (code : List Byte) : Except Err Kernel :=
  match allocproc k with
  | (none, _) => .error .noMemory
  | (some j, k) => do
    let (pd, m) ← setupkvm cfg k.kmem
    match pd with
    | none => .error .noMemory
    | some pd => do
      let s ← inituvm m pd code
      .ok { (k.setKmem s.m).setProc j { k.proc j with
        pgdir := s.pd, sz := pgSize, tf := ⟨0, 0, pgSize⟩, state := .runnable,
        name := [0x69, 0x6e, 0x69, 0x74, 0x63, 0x6f, 0x64, 0x65] } with initproc := j }

/-- The frame at 4 MB, where `kinit1` ends and `kinit2` begins. -/
def kinitSplit : Nat := 1024

/-- `main` up to the scheduler, with `ncpu` processors besides this one: `kinit1`, `kvmalloc`,
    `startothers`, `kinit2`, `userinit`. -/
def boot (ncpu : Nat) (code : List Byte) : Except Err Kernel := do
  let m ← freerange cfg (kinitSplit - cfg.endPage) ⟨[], fun _ => fill 0, false⟩ cfg.endPage
  let (kpgdir, m) ← setupkvm cfg m
  match kpgdir with
  | none => .error .noMemory
  | some kpgdir => do
    let (fs, m) ← startothers ncpu m []
    let m ← freerange cfg (phystop / pgSize - kinitSplit) m kinitSplit
    userinit cfg
      { kmem := m
        proc := fun _ => Proc.zero
        nextpid := 1
        initproc := 0
        kpgdir := kpgdir
        cpuStacks := fs
        files := ⟨fun _ => ⟨0, none, false, false⟩, fun _ => none⟩ } code

end Xv6Clock
