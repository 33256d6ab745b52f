/-
  File:      Xv6Clock/Exec.lean
  Subject:   `exec` (exec.c) with what it calls: `readi` (fs.c), `loaduvm`, `clearpteu` and
             `copyout` (vm.c).

  The new image is built in a page table of its own, filled through physical addresses, and
  encrypted once it is committed. The path lookup and the log transaction around it are left out:
  `exec` is given the inode, if there is one. The argument strings are given as bytes.
-/
import Xv6Clock.Proc

namespace Xv6Clock

variable (cfg : Config)

/-! ## 1. Reading the file -/

/-- What exec can be pointed at: a file with its size and bytes, or a device, which answers the
    `k`th read with bytes of its own or with -1. -/
inductive Inode where
  | file (size : Nat) (data : Nat → Byte)
  | dev (input : Nat → Option (List Byte))

/-- `readi(ip, dst, off, n)` as the `k`th read: the bytes it stores, or none for -1. -/
def readi (ip : Inode) (k off n : Nat) : Option (List Byte) :=
  match ip with
  | .dev input => (input k).map (·.take n)
  | .file size data =>
    if size < off ∨ addU off n < off then none else
    some ((List.range (if size < addU off n then size - off else n)).map fun i => data (off + i))

/-- A `uint` field of a structure read from the file. -/
def field32 (bs : List Byte) (o : Nat) : Nat := (le32 (fun i => bs.getD i 0) o).toNat

/-- A `ushort` field. -/
def field16 (bs : List Byte) (o : Nat) : Nat := field32 bs o % 2 ^ 16

def elfMagic : Nat := 0x464C457F
def elfhdrSize : Nat := 52
def proghdrSize : Nat := 32
def maxArg : Nat := 32

/-! ## 2. Filling the new image -/

/-- The loop of `loaduvm`; the result is whether it returned 0, and the number of reads made. -/
def loaduvmLoop (ip : Inode) (addr off sz : Nat) :
    Nat → Nat → Vm → Nat → Except Err (Bool × Nat × Kmem)
  | 0, k, s, _ => .ok (true, k, s.m)
  | r + 1, k, s, i =>
    if sz ≤ i then .ok (true, k, s.m) else
    match s.pd.walk (addU addr i) with
    | none => .error (.panic .loaduvmAddress)
    | some pte =>
      let f := pteFrame (s.pd.pteAt pte)
      let n := if sz - i < pgSize then sz - i else pgSize
      match readi ip k (addU off i) n with
      | none => .ok (false, k + 1, s.m)
      | some bs =>
        let m := s.m.setPage f (overlay (s.m.mem f) 0 bs)
        if bs.length ≠ n then .ok (false, k + 1, m) else
        loaduvmLoop ip addr off sz r (k + 1) ⟨m, s.pd⟩ (i + pgSize)

/-- `loaduvm`. -/
def loaduvm (ip : Inode) (k : Nat) (s : Vm) (addr off sz : Nat) :
    Except Err (Bool × Nat × Kmem) :=
  if addr % pgSize ≠ 0 then .error (.panic .loaduvmAlign) else
  loaduvmLoop ip addr off sz (sz / pgSize + 1) k s 0

/-- The loop of exec over the program headers; `false` for `goto bad`. -/
def execLoad (ip : Inode) : Nat → Vm → Nat → Nat → Nat → Except Err (Bool × Vm × Nat)
  | 0, s, sz, _, _ => .ok (true, s, sz)
  | r + 1, s, sz, off, k =>
    match readi ip k off proghdrSize with
    | none => .ok (false, s, sz)
    | some ph =>
      if ph.length ≠ proghdrSize then .ok (false, s, sz) else
      if field32 ph 0 ≠ 1 then execLoad ip r s sz (addU off proghdrSize) (k + 1) else
      if field32 ph 20 < field32 ph 16 then .ok (false, s, sz) else
      if addU (field32 ph 8) (field32 ph 20) < field32 ph 8 then .ok (false, s, sz) else do
      let (sz, s) ← allocuvm cfg s sz (addU (field32 ph 8) (field32 ph 20))
      if sz = 0 then .ok (false, s, sz) else
      if field32 ph 8 % pgSize ≠ 0 then .ok (false, s, sz) else do
      let (good, k, m) ← loaduvm ip (k + 1) s (field32 ph 8) (field32 ph 4) (field32 ph 16)
      if !good then .ok (false, ⟨m, s.pd⟩, sz) else
      execLoad ip r ⟨m, s.pd⟩ sz (addU off proghdrSize) k

/-- `clearpteu`. -/
def clearpteu (s : Vm) (uva : Nat) : Except Err Vm :=
  match s.pd.walk uva with
  | none => .error (.panic .clearpteu)
  | some pte => .ok (s.mark pte (s.pd.pteAt pte &&& ~~~pteU))

/-! ## 3. Arguments -/

/-- The loop of `copyout`; every round copies at least one byte. -/
def copyoutLoop : Nat → Vm → Nat → List Byte → Except Err (Int × Vm)
  | 0, s, _, _ => .ok (0, s)
  | r + 1, s, va, buf =>
    if buf.length = 0 then .ok (0, s) else do
    let va0 := pgRoundDown va
    match ← uva2ka s.pd va0 with
    | none => .ok (-1, s)
    | some f =>
      let n := min (pgSize - (va - va0)) buf.length
      copyoutLoop r
        ⟨s.m.setPage f (overlay (s.m.mem f) (va - va0) (buf.take n)), s.pd⟩
        (addU va0 pgSize) (buf.drop n)

/-- `copyout`. -/
def copyout (s : Vm) (va : Nat) (buf : List Byte) : Except Err (Int × Vm) :=
  copyoutLoop buf.length s va buf

/-- `copyout` in exec, into the image that is not running yet. Where it dereferences a null PTE
    pointer it reads the running process's address 0 as the entry. If that word passes for no user
    page, `copyout` returns -1 (what it has copied before lies in pages that exec frees then);
    otherwise it writes wherever the word points. -/
def copyoutUser (fuel : Nat) (s : Vm) (p : Proc) (va : Nat) (buf : List Byte) :
    Except Err (Int × Vm × Proc) :=
  match copyout s va buf with
  | .ok (r, s) => .ok (r, s, p)
  | .error .nullPte => do
    let (w, m, p) ← loadNull cfg fuel s.m p
    if !mapped w || !has w pteU then .ok (-1, ⟨m, s.pd⟩, p) else .error (.wild (pteFrame w))
  | .error e => .error e

/-- A `uint` difference. -/
def subU (a n : Nat) : Nat := (a + (2 ^ 32 - n % 2 ^ 32)) % 2 ^ 32

/-- The loop of exec over the argument strings: the stack pointer and the pointers pushed so far,
    or none for `goto bad`. -/
def pushArgs (fuel : Nat) : List (List Byte) → Vm → Proc → Nat → List Nat →
    Except Err (Option (Nat × List Nat) × Vm × Proc)
  | [], s, p, sp, us => .ok (some (sp, us), s, p)
  | arg :: args, s, p, sp, us =>
    if maxArg ≤ us.length then .ok (none, s, p) else do
    let sp := subU sp (arg.length + 1) / 4 * 4
    let (r, s, p) ← copyoutUser cfg fuel s p sp (arg ++ [0])
    if r < 0 then .ok (none, s, p) else pushArgs fuel args s p sp (us ++ [sp])

/-- The words of `ustack`, as bytes. -/
def ustackBytes (sp : Nat) (us : List Nat) : List Byte :=
  ([0xffffffff, us.length, subU sp ((us.length + 1) * 4)] ++ us ++ [0]).flatMap fun w =>
    (List.range 4).map (byteOf (BitVec.ofNat 32 w))

/-! ## 4. `exec` -/

/-- The part of `path` after its last slash. -/
def lastName (path : List Byte) : List Byte :=
  (path.reverse.takeWhile (· ≠ 0x2F)).reverse

/-- The label `bad` of exec. -/
def execBad (s : Vm) (p : Proc) : Except Err (Int × Kmem × Proc) := do
  let m ← freevm cfg s
  .ok (-1, m, p)

/-- exec from the commit on: the new image is encrypted, the old one freed. -/
def execCommit (s : Vm) (p : Proc) (path : List Byte) (sz entry sp : Nat) :
    Except Err (Int × Kmem × Proc) := do
  let (_, s) ← mencrypt s 0 (if sz % pgSize = 0 then sz / pgSize else sz / pgSize + 1 : Nat)
  let m ← freevm cfg ⟨s.m, p.pgdir⟩
  .ok (0, m, { p with
    name := (lastName path).take 15, pgdir := s.pd, sz := sz,
    tf := { p.tf with eip := entry, esp := sp }, q := { p.q with inClock := 0, currInd := 0 } })

/-- exec from the stack on, for an image of size `sz`. -/
def execStack (fuel : Nat) (s : Vm) (p : Proc) (path : List Byte) (argv : List (List Byte))
    (sz entry : Nat) : Except Err (Int × Kmem × Proc) := do
  let (sz, s) ← allocuvm cfg s (pgRoundUp sz) (addU (pgRoundUp sz) (2 * pgSize))
  if sz = 0 then execBad cfg s p else do
  let s ← clearpteu s (subU sz (2 * pgSize))
  let (r, s, p) ← pushArgs cfg fuel argv s p sz []
  match r with
  | none => execBad cfg s p
  | some (sp, us) => do
    let bytes := ustackBytes sp us
    let (r, s, p) ← copyoutUser cfg fuel s p (subU sp bytes.length) bytes
    if r < 0 then execBad cfg s p else
    execCommit cfg s p path sz entry (subU sp bytes.length)

/-- `exec`. -/
def exec (fuel : Nat) (m : Kmem) (p : Proc) (ip : Option Inode) (path : List Byte)
    (argv : List (List Byte)) : Except Err (Int × Kmem × Proc) :=
  match ip with
  | none => .ok (-1, m, p)
  | some ip =>
    match readi ip 0 0 elfhdrSize with
    | none => .ok (-1, m, p)
    | some elf =>
      if elf.length ≠ elfhdrSize then .ok (-1, m, p) else
      if field32 elf 0 ≠ elfMagic then .ok (-1, m, p) else do
      let (pgdir, m) ← setupkvm cfg m
      match pgdir with
      | none => .ok (-1, m, p)
      | some pd => do
        let (good, s, sz) ← execLoad cfg ip (field16 elf 44) ⟨m, pd⟩ 0 (field32 elf 28) 1
        if !good then execBad cfg s p else
        execStack cfg fuel s p path argv sz (field32 elf 24)

end Xv6Clock
