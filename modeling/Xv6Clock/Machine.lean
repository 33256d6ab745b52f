/-
  File:      Xv6Clock/Machine.lean
  Subject:   The machine: processes that access memory and make system calls, one operation at a
             time, in any order.

  A user access that the MMU refuses is a page fault. `trap` hands it to `mdecrypt`; if that
  returns 0 the access is made again, which here is a new operation, otherwise the process is
  killed. Accesses the kernel makes to user memory for a system call (its arguments, the strings
  of exec, the descriptors of pipe) are operations of their own before or after the call.
-/
import Xv6Clock.Overrun

namespace Xv6Clock

variable (cfg : Config)

/-! ## 1. Operations -/

/-- What a process does with its own memory. -/
inductive MemOp where
  | read (va : Word)
  | write (va : Word) (b : Byte)
  | mencrypt (va len : Word)
  | sbrk (n : Word)
  | exec (ip : Option Inode) (path : List Byte) (argv : List (List Byte))

inductive Op where
  | mem (o : MemOp)
  | fork
  | exit
  | wait
  | pipe
  | close (fd : Nat)

/-- What an operation ends with. -/
inductive Out where
  /-- The byte read. -/
  | byte (b : Byte)
  /-- The byte is written. -/
  | done
  /-- The page was decrypted and the access is made again. -/
  | again
  /-- The process was killed. -/
  | killed
  /-- The call returned. -/
  | ret (r : Int)
  | waited (w : Waited)
  | exited
  deriving DecidableEq

/-- A page fault of user code: the page is decrypted, or the process is killed. -/
def userFault (m : Kmem) (p : Proc) (va : Nat) : Except Err (Out × Kmem × Proc) := do
  let (r, m, p) ← pageFault cfg m p va
  if r = 0 then .ok (.again, m, p) else .ok (.killed, m, { p with killed := true })

def userRead (m : Kmem) (p : Proc) (va : Nat) : Except Err (Out × Kmem × Proc) :=
  if p.reaches va then .ok (.byte (m.mem (p.frameOf va) (va % pgSize)), m, p.touch va)
  else userFault cfg m p va

def userWrite (m : Kmem) (p : Proc) (va : Nat) (b : Byte) : Except Err (Out × Kmem × Proc) :=
  if p.reaches va && has (p.pgdir.pteAt (vpn va)) pteW then
    .ok (.done, m.setPage (p.frameOf va)
      (Function.update (m.mem (p.frameOf va)) (va % pgSize) b), p.touch va)
  else userFault cfg m p va

/-- An operation of a process on its own memory. -/
def memStep (fuel : Nat) (m : Kmem) (p : Proc) : MemOp → Except Err (Out × Kmem × Proc)
  | .read va => userRead cfg m p va.toNat
  | .write va b => userWrite cfg m p va.toNat b
  | .mencrypt va len => do
    let (r, m, p) ← sysMencrypt m p va.toNat len.toInt
    .ok (.ret r, m, p)
  | .sbrk n => do
    let (r, m, p) ← sysSbrk cfg m p n.toInt
    .ok (.ret r, m, p)
  | .exec ip path argv => do
    let (r, m, p) ← exec cfg fuel m p ip path argv
    .ok (.ret r, m, p)

/-- **One operation of process `i`.** -/
def step (fuel : Nat) (k : Kernel) (i : Nat) (op : Op) : Except Err (Out × Kernel) :=
  if ¬ (i < nproc ∧ (k.proc i).state = .runnable) then .error .notRunning else
  match op with
  | .mem o => do
    let (out, m, p) ← memStep cfg fuel k.kmem (k.proc i) o
    let k := (k.setKmem m).setProc i p
    if out = .killed then do
      let k ← exit cfg k i
      .ok (.killed, k)
    else .ok (out, k)
  | .fork => do
    let (r, k) ← fork cfg fuel k i
    .ok (.ret r, k)
  | .exit => do
    let k ← exit cfg k i
    .ok (.exited, k)
  | .wait => do
    let (w, k) ← wait cfg k i
    .ok (.waited w, k)
  | .pipe => do
    let (r, m, t, o) ← sysPipe cfg k.kmem k.files (k.proc i).ofile
    .ok (.ret r, ((k.setKmem m).setFiles t).setProc i { k.proc i with ofile := o })
  | .close fd => do
    let (r, m, t, o) ← sysClose cfg k.kmem k.files (k.proc i).ofile fd
    .ok (.ret r, ((k.setKmem m).setFiles t).setProc i { k.proc i with ofile := o })

/-! ## 2. Runs -/

/-- **Reachable states**, by operations of any processes that each meet `Ok` in the state they
    start from. An exec may also overrun, which no operation of one process describes. -/
inductive Run (Ok : Kernel → Nat → Op → Prop) (k0 : Kernel) : Kernel → Prop where
  | start : Run Ok k0 k0
  | step {k k' : Kernel} {i fuel : Nat} {op : Op} {o : Out} (h : Run Ok k0 k) (hok : Ok k i op)
      (hs : step cfg fuel k i op = .ok (o, k')) : Run Ok k0 k'
  | overrun {k k' : Kernel} {i : Nat} {ip : Inode} {path arg : List Byte} {args : List (List Byte)}
      (h : Run Ok k0 k) (hi : i < nproc) (hr : (k.proc i).state = .runnable)
      (hok : Ok k i (.mem (.exec (some ip) path (arg :: args))))
      (ho : Overrun cfg k i ip arg k') : Run Ok k0 k'

/-- What holds at the start and is kept by every operation that meets `Ok` holds in every reachable
    state, where `Ok` keeps the arguments of exec short. -/
theorem Run.inv {Ok : Kernel → Nat → Op → Prop} {k0 k : Kernel} {I : Kernel → Prop}
    (h : Run cfg Ok k0 k) (h0 : I k0)
    (hshort : ∀ {k : Kernel} {i : Nat} {ip : Option Inode} {path : List Byte}
      {argv : List (List Byte)}, Ok k i (.mem (.exec ip path argv)) → ArgsShort argv)
    (hs : ∀ {k k' : Kernel} {i fuel : Nat} {op : Op} {o : Out},
      I k → Ok k i op → Xv6Clock.step cfg fuel k i op = .ok (o, k') → I k') : I k := by
  induction h with
  | start => exact h0
  | step _ hok hst ih => exact hs ih hok hst
  | overrun _ _ _ hok ho _ => exact absurd (hshort hok) (ho.long cfg _)

/-- A weaker condition allows more runs. -/
theorem Run.mono {Ok Ok' : Kernel → Nat → Op → Prop} {k0 k : Kernel} (h : Run cfg Ok k0 k)
    (hok : ∀ {k : Kernel} {i : Nat} {op : Op}, Ok k i op → Ok' k i op) : Run cfg Ok' k0 k := by
  induction h with
  | start => exact .start
  | step _ h1 hs ih => exact .step ih (hok h1) hs
  | overrun _ hi hr h1 ho ih => exact .overrun ih hi hr (hok h1) ho

/-! ## 3. Operations on memory -/

variable {p p' : Proc} {va : Nat} {m m' : Kmem}

theorem reaches_mapped (h : p.reaches va = true) : mapped (p.pgdir.pteAt (vpn va)) = true := by
  unfold Proc.reaches at h
  rw [Bool.and_eq_true] at h
  exact mapped_of_P h.1

/-- User code reaches pages below KERNBASE only. -/
theorem reaches_lt (hp : Sane p) (h : p.reaches va = true) : vpn va < 2 ^ 19 := by
  unfold Proc.reaches at h
  rw [Bool.and_eq_true] at h
  exact hp.high.lt h.2

/-- A store to a page that the process reaches. -/
theorem step_write (k : Kernel) (i fuel : Nat) (va : Word) (b : Byte) (hi : i < nproc)
    (hr : (k.proc i).state = .runnable) (h : (k.proc i).reaches va.toNat = true)
    (hW : has ((k.proc i).pgdir.pteAt (vpn va.toNat)) pteW = true) :
    step cfg fuel k i (.mem (.write va b)) = .ok (.done,
      (k.setKmem (k.kmem.setPage ((k.proc i).frameOf va.toNat) (Function.update
        (k.kmem.mem ((k.proc i).frameOf va.toNat)) (va.toNat % pgSize) b))).setProc i
        ((k.proc i).touch va.toNat)) := by
  unfold step memStep userWrite
  rw [if_neg (not_not.mpr ⟨hi, hr⟩)]
  simp only [h, hW, Bool.and_self, if_true, Lib.ok_bind, reduceCtorEq, if_false]

variable {o : Out}

/-- A fault of user code: what `mdecrypt` did, and whether the process goes on. -/
theorem userFault_ok (h : userFault cfg m p va = .ok (o, m', p')) :
    ∃ r s q, mdecrypt cfg (p.vm m) p.q va = .ok (r, s, q) ∧ m' = s.m ∧
      (r = 0 ∧ o = .again ∧ p' = { p with pgdir := s.pd, q := q } ∨
        r ≠ 0 ∧ o = .killed ∧ p' = { p with pgdir := s.pd, q := q, killed := true }) := by
  obtain ⟨⟨r, m1, p1⟩, h1, h2⟩ := Lib.bind_eq_ok.mp h
  obtain ⟨⟨r1, s, q⟩, h3, h4⟩ := Lib.bind_eq_ok.mp h1
  cases h4
  dsimp only at h2
  refine ⟨r, s, q, h3, ?_⟩
  split at h2
  · rename_i hr
    cases h2
    exact ⟨rfl, .inl ⟨hr, rfl, rfl⟩⟩
  · rename_i hr
    cases h2
    exact ⟨rfl, .inr ⟨hr, rfl, rfl⟩⟩

theorem userFault_step (hp : Sane p) (hva : va < 2 ^ 32)
    (h : userFault cfg m p va = .ok (o, m', p')) : FaultStep cfg m p m' p' := by
  obtain ⟨r, s, q, h1, rfl, ⟨-, -, rfl⟩ | ⟨-, -, rfl⟩⟩ := userFault_ok cfg h
  · exact mdecrypt_step cfg hp hva h1
  · have h2 := mdecrypt_step cfg hp hva h1
    refine ⟨⟨h2.count, h2.mem, h2.twice, h2.kstack, h2.state, h2.parent, h2.ofile,
      ⟨h2.sane.high, h2.sane.size⟩⟩, h2.pd, h2.sz, fun hq => ?_, h2.list, h2.once, h2.holds⟩
    obtain ⟨h3, h4, h5, h6⟩ := h2.queue hq
    exact ⟨⟨h3.high, h3.size⟩, h4, h5, h6⟩

/-- The contents of a page the process can reach change. -/
theorem FaultStep.setPage {f : Frame} (h : FaultStep cfg m p m' p') (hf : 1 ≤ p'.pgdir.holds f)
    (pg : Page) : FaultStep cfg m p (m'.setPage f pg) p' :=
  ⟨h.toProcStep.trans (ProcStep.setPage h.sane hf pg), h.pd, h.sz, h.queue, h.list, h.once,
    h.holds⟩

theorem sysSbrk_ok {n r : Int} (h : sysSbrk cfg m p n = .ok (r, m', p')) :
    ∃ r', growproc cfg m p n = .ok (r', m', p') := by
  unfold sysSbrk at h
  obtain ⟨⟨r1, m1, p1⟩, h1, h2⟩ := Lib.bind_eq_ok.mp h
  dsimp only at h2
  split at h2
  · cases h2
    exact ⟨r1, h1⟩
  · simp only [Except.ok.injEq, Prod.mk.injEq] at h2
    obtain ⟨-, rfl, rfl⟩ := h2
    exact ⟨r1, h1⟩

/-- **What an operation on memory that returns has done.** A refused access is a fault. -/
inductive MemStepped (fuel : Nat) (m : Kmem) (p : Proc) : MemOp → Out → Kmem → Proc → Prop where
  | read {va : Word} (hr : p.reaches va.toNat = true) : MemStepped fuel m p (.read va)
      (.byte (m.mem (p.frameOf va.toNat) (va.toNat % pgSize))) m (p.touch va.toNat)
  | write {va : Word} {b : Byte} (hr : p.reaches va.toNat = true) :
      MemStepped fuel m p (.write va b) .done (m.setPage (p.frameOf va.toNat)
        (Function.update (m.mem (p.frameOf va.toNat)) (va.toNat % pgSize) b)) (p.touch va.toNat)
  | fault {op : MemOp} {o : Out} {m' : Kmem} {p' : Proc} (va : Word)
      (hop : op = .read va ∨ ∃ b, op = .write va b)
      (hr : p.reaches va.toNat = false ∨ has (p.pgdir.pteAt (vpn va.toNat)) pteW = false)
      (h : userFault cfg m p va.toNat = .ok (o, m', p')) : MemStepped fuel m p op o m' p'
  | mencrypt {va len : Word} {r : Int} {m' : Kmem} {p' : Proc}
      (h : sysMencrypt m p va.toNat len.toInt = .ok (r, m', p')) :
      MemStepped fuel m p (.mencrypt va len) (.ret r) m' p'
  | sbrk {n : Word} {r : Int} {m' : Kmem} {p' : Proc}
      (h : sysSbrk cfg m p n.toInt = .ok (r, m', p')) :
      MemStepped fuel m p (.sbrk n) (.ret r) m' p'
  | exec {ip : Option Inode} {path : List Byte} {argv : List (List Byte)} {r : Int} {m' : Kmem}
      {p' : Proc} (h : Xv6Clock.exec cfg fuel m p ip path argv = .ok (r, m', p')) :
      MemStepped fuel m p (.exec ip path argv) (.ret r) m' p'

variable {fuel : Nat} {op : MemOp}

theorem memStep_ok (h : memStep cfg fuel m p op = .ok (o, m', p')) :
    MemStepped cfg fuel m p op o m' p' := by
  cases op with
  | read va =>
    change userRead cfg m p va.toNat = _ at h
    unfold userRead at h
    split at h
    · rename_i hr
      cases h
      exact .read hr
    · rename_i hr
      exact .fault va (.inl rfl) (.inl (by simpa using hr)) h
  | write va b =>
    change userWrite cfg m p va.toNat b = _ at h
    unfold userWrite at h
    split at h
    · rename_i hr
      rw [Bool.and_eq_true] at hr
      cases h
      exact .write hr.1
    · rename_i hr
      exact .fault va (.inr ⟨b, rfl⟩) (Bool.and_eq_false_iff.mp (by simpa using hr)) h
  | mencrypt | sbrk | exec =>
    obtain ⟨⟨r, m1, p1⟩, h1, h2⟩ := Lib.bind_eq_ok.mp h
    cases h2
    first | exact .mencrypt h1 | exact .sbrk h1 | exact .exec h1

/-- **An operation on memory is a step of its process**: an access or an encryption, which leaves
    frames and size as they are, or `growproc` or `exec`. -/
theorem memStep_kind (hp : Sane p) (h : memStep cfg fuel m p op = .ok (o, m', p')) :
    FaultStep cfg m p m' p' ∨ (∃ n r, op = .sbrk n ∧ Growproc m p n.toInt r m' p') ∨
      ∃ ip path argv r, op = .exec ip path argv ∧ Execd cfg m p r m' p' := by
  cases memStep_ok cfg h with
  | read hr => exact .inl (touch_step cfg hp (reaches_mapped hr))
  | write hr =>
    have hm := reaches_mapped hr
    have ht := touch_step cfg (m := m) hp hm
    refine .inl (ht.setPage cfg ?_ _)
    rw [ht.holds]
    exact PgDir.one_le_holds hm (reaches_lt hp hr)
  | fault va _ _ h1 => exact .inl (userFault_step cfg hp va.isLt h1)
  | mencrypt h1 => exact .inl (sysMencrypt_step cfg hp h1)
  | @sbrk n r _ _ h1 =>
    obtain ⟨r', h2⟩ := sysSbrk_ok cfg h1
    exact .inr (.inl ⟨n, r', rfl, growproc_ok cfg hp BitVec.toInt_lt h2⟩)
  | exec h1 => exact .inr (.inr ⟨_, _, _, _, rfl, exec_ok cfg hp h1⟩)

theorem memStep_step (hp : Sane p) (h : memStep cfg fuel m p op = .ok (o, m', p')) :
    ProcStep m p m' p' := by
  rcases memStep_kind cfg hp h with h1 | ⟨n, r, -, h1⟩ | ⟨ip, path, argv, r, -, h1⟩
  · exact h1.toProcStep
  · exact h1.step hp
  · exact h1.step

end Xv6Clock
