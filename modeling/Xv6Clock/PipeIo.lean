/-
  File:      Xv6Clock/PipeIo.lean
  Subject:   Reading and writing a pipe (`pipewrite`, `piperead`, `pipeclose`, pipe.c).

  Any number of processes are inside calls on one pipe. A process moves on only while it holds the
  lock of the pipe, one test or one byte at a time; it gives the lock up when it sleeps or returns.
  The counters are words that wrap around, the bytes are in `data[counter % PIPESIZE]`.

  What the readers got is always the beginning of what the writers stored.
-/
import Xv6Clock.Lib.Reach
import Xv6Clock.Lib.Ring
import Xv6Clock.Mmu

namespace Xv6Clock.PipeIo

/-! ## 1. The pipe -/

def pipeSize : Nat := 512

/-- `struct pipe`, without its lock. -/
structure PipeBuf where
  data : Nat → Byte
  nread : Word
  nwrite : Word
  readopen : Bool
  writeopen : Bool

/-- `p->nwrite == p->nread + PIPESIZE`. -/
def PipeBuf.full (p : PipeBuf) : Bool := p.nwrite == p.nread + BitVec.ofNat 32 pipeSize

/-- `p->nread == p->nwrite`. -/
def PipeBuf.empty (p : PipeBuf) : Bool := p.nread == p.nwrite

/-- `p->data[p->nwrite++ % PIPESIZE] = b`. -/
def PipeBuf.store (p : PipeBuf) (b : Byte) : PipeBuf :=
  { p with data := Function.update p.data (p.nwrite.toNat % pipeSize) b, nwrite := p.nwrite + 1 }

/-- The byte at `p->data[p->nread % PIPESIZE]`. -/
def PipeBuf.front (p : PipeBuf) : Byte := p.data (p.nread.toNat % pipeSize)

/-- `p->nread++`. -/
def PipeBuf.advance (p : PipeBuf) : PipeBuf := { p with nread := p.nread + 1 }

/-- The pipe that `pipealloc` makes, in a page with any contents. -/
def PipeBuf.new (data : Nat → Byte) : PipeBuf := ⟨data, 0, 0, true, true⟩

/-! ## 2. Processes in calls -/

/-- Where a process is. -/
inductive Pc where
  | out
  /-- In `pipewrite` before byte `i`, waiting for the lock. -/
  | writeEnter (addr : List Byte) (i : Nat)
  /-- At the head of the loop of `pipewrite`, with the lock. -/
  | writeLoop (addr : List Byte) (i : Nat)
  /-- Asleep on `&p->nwrite`. -/
  | writeSleep (addr : List Byte) (i : Nat)
  /-- In `piperead`, waiting for the lock. -/
  | readEnter (n : Int)
  /-- At the first loop of `piperead`, with the lock. -/
  | readLoop (n : Int)
  /-- Asleep on `&p->nread`. -/
  | readSleep (n : Int)
  /-- At the loop of `piperead` that copies, with the lock. -/
  | readCopy (n : Int) (got : List Byte)

/-- What a call returns. -/
inductive Ret where
  | wrote (n : Nat)
  | writeFailed
  | read (n : Int) (got : List Byte)
  | readFailed

/-- The pipe and its users. `stored` and `returned` are histories: the bytes stored, and the bytes
    that calls of `piperead` have returned. -/
structure Sys where
  pipe : PipeBuf
  freed : Bool
  lock : Option Nat
  pc : Nat → Pc
  killed : Nat → Bool
  stored : List Byte
  returned : List Byte

/-- `wakeup(&p->nread)`. -/
def Pc.wakeRead : Pc → Pc
  | .readSleep n => .readEnter n
  | c => c

/-- `wakeup(&p->nwrite)`. -/
def Pc.wakeWrite : Pc → Pc
  | .writeSleep addr i => .writeEnter addr i
  | c => c

/-- A process that is killed is woken. -/
def Pc.wake (c : Pc) : Pc := c.wakeRead.wakeWrite

/-- Process `i` goes on at `c`, without the lock. -/
def Sys.leave (s : Sys) (i : Nat) (c : Pc) : Sys :=
  { s with lock := none, pc := Function.update s.pc i c }

/-- Process `i` goes on at `c`. -/
def Sys.goto (s : Sys) (i : Nat) (c : Pc) : Sys := { s with pc := Function.update s.pc i c }

def Sys.wakeReaders (s : Sys) : Sys := { s with pc := fun j => (s.pc j).wakeRead }

def Sys.wakeWriters (s : Sys) : Sys := { s with pc := fun j => (s.pc j).wakeWrite }

/-- A round of the loop of `pipewrite`. -/
def pipewrite (s : Sys) (i : Nat) (addr : List Byte) (j : Nat) : Option Ret × Sys :=
  if addr.length ≤ j then (some (.wrote addr.length), s.wakeReaders.leave i .out)
  else if s.pipe.full then
    if !s.pipe.readopen || s.killed i then (some .writeFailed, s.leave i .out)
    else (none, s.wakeReaders.leave i (.writeSleep addr j))
  else (none, { s.goto i (.writeLoop addr (j + 1)) with
    pipe := s.pipe.store (addr.getD j 0), stored := s.stored ++ [addr.getD j 0] })

/-- A round of the loop of `piperead` that waits. -/
def pipereadWait (s : Sys) (i : Nat) (n : Int) : Option Ret × Sys :=
  if s.pipe.empty && s.pipe.writeopen then
    if s.killed i then (some .readFailed, s.leave i .out) else (none, s.leave i (.readSleep n))
  else (none, s.goto i (.readCopy n []))

/-- A round of the loop of `piperead` that copies. -/
def pipereadCopy (s : Sys) (i : Nat) (n : Int) (got : List Byte) : Option Ret × Sys :=
  if n ≤ got.length || s.pipe.empty then
    (some (.read n got), { s.wakeWriters.leave i .out with returned := s.returned ++ got })
  else (none, { s.goto i (.readCopy n (got ++ [s.pipe.front])) with pipe := s.pipe.advance })

/-- `pipeclose`; the page is freed with the second end. -/
def pipeclose (s : Sys) (writable : Bool) : Sys :=
  let s := if writable then { s.wakeReaders with pipe := { s.pipe with writeopen := false } }
    else { s.wakeWriters with pipe := { s.pipe with readopen := false } }
  { s with freed := !s.pipe.readopen && !s.pipe.writeopen }

/-- What can happen. -/
inductive Act where
  | callWrite (i : Nat) (addr : List Byte)
  | callRead (i : Nat) (n : Int)
  | acquire (i : Nat)
  | run (i : Nat)
  | kill (i : Nat)
  | close (writable : Bool)

/-- **One step**, and what a call that ends with it returns. -/
def step (s : Sys) (a : Act) : Option (Option Ret × Sys) :=
  if s.freed then none else
  match a with
  | .callWrite i addr =>
    match s.pc i with
    | .out => some (none, s.goto i (.writeEnter addr 0))
    | _ => none
  | .callRead i n =>
    match s.pc i with
    | .out => some (none, s.goto i (.readEnter n))
    | _ => none
  | .acquire i =>
    if s.lock.isSome then none else
    match s.pc i with
    | .writeEnter addr j => some (none, { s.goto i (.writeLoop addr j) with lock := some i })
    | .readEnter n => some (none, { s.goto i (.readLoop n) with lock := some i })
    | _ => none
  | .run i =>
    if s.lock ≠ some i then none else
    match s.pc i with
    | .writeLoop addr j => some (pipewrite s i addr j)
    | .readLoop n => some (pipereadWait s i n)
    | .readCopy n got => some (pipereadCopy s i n got)
    | _ => none
  | .kill i =>
    some (none, { s.goto i (s.pc i).wake with killed := Function.update s.killed i true })
  | .close writable => if s.lock.isSome then none else some (none, pipeclose s writable)

/-- The users of a new pipe. -/
def Sys.start (data : Nat → Byte) : Sys where
  pipe := .new data
  freed := false
  lock := none
  pc := fun _ => .out
  killed := fun _ => false
  stored := []
  returned := []

/-- **Reachable states**, by any interleaving. -/
def Reachable (data : Nat → Byte) : Sys → Prop :=
  Lib.Reach (fun s (a : Act × Option Ret) s' => step s a.1 = some (a.2, s')) (Sys.start data)

/-! ## 3. The ring -/

/-- The bytes a reader with the lock has copied and not yet returned. -/
def Pc.got : Pc → List Byte
  | .readCopy _ got => got
  | _ => []

def Sys.inflight (s : Sys) : List Byte :=
  match s.lock with
  | some i => (s.pc i).got
  | none => []

/-- The ring of the pipe, with the counters as numbers. -/
def PipeBuf.Holds (p : PipeBuf) (stored : List Byte) (R : Nat) : Prop :=
  Lib.Ring pipeSize (2 ^ 32) p.data p.nread.toNat p.nwrite.toNat stored R

section
variable {p : PipeBuf} {stored : List Byte} {R : Nat} (h : p.Holds stored R)
include h

theorem PipeBuf.Holds.empty_iff : p.empty = true ↔ R = stored.length := by
  unfold PipeBuf.empty
  rw [beq_iff_eq, BitVec.toNat_eq]
  exact Lib.Ring.empty_iff h (by decide)

theorem PipeBuf.Holds.full_iff : p.full = true ↔ stored.length = R + pipeSize := by
  unfold PipeBuf.full
  rw [beq_iff_eq, BitVec.toNat_eq, BitVec.toNat_add]
  exact Lib.Ring.full_iff h (by decide)

theorem PipeBuf.Holds.store (hf : p.full = false) (b : Byte) :
    (p.store b).Holds (stored ++ [b]) R := by
  have hne : stored.length ≠ R + pipeSize := fun hc => by
    rw [h.full_iff.mpr hc] at hf
    cases hf
  have hw : (p.store b).nwrite.toNat = (p.nwrite.toNat + 1) % 2 ^ 32 := BitVec.toNat_add _ _
  unfold PipeBuf.Holds
  rw [hw]
  exact Lib.Ring.store h (by decide) hne b

theorem PipeBuf.Holds.advance (he : p.empty = false) :
    stored[R]? = some p.front ∧ p.advance.Holds stored (R + 1) := by
  have hne : R ≠ stored.length := fun hc => by
    rw [h.empty_iff.mpr hc] at he
    cases he
  obtain ⟨h1, h2⟩ := Lib.Ring.take h (by decide) hne
  have hr : p.advance.nread.toNat = (p.nread.toNat + 1) % 2 ^ 32 := BitVec.toNat_add _ _
  refine ⟨h1, ?_⟩
  unfold PipeBuf.Holds
  rw [hr]
  exact h2

end

/-! ## 4. The invariant -/

/-- A reader that starts to copy found something to copy, or a closed write end. -/
def Pc.fresh : Pc → Bool
  | .readCopy _ [] => true
  | _ => false

/-- **The bytes returned and in flight are the first bytes stored; the ring has the rest.** -/
structure Inv (s : Sys) : Prop where
  ring : s.pipe.Holds s.stored (s.returned ++ s.inflight).length
  fifo : s.returned ++ s.inflight <+: s.stored
  fresh : ∀ i, s.lock = some i → (s.pc i).fresh = true →
    s.pipe.empty = false ∨ s.pipe.writeopen = false

theorem inv_start (data : Nat → Byte) : Inv (Sys.start data) where
  ring := Lib.Ring.empty data
  fifo := List.prefix_rfl
  fresh _ h _ := by cases h

@[simp] theorem Pc.got_wakeRead (c : Pc) : c.wakeRead.got = c.got := by cases c <;> rfl

@[simp] theorem Pc.got_wakeWrite (c : Pc) : c.wakeWrite.got = c.got := by cases c <;> rfl

@[simp] theorem Pc.fresh_wakeRead (c : Pc) : c.wakeRead.fresh = c.fresh := by cases c <;> rfl

@[simp] theorem Pc.fresh_wakeWrite (c : Pc) : c.wakeWrite.fresh = c.fresh := by cases c <;> rfl

variable {s s' : Sys} {i : Nat} {n : Int}

/-- A step that leaves the ring alone, and at whose end a process with the lock has copied what
    it had copied before. -/
theorem Inv.same (h : Inv s) (hd : s'.pipe.data = s.pipe.data)
    (hr : s'.pipe.nread = s.pipe.nread) (hw : s'.pipe.nwrite = s.pipe.nwrite)
    (hs : s'.stored = s.stored) (hret : s'.returned ++ s'.inflight = s.returned ++ s.inflight)
    (hf : ∀ i, s'.lock = some i → (s'.pc i).fresh = true →
      s'.pipe.empty = false ∨ s'.pipe.writeopen = false) : Inv s' := by
  refine ⟨?_, ?_, hf⟩
  · rw [hret, hs]
    unfold PipeBuf.Holds
    rw [hd, hr, hw]
    exact h.ring
  · rw [hret, hs]
    exact h.fifo

/-- The process with the lock gives it up, having copied nothing that it did not return. -/
theorem Inv.leave (h : Inv s) (hp : s'.pipe = s.pipe) (hl : s'.lock = none)
    (hs : s'.stored = s.stored) (hret : s'.returned = s.returned ++ s.inflight) : Inv s' := by
  refine h.same (by rw [hp]) (by rw [hp]) (by rw [hp]) hs ?_ fun i hi _ => ?_
  · unfold Sys.inflight
    rw [hl, hret]
    exact List.append_nil _
  · rw [hl] at hi
    cases hi

variable {c : Pc}

theorem inflight_eq (h : s.lock = some i) (hc : s.pc i = c) : s.inflight = c.got := by
  unfold Sys.inflight
  rw [h, ← hc]

/-- The process with the lock has moved one byte. -/
theorem Inv.moved (hl : s.lock = some i) (hc : s.pc i = c) (hf : c.fresh = false)
    (ring : s.pipe.Holds s.stored (s.returned ++ c.got).length)
    (fifo : s.returned ++ c.got <+: s.stored) : Inv s := by
  have hin := inflight_eq hl hc
  refine ⟨by rw [hin]; exact ring, by rw [hin]; exact fifo, fun j hj hfr => ?_⟩
  have e : j = i := Option.some.inj (hj.symm.trans hl)
  rw [e, hc, hf] at hfr
  cases hfr

variable {r : Option Ret}

theorem pipewrite_inv {j : Nat} {addr : List Byte} (h : Inv s) (hl : s.lock = some i)
    (hpc : s.pc i = .writeLoop addr j) (hs : pipewrite s i addr j = (r, s')) : Inv s' := by
  have hin : s.inflight = [] := inflight_eq hl hpc
  have hret : s.returned = s.returned ++ s.inflight := by rw [hin, List.append_nil]
  unfold pipewrite at hs
  split at hs
  · cases hs
    exact h.leave rfl rfl rfl hret
  split at hs
  · split at hs
    · cases hs
      exact h.leave rfl rfl rfl hret
    · cases hs
      exact h.leave rfl rfl rfl hret
  · rename_i hfull
    cases hs
    have hring := h.ring
    have hfifo := h.fifo
    rw [hin] at hring hfifo
    have hpc' : (s.goto i (.writeLoop addr (j + 1))).pc i = .writeLoop addr (j + 1) :=
      Function.update_self _ _ _
    exact .moved hl hpc' rfl (hring.store (by simpa using hfull) _)
      (hfifo.trans (List.prefix_append _ _))

theorem pipereadWait_inv (h : Inv s) (hl : s.lock = some i) (hpc : s.pc i = .readLoop n)
    (hs : pipereadWait s i n = (r, s')) : Inv s' := by
  have hin : s.inflight = [] := inflight_eq hl hpc
  have hret : s.returned = s.returned ++ s.inflight := by rw [hin, List.append_nil]
  unfold pipereadWait at hs
  split at hs
  · split at hs
    · cases hs
      exact h.leave rfl rfl rfl hret
    · cases hs
      exact h.leave rfl rfl rfl hret
  · rename_i hne
    cases hs
    have hpc' : (s.goto i (.readCopy n [])).pc i = .readCopy n [] := Function.update_self _ _ _
    have hin' : (s.goto i (.readCopy n [])).inflight = [] :=
      inflight_eq (s := s.goto i (.readCopy n [])) hl hpc'
    refine h.same rfl rfl rfl rfl ?_ fun i' hi _ => ?_
    · rw [hin, hin']
      rfl
    · -- the test of the loop failed
      rw [Bool.and_eq_true, not_and_or, Bool.not_eq_true, Bool.not_eq_true] at hne
      exact hne

theorem prefix_concat {α : Type*} {l t : List α} {x : α} (h : l <+: t)
    (hx : t[l.length]? = some x) : l ++ [x] <+: t := by
  obtain ⟨u, rfl⟩ := h
  rw [List.getElem?_append_right (Nat.le_refl _), Nat.sub_self] at hx
  cases u with
  | nil => cases hx
  | cons y u =>
    cases hx
    exact ⟨u, by simp⟩

theorem pipereadCopy_inv {got : List Byte} (h : Inv s) (hl : s.lock = some i)
    (hpc : s.pc i = .readCopy n got) (hs : pipereadCopy s i n got = (r, s')) : Inv s' := by
  have hin : s.inflight = got := inflight_eq hl hpc
  unfold pipereadCopy at hs
  split at hs
  · cases hs
    exact h.leave rfl rfl rfl (by rw [hin])
  rename_i hne
  rw [Bool.or_eq_true, not_or, Bool.not_eq_true, Bool.not_eq_true] at hne
  cases hs
  obtain ⟨h1, h2⟩ := h.ring.advance hne.2
  have hfifo := prefix_concat h.fifo h1
  rw [hin, List.append_assoc] at hfifo
  rw [hin] at h2
  have hpc' : (s.goto i (.readCopy n (got ++ [s.pipe.front]))).pc i =
      .readCopy n (got ++ [s.pipe.front]) := Function.update_self _ _ _
  refine .moved hl hpc' (by cases got <;> rfl) ?_ hfifo
  have hlen : (s.returned ++ (got ++ [s.pipe.front])).length =
      (s.returned ++ got).length + 1 := by
    simp only [List.length_append, List.length_singleton]
    omega
  exact hlen ▸ h2

/-- A process without the lock, or before copying, moves on to where it has copied nothing. -/
theorem Inv.goto (h : Inv s) (hold : (s.pc i).got = c.got) (hf : (s.pc i).fresh = c.fresh) :
    Inv (s.goto i c) := by
  refine h.same rfl rfl rfl rfl ?_ fun j hj hfr => ?_
  · congr 1
    unfold Sys.inflight Sys.goto
    cases s.lock with
    | none => rfl
    | some j =>
      by_cases hj : j = i
      · subst hj
        simp [hold]
      · simp [Function.update_of_ne hj]
  · refine h.fresh j hj ?_
    unfold Sys.goto at hfr
    by_cases hji : j = i
    · subst hji
      simpa [hf] using hfr
    · simpa [Function.update_of_ne hji] using hfr

/-- The lock is taken by a process that has copied nothing. -/
theorem Inv.lock (h : Inv s) (hl : s.lock = none) (hg : (s.pc i).got = [])
    (hf : (s.pc i).fresh = false) : Inv { s with lock := some i } := by
  refine h.same rfl rfl rfl rfl ?_ fun j hj hfr => ?_
  · unfold Sys.inflight
    simp only [hl, hg]
  · cases hj
    rw [hf] at hfr
    cases hfr

theorem pipeclose_inv (h : Inv s) (hl : s.lock = none) (w : Bool) : Inv (pipeclose s w) := by
  have hlock : (pipeclose s w).lock = none := by
    cases w <;> exact hl
  have hin : (pipeclose s w).inflight = s.inflight := by
    unfold Sys.inflight
    rw [hlock, hl]
  refine h.same ?_ ?_ ?_ ?_ ?_ fun i hi _ => ?_
  · cases w <;> rfl
  · cases w <;> rfl
  · cases w <;> rfl
  · cases w <;> rfl
  · rw [hin]
    cases w <;> rfl
  · rw [hlock] at hi
    cases hi

/-- **One step keeps the invariant.** -/
theorem step_inv {a : Act} (h : Inv s) (hs : step s a = some (r, s')) : Inv s' := by
  unfold step at hs
  split at hs
  · cases hs
  cases a with
  | callWrite i addr =>
    simp only at hs
    split at hs
    · rename_i hpc
      cases hs
      exact h.goto (by rw [hpc]; rfl) (by rw [hpc]; rfl)
    · cases hs
  | callRead i n =>
    simp only at hs
    split at hs
    · rename_i hpc
      cases hs
      exact h.goto (by rw [hpc]; rfl) (by rw [hpc]; rfl)
    · cases hs
  | acquire i =>
    simp only at hs
    split at hs
    · cases hs
    · rename_i hfree
      have hl : s.lock = none := by simpa using hfree
      split at hs
      · rename_i addr j hpc
        cases hs
        refine (h.goto (i := i) (c := .writeLoop addr j) ?_ ?_).lock hl ?_ ?_ <;>
          simp [Sys.goto, hpc, Pc.got, Pc.fresh]
      · rename_i n hpc
        cases hs
        refine (h.goto (i := i) (c := .readLoop n) ?_ ?_).lock hl ?_ ?_ <;>
          simp [Sys.goto, hpc, Pc.got, Pc.fresh]
      · cases hs
  | run i =>
    simp only at hs
    split at hs
    · cases hs
    · rename_i hlock
      have hl : s.lock = some i := not_not.mp hlock
      split at hs
      · rename_i addr j hpc
        exact pipewrite_inv h hl hpc (Option.some.inj hs)
      · rename_i n hpc
        exact pipereadWait_inv h hl hpc (Option.some.inj hs)
      · rename_i n got hpc
        exact pipereadCopy_inv h hl hpc (Option.some.inj hs)
      · cases hs
  | kill i =>
    cases hs
    have h1 : Inv (s.goto i (s.pc i).wake) := h.goto (by simp [Pc.wake]) (by simp [Pc.wake])
    exact ⟨h1.ring, h1.fifo, h1.fresh⟩
  | close w =>
    simp only at hs
    split at hs
    · cases hs
    · rename_i hfree
      cases hs
      exact pipeclose_inv h (by simpa using hfree) w

theorem reachable_inv {data : Nat → Byte} (h : Reachable data s) : Inv s :=
  h.inv (inv_start data) fun hi hs => step_inv hi hs

/-! ## 5. What a call of `piperead` returns -/

/-- A call of `piperead` returns from the copying loop. -/
theorem read_returns {a : Act} {got : List Byte}
    (hs : step s a = some (some (.read n got), s')) : ∃ i, s.lock = some i ∧
      s.pc i = .readCopy n got ∧ (n ≤ got.length ∨ s.pipe.empty = true) ∧
      s'.returned = s.returned ++ got := by
  unfold step at hs
  split at hs
  · cases hs
  cases a with
  | callWrite i addr =>
    simp only at hs
    split at hs <;> cases hs
  | callRead i n =>
    simp only at hs
    split at hs <;> cases hs
  | acquire i =>
    simp only at hs
    split at hs
    · cases hs
    · split at hs <;> cases hs
  | run i =>
    simp only at hs
    split at hs
    · cases hs
    rename_i hlock
    have hl : s.lock = some i := not_not.mp hlock
    split at hs
    · unfold pipewrite at hs
      split_ifs at hs <;> cases hs
    · unfold pipereadWait at hs
      split_ifs at hs <;> cases hs
    · rename_i n' got' hpc
      unfold pipereadCopy at hs
      split at hs
      · rename_i hend
        cases hs
        rw [Bool.or_eq_true, decide_eq_true_eq] at hend
        exact ⟨i, hl, hpc, hend, rfl⟩
      · cases hs
    · cases hs
  | kill i => cases hs
  | close w =>
    simp only at hs
    split at hs <;> cases hs

/-- **Pipes are lossless.** In every state that any interleaving of writers, readers, kills and
    closes reaches: what the readers returned is the beginning of what the writers stored; every
    byte stored and not yet copied out is in its cell; `nwrite - nread` is at most PIPESIZE; and
    `piperead` of more than 0 bytes returns 0 only when all that was stored has been returned and
    the write end is closed. -/
theorem pipe_lossless {data : Nat → Byte} {s : Sys} (h : Reachable data s) :
    s.returned <+: s.stored ∧
    (∀ j, (s.returned ++ s.inflight).length ≤ j → j < s.stored.length →
      s.stored[j]? = some (s.pipe.data (j % pipeSize))) ∧
    (s.pipe.nwrite - s.pipe.nread).toNat = s.stored.length - (s.returned ++ s.inflight).length ∧
    (s.pipe.nwrite - s.pipe.nread).toNat ≤ pipeSize ∧
    ∀ a n s', step s a = some (some (.read n []), s') → 0 < n →
      s.returned = s.stored ∧ s.pipe.writeopen = false := by
  have hi := reachable_inv h
  have hsub : (s.pipe.nwrite - s.pipe.nread).toNat =
      s.stored.length - (s.returned ++ s.inflight).length := by
    rw [BitVec.toNat_sub, Nat.add_comm]
    exact Lib.Ring.count hi.ring (by decide)
  refine ⟨(List.prefix_append _ _).trans hi.fifo, hi.ring.cell, hsub, ?_, fun a n s' hs hn => ?_⟩
  · have := hi.ring.fits
    omega
  · obtain ⟨i, hl, hpc, hend, -⟩ := read_returns hs
    have he : s.pipe.empty = true := hend.resolve_left fun hc => by simp at hc; omega
    have hin : s.inflight = [] := inflight_eq hl hpc
    have hfifo := hi.fifo
    have hlen := hi.ring.empty_iff.mp he
    rw [hin, List.append_nil] at hfifo hlen
    refine ⟨hfifo.eq_of_length hlen, ?_⟩
    rcases hi.fresh i hl (by rw [hpc]; rfl) with hc | hc
    · rw [he] at hc
      cases hc
    · exact hc

/-- A writer stores two bytes and a reader that asks for four gets them. -/
def writeThenRead : List Act :=
  [.callWrite 1 [7, 9], .callRead 2 4, .acquire 1, .run 1, .run 1, .run 1, .acquire 2, .run 2,
    .run 2, .run 2, .run 2]

theorem pipe_lossless_two : ∃ s, Reachable (fun _ => 0) s ∧ s.returned = [7, 9] ∧
    s.returned <+: s.stored := by
  have h1 : (Lib.exec (fun s a => (step s a).map (·.2)) (Sys.start fun _ => 0) writeThenRead).map
      (·.returned) = some [7, 9] := by decide +kernel
  obtain ⟨s, hs, hr⟩ := Option.map_eq_some_iff.mp h1
  have hreach : Reachable (fun _ => 0) s := by
    refine Lib.Reach.exec (fun {s s' a} h => ?_) .start hs
    obtain ⟨⟨r, s1⟩, h2, rfl⟩ := Option.map_eq_some_iff.mp h
    exact ⟨(a, r), h2⟩
  exact ⟨s, hreach, hr, (pipe_lossless hreach).1⟩

end Xv6Clock.PipeIo
