/-
  File:      Xv6Clock/ConsoleLock.lean
  Subject:   The console lock under page faults: `consolewrite` and `consoleread` (console.c) with
             `acquire`, `release`, `pushcli` and `popcli` (spinlock.c).

  Both functions touch the user's buffer while they hold `cons.lock`. A page fault there runs `trap`
  and `mdecrypt`, which print; and `cprintf` takes the lock only if the CPU does not hold it, but
  releases it in any case. So the first page fault costs the caller its lock.

  The model starts behind `iunlock` and ends before `ilock`. `seen` is a history: whether the CPU
  owned the lock behind each byte and around each text that was printed.
  * `cprintf_held`: the lock is gone;
  * `writeLoop_kept`, `readLoop_kept`: without a page fault nothing happens to it;
  * `console_lock_kept`: the buffers for which both functions keep it.
-/
import Xv6Clock.Getpgtable
import Xv6Clock.Kernel

namespace Xv6Clock.ConsoleLock

open Lib (Meets)

variable (cfg : Config)

/-! ## 1. The lock -/

/-- A panic, by the function that calls it. -/
inductive Panic
  | acquire
  | release
  | popcli
  | sched
  | trap
  deriving DecidableEq, Repr

/-- How a call ends, or stays, without returning. -/
inductive Stop
  | panic (f : Panic)
  /-- `mdecrypt` stops. -/
  | fault (e : Err)
  /-- The access faulted so often that the fuel is used up. -/
  | again
  /-- Nothing more was typed. -/
  | asleep

/-- `struct cpu`, with its number and the interrupt flag. -/
structure Cpu where
  id : Nat
  ncli : Int
  intena : Bool
  iflag : Bool

/-- `owner` is `cons.lock`: the CPU that has it locked. -/
structure St where
  cpu : Cpu
  owner : Option Nat
  m : Kmem
  p : Proc
  seen : List Bool

abbrev Res (α : Type) := Except (Stop × St) α

def St.owns (s : St) : Bool := s.owner == some s.cpu.id

def St.note (s : St) : St := { s with seen := s.seen ++ [s.owns] }

def pushcli (s : St) : St :=
  { s with
    cpu := { s.cpu with
      iflag := false
      intena := if s.cpu.ncli = 0 then s.cpu.iflag else s.cpu.intena
      ncli := s.cpu.ncli + 1 } }

def popcli (s : St) : Res St :=
  if s.cpu.iflag then .error (.panic .popcli, s)
  else if s.cpu.ncli - 1 < 0 then .error (.panic .popcli, s)
  else
    .ok { s with
      cpu := { s.cpu with
        ncli := s.cpu.ncli - 1
        iflag := s.cpu.ncli - 1 == 0 && s.cpu.intena } }

def holding (s : St) : Res (Bool × St) := do
  let s := pushcli s
  let r := s.owns
  let s ← popcli s
  .ok (r, s)

/-- `acquire`: once no other CPU has the lock, this one takes it. -/
def acquire (s : St) : Res St := do
  let s := pushcli s
  let (r, s) ← holding s
  if r then .error (.panic .acquire, s) else .ok { s with owner := some s.cpu.id }

/-- Who has the lock when CPU `c` does not: the other CPUs go on as `others` says. -/
def taken (others : St → Option Nat) (s : St) (c : Nat) : Option Nat :=
  (others s).filter (· ≠ c)

section
variable (others : St → Option Nat)

def release (s : St) : Res St := do
  let (r, s) ← holding s
  if !r then .error (.panic .release, s)
  else popcli { s with owner := taken others s s.cpu.id }

/-- `if(locking && !holding(&cons.lock)) acquire(&cons.lock)`. -/
def acquireUnlessHeld (s : St) : Res St := do
  let (r, s) ← holding s
  if r then .ok s else acquire s

/-- `cprintf`, where `cons.locking` is 1. -/
def cprintf (s : St) : Res St := do
  let s ← acquireUnlessHeld s
  let s ← release others s.note
  .ok s.note

def cprintfs : Nat → St → Res St
  | 0, s => .ok s
  | n + 1, s => do
    let s ← cprintf others s
    cprintfs n s

/-- `sleep(&input.r, &cons.lock)`. `ptable.lock` counts in `ncli` only. The scheduler gives the
process a CPU again, maybe another one, with `ptable.lock` held and `intena` as it was. -/
def sleep (c : Nat) (s : St) : Res St := do
  let s ← release others (pushcli s)
  if s.cpu.ncli ≠ 1 ∨ s.cpu.iflag then .error (.panic .sched, s) else do
  let s ← popcli { s with cpu := { s.cpu with id := c }, owner := taken others s c }
  acquire s

end

/-! ## 2. What is printed during a page fault -/

/-- The texts of the first loop of `mencrypt`. -/
def checkPrints : Nat → PgDir → Nat → Nat
  | 0, _, _ => 0
  | n + 1, pd, slider =>
    match pd.walk slider with
    | none => 1
    | some pte =>
      if !has (pd.pteAt pte) pteU then 4 + checkPrints n pd (addU slider pgSize)
      else if mapped (pd.pteAt pte) then 3 + checkPrints n pd (addU slider pgSize)
      else 3

/-- The texts of the second loop, with those of `translate_and_set`, for one page. -/
def pagePrints (pd : PgDir) (slider : Nat) : Nat :=
  match pd.walk slider with
  | none => 0
  | some pte =>
    if !has (pd.pteAt pte) pteU then 0 else if has (pd.pteAt pte) pteE then 1 else 3

/-- The texts of `mencrypt(va, 1)`. -/
def mencryptPrints (pd : PgDir) (va : Nat) : Nat :=
  1 + checkPrints 1 pd (pgRoundDown va) +
    match mencryptCheck 1 pd (pgRoundDown va) with
    | .ok true => pagePrints pd (pgRoundDown va)
    | _ => 0

/-- The texts of `evictPass`. -/
def evictPrints : Nat → Vm → ClockQ → Nat → Nat
  | 0, _, _, _ => 0
  | n + 1, s, q, i =>
    match nodeIndex cfg ((toI (i + q.currInd)).tmod cfg.clockSize) with
    | .error _ => 0
    | .ok realInd =>
      match s.pd.walk (q.nodes realInd) with
      | none => 0
      | some pte =>
        if has (s.pd.pteAt pte) pteA then
          evictPrints n (s.mark pte (clearRef (s.pd.pteAt pte))) q (i + 1)
        else mencryptPrints s.pd (q.nodes realInd)

/-- The texts of the clock logic. -/
def clockPrints (s : Vm) (q : ClockQ) (add : Nat) : Nat :=
  if q.inClock = 0 ∨ q.inClock < cfg.clockSize then 0
  else
    1 + evictPrints cfg cfg.clockSize s q 0 +
      match evictPass cfg cfg.clockSize s q add 0 with
      | .ok (false, s, q) => evictPrints cfg cfg.clockSize s q 0
      | _ => 0

/-- The texts of `mdecrypt`. -/
def mdecryptPrints (s : Vm) (q : ClockQ) (va : Nat) : Nat :=
  match s.pd.walk va with
  | none => 1
  | some pte =>
    if !has (s.pd.pteAt pte) pteE || !has (s.pd.pteAt pte) pteU then 2
    else
      6 + match mdecryptPage s va with
        | .ok (0, s) => clockPrints cfg s q (pgRoundDown va)
        | _ => 0

/-! ## 3. The console -/

section
variable (others : St → Option Nat)

/-- `mdecrypt`, and what `trap` makes of its result for an access of the kernel. -/
def decrypt (va : Nat) (s : St) : Res St := do
  let s ← cprintfs others (mdecryptPrints cfg (s.p.vm s.m) s.p.q va) s
  match pageFault cfg s.m s.p va with
  | .error e => .error (.fault e, s)
  | .ok (r, m, p) =>
    if r = 0 then .ok { s with m := m, p := p }
    else do
      let s ← cprintf others { s with m := m, p := p }
      .error (.panic .trap, s)

/-- The T_PGFLT case of `trap`. -/
def trap (va : Nat) (s : St) : Res St := do
  let s ← cprintf others s
  decrypt cfg others va s

/-- The MMU lets the kernel read the byte at `va`, or write it (`CR0_WP` is set). -/
def admits (p : Proc) (va : Nat) (write : Bool) : Bool :=
  has (p.pgdir.pteAt (vpn va)) pteP && (!write || has (p.pgdir.pteAt (vpn va)) pteW)

/-- An access to the buffer: a load, or a store of a byte. -/
def touch (va : Nat) (b : Option Byte) : Nat → St → Res St
  | 0, s => .error (.again, s)
  | fuel + 1, s =>
    if admits s.p va b.isSome then
      .ok { s with
        m := match b with
          | none => s.m
          | some b => storeByte s.m s.p va b
        p := s.p.touch va }
    else do
      let s ← trap cfg others va s
      touch va b fuel s

/-- The loop of `consolewrite`, with `k` bytes to go. -/
def writeLoop (fuel buf : Nat) : Nat → Nat → St → Res St
  | 0, _, s => .ok s
  | k + 1, i, s => do
    let s ← touch cfg others (addU buf i) none fuel s
    writeLoop fuel buf k (i + 1) s.note

def consolewrite (fuel buf n : Nat) (s : St) : Res (Int × St) := do
  let s ← acquire s
  let s ← writeLoop cfg others fuel buf n 0 s.note
  let s ← release others s
  .ok (n, s)

/-- What `consoleread` finds when it looks at the ring: a character, or nothing; then the process
is killed, or sleeps until it gets CPU `cpu`. -/
inductive Look
  | char (c : Byte)
  | killed
  | empty (cpu : Nat)

/-- `C('D')` and `'\n'`. -/
def eof : Byte := 4
def newline : Byte := 10

/-- The loop of `consoleread`: what it returns behind its `release`. -/
def readLoop (fuel dst target : Nat) : List Look → Nat → St → Res (Int × St)
  | _, 0, s => .ok (target, s)
  | [], _ + 1, s => .error (.asleep, s)
  | .killed :: _, _ + 1, s => .ok (-1, s)
  | .empty c :: looks, n + 1, s => do
    let s ← sleep others c s
    readLoop fuel dst target looks (n + 1) s.note
  | .char c :: looks, n + 1, s =>
    if c = eof then .ok ((target : Int) - (n + 1), s)
    else do
      let s ← touch cfg others (addU dst (target - (n + 1))) (some c) fuel s
      if c = newline then .ok ((target : Int) - n, s.note)
      else readLoop fuel dst target looks n s.note

def consoleread (fuel : Nat) (looks : List Look) (dst n : Nat) (s : St) : Res (Int × St) := do
  let s ← acquire s
  let (r, s) ← readLoop cfg others fuel dst n looks n s.note
  let s ← release others s
  .ok (r, s)

end

/-! ## 4. The history only grows -/

section
variable {others : St → Option Nat} {α β : Type} {s : St}

/-- What was seen before is still in the history, however the call ends. -/
def Later (s : St) (final : α → St) : Res α → Prop :=
  Meets (fun a => s.seen <+: (final a).seen) fun e => s.seen <+: e.2.seen

theorem Later.bind {f : α → St} {g : β → St} {x : Res α} {k : α → Res β} (h : Later s f x)
    (hk : ∀ a, Later (f a) g (k a)) : Later s g (x >>= k) := by
  cases x with
  | error e => exact h
  | ok a =>
    have ha := hk a
    unfold Later at ha ⊢
    change Meets _ _ (k a)
    cases hka : k a with
    | error e =>
      rw [hka] at ha
      exact List.IsPrefix.trans h ha
    | ok b =>
      rw [hka] at ha
      exact List.IsPrefix.trans h ha

theorem later_ok {f : α → St} {a : α} (h : s.seen <+: (f a).seen) : Later s f (.ok a) := h

theorem later_error {f : α → St} {e : Stop} {s' : St} (h : s.seen <+: s'.seen) :
    Later s f (.error (e, s')) := h

theorem note_later (s : St) : s.seen <+: s.note.seen := List.prefix_append _ _

theorem popcli_later (s : St) : Later s id (popcli s) := by
  unfold popcli
  split
  · exact List.prefix_refl _
  · split <;> exact List.prefix_refl _

theorem Later.after {s1 : St} {f : α → St} {x : Res α} (h : s.seen <+: s1.seen)
    (hx : Later s1 f x) : Later s f x := by
  cases x with
  | error e => exact h.trans hx
  | ok a => exact h.trans hx

theorem holding_later (s : St) : Later s Prod.snd (holding s) :=
  (popcli_later (pushcli s)).bind fun _ => later_ok (List.prefix_refl _)

theorem acquire_later (s : St) : Later s id (acquire s) := by
  refine Later.bind (f := Prod.snd) (holding_later (pushcli s)) fun r => ?_
  obtain ⟨r, s1⟩ := r
  dsimp only
  split
  · exact later_error (List.prefix_refl _)
  · exact later_ok (List.prefix_refl _)

theorem release_later (s : St) : Later s id (release others s) := by
  refine (holding_later s).bind fun r => ?_
  obtain ⟨r, s1⟩ := r
  dsimp only
  split
  · exact later_error (List.prefix_refl _)
  · exact popcli_later { s1 with owner := taken others s1 s1.cpu.id }

theorem cprintf_later (s : St) : Later s id (cprintf others s) := by
  have hown : Later s id (acquireUnlessHeld s) := by
    refine (holding_later s).bind fun r => ?_
    obtain ⟨r, s1⟩ := r
    dsimp only
    split
    · exact later_ok (List.prefix_refl _)
    · exact acquire_later s1
  refine hown.bind fun s2 => ?_
  exact ((release_later s2.note).after (note_later s2)).bind fun s3 => later_ok (note_later s3)

theorem cprintfs_later (n : Nat) : ∀ s : St, Later s id (cprintfs others n s) := by
  induction n with
  | zero => exact fun s => later_ok (List.prefix_refl _)
  | succ n ih => exact fun s => (cprintf_later s).bind ih

theorem decrypt_later (va : Nat) (s : St) : Later s id (decrypt cfg others va s) := by
  refine (cprintfs_later _ s).bind fun s1 => ?_
  dsimp only [id]
  cases pageFault cfg s1.m s1.p va with
  | error e => exact later_error (List.prefix_refl _)
  | ok r =>
    obtain ⟨r, m, p⟩ := r
    dsimp only
    split
    · exact later_ok (List.prefix_refl _)
    · exact (cprintf_later { s1 with m := m, p := p }).bind fun s2 =>
        later_error (List.prefix_refl _)

theorem trap_later (va : Nat) (s : St) : Later s id (trap cfg others va s) :=
  (cprintf_later s).bind (decrypt_later cfg va)

theorem touch_later (va : Nat) (b : Option Byte) (fuel : Nat) :
    ∀ s : St, Later s id (touch cfg others va b fuel s) := by
  induction fuel with
  | zero => exact fun s => later_error (List.prefix_refl _)
  | succ fuel ih =>
    intro s
    unfold touch
    split
    · exact later_ok (List.prefix_refl _)
    · exact (trap_later cfg va s).bind ih

theorem sleep_later (c : Nat) (s : St) : Later s id (sleep others c s) := by
  refine Later.bind (f := id) (release_later (pushcli s)) fun s1 => ?_
  dsimp only [id]
  split
  · exact later_error (List.prefix_refl _)
  · exact (popcli_later { s1 with
      cpu := { s1.cpu with id := c }
      owner := taken others s1 c }).bind acquire_later

theorem writeLoop_later (fuel buf k : Nat) :
    ∀ i (s : St), Later s id (writeLoop cfg others fuel buf k i s) := by
  induction k with
  | zero => exact fun i s => later_ok (List.prefix_refl _)
  | succ k ih =>
    exact fun i s => (touch_later cfg _ _ _ s).bind fun s1 =>
      (ih (i + 1) s1.note).after (note_later s1)

theorem readLoop_later (fuel dst target : Nat) (looks : List Look) :
    ∀ n (s : St), Later s Prod.snd (readLoop cfg others fuel dst target looks n s) := by
  induction looks with
  | nil =>
    intro n s
    cases n with
    | zero => exact later_ok (List.prefix_refl _)
    | succ n => exact later_error (List.prefix_refl _)
  | cons look looks ih =>
    intro n s
    cases n with
    | zero => cases look <;> exact later_ok (List.prefix_refl _)
    | succ n =>
      cases look with
      | killed => exact later_ok (List.prefix_refl _)
      | empty c =>
        exact (sleep_later c s).bind fun s1 => (ih (n + 1) s1.note).after (note_later s1)
      | char c =>
        unfold readLoop
        split
        · exact later_ok (List.prefix_refl _)
        · refine (touch_later cfg _ _ _ s).bind fun s1 => ?_
          split
          · exact later_ok (note_later s1)
          · exact (ih n s1.note).after (note_later s1)

end

/-! ## 5. The lock, held and not held -/

/-- No spinlock is held, and interrupts are on. -/
structure Idle (s : St) : Prop where
  ncli : s.cpu.ncli = 0
  iflag : s.cpu.iflag = true
  owns : s.owns = false

/-- `cons.lock` is held, and no other spinlock. -/
structure Held (s : St) : Prop where
  ncli : s.cpu.ncli = 1
  iflag : s.cpu.iflag = false
  intena : s.cpu.intena = true
  owns : s.owns = true

/-- The memory and the page table are the same. -/
structure SameMem (s s' : St) : Prop where
  m : s'.m = s.m
  p : s'.p = s.p

section
variable (others : St → Option Nat) {s : St}

theorem popcli_pushcli_off (hn : 1 ≤ s.cpu.ncli) (hi : s.cpu.iflag = false) :
    popcli (pushcli s) = .ok s := by
  obtain ⟨⟨id, ncli, intena, iflag⟩, owner, m, p, seen⟩ := s
  dsimp only at hn hi
  subst hi
  have h1 : ¬ ncli < 0 := by omega
  have h2 : ¬ ncli = 0 := by omega
  simp [popcli, pushcli, h1, h2]

theorem holding_off (hn : 1 ≤ s.cpu.ncli) (hi : s.cpu.iflag = false) :
    holding s = .ok (s.owns, s) := by
  unfold holding
  simp only
  rw [popcli_pushcli_off hn hi]
  rfl

/-- **`acquire` from outside.** -/
theorem acquire_idle (h : Idle s) :
    ∃ s', acquire s = .ok s' ∧ Held s' ∧ s'.seen = s.seen ∧ SameMem s s' := by
  have hoff : holding (pushcli s) = .ok (s.owns, pushcli s) :=
    holding_off (by simp [pushcli, h.ncli]) rfl
  refine ⟨{ pushcli s with owner := some s.cpu.id }, ?_, ⟨?_, rfl, ?_, ?_⟩, rfl, rfl, rfl⟩
  · unfold acquire
    simp only
    rw [hoff, h.owns]
    rfl
  · simp [pushcli, h.ncli]
  · simp [pushcli, h.ncli, h.iflag]
  · simp [St.owns, pushcli]

theorem taken_ne (s : St) (c : Nat) : (taken others s c == some c) = false := by
  unfold taken
  cases h : others s with
  | none => rfl
  | some d =>
    by_cases e : d = c
    · simp [Option.filter, e]
    · simp [Option.filter, e]

/-- **`release` by the owner.** -/
theorem release_held (h : Held s) :
    ∃ s', release others s = .ok s' ∧ Idle s' ∧ s'.seen = s.seen ∧ SameMem s s' := by
  have hoff : holding s = .ok (s.owns, s) := holding_off (by rw [h.ncli]) h.iflag
  refine ⟨{ s with
      owner := taken others s s.cpu.id
      cpu := { s.cpu with ncli := 0, iflag := true } }, ?_,
    ⟨rfl, rfl, taken_ne others s s.cpu.id⟩, rfl, rfl, rfl⟩
  unfold release
  rw [hoff, h.owns]
  simp [popcli, h.iflag, h.ncli, h.intena]

theorem Held.note (h : Held s) : Held s.note := ⟨h.ncli, h.iflag, h.intena, h.owns⟩

theorem Idle.note (h : Idle s) : Idle s.note := ⟨h.ncli, h.iflag, h.owns⟩

/-- **A text that the owner prints costs it the lock.** -/
theorem cprintf_held (h : Held s) :
    ∃ s', cprintf others s = .ok s' ∧ Idle s' ∧ s'.seen = s.seen ++ [true, false] := by
  have hown : acquireUnlessHeld s = .ok s := by
    unfold acquireUnlessHeld
    rw [holding_off (by rw [h.ncli]) h.iflag, h.owns]
    rfl
  obtain ⟨s1, h1, hidle, hseen, -⟩ := release_held others h.note
  refine ⟨s1.note, ?_, hidle.note, ?_⟩
  · unfold cprintf
    rw [hown, Lib.ok_bind, h1]
    rfl
  · change s1.seen ++ [s1.owns] = _
    rw [hseen, hidle.owns]
    change s.seen ++ [s.owns] ++ [false] = _
    rw [h.owns, List.append_assoc]
    rfl

/-- `release` in `sleep`, where `ptable.lock` is held too. -/
theorem release_nested (h : Held s) :
    ∃ s', release others (pushcli s) = .ok s' ∧ s'.cpu.ncli = 1 ∧ s'.cpu.iflag = false ∧
      s'.cpu.intena = true ∧ s'.seen = s.seen ∧ SameMem s s' := by
  have hoff : holding (pushcli s) = .ok (true, pushcli s) := by
    rw [holding_off (by simp [pushcli, h.ncli]) rfl]
    exact congrArg (fun b => Except.ok (b, _)) h.owns
  refine ⟨{ s with
    owner := taken others (pushcli s) s.cpu.id
    cpu := { s.cpu with ncli := 1, iflag := false } }, ?_, rfl, rfl, h.intena, rfl, rfl, rfl⟩
  unfold release
  rw [hoff]
  simp [popcli, pushcli, h.ncli]

/-- **Asleep the lock is free, and held again afterwards.** -/
theorem sleep_held (c : Nat) (h : Held s) :
    ∃ s', sleep others c s = .ok s' ∧ Held s' ∧ s'.seen = s.seen ∧ SameMem s s' := by
  obtain ⟨s1, h1, hncli, hiflag, hintena, hseen, hmem⟩ := release_nested others h
  have hpop : popcli { s1 with
      cpu := { s1.cpu with id := c }
      owner := taken others s1 c } = .ok { s1 with
      cpu := { s1.cpu with id := c, ncli := 0, iflag := true }
      owner := taken others s1 c } := by
    simp [popcli, hncli, hiflag, hintena]
  obtain ⟨s2, h2, hheld, hseen2, hmem2⟩ := acquire_idle (s := { s1 with
      cpu := { s1.cpu with id := c, ncli := 0, iflag := true }
      owner := taken others s1 c }) ⟨rfl, rfl, taken_ne others s1 c⟩
  refine ⟨s2, ?_, hheld, hseen2.trans hseen, hmem2.m.trans hmem.m, hmem2.p.trans hmem.p⟩
  unfold sleep
  rw [h1, Lib.ok_bind, if_neg (by simp [hncli, hiflag]), hpop]
  exact h2

/-! ## 6. Accesses -/

theorem admits_touch {p : Proc} {va : Nat} (h : has (p.pgdir.pteAt (vpn va)) pteP = true) (a : Nat)
    (write : Bool) : admits (p.touch va) a write = admits p a write := by
  have ht := PgDir.tabAt_of_mapped (mapped_of_P h)
  unfold admits Proc.touch
  dsimp only
  rw [PgDir.pteAt_store _ _ ht]
  by_cases e : vpn a = vpn va
  · rw [if_pos e, e, has_setRef_P, has_setRef _ (by decide)]
  · rw [if_neg e]

/-- The page table admits the same accesses. -/
def SameAdmits (s s' : St) : Prop := ∀ a write, admits s'.p a write = admits s.p a write

/-- **An access that the page table admits** leaves the lock alone. -/
theorem touch_admitted {va : Nat} {b : Option Byte} (fuel : Nat) (h : Held s)
    (ha : admits s.p va b.isSome = true) :
    ∃ s', touch cfg others va b (fuel + 1) s = .ok s' ∧ Held s' ∧ s'.seen = s.seen ∧
      SameAdmits s s' := by
  have hP : has (s.p.pgdir.pteAt (vpn va)) pteP = true := by
    unfold admits at ha
    rw [Bool.and_eq_true] at ha
    exact ha.1
  refine ⟨_, if_pos ha, ⟨h.ncli, h.iflag, h.intena, h.owns⟩, rfl, fun a w => admits_touch hP a w⟩

/-- **An access that faults** is seen without the lock. -/
theorem touch_refused {va : Nat} {b : Option Byte} (fuel : Nat) (h : Held s)
    (ha : admits s.p va b.isSome = false) :
    ∃ s1 : St, s1.seen = s.seen ++ [true, false] ∧
      Later s1 id (touch cfg others va b (fuel + 1) s) := by
  obtain ⟨s1, h1, -, hseen⟩ := cprintf_held others h
  refine ⟨s1, hseen, ?_⟩
  unfold touch
  rw [if_neg (by rw [ha]; exact Bool.false_ne_true)]
  unfold trap
  rw [h1, Lib.ok_bind]
  exact (decrypt_later cfg va s1).bind (touch_later cfg va b fuel)

end

/-! ## 7. The two loops -/

/-- Whenever the history was written, the lock was owned. -/
def Owned (s : St) : Prop := ∀ b ∈ s.seen, b = true

theorem Owned.note {s : St} (h : Owned s) (hs : Held s) : Owned s.note := by
  intro b hb
  rcases List.mem_append.mp hb with hb | hb
  · exact h b hb
  · rw [List.mem_singleton.mp hb]
    exact hs.owns

theorem Owned.of_seen {s s' : St} (h : Owned s) (e : s'.seen = s.seen) : Owned s' := by
  unfold Owned
  rw [e]
  exact h

theorem not_owned_of_seen {s s1 : St} (h : s1.seen = s.seen ++ [true, false]) : ¬ Owned s1 := by
  intro ho
  have hmem : false ∈ s1.seen := by
    rw [h]
    simp
  exact Bool.false_ne_true (ho false hmem)

/-- What was once seen without the lock stays in the history. -/
theorem Later.not_owned {α : Type} {s : St} {final : α → St} {x : Res α} (h : Later s final x)
    (hs : ¬ Owned s) : Meets (fun a => ¬ Owned (final a)) (fun e => ¬ Owned e.2) x := by
  cases x with
  | error e => exact fun ho => hs fun b hb => ho b (h.subset hb)
  | ok a => exact fun ho => hs fun b hb => ho b (h.subset hb)

section
variable (others : St → Option Nat) {s : St} {buf : Nat}

/-- **`consolewrite` without a page fault.** -/
theorem writeLoop_kept (fuel k : Nat) : ∀ {i : Nat} {s : St}, Held s → Owned s →
    (∀ j, j < k → admits s.p (addU buf (i + j)) false = true) →
    Meets (fun s' => Held s' ∧ Owned s') (fun e => Owned e.2 ∧ e.1 = .again)
      (writeLoop cfg others fuel buf k i s) := by
  induction k with
  | zero => exact fun hs ho _ => ⟨hs, ho⟩
  | succ k ih =>
    intro i s hs ho ha
    unfold writeLoop
    cases fuel with
    | zero => exact ⟨ho, rfl⟩
    | succ fuel =>
      obtain ⟨s1, h1, hs1, hseen, hsame⟩ :=
        touch_admitted cfg others (b := none) fuel hs (ha 0 (Nat.succ_pos k))
      rw [show addU buf i = addU buf (i + 0) from rfl, h1]
      refine ih hs1.note ((ho.of_seen hseen).note hs1) fun j hj => ?_
      have hj := ha (j + 1) (by omega)
      rw [← hsame, show i + (j + 1) = i + 1 + j by omega] at hj
      exact hj

/-- **`consolewrite` with a page fault.** -/
theorem writeLoop_lost (fuel k : Nat) : ∀ {i j : Nat} {s : St}, Held s → j < k →
    admits s.p (addU buf (i + j)) false = false →
    Meets (fun s' => ¬ Owned s') (fun e => ¬ Owned e.2)
      (writeLoop cfg others (fuel + 1) buf k i s) := by
  induction k with
  | zero =>
    intro i j s _ hj
    omega
  | succ k ih =>
    intro i j s hs hj ha
    unfold writeLoop
    cases hi : admits s.p (addU buf i) false with
    | false =>
      obtain ⟨s1, hseen, h1⟩ := touch_refused cfg others (b := none) fuel hs hi
      refine (h1.bind (g := id) fun s2 => ?_).not_owned (not_owned_of_seen hseen)
      exact (writeLoop_later cfg (fuel + 1) buf k (i + 1) s2.note).after (note_later s2)
    | true =>
      obtain ⟨s1, h1, hs1, -, hsame⟩ :=
        touch_admitted cfg others (b := none) fuel hs hi
      have hj0 : j ≠ 0 := fun e => by
        subst e
        rw [Nat.add_zero, hi] at ha
        cases ha
      rw [h1]
      refine ih (j := j - 1) hs1.note (by omega) ?_
      change admits s1.p _ _ = false
      rw [hsame, show i + 1 + (j - 1) = i + j by omega]
      exact ha

/-- **`consoleread` without a page fault.** -/
theorem readLoop_kept (fuel target : Nat) (looks : List Look) : ∀ {n : Nat} {s : St}, Held s →
    Owned s → n ≤ target → (∀ j, j < target → admits s.p (addU buf j) true = true) →
    Meets (fun r => Held r.2 ∧ Owned r.2)
      (fun e => Owned e.2 ∧ (e.1 = .again ∨ e.1 = .asleep))
      (readLoop cfg others fuel buf target looks n s) := by
  induction looks with
  | nil =>
    intro n s hs ho hn ha
    cases n with
    | zero => exact ⟨hs, ho⟩
    | succ n => exact ⟨ho, .inr rfl⟩
  | cons look looks ih =>
    intro n s hs ho hn ha
    cases n with
    | zero => cases look <;> exact ⟨hs, ho⟩
    | succ n =>
      cases look with
      | killed => exact ⟨hs, ho⟩
      | empty c =>
        obtain ⟨s1, h1, hs1, hseen, hmem⟩ := sleep_held others c hs
        unfold readLoop
        rw [h1]
        refine ih hs1.note ((ho.of_seen hseen).note hs1) hn fun j hj => ?_
        change admits s1.p _ _ = true
        rw [hmem.p]
        exact ha j hj
      | char c =>
        unfold readLoop
        split
        · exact ⟨hs, ho⟩
        · cases fuel with
          | zero => exact ⟨ho, .inl rfl⟩
          | succ fuel =>
            obtain ⟨s1, h1, hs1, hseen, hsame⟩ := touch_admitted cfg others (b := some c)
              fuel hs (ha (target - (n + 1)) (by omega))
            have ho1 : Owned s1.note := (ho.of_seen hseen).note hs1
            rw [h1, Lib.ok_bind]
            split
            · exact ⟨hs1.note, ho1⟩
            · refine ih hs1.note ho1 (by omega) fun j hj => ?_
              exact (hsame _ _).trans (ha j hj)

/-- **`consoleread` with a page fault**, when enough was typed. -/
theorem readLoop_lost (fuel target n : Nat) : ∀ {j : Nat} {s : St}, Held s → n ≤ target →
    target - n ≤ j → j < target → admits s.p (addU buf j) true = false →
    Meets (fun r => ¬ Owned r.2) (fun e => ¬ Owned e.2)
      (readLoop cfg others (fuel + 1) buf target (List.replicate n (.char 0x61)) n s) := by
  induction n with
  | zero =>
    intro j s _ _ h1 h2
    omega
  | succ n ih =>
    intro j s hs hn h1 h2 ha
    rw [List.replicate_succ]
    unfold readLoop
    rw [if_neg (by decide)]
    cases hi : admits s.p (addU buf (target - (n + 1))) true with
    | false =>
      obtain ⟨s1, hseen, h1⟩ := touch_refused cfg others (b := some 0x61) fuel
        hs hi
      refine (h1.bind (g := Prod.snd) fun s2 => ?_).not_owned (not_owned_of_seen hseen)
      rw [if_neg (by decide)]
      exact (readLoop_later cfg _ _ _ _ _ s2.note).after (note_later s2)
    | true =>
      obtain ⟨s1, h3, hs1, -, hsame⟩ :=
        touch_admitted cfg others (b := some 0x61) fuel hs hi
      have hj : target - (n + 1) ≠ j := fun e => by
        rw [e, ha] at hi
        cases hi
      rw [h3, Lib.ok_bind, if_neg (by decide)]
      exact ih hs1.note (by omega) (by omega) h2 ((hsame _ _).trans ha)

end

/-! ## 8. The property -/

/-- **The call keeps the lock**: it owns it all the time, reaches no panic of the lock, and leaves
`ncli` as it was. -/
def Kept (s : St) : Res (Int × St) → Prop :=
  Meets (fun r => Owned r.2 ∧ r.2.cpu.ncli = s.cpu.ncli) fun e =>
    Owned e.2 ∧ e.1 ≠ .panic .acquire ∧ e.1 ≠ .panic .release ∧ e.1 ≠ .panic .popcli

/-- A system call has just come to the console. -/
structure Entry (s : St) : Prop extends Idle s where
  seen : s.seen = []

section
variable (others : St → Option Nat) {s : St} {buf n : Nat}

theorem acquire_entry (h : Entry s) :
    ∃ s', acquire s = .ok s' ∧ Held s'.note ∧ Owned s'.note ∧ SameMem s s' := by
  obtain ⟨s1, h1, hs1, hseen, hmem⟩ := acquire_idle h.toIdle
  have ho : Owned s1 := fun b hb => by
    rw [hseen, h.seen] at hb
    cases hb
  exact ⟨s1, h1, hs1.note, ho.note hs1, hmem⟩

theorem release_kept {s1 : St} (h : Entry s) (hs1 : Held s1) (ho : Owned s1) (r : Int) :
    Kept s ((release others s1) >>= fun s2 => .ok (r, s2)) := by
  obtain ⟨s2, h2, hs2, hseen, -⟩ := release_held others hs1
  rw [h2]
  exact ⟨ho.of_seen hseen, hs2.ncli.trans h.ncli.symm⟩

theorem consolewrite_kept (h : Entry s) (ha : ∀ i, i < n → admits s.p (addU buf i) false = true)
    (fuel : Nat) : Kept s (consolewrite cfg others fuel buf n s) := by
  obtain ⟨s1, h1, hs1, ho1, hmem⟩ := acquire_entry h
  have hloop := writeLoop_kept cfg others fuel n (i := 0) hs1 ho1
    fun j hj => by
      change admits s1.p _ _ = true
      rw [hmem.p, Nat.zero_add]
      exact ha j hj
  unfold consolewrite
  rw [h1, Lib.ok_bind]
  cases hw : writeLoop cfg others fuel buf n 0 s1.note with
  | error e =>
    rw [hw] at hloop
    exact ⟨hloop.1, by simp [hloop.2]⟩
  | ok s2 =>
    rw [hw] at hloop
    exact release_kept others h hloop.1 hloop.2 n

theorem consoleread_kept (h : Entry s) (ha : ∀ i, i < n → admits s.p (addU buf i) true = true)
    (fuel : Nat) (looks : List Look) : Kept s (consoleread cfg others fuel looks buf n s) := by
  obtain ⟨s1, h1, hs1, ho1, hmem⟩ := acquire_entry h
  have hloop := readLoop_kept cfg others fuel n looks hs1 ho1
    (Nat.le_refl n) fun j hj => by
      change admits s1.p _ _ = true
      rw [hmem.p]
      exact ha j hj
  unfold consoleread
  rw [h1, Lib.ok_bind]
  cases hr : readLoop cfg others fuel buf n looks n s1.note with
  | error e =>
    rw [hr] at hloop
    rcases hloop.2 with e1 | e1
    · exact ⟨hloop.1, by simp [e1]⟩
    · exact ⟨hloop.1, by simp [e1]⟩
  | ok r =>
    rw [hr] at hloop
    exact release_kept others h hloop.1 hloop.2 r.1

/-- A call that was seen without the lock has not kept it. -/
theorem Kept.owned {x : Res (Int × St)} (h : Kept s x)
    (hlost : Meets (fun r => ¬ Owned r.2) (fun e => ¬ Owned e.2) x) : False := by
  cases x with
  | error e => exact hlost h.1
  | ok r => exact hlost h.1

/-- **Which buffers let `consolewrite` keep the lock.** -/
theorem consolewrite_kept_iff (h : Entry s) :
    (∀ fuel, Kept s (consolewrite cfg others fuel buf n s)) ↔
      ∀ i, i < n → admits s.p (addU buf i) false = true := by
  refine ⟨fun hk i hi => ?_, fun ha fuel => consolewrite_kept cfg others h ha fuel⟩
  by_contra hne
  have ha : admits s.p (addU buf i) false = false := by simpa using hne
  obtain ⟨s1, h1, hs1, ho1, hmem⟩ := acquire_entry h
  have ha1 : admits s1.note.p (addU buf (0 + i)) false = false := by
    rw [Nat.zero_add]
    exact hmem.p ▸ ha
  have hlost := writeLoop_lost cfg others 0 n hs1 hi ha1
  refine (hk 1).owned ?_
  unfold consolewrite
  rw [h1, Lib.ok_bind]
  refine hlost.bind fun s2 hs2 => ?_
  exact ((release_later s2).bind (g := Prod.snd) fun s3 =>
    later_ok (List.prefix_refl _)).not_owned hs2

/-- **Which buffers let `consoleread` keep the lock**, whatever is typed. -/
theorem consoleread_kept_iff (h : Entry s) :
    (∀ fuel looks, Kept s (consoleread cfg others fuel looks buf n s)) ↔
      ∀ i, i < n → admits s.p (addU buf i) true = true := by
  refine ⟨fun hk i hi => ?_, fun ha fuel looks => consoleread_kept cfg others h ha fuel looks⟩
  by_contra hne
  have ha : admits s.p (addU buf i) true = false := by simpa using hne
  obtain ⟨s1, h1, hs1, ho1, hmem⟩ := acquire_entry h
  have ha1 : admits s1.note.p (addU buf i) true = false := hmem.p ▸ ha
  have hlost := readLoop_lost cfg others 0 n n hs1
    (Nat.le_refl n) (by omega) hi ha1
  refine (hk 1 (List.replicate n (.char 0x61))).owned ?_
  unfold consoleread
  rw [h1, Lib.ok_bind]
  refine hlost.bind fun r hr => ?_
  obtain ⟨r, s2⟩ := r
  exact ((release_later s2).bind (g := Prod.snd) fun s3 =>
    later_ok (List.prefix_refl _)).not_owned hr

end

theorem admits_read {p : Proc} {va : Nat} (h : admits p va true = true) :
    admits p va false = true := by
  unfold admits at h ⊢
  rw [Bool.and_eq_true] at h
  rw [h.1]
  rfl

/-- **Which buffers let the console keep its lock**: those that cause no page fault. -/
theorem console_lock_kept (others : St → Option Nat) {s : St} (h : Entry s) (buf n : Nat) :
    ((∀ fuel, Kept s (consolewrite cfg others fuel buf n s)) ∧
      ∀ fuel looks, Kept s (consoleread cfg others fuel looks buf n s)) ↔
    ∀ i, i < n → admits s.p (addU buf i) true = true := by
  rw [consolewrite_kept_iff cfg others h, consoleread_kept_iff cfg others h]
  exact ⟨fun ha => ha.2, fun ha => ⟨fun i hi => admits_read (ha i hi), ha⟩⟩

/-- A process with one page, whose entry is `w`, calls the console. -/
def onePage (w : Word) : St where
  cpu := ⟨0, 0, false, true⟩
  owner := none
  m := ⟨[], fun _ _ => 0x5a, false⟩
  p := { Proc.zero with
    sz := 4096
    pgdir := ⟨1, fun i => if i = 0 then some ⟨2, fun j => if j = 0 then w else 0⟩ else none⟩ }
  seen := []

theorem onePage_entry (w : Word) : Entry (onePage w) := ⟨⟨rfl, rfl, rfl⟩, rfl⟩

/-- The page is present. -/
theorem console_lock_kept_present :
    (∀ fuel, Kept (onePage 0x3007) (consolewrite xv6 (fun _ => none) fuel 0 1 (onePage 0x3007))) ∧
      ∀ fuel looks,
        Kept (onePage 0x3007) (consoleread xv6 (fun _ => none) fuel looks 0 1 (onePage 0x3007)) :=
  (console_lock_kept xv6 (fun _ => none) (onePage_entry 0x3007) 0 1).mpr (by decide)

/-- The panic a call ends with. -/
def panicOf : Res (Int × St) → Option Panic
  | .error (.panic f, _) => some f
  | _ => none

theorem Kept.not_release {s : St} {x : Res (Int × St)} (h : Kept s x) :
    panicOf x ≠ some .release := by
  intro e
  cases x with
  | ok r => cases e
  | error e' =>
    obtain ⟨stop, s'⟩ := e'
    cases stop with
    | panic f =>
      cases Option.some.inj e
      exact h.2.2.1 rfl
    | _ => cases e

/-- **The page is encrypted**: one byte to write, and `release` panics. -/
theorem console_lock_lost :
    argptr (onePage 0x3406).p 0 1 = true ∧
      panicOf (consolewrite xv6 (fun _ => none) 2 0 1 (onePage 0x3406)) = some .release ∧
      ¬ Kept (onePage 0x3406) (consolewrite xv6 (fun _ => none) 2 0 1 (onePage 0x3406)) := by
  have h : panicOf (consolewrite xv6 (fun _ => none) 2 0 1 (onePage 0x3406)) = some .release := by
    decide +kernel
  exact ⟨by decide, h, fun hk => hk.not_release h⟩

end Xv6Clock.ConsoleLock
