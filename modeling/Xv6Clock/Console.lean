/-
  File:      Xv6Clock/Console.lean
  Subject:   The line discipline of the console (`consoleintr`, `consoleread`, console.c).

  One ring of INPUT_BUF bytes and three words that count through it without bound: `r` is where
  the next read takes a byte, `w` is the end of what may be read, `e` the end of what was typed.
  Between `w` and `e` a line can still be edited.

  Any number of reads are in progress while keys arrive. A step is one interrupt with all its
  characters, or one pass of a read through its loop; nothing is assumed about their order, so that
  every order that `cons.lock` allows is among them. Beside the ring stands `Tty`, which says in
  terms of lists what the discipline is for.
-/
import Xv6Clock.Lib.Reach
import Xv6Clock.Lib.Ring
import Xv6Clock.Mmu

namespace Xv6Clock.Console

/-! ## 1. The ring -/

def inputBuf : Nat := 128

/-- `input`. -/
structure Input where
  buf : Nat → Byte
  r : Word
  w : Word
  e : Word

/-- `C(x)`. -/
def ctrl (x : Byte) : Byte := x - 0x40#8

/-- `'\n'`. -/
def newline : Byte := 0x0A

/-- `C('D')`. -/
def eof : Byte := ctrl 0x44

/-- `input.buf[x % INPUT_BUF]`. -/
def Input.byte (s : Input) (x : Word) : Byte := s.buf (x.toNat % inputBuf)

/-- The loop of kill-line. It erases at most what was typed since the last commit, so that many
    rounds are enough. -/
def killLine : Nat → Input → Input
  | 0, s => s
  | k + 1, s =>
    if s.e != s.w && s.byte (s.e - 1) != newline then killLine k { s with e := s.e - 1 } else s

/-- One character in the loop of `consoleintr`. -/
def consoleKey (s : Input) (c : Byte) : Input :=
  if c = ctrl 0x50 then s
  else if c = ctrl 0x55 then killLine (s.e - s.w).toNat s
  else if c = ctrl 0x48 ∨ c = 0x7F then
    if s.e != s.w then { s with e := s.e - 1 } else s
  else if c ≠ 0 ∧ (s.e - s.r).toNat < inputBuf then
    let c := if c = 0x0D then newline else c
    let s := { s with buf := Function.update s.buf (s.e.toNat % inputBuf) c, e := s.e + 1 }
    if c = newline ∨ c = eof ∨ s.e = s.r + BitVec.ofNat 32 inputBuf then { s with w := s.e } else s
  else s

/-- `consoleintr`, with the characters that `getc` gives. -/
def consoleintr (s : Input) (cs : List Byte) : Input := cs.foldl consoleKey s

/-- Where a call of `consoleread` is: `n` bytes are left of `target`, `dst` was stored. -/
inductive Read where
  | idle
  | active (target n : Nat) (dst : List Byte)
  | done (target : Nat) (ret : Int) (dst : List Byte)

/-- One pass through the loop of `consoleread`, from the test of `n` on. A read that finds nothing
    sleeps: it comes back to the same place. -/
def consoleread (s : Input) (killed : Bool) (target n : Nat) (dst : List Byte) : Read × Input :=
  if n = 0 then (.done target ((target : Int) - n) dst, s)
  else if s.r = s.w then
    if killed then (.done target (-1) dst, s) else (.active target n dst, s)
  else
    let c := s.byte s.r
    let s := { s with r := s.r + 1 }
    if c = eof then
      let s := if n < target then { s with r := s.r - 1 } else s
      (.done target ((target : Int) - n) dst, s)
    else
      let dst := dst ++ [c]
      let n := n - 1
      if c = newline then (.done target ((target : Int) - n) dst, s) else (.active target n dst, s)

/-! ## 2. What it is for -/

/-- The discipline in terms of lists: all that was ever committed, of which `read` characters were
    taken, and the line that is being typed. -/
structure Tty where
  committed : List Byte
  line : List Byte
  read : Nat

/-- The characters that wait. -/
def Tty.held (t : Tty) : Nat := t.committed.length - t.read + t.line.length

def Tty.commit (t : Tty) : Tty := { t with committed := t.committed ++ t.line, line := [] }

/-- A key. A line is committed by its newline, by end-of-file, or because no more fits. -/
def Tty.key (t : Tty) (c : Byte) : Tty :=
  if c = ctrl 0x50 then t
  else if c = ctrl 0x55 then { t with line := [] }
  else if c = ctrl 0x48 ∨ c = 0x7F then { t with line := t.line.dropLast }
  else if c ≠ 0 ∧ t.held < inputBuf then
    let c := if c = 0x0D then newline else c
    let t := { t with line := t.line ++ [c] }
    if c = newline ∨ c = eof ∨ t.held = inputBuf then t.commit else t
  else t

/-! ## 3. The machine -/

/-- The console and its readers; a call of `consoleread` has a number of its own. `tty` and `log`
    are histories: `log` has every character that a call took out of the ring, and which call. -/
structure Sys where
  input : Input
  call : Nat → Read
  killed : Nat → Bool
  tty : Tty
  log : List (Nat × Byte)

inductive Act where
  /-- An interrupt; `getc` gives these characters. -/
  | intr (cs : List Byte)
  /-- `consoleread` is called for `n` bytes. -/
  | read (i n : Nat)
  /-- Call `i` makes a pass. -/
  | pass (i : Nat)
  /-- The process of call `i` is killed. -/
  | kill (i : Nat)

/-- **One step.** -/
def step (s : Sys) : Act → Option Sys
  | .intr cs => some { s with input := consoleintr s.input cs, tty := cs.foldl Tty.key s.tty }
  | .read i n =>
    match s.call i with
    | .idle => some { s with call := Function.update s.call i (.active n n []) }
    | _ => none
  | .pass i =>
    match s.call i with
    | .active target n dst =>
      let (c, input) := consoleread s.input (s.killed i) target n dst
      let log := if input.r = s.input.r then s.log else s.log ++ [(i, s.input.byte s.input.r)]
      some { s with
        call := Function.update s.call i c
        input := input
        log := log
        tty := { s.tty with read := log.length } }
    | _ => none
  | .kill i => some { s with killed := Function.update s.killed i true }

def Sys.start : Sys where
  input := ⟨fun _ => 0, 0, 0, 0⟩
  call := fun _ => .idle
  killed := fun _ => false
  tty := ⟨[], [], 0⟩
  log := []

/-- **Reachable states**, by any interleaving. -/
def Reachable : Sys → Prop := Lib.Reach (fun s a s' => step s a = some s') Sys.start

/-! ## 4. The ring holds the lists -/

/-- **The ring and the counters mean `t`.** -/
structure Refines (s : Input) (t : Tty) : Prop where
  ring : Lib.Ring inputBuf (2 ^ 32) s.buf s.r.toNat s.e.toNat (t.committed ++ t.line) t.read
  write : s.w.toNat = t.committed.length % 2 ^ 32
  le : t.read ≤ t.committed.length
  plain : newline ∉ t.line

/-- How far `b` is ahead of `a`. -/
def ahead (a b : Word) : Nat := (b - a).toNat

theorem ahead_eq (a b : Word) : ahead a b = (b.toNat + (2 ^ 32 - a.toNat)) % 2 ^ 32 := by
  unfold ahead
  rw [BitVec.toNat_sub, Nat.add_comm]

theorem toNat_pred (x : Word) : (x - 1).toNat = (x.toNat + (2 ^ 32 - 1)) % 2 ^ 32 := ahead_eq 1 x

section
variable {s : Input} {t : Tty}

/-- The test for a full buffer. -/
theorem full_iff {buf : Nat → Byte} {r e : Word} (hle : t.read ≤ t.committed.length)
    (h : Lib.Ring inputBuf (2 ^ 32) buf r.toNat e.toNat (t.committed ++ t.line) t.read) :
    e = r + BitVec.ofNat 32 inputBuf ↔ t.held = inputBuf := by
  have h2 := h.full_iff (by decide)
  rw [List.length_append] at h2
  rw [BitVec.toNat_eq, BitVec.toNat_add, show (BitVec.ofNat 32 inputBuf).toNat = inputBuf by decide,
    h2]
  unfold Tty.held
  omega

/-- One character back. -/
theorem Refines.back {l : List Byte} {x : Byte} (h : Refines s t) (hl : t.line = l ++ [x]) :
    s.byte (s.e - 1) = x ∧ Refines { s with e := s.e - 1 } { t with line := l } := by
  have hr := h.ring
  rw [hl, ← List.append_assoc] at hr
  obtain ⟨hlast, hring⟩ := hr.undo (by decide) (by decide)
    (by rw [List.length_append]; exact Nat.le_add_right_of_le h.le)
  rw [← toNat_pred] at hlast hring
  exact ⟨hlast, hring, h.write, h.le, fun hn => h.plain (hl ▸ List.mem_append_left _ hn)⟩

section
variable (h : Refines s t)
include h

/-- What can be read. -/
theorem Refines.readRing :
    Lib.Ring inputBuf (2 ^ 32) s.buf s.r.toNat s.w.toNat t.committed t.read :=
  (h.ring.split h.write h.le).1

/-- What can be edited. -/
theorem Refines.editRing : Lib.Ring inputBuf (2 ^ 32) s.buf s.w.toNat s.e.toNat
    (t.committed ++ t.line) t.committed.length :=
  (h.ring.split h.write h.le).2

theorem Refines.read_empty : s.r = s.w ↔ t.read = t.committed.length := by
  rw [BitVec.toNat_eq]
  exact h.readRing.empty_iff (by decide)

theorem Refines.line_empty : s.e = s.w ↔ t.line = [] := by
  rw [BitVec.toNat_eq, eq_comm, h.editRing.empty_iff (by decide), List.length_append]
  rw [← List.length_eq_zero_iff]
  omega

theorem Refines.ahead_read : ahead s.r s.w = t.committed.length - t.read := by
  rw [ahead_eq]
  exact h.readRing.count (by decide)

theorem Refines.ahead_line : ahead s.w s.e = t.line.length := by
  rw [ahead_eq, h.editRing.count (by decide), List.length_append]
  omega

theorem Refines.ahead_held : ahead s.r s.e = t.held := by
  have h1 := h.le
  rw [ahead_eq, h.ring.count (by decide), List.length_append]
  unfold Tty.held
  omega

theorem Refines.held_le : t.held ≤ inputBuf := by
  have h1 := h.le
  have h2 := h.ring.fits
  rw [List.length_append] at h2
  unfold Tty.held
  omega

/-- The line that is typed is empty, and `e` is at `w`; or it has a last character. -/
theorem Refines.line_cases : s.e = s.w ∧ t.line = [] ∨
    s.e ≠ s.w ∧ ∃ l x, t.line = l ++ [x] := by
  rcases List.eq_nil_or_concat t.line with hl | ⟨l, x, hl⟩
  · exact .inl ⟨h.line_empty.mpr hl, hl⟩
  · rw [List.concat_eq_append] at hl
    refine .inr ⟨fun he => ?_, l, x, hl⟩
    rw [h.line_empty.mp he] at hl
    exact List.append_ne_nil_of_right_ne_nil l (List.cons_ne_nil x []) hl.symm

end

/-! ## 5. Keys -/

/-- Kill-line erases the line: no newline stands in it. -/
theorem Refines.killLine {k : Nat} : ∀ {s : Input} {t : Tty}, Refines s t → t.line.length ≤ k →
    Refines (killLine k s) { t with line := [] } := by
  induction k with
  | zero =>
    intro s t h hk
    have hl : t.line = [] := List.length_eq_zero_iff.mp (by omega)
    rw [← hl]
    exact h
  | succ k ih =>
    intro s t h hk
    unfold Console.killLine
    rcases h.line_cases with ⟨he, hl⟩ | ⟨hne, l, x, hl⟩
    · rw [if_neg (by simp [he]), ← hl]
      exact h
    · obtain ⟨hb, h1⟩ := h.back hl
      have hx : x ≠ newline := fun he => h.plain (by rw [hl, he]; simp)
      have hgo : (s.e != s.w && s.byte (s.e - 1) != newline) = true := by
        rw [hb, Bool.and_eq_true, bne_iff_ne, bne_iff_ne]
        exact ⟨hne, hx⟩
      rw [if_pos hgo]
      refine ih (t := { t with line := l }) h1 ?_
      rw [hl, List.length_append] at hk
      simpa using hk

/-- That many rounds are enough in every state: the loop has come to its end. -/
theorem killLine_end {k : Nat} : ∀ {s : Input}, ahead s.w s.e ≤ k →
    (Console.killLine k s).e = (Console.killLine k s).w ∨
      (Console.killLine k s).byte ((Console.killLine k s).e - 1) = newline := by
  induction k with
  | zero =>
    intro s hk
    refine .inl ?_
    unfold Console.killLine
    unfold ahead at hk
    bv_omega
  | succ k ih =>
    intro s hk
    unfold Console.killLine
    split
    · rename_i hgo
      rw [Bool.and_eq_true, bne_iff_ne] at hgo
      refine ih ?_
      unfold ahead at hk ⊢
      dsimp only
      bv_omega
    · rename_i hgo
      rw [Bool.and_eq_true, bne_iff_ne, bne_iff_ne, not_and_or, not_not, not_not] at hgo
      exact hgo

/-- A character is put into the ring. -/
theorem Refines.put (h : Refines s t) (hh : t.held < inputBuf) (c : Byte) :
    Lib.Ring inputBuf (2 ^ 32) (Function.update s.buf (s.e.toNat % inputBuf) c) s.r.toNat
      (s.e + 1).toNat (t.committed ++ (t.line ++ [c])) t.read := by
  have h1 := h.le
  have hfull : (t.committed ++ t.line).length ≠ t.read + inputBuf := by
    unfold Tty.held at hh
    rw [List.length_append]
    omega
  rw [BitVec.toNat_add, ← List.append_assoc]
  exact h.ring.store (by decide) hfull c

/-- **A key does to the ring what it does to the lists.** -/
theorem Refines.key (h : Refines s t) (c : Byte) : Refines (consoleKey s c) (t.key c) := by
  unfold consoleKey Tty.key
  split
  · exact h
  split
  · refine h.killLine ?_
    have := h.ahead_line
    unfold ahead at this
    omega
  split
  · -- backspace
    rcases h.line_cases with ⟨he, hl⟩ | ⟨hne, l, x, hl⟩
    · rw [if_neg (by simp [he]), hl, List.dropLast_nil, ← hl]
      exact h
    · rw [if_pos (by simpa using hne), hl, List.dropLast_concat]
      exact (h.back hl).2
  have heq : (s.e - s.r).toNat = t.held := h.ahead_held
  rw [heq]
  split
  · rename_i hc
    dsimp only
    generalize (if c = 0x0D then newline else c) = d
    have hput := h.put hc.2 d
    have hle := h.le
    have hfull : s.e + 1 = s.r + BitVec.ofNat 32 inputBuf ↔
        ({ t with line := t.line ++ [d] } : Tty).held = inputBuf :=
      full_iff (t := { t with line := t.line ++ [d] }) hle hput
    simp only [hfull]
    split
    · -- the line is committed
      refine ⟨?_, ?_, ?_, List.not_mem_nil⟩
      · unfold Tty.commit
        dsimp only
        rw [List.append_nil]
        exact hput
      · exact hput.write
      · unfold Tty.commit
        dsimp only
        rw [List.length_append]
        omega
    · rename_i hnot
      refine ⟨hput, h.write, hle, fun hm => ?_⟩
      rcases List.mem_append.mp hm with hm | hm
      · exact h.plain hm
      · exact hnot (.inl (List.mem_singleton.mp hm).symm)
  · exact h

theorem Refines.intr (cs : List Byte) : ∀ {s : Input} {t : Tty}, Refines s t →
    Refines (consoleintr s cs) (cs.foldl Tty.key t) := by
  induction cs with
  | nil => exact fun h => h
  | cons c cs ih => exact fun h => ih (h.key c)

/-- Keys read nothing, and what is committed stays so. -/
theorem Tty.key_read (t : Tty) (c : Byte) : (t.key c).read = t.read := by
  unfold Tty.key Tty.commit
  grind

theorem Tty.key_committed (t : Tty) (c : Byte) : t.committed <+: (t.key c).committed := by
  unfold Tty.key Tty.commit
  grind [List.prefix_append]

theorem Tty.keys (cs : List Byte) : ∀ t : Tty, (cs.foldl Tty.key t).read = t.read ∧
    t.committed <+: (cs.foldl Tty.key t).committed := by
  induction cs with
  | nil => exact fun t => ⟨rfl, List.prefix_rfl⟩
  | cons c cs ih =>
    intro t
    obtain ⟨h1, h2⟩ := ih (t.key c)
    exact ⟨h1.trans (t.key_read c), (t.key_committed c).trans h2⟩

/-! ## 6. A pass -/

/-- **What a pass can do**: the call afterwards, the ring, and the character taken out of it. -/
inductive Pass (s : Input) (t : Tty) (killed : Bool) (target n : Nat) (dst : List Byte) :
    Read → Input → Option Byte → Prop where
  | full (hn : n = 0) : Pass s t killed target n dst (.done target ((target : Int) - n) dst) s none
  | killed (hn : 0 < n) (he : t.read = t.committed.length) (hk : killed = true) :
      Pass s t killed target n dst (.done target (-1) dst) s none
  | sleep (hn : 0 < n) (he : t.read = t.committed.length) (hk : killed = false) :
      Pass s t killed target n dst (.active target n dst) s none
  /-- End-of-file after other bytes: it is left for the next read. -/
  | saved (hn : 0 < n) (hlt : n < target) (hc : t.committed[t.read]? = some eof) :
      Pass s t killed target n dst (.done target ((target : Int) - n) dst) s none
  | eof (hn : 0 < n) (hge : target ≤ n) (hc : t.committed[t.read]? = some eof) :
      Pass s t killed target n dst (.done target ((target : Int) - n) dst) { s with r := s.r + 1 }
        (some eof)
  | line (hn : 0 < n) (hc : t.committed[t.read]? = some newline) :
      Pass s t killed target n dst
        (.done target ((target : Int) - (n - 1 : Nat)) (dst ++ [newline]))
        { s with r := s.r + 1 } (some newline)
  | byte {c : Byte} (hn : 0 < n) (hc : t.committed[t.read]? = some c) (he : c ≠ eof)
      (hl : c ≠ newline) :
      Pass s t killed target n dst (.active target (n - 1) (dst ++ [c])) { s with r := s.r + 1 }
        (some c)

/-- The next character of a ring that is not empty. -/
theorem Refines.front (h : Refines s t) (hne : s.r ≠ s.w) :
    t.committed[t.read]? = some (s.byte s.r) :=
  (h.readRing.take (by decide) fun he => hne (h.read_empty.mpr he)).1

/-- It is taken. -/
theorem Refines.take {x : Byte} (h : Refines s t) (hx : t.committed[t.read]? = some x) :
    s.byte s.r = x ∧ Refines { s with r := s.r + 1 } { t with read := t.read + 1 } := by
  have hlt := (List.getElem?_eq_some_iff.mp hx).1
  have hring := (h.ring.take (by decide) (by rw [List.length_append]; omega)).2
  rw [← show (s.r + 1).toNat = (s.r.toNat + 1) % 2 ^ 32 from BitVec.toNat_add _ _] at hring
  have hne : s.r ≠ s.w := fun he => Nat.ne_of_lt hlt (h.read_empty.mp he)
  exact ⟨Option.some.inj ((h.front hne).symm.trans hx), hring, h.write, hlt, h.plain⟩

theorem consoleread_pass (h : Refines s t) (killed : Bool) (target n : Nat) (dst : List Byte) :
    ∃ o, Pass s t killed target n dst (consoleread s killed target n dst).1
      (consoleread s killed target n dst).2 o := by
  unfold consoleread
  split
  · rename_i hn
    exact ⟨none, .full hn⟩
  rename_i hn
  have hpos : 0 < n := Nat.pos_of_ne_zero hn
  split
  · rename_i he
    have hempty := h.read_empty.mp he
    cases killed with
    | true => exact ⟨none, .killed hpos hempty rfl⟩
    | false => exact ⟨none, .sleep hpos hempty rfl⟩
  rename_i hne
  have hc := h.front hne
  dsimp only
  split
  · rename_i he
    rw [he] at hc
    split
    · rename_i hlt
      rw [BitVec.add_sub_cancel]
      exact ⟨none, .saved hpos hlt hc⟩
    · rename_i hlt
      exact ⟨some eof, .eof hpos (by omega) hc⟩
  · rename_i he
    split
    · rename_i hl
      rw [hl] at hc ⊢
      exact ⟨some newline, .line hpos hc⟩
    · rename_i hl
      exact ⟨some _, .byte hpos hc he hl⟩

section
variable {killed : Bool} {target n : Nat} {dst : List Byte} {c : Read} {s' : Input}
  {o : Option Byte} (hp : Pass s t killed target n dst c s' o)
include hp

/-- The next character is taken out of the ring, or nothing is. -/
theorem Pass.taken : o = none ∧ s' = s ∨
    ∃ x, o = some x ∧ s' = { s with r := s.r + 1 } ∧ t.committed[t.read]? = some x := by
  cases hp with
  | full | killed | sleep | saved => exact .inl ⟨rfl, rfl⟩
  | eof _ _ hc | line _ hc | byte _ hc => exact .inr ⟨_, rfl, rfl, hc⟩

/-- The ring afterwards. -/
theorem Pass.refines (h : Refines s t) :
    Refines s' { t with read := t.read + o.toList.length } := by
  rcases hp.taken with ⟨rfl, rfl⟩ | ⟨x, rfl, rfl, hx⟩
  · exact h
  · exact (h.take hx).2

/-- The character is the next one. -/
theorem Pass.next :
    t.committed.take (t.read + o.toList.length) = t.committed.take t.read ++ o.toList := by
  rcases hp.taken with ⟨rfl, -⟩ | ⟨x, rfl, -, hx⟩
  · exact (List.append_nil _).symm
  · change t.committed.take (t.read + 1) = _
    rw [List.take_add_one, hx]

/-- The log afterwards: `r` has moved just if a character was taken, the one there. -/
theorem Pass.log (h : Refines s t) (i : Nat) (log : List (Nat × Byte)) :
    (if s'.r = s.r then log else log ++ [(i, s.byte s.r)]) = log ++ o.toList.map (i, ·) := by
  rcases hp.taken with ⟨rfl, rfl⟩ | ⟨x, rfl, rfl, hx⟩
  · simp
  · have hmoved : s.r + 1 ≠ s.r := by
      intro he
      bv_omega
    rw [if_neg hmoved, (h.take hx).1]
    rfl

end

end

/-! ## 7. The invariant -/

/-- What call `i` took out of the ring. -/
def Sys.took (s : Sys) (i : Nat) : List Byte := (s.log.filter (·.1 == i)).map (·.2)

/-- **What a call took and what it returns.** It stops at a newline; end-of-file is taken by a call
    that returns 0, and by nothing else. -/
def CallOk (took : List Byte) : Read → Prop
  | .idle => took = []
  | .active target n dst => n + dst.length = target ∧ took = dst ∧ newline ∉ dst ∧ eof ∉ dst
  | .done target ret dst => dst.length ≤ target ∧ newline ∉ dst.dropLast ∧ eof ∉ dst ∧
    (ret = dst.length ∨ ret = -1) ∧
    (took = dst ∧ (ret = 0 → target = 0) ∨ took = [eof] ∧ dst = [] ∧ ret = 0 ∧ 0 < target)

theorem eof_ne_newline : eof ≠ newline := by decide

/-- A pass of a call that is right. -/
theorem Pass.callOk {s s' : Input} {t : Tty} {killed : Bool} {target n : Nat} {dst took : List Byte}
    {c : Read} {o : Option Byte} (hp : Pass s t killed target n dst c s' o)
    (h : CallOk took (.active target n dst)) : CallOk (took ++ o.toList) c := by
  obtain ⟨hlen, htook, hl, he⟩ := h
  rw [htook]
  have hdl : newline ∉ dst.dropLast := fun hm => hl (List.dropLast_subset _ hm)
  cases hp with
  | full hn => exact ⟨by omega, hdl, he, .inl (by omega), .inl ⟨List.append_nil _, by omega⟩⟩
  | killed hn he' hk => exact ⟨by omega, hdl, he, .inr rfl, .inl ⟨List.append_nil _, nofun⟩⟩
  | sleep hn he' hk => exact ⟨hlen, List.append_nil _, hl, he⟩
  | saved hn hlt hc =>
    exact ⟨by omega, hdl, he, .inl (by omega), .inl ⟨List.append_nil _, by omega⟩⟩
  | eof hn hge hc =>
    obtain rfl : dst = [] := List.length_eq_zero_iff.mp (by omega)
    rw [List.length_nil, Nat.add_zero] at hlen
    exact ⟨Nat.zero_le _, hdl, he, .inl (by simp [hlen]), .inr ⟨rfl, rfl, by omega, by omega⟩⟩
  | line hn hc =>
    have hlen' : (dst ++ [newline]).length = dst.length + 1 := by simp
    refine ⟨by omega, by rwa [List.dropLast_concat], ?_, .inl (by omega), .inl ⟨rfl, by omega⟩⟩
    intro hm
    rcases List.mem_append.mp hm with hm | hm
    · exact he hm
    · exact eof_ne_newline (List.mem_singleton.mp hm)
  | @byte c hn hc hce hcl =>
    have hlen' : (dst ++ [c]).length = dst.length + 1 := by simp
    refine ⟨by omega, rfl, fun hm => ?_, fun hm => ?_⟩
    · rcases List.mem_append.mp hm with hm | hm
      · exact hl hm
      · exact hcl (List.mem_singleton.mp hm).symm
    · rcases List.mem_append.mp hm with hm | hm
      · exact he hm
      · exact hce (List.mem_singleton.mp hm).symm

/-- **The invariant.** -/
structure Inv (s : Sys) : Prop where
  refines : Refines s.input s.tty
  read : s.tty.read = s.log.length
  order : s.log.map (·.2) = s.tty.committed.take s.log.length
  calls : ∀ i, CallOk (s.took i) (s.call i)

theorem inv_start : Inv Sys.start where
  refines := ⟨Lib.Ring.empty _, rfl, Nat.le_refl 0, List.not_mem_nil⟩
  read := rfl
  order := rfl
  calls _ := rfl

/-- **A step is one of these.** -/
inductive Stepped (s : Sys) : Sys → Prop where
  | intr (cs : List Byte) :
      Stepped s { s with input := consoleintr s.input cs, tty := cs.foldl Tty.key s.tty }
  | read {i n : Nat} (hi : s.call i = .idle) :
      Stepped s { s with call := Function.update s.call i (.active n n []) }
  | pass {i target n : Nat} {dst : List Byte} {c : Read} {input : Input} {o : Option Byte}
      (hi : s.call i = .active target n dst)
      (hp : Pass s.input s.tty (s.killed i) target n dst c input o) :
      Stepped s { s with
        call := Function.update s.call i c
        input := input
        log := s.log ++ o.toList.map (i, ·)
        tty := { s.tty with read := s.log.length + o.toList.length } }
  | kill (i : Nat) : Stepped s { s with killed := Function.update s.killed i true }

theorem step_stepped {s s' : Sys} {a : Act} (h : Inv s) (hs : step s a = some s') :
    Stepped s s' := by
  cases a with
  | intr cs =>
    cases hs
    exact .intr cs
  | read i n =>
    simp only [step] at hs
    split at hs
    · rename_i hi
      cases hs
      exact .read hi
    · cases hs
  | pass i =>
    simp only [step] at hs
    split at hs
    · rename_i target n dst hi
      obtain ⟨o, hp⟩ := consoleread_pass h.refines (s.killed i) target n dst
      have hlog := hp.log h.refines i s.log
      cases hs
      rw [hlog, List.length_append, List.length_map]
      exact .pass hi hp
    · cases hs
  | kill i =>
    cases hs
    exact .kill i

/-- What a pass of call `i` adds for call `j`. -/
theorem took_append (l : List (Nat × Byte)) (o : Option Byte) (i j : Nat) :
    ((l ++ o.toList.map (i, ·)).filter (·.1 == j)).map (·.2) =
      (l.filter (·.1 == j)).map (·.2) ++ if j = i then o.toList else [] := by
  rw [List.filter_append, List.map_append]
  congr 1
  cases o with
  | none => simp
  | some b =>
    by_cases hj : j = i
    · simp [hj]
    · simp [hj, Ne.symm hj]

/-- **Every step keeps it.** -/
theorem Inv.step {s s' : Sys} (h : Inv s) (hs : Stepped s s') : Inv s' := by
  cases hs with
  | intr cs =>
    obtain ⟨h1, added, h2⟩ := Tty.keys cs s.tty
    have hle := h.refines.le
    refine ⟨h.refines.intr cs, h1.trans h.read, ?_, h.calls⟩
    dsimp only
    rw [← h2, List.take_append_of_le_length (by rw [← h.read]; exact hle)]
    exact h.order
  | @read i n hi =>
    refine ⟨h.refines, h.read, h.order, fun j => ?_⟩
    by_cases hj : j = i
    · subst hj
      have htook := h.calls j
      rw [hi] at htook
      dsimp only
      rw [Function.update_self]
      exact ⟨rfl, htook, List.not_mem_nil, List.not_mem_nil⟩
    · dsimp only
      rw [Function.update_of_ne hj]
      exact h.calls j
  | @pass i target n dst c input o hi hp =>
    have href := hp.refines h.refines
    have hnext := hp.next
    rw [h.read] at href hnext
    refine ⟨href, by simp, ?_, fun j => ?_⟩
    · dsimp only
      rw [List.map_append, List.length_append, List.length_map, hnext, h.order, List.map_map]
      congr 1
      exact List.map_id _
    · have htook := took_append s.log o i j
      unfold Sys.took
      dsimp only
      rw [htook]
      have hcall := h.calls j
      by_cases hj : j = i
      · subst hj
        rw [hi] at hcall
        rw [if_pos rfl, Function.update_self]
        exact hp.callOk hcall
      · rw [if_neg hj, List.append_nil, Function.update_of_ne hj]
        exact hcall
  | kill i => exact ⟨h.refines, h.read, h.order, h.calls⟩

theorem Reachable.inv {s : Sys} (h : Reachable s) : Inv s :=
  Lib.Reach.inv h inv_start fun hi hs => hi.step (step_stepped hi hs)

/-! ## 8. The line discipline -/

/-- The `k` bytes of the ring from `x` on. -/
def Input.bytes (s : Input) (x : Word) (k : Nat) : List Byte :=
  (List.range k).map fun j => s.byte (x + BitVec.ofNat 32 j)

/-- The committed bytes that were not read yet. -/
def Input.unread (s : Input) : List Byte := s.bytes s.r (ahead s.r s.w)

/-- The line that is being typed. -/
def Input.typed (s : Input) : List Byte := s.bytes s.w (ahead s.w s.e)

theorem bytes_ring {s : Input} {x y : Word} {hist : List Byte} {R : Nat}
    (h : Lib.Ring inputBuf (2 ^ 32) s.buf x.toNat y.toNat hist R) :
    s.bytes x (ahead x y) = hist.drop R := by
  rw [ahead_eq, h.count (by decide), ← h.contents (by decide)]
  unfold Input.bytes Input.byte
  refine List.map_congr_left fun j _ => ?_
  rw [BitVec.toNat_add, BitVec.toNat_ofNat, Nat.add_mod_mod]

theorem Refines.unread {s : Input} {t : Tty} (h : Refines s t) :
    s.unread = t.committed.drop t.read := bytes_ring h.readRing

theorem Refines.typed {s : Input} {t : Tty} (h : Refines s t) : s.typed = t.line :=
  (bytes_ring h.editRing).trans List.drop_left

/-- **A state of the console is right**: the counters are in order; the ring holds the line and the
    committed characters that were not read; those that were read went to the calls, in order and
    each once. -/
structure Disciplined (s : Sys) : Prop where
  counters : ahead s.input.r s.input.w + ahead s.input.w s.input.e = ahead s.input.r s.input.e ∧
    ahead s.input.r s.input.e ≤ inputBuf
  line : s.input.typed = s.tty.line
  stream : s.log.map (·.2) ++ s.input.unread = s.tty.committed
  calls : ∀ i, CallOk (s.took i) (s.call i)

/-- **A step loses nothing**: what was waiting is taken from the front or still waits. -/
def Kept (s s' : Sys) : Prop :=
  ∃ got added, s'.log.map (·.2) = s.log.map (·.2) ++ got ∧
    got ++ s'.input.unread = s.input.unread ++ added

/-- **Why a call ends**, with `dst` before and `dst'` after: it has all it wanted; or it took a
    newline; or end-of-file is next, and is taken if the call returns 0; or it was killed. -/
inductive Ended (s s' : Sys) (i target : Nat) (ret : Int) (dst dst' : List Byte) : Prop where
  | full (hr : ret = dst'.length) (hd : dst' = dst) (hl : dst'.length = target)
  | newline (hr : ret = dst'.length) (hd : dst' = dst ++ [newline])
  | saved (hr : ret = dst'.length) (hd : dst' = dst) (hne : dst ≠ [])
      (hu : s.input.unread.head? = some eof) (hu' : s'.input.unread = s.input.unread)
  | eof (hr : ret = 0) (hd : dst = [] ∧ dst' = []) (hu : s.input.unread = eof :: s'.input.unread)
  | killed (hr : ret = -1) (hk : s.killed i = true) (hu : s.input.unread = [])

theorem Inv.disciplined {s : Sys} (h : Inv s) : Disciplined s where
  counters := by
    rw [h.refines.ahead_read, h.refines.ahead_line, h.refines.ahead_held]
    exact ⟨rfl, h.refines.held_le⟩
  line := h.refines.typed
  stream := by
    rw [h.refines.unread, h.order, h.read]
    exact List.take_append_drop _ _
  calls := h.calls

theorem Stepped.histories {s s' : Sys} (h : Stepped s s') :
    s.log <+: s'.log ∧ s.tty.committed <+: s'.tty.committed := by
  cases h with
  | intr cs => exact ⟨List.prefix_rfl, (Tty.keys cs s.tty).2⟩
  | read hi => exact ⟨List.prefix_rfl, List.prefix_rfl⟩
  | pass hi hp => exact ⟨List.prefix_append _ _, List.prefix_rfl⟩
  | kill i => exact ⟨List.prefix_rfl, List.prefix_rfl⟩

theorem Inv.kept {s s' : Sys} (h : Inv s) (h' : Inv s') (hs : Stepped s s') : Kept s s' := by
  obtain ⟨⟨l, hl⟩, added, ha⟩ := hs.histories
  have hlog : s'.log.map (·.2) = s.log.map (·.2) ++ l.map (·.2) := by rw [← hl, List.map_append]
  refine ⟨l.map (·.2), added, hlog, ?_⟩
  have h1 := h'.disciplined.stream
  rw [← ha, ← h.disciplined.stream, hlog, List.append_assoc, List.append_assoc] at h1
  exact List.append_cancel_left h1

theorem head_drop {l : List Byte} {k : Nat} {x : Byte} (h : l[k]? = some x) :
    l.drop k = x :: l.drop (k + 1) := by
  obtain ⟨hk, rfl⟩ := List.getElem?_eq_some_iff.mp h
  exact List.drop_eq_getElem_cons hk

/-- A call that ends with a pass. -/
theorem Pass.ended {s s' : Sys} {i target n target' : Nat} {ret : Int} {dst dst' : List Byte}
    {o : Option Byte} {input : Input} (h : Inv s) (h' : Inv s') (hin : s'.input = input)
    (htty : s'.tty = { s.tty with read := s.tty.read + o.toList.length })
    (hlen : n + dst.length = target)
    (hp : Pass s.input s.tty (s.killed i) target n dst (.done target' ret dst') input o) :
    target' = target ∧ Ended s s' i target ret dst dst' := by
  have hu := h.refines.unread
  have hu' := h'.refines.unread
  rw [htty] at hu'
  generalize hc : Read.done target' ret dst' = c at hp
  cases hp with
  | full hn =>
    cases hc
    exact ⟨rfl, .full (by omega) rfl (by omega)⟩
  | killed hn he hk =>
    cases hc
    refine ⟨rfl, .killed rfl hk ?_⟩
    rw [hu, he, List.drop_length]
  | sleep hn he hk => cases hc
  | saved hn hlt hx =>
    cases hc
    refine ⟨rfl, .saved (by omega) rfl ?_ ?_ (by rw [hin])⟩
    · rintro rfl
      simp at hlen
      omega
    · rw [hu, head_drop hx]
      rfl
  | eof hn hge hx =>
    cases hc
    obtain rfl : dst = [] := List.length_eq_zero_iff.mp (by omega)
    refine ⟨rfl, .eof (by simp at hlen; omega) ⟨rfl, rfl⟩ ?_⟩
    rw [hu, head_drop hx, hu']
    rfl
  | line hn hx =>
    cases hc
    exact ⟨rfl, .newline (by simp; omega) rfl⟩
  | byte hn hx he hl => cases hc

/-- **The line discipline of the console**, in every state that any interleaving of keys and reads
    reaches, and in every step from there. -/
theorem console_discipline {s : Sys} (h : Reachable s) :
    Disciplined s ∧ ∀ a s', step s a = some s' → Kept s s' ∧
      ∀ i target n dst, s.call i = .active target n dst →
      ∀ target' ret dst', s'.call i = .done target' ret dst' →
        target' = target ∧ Ended s s' i target ret dst dst' := by
  have hinv := h.inv
  refine ⟨hinv.disciplined, fun a s' hs => ?_⟩
  have hst := step_stepped hinv hs
  have hinv' := hinv.step hst
  refine ⟨hinv.kept hinv' hst, fun i target n dst hi target' ret dst' hi' => ?_⟩
  have hcall := hinv.calls i
  rw [hi] at hcall
  cases hst with
  | intr | kill =>
    rw [hi] at hi'
    cases hi'
  | @read j m hj =>
    dsimp only at hi'
    by_cases hij : i = j
    · subst hij
      rw [hi] at hj
      cases hj
    · rw [Function.update_of_ne hij, hi] at hi'
      cases hi'
  | @pass j target1 n1 dst1 c input o hj hp =>
    dsimp only at hi'
    by_cases hij : i = j
    · subst hij
      rw [Function.update_self] at hi'
      rw [hi] at hj
      cases hj
      subst hi'
      exact hp.ended hinv hinv' rfl (by rw [hinv.read]) hcall.1
    · rw [Function.update_of_ne hij, hi] at hi'
      cases hi'

/-- A line is typed, killed, typed again and corrected; end-of-file follows. Two calls read. -/
def typeAndRead : List Act :=
  [.intr [0x78, ctrl 0x55, 0x68, 0x69, ctrl 0x48, 0x6F, 0x0D, eof], .read 0 10, .pass 0, .pass 0,
    .pass 0, .read 1 10, .pass 1]

/-- The first call gets the line as it was corrected, the second one end-of-file. -/
theorem console_discipline_typeAndRead : ∃ s, Lib.exec step Sys.start typeAndRead = some s ∧
    s.took 0 = [0x68, 0x6F, newline] ∧ s.took 1 = [eof] ∧ Disciplined s := by
  have h : (Lib.exec step Sys.start typeAndRead).any (fun s =>
      s.took 0 == [0x68, 0x6F, newline] && s.took 1 == [eof]) = true := by decide
  obtain ⟨s, hs, h1⟩ := (Option.any_eq_true _ _).mp h
  rw [Bool.and_eq_true, beq_iff_eq, beq_iff_eq] at h1
  have hreach : Reachable s := Lib.Reach.exec (fun {s s' a} h => ⟨a, h⟩) .start hs
  exact ⟨s, hs, h1.1, h1.2, (console_discipline hreach).1⟩

end Xv6Clock.Console
