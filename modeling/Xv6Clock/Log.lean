/-
  File:      Xv6Clock/Log.lean
  Subject:   The log (log.c): operations, group commit, crashes and recovery.

  The disk is an array of blocks of words. The header of the log is at `start`, its blocks follow;
  all other blocks are home blocks. Every block is read and written through the buffer cache, which
  is lost in a crash. A crash may come between any two block writes, in a commit as well as in a
  recovery; where the kernel panics only a crash can follow.

  `log_write` makes its tests before it takes the lock: test and append are two steps, and other
  processes may take steps between them. A round of `write_log` or `install_trans` is one step, with
  its one block write: the process has the locks of its buffers, and nobody changes a block while a
  commit or a recovery goes on.

  `pending`, `begun`, `kept`, `returned` and `ended` are histories: the writes of the running
  group, the groups whose commit began, those whose header was written, those whose commit
  returned, and the operations that ended.
-/
import Xv6Clock.Bio
import Xv6Clock.Lib.Reach
import Xv6Clock.Lib.RedoLog
import Mathlib.Algebra.Group.Nat.Defs
import Mathlib.Data.List.Infix

namespace Xv6Clock.Log

/-! ## 1. Disk and log header -/

/-- A block, as words. -/
abbrev Blk := Nat → Nat

def logSize : Nat := 30
def maxOpBlocks : Nat := 10

/-- `log.start` and `log.size`; the log has a header block. -/
structure Geom where
  start : Nat
  size : Nat
  pos : 0 < size

/-- The log that the superblock written by mkfs describes: `logstart` 2 and `nlog` LOGSIZE. -/
def Geom.mkfs : Geom := ⟨2, logSize, by decide⟩

/-- A block outside the log. -/
def Geom.Home (g : Geom) (b : Nat) : Prop := b < g.start ∨ g.start + g.size ≤ b

instance (g : Geom) (b : Nat) : Decidable (g.Home b) := inferInstanceAs (Decidable (_ ∨ _))

/-- The block of the log for entry `tail`. -/
def Geom.slot (g : Geom) (tail : Nat) : Nat := g.start + tail + 1

/-- The entries `lh->block[0..n)` of a header block. -/
def Blk.head (x : Blk) : List Nat := (List.range (x 0)).map fun i => x (i + 1)

/-- The header block after `hb->n = n` and the copy of the entries. -/
def Blk.setHead (x : Blk) (lh : List Nat) : Blk := fun w =>
  if w = 0 then lh.length else if w ≤ lh.length then lh.getD (w - 1) 0 else x w

@[simp] theorem head_setHead (x : Blk) (lh : List Nat) : (x.setHead lh).head = lh := by
  unfold Blk.head Blk.setHead
  apply List.ext_getElem?
  intro i
  rw [if_pos rfl, List.getElem?_map]
  by_cases hi : i < lh.length
  · rw [List.getElem?_range hi, Option.map_some, if_neg (Nat.succ_ne_zero i), if_pos (by omega),
      Nat.add_sub_cancel, List.getD_eq_getElem?_getD, List.getElem?_eq_getElem hi]
    rfl
  · rw [List.getElem?_eq_none (by rw [List.length_range]; omega),
      List.getElem?_eq_none (by omega)]
    rfl

/-! ## 2. The state -/

/-- A `log_write`: by which operation, of which block, with which contents. -/
structure Write where
  op : Nat
  block : Nat
  data : Blk

/-- What the process that commits, or recovers, is doing. -/
inductive Mode where
  | run
  /-- In `write_log`, or at the `write_head` after it. -/
  | writeLog (tail : Nat)
  /-- In `install_trans` of a commit, or at the `write_head` after it. -/
  | install (tail : Nat)
  /-- Back from `commit`. -/
  | finish
  /-- Before `read_head` of a recovery. -/
  | boot
  /-- In `install_trans` of a recovery, or at the `write_head` after it. -/
  | recover (tail : Nat)

/-- No process but the one that recovers runs yet. -/
def Mode.starting : Mode → Bool
  | .boot | .recover _ => true
  | .run | .writeLog _ | .install _ | .finish => false

structure Sys extends Bio.Cache Blk where
  lh : List Nat
  outstanding : Nat
  committing : Bool
  mode : Mode
  /-- The operations between `begin_op` and `end_op`, and the number of the next one. -/
  active : List Nat
  next : Nat
  /-- The distinct blocks an operation has logged. -/
  used : Nat → List Nat
  /-- The calls of `log_write` past their tests that wait for the lock. -/
  flight : List Write
  group : List Write
  pending : List Write
  begun : List (List Write)
  kept : List (List Write)
  returned : List (List Write)
  ended : List Nat

/-- One block write of a commit or a recovery: the buffers of the blocks `get` are read, the one of
    block `b` is filled from the blocks as they are seen and written, and all are released in the
    order of `rel`; none where `bget` panics. -/
def Sys.writing (s : Sys) (get rel : List Nat) (b : Nat) (x : (Nat → Blk) → Blk) (mode : Mode) :
    Option Sys :=
  (s.toCache.breadAll get).map fun c =>
    { s with toCache := (c.bwrite b (x c.view)).brelseAll rel, mode := mode }

variable (g : Geom)

/-- `write_head`. -/
def Sys.writeHead (s : Sys) (mode : Mode) : Option Sys :=
  s.writing [g.start] [g.start] g.start (fun v => (v g.start).setHead s.lh) mode

/-- A round of `write_log`. -/
def Sys.writeBlock (s : Sys) (t b : Nat) (mode : Mode) : Option Sys :=
  s.writing [g.slot t, b] [b, g.slot t] (g.slot t) (fun v => v b) mode

/-- A round of `install_trans`. -/
def Sys.installBlock (s : Sys) (t b : Nat) (mode : Mode) : Option Sys :=
  s.writing [g.slot t, b] [g.slot t, b] b (fun v => v (g.slot t)) mode

/-- `read_head`. -/
def Sys.readHead (s : Sys) : Option Sys :=
  (s.toCache.breadAll [g.start]).map fun c =>
    { s with toCache := c.brelseAll [g.start], lh := (c.view g.start).head, mode := .recover 0 }

/-- The test of `log_write` that panics with "too big a transaction". -/
def Sys.tooBig (s : Sys) : Bool := logSize ≤ s.lh.length || g.size ≤ s.lh.length + 1

/-- The entries after `log_write` of block `b`. -/
def absorb (lh : List Nat) (b : Nat) : List Nat := if b ∈ lh then lh else lh ++ [b]

/-- `bread` by process `p`, or by operation `p`. -/
def breadBy (s : Sys) (p b : Nat) : Option Sys :=
  if s.mode.starting then none else
  (s.toCache.bread (some p) b).map fun c => { s with toCache := c }

/-- `brelse`, by a process that is not in a `log_write`. -/
def brelseBy (s : Sys) (p b : Nat) : Option Sys :=
  if (some p, b) ∈ s.held ∧ ∀ w ∈ s.flight, w.op ≠ p then
    some { s with toCache := s.toCache.brelse (some p) b }
  else none

/-- `begin_op`, past its waiting. -/
def beginOp (s : Sys) : Option Sys :=
  if s.committing ∨ logSize < s.lh.length + (s.outstanding + 1) * maxOpBlocks then none else
  match s.mode with
  | .run => some { s with
      outstanding := s.outstanding + 1, active := s.next :: s.active, next := s.next + 1,
      used := Function.update s.used s.next [] }
  | _ => none

/-- `op` is in an operation, and not in a `log_write`. -/
def Sys.idle (s : Sys) (op : Nat) : Bool := op ∈ s.active && s.flight.all fun w => w.op ≠ op

/-- The tests of `log_write` by `op` of the buffer of block `b`, which it has filled with `x`: no
    lock of the log is held. Where one fails the kernel panics. -/
def logTest (s : Sys) (op b : Nat) (x : Blk) : Option Sys :=
  if s.idle op ∧ (some op, b) ∈ s.held ∧ g.Home b ∧ s.tooBig g = false ∧ 1 ≤ s.outstanding then
    some { s with flight := ⟨op, b, x⟩ :: s.flight }
  else none

/-- The rest of `log_write`, under the lock. An entry at `LOGSIZE` would be stored outside
    `lh.block`; the model has no state for that. -/
def logAppend (s : Sys) (op : Nat) : Option Sys :=
  match s.flight.find? fun w => w.op = op with
  | none => none
  | some w =>
    if w.block ∈ s.lh ∨ s.lh.length < logSize then
      some { s with
        toCache := s.toCache.put w.block true w.data, lh := absorb s.lh w.block
        used := Function.update s.used op (absorb (s.used op) w.block)
        flight := s.flight.filter fun w => w.op ≠ op
        pending := s.pending ++ [w] }
    else none

/-- `end_op` up to the call of `commit`; an empty group commits by doing nothing. -/
def endOp (s : Sys) (op : Nat) : Option Sys :=
  if s.idle op ∧ s.committing = false then
    let s := { s with
      outstanding := s.outstanding - 1, active := s.active.erase op, ended := op :: s.ended }
    if s.outstanding = 0 then
      let s := { s with
        committing := true, group := s.pending, pending := [], begun := s.begun ++ [s.pending] }
      if s.lh = [] then some { s with mode := .finish, kept := s.kept ++ [s.group] }
      else some { s with mode := .writeLog 0 }
    else some s
  else none

/-- The next block write of `commit`, or the end of `end_op`. The group is kept from the moment
    `write_head` has written the header. -/
def commit (s : Sys) : Option Sys :=
  match s.mode with
  | .writeLog t =>
    match s.lh[t]? with
    | some b => s.writeBlock g t b (.writeLog (t + 1))
    | none => (s.writeHead g (.install 0)).map fun s => { s with kept := s.kept ++ [s.group] }
  | .install t =>
    match s.lh[t]? with
    | some b => s.installBlock g t b (.install (t + 1))
    | none => Sys.writeHead g { s with lh := [] } .finish
  | .finish => some { s with
      committing := false, mode := .run, returned := s.returned ++ [s.group] }
  | _ => none

/-- The machine stops: everything in memory is lost. -/
def crash (s : Sys) : Sys :=
  { s with
    toCache := .binit s.disk fun _ => 0
    lh := [], outstanding := 0, committing := false, mode := .boot, active := []
    flight := [], pending := [] }

/-- `read_head`, or the next block write of `recover_from_log`. -/
def recover (s : Sys) : Option Sys :=
  match s.mode with
  | .boot => s.readHead g
  | .recover t =>
    match s.lh[t]? with
    | some b => s.installBlock g t b (.recover (t + 1))
    | none => Sys.writeHead g { s with lh := [] } .run
  | _ => none

inductive Act where
  | bread (p b : Nat)
  | brelse (p b : Nat)
  | beginOp
  | logTest (op b : Nat) (x : Blk)
  | logAppend (op : Nat)
  | endOp (op : Nat)
  | commit
  | crash
  | recover

def step (s : Sys) : Act → Option Sys
  | .bread p b => breadBy s p b
  | .brelse p b => brelseBy s p b
  | .beginOp => beginOp s
  | .logTest op b x => logTest g s op b x
  | .logAppend op => logAppend s op
  | .endOp op => endOp s op
  | .commit => commit g s
  | .crash => some (crash s)
  | .recover => recover g s

/-- A disk whose log is empty, before the first boot. -/
def Sys.start (base : Nat → Blk) : Sys where
  toCache := .binit base fun _ => 0
  lh := []
  outstanding := 0
  committing := false
  mode := .boot
  active := []
  next := 0
  used := fun _ => []
  flight := []
  group := []
  pending := []
  begun := []
  kept := []
  returned := []
  ended := []

/-- **Reachable states**, by any interleaving and any crashes. -/
def Reachable (base : Nat → Blk) : Sys → Prop :=
  Lib.Reach (fun s (a : Act) s' => step g s a = some s') (Sys.start base)

/-- `install_trans` from entry `tail` on, to completion. -/
def installTrans : List Nat → Nat → (Nat → Blk) → Nat → Blk
  | [], _, d => d
  | b :: bs, tail, d => installTrans bs (tail + 1) (Function.update d b (d (g.slot tail)))

/-- `recover_from_log` to completion, on the disk alone. -/
def recoverFromLog (d : Nat → Blk) : Nat → Blk :=
  let d' := installTrans g (d g.start).head 0 d
  Function.update d' g.start ((d' g.start).setHead [])

/-- The disk of zeroes has an empty log. -/
def blank : Nat → Blk := fun _ _ => 0

/-- `bread`, `log_write` and `brelse` by `op` of block `b`, undisturbed. -/
def logged (op b : Nat) : List Act :=
  [.bread op b, .logTest op b fun _ => b, .logAppend op, .brelse op b]

/-! ## 3. Groups -/

/-- The blocks after a group. -/
def apply (h : Nat → Blk) (ws : List Write) : Nat → Blk :=
  Lib.writes h (ws.map fun w => (w.block, w.data))

/-- The blocks after a list of groups. -/
def applyAll (h : Nat → Blk) (gs : List (List Write)) : Nat → Blk := gs.foldl apply h

theorem applyAll_concat (h : Nat → Blk) (gs : List (List Write)) (ws : List Write) :
    applyAll h (gs ++ [ws]) = apply (applyAll h gs) ws := by
  unfold applyAll
  rw [List.foldl_append]
  rfl

theorem apply_concat (h : Nat → Blk) (ws : List Write) (w : Write) :
    apply h (ws ++ [w]) = Function.update (apply h ws) w.block w.data := by
  unfold apply
  rw [List.map_append, Lib.writes_append]
  rfl

variable {b op : Nat} {lh : List Nat}

theorem apply_notMem {h : Nat → Blk} {ws : List Write} (hb : b ∉ ws.map (·.block)) :
    apply h ws b = h b := by
  refine Lib.writes_notMem ?_ h
  rw [List.map_map]
  exact hb

/-- The entries of the log are the blocks of a group, each once, all home blocks. -/
structure Entries (lh : List Nat) (ws : List Write) : Prop where
  nodup : lh.Nodup
  mem : ∀ b, b ∈ lh ↔ b ∈ ws.map (·.block)
  home : ∀ b ∈ lh, g.Home b

theorem Entries.nil : Entries g [] [] where
  nodup := .nil
  mem _ := Iff.rfl
  home _ h := nomatch h

theorem mem_absorb {c : Nat} : c ∈ absorb lh b ↔ c ∈ lh ∨ c = b := by
  unfold absorb
  split
  · rename_i h
    exact ⟨.inl, fun hc => hc.elim id fun e => e ▸ h⟩
  · rw [List.mem_append, List.mem_singleton]

theorem nodup_absorb (h : lh.Nodup) : (absorb lh b).Nodup := by
  unfold absorb
  split
  · exact h
  · rename_i hb
    refine List.nodup_append.mpr ⟨h, List.nodup_singleton b, fun a ha c hc => ?_⟩
    rw [List.mem_singleton.mp hc]
    exact fun e => hb (e ▸ ha)

theorem length_absorb (lh : List Nat) (b : Nat) :
    (absorb lh b).length = lh.length ∧ b ∈ lh ∨ (absorb lh b).length = lh.length + 1 ∧ b ∉ lh := by
  unfold absorb
  split
  · rename_i h
    exact .inl ⟨rfl, h⟩
  · rename_i h
    exact .inr ⟨by simp, h⟩

theorem Entries.absorb {ws : List Write} {w : Write} (h : Entries g lh ws) (hb : g.Home w.block) :
    Entries g (absorb lh w.block) (ws ++ [w]) := by
  refine ⟨nodup_absorb h.nodup, fun c => ?_, fun c hc => ?_⟩
  · rw [mem_absorb, h.mem, List.map_append, List.mem_append]
    simp
  · rcases mem_absorb.mp hc with h1 | rfl
    · exact h.home c h1
    · exact hb

/-! ## 4. What the steps do -/

variable {g} {s s' : Sys}

/-- **A block write**, through the buffers. -/
theorem writing_spec {get rel : List Nat} {x : (Nat → Blk) → Blk} {mode : Mode}
    (hs : s.writing get rel b x mode = some s') (hrel : get.Perm rel) :
    ∃ c, s' = { s with toCache := c, mode := mode } ∧
      (s.toCache.Ok → Bio.Wrote s.toCache c get b (x s.view)) := by
  obtain ⟨c, hc, rfl⟩ := Option.map_eq_some_iff.mp hs
  refine ⟨_, rfl, fun hok => ?_⟩
  have hview : c.view = s.view := (hok.breadAll hc).1.view
  rw [hview]
  exact hok.wrote hc hrel b _

theorem idle_iff : s.idle op ↔ op ∈ s.active ∧ ∀ w ∈ s.flight, w.op ≠ op := by
  unfold Sys.idle
  simp

theorem logTest_spec {x : Blk} (hs : logTest g s op b x = some s') :
    op ∈ s.active ∧ (some op, b) ∈ s.held ∧ g.Home b ∧
    s' = { s with flight := ⟨op, b, x⟩ :: s.flight } := by
  unfold logTest at hs
  split at hs
  · rename_i hok
    cases hs
    exact ⟨(idle_iff.mp hok.1).1, hok.2.1, hok.2.2.1, rfl⟩
  · cases hs

theorem logAppend_spec (hs : logAppend s op = some s') :
    ∃ w ∈ s.flight, w.op = op ∧ s' = { s with
      toCache := s.toCache.put w.block true w.data, lh := absorb s.lh w.block
      used := Function.update s.used op (absorb (s.used op) w.block)
      flight := s.flight.filter fun w => w.op ≠ op
      pending := s.pending ++ [w] } := by
  unfold logAppend at hs
  split at hs
  · cases hs
  · rename_i w hw
    split at hs
    · cases hs
      have hop := List.find?_some (p := fun w : Write => decide (w.op = op)) hw
      exact ⟨w, List.mem_of_find?_eq_some hw, of_decide_eq_true hop, rfl⟩
    · cases hs

theorem beginOp_spec (hs : beginOp s = some s') :
    s.lh.length + (s.outstanding + 1) * maxOpBlocks ≤ logSize ∧ s.mode = .run ∧
    s' = { s with
      outstanding := s.outstanding + 1, active := s.next :: s.active, next := s.next + 1,
      used := Function.update s.used s.next [] } := by
  unfold beginOp at hs
  split at hs
  · cases hs
  · rename_i hok
    split at hs
    · rename_i hm
      cases hs
      exact ⟨by omega, hm, rfl⟩
    · cases hs

/-- What `end_op` leaves, whether or not it starts a commit. -/
theorem endOp_spec (hs : endOp s op = some s') :
    s.idle op ∧ s'.toCache = s.toCache ∧ s'.active = s.active.erase op ∧
    s'.outstanding = s.outstanding - 1 ∧ s'.lh = s.lh ∧ s'.used = s.used ∧
    s'.flight = s.flight ∧ s'.next = s.next ∧
    ((s.outstanding - 1 = 0 ∧ (s'.mode = .finish ∧ s.lh = [] ∨ s'.mode = .writeLog 0)) ∨
      s.outstanding - 1 ≠ 0 ∧ s'.mode = s.mode) := by
  unfold endOp at hs
  split at hs
  · rename_i hok
    dsimp only at hs
    split at hs
    · rename_i h0
      split at hs
      · rename_i hlh
        cases hs
        exact ⟨hok.1, rfl, rfl, rfl, rfl, rfl, rfl, rfl, .inl ⟨h0, .inl ⟨rfl, hlh⟩⟩⟩
      · cases hs
        exact ⟨hok.1, rfl, rfl, rfl, rfl, rfl, rfl, rfl, .inl ⟨h0, .inr rfl⟩⟩
    · rename_i h0
      cases hs
      exact ⟨hok.1, rfl, rfl, rfl, rfl, rfl, rfl, rfl, .inr ⟨h0, rfl⟩⟩
  · cases hs

/-- **What a step of `commit` does.** -/
inductive Committed (g : Geom) (s : Sys) : Sys → Prop where
  | write {t b : Nat} {c : Bio.Cache Blk} (hm : s.mode = .writeLog t) (hb : s.lh[t]? = some b)
      (hw : s.toCache.Ok → Bio.Wrote s.toCache c [g.slot t, b] (g.slot t) (s.view b)) :
      Committed g s { s with toCache := c, mode := .writeLog (t + 1) }
  | keep {t : Nat} {c : Bio.Cache Blk} (hm : s.mode = .writeLog t) (hend : s.lh[t]? = none)
      (hw : s.toCache.Ok →
        Bio.Wrote s.toCache c [g.start] g.start ((s.view g.start).setHead s.lh)) :
      Committed g s { s with toCache := c, mode := .install 0, kept := s.kept ++ [s.group] }
  | install {t b : Nat} {c : Bio.Cache Blk} (hm : s.mode = .install t) (hb : s.lh[t]? = some b)
      (hw : s.toCache.Ok → Bio.Wrote s.toCache c [g.slot t, b] b (s.view (g.slot t))) :
      Committed g s { s with toCache := c, mode := .install (t + 1) }
  | clear {t : Nat} {c : Bio.Cache Blk} (hm : s.mode = .install t) (hend : s.lh[t]? = none)
      (hw : s.toCache.Ok → Bio.Wrote s.toCache c [g.start] g.start ((s.view g.start).setHead [])) :
      Committed g s { s with toCache := c, lh := [], mode := .finish }
  | finish (hm : s.mode = .finish) : Committed g s { s with
      committing := false, mode := .run, returned := s.returned ++ [s.group] }

theorem commit_cases (hs : commit g s = some s') : Committed g s s' := by
  unfold commit at hs
  split at hs
  · rename_i t hm
    split at hs
    · rename_i b hb
      obtain ⟨c, rfl, hw⟩ := writing_spec hs (.swap ..)
      exact .write hm hb hw
    · rename_i hend
      obtain ⟨s1, h1, rfl⟩ := Option.map_eq_some_iff.mp hs
      obtain ⟨c, rfl, hw⟩ := writing_spec h1 (.refl _)
      exact .keep hm hend hw
  · rename_i t hm
    split at hs
    · rename_i b hb
      obtain ⟨c, rfl, hw⟩ := writing_spec hs (.refl _)
      exact .install hm hb hw
    · rename_i hend
      obtain ⟨c, rfl, hw⟩ := writing_spec hs (.refl _)
      exact .clear hm hend hw
  · rename_i hm
    cases hs
    exact .finish hm
  · cases hs

/-- **What a step of a recovery does.** -/
inductive Recovering (g : Geom) (s : Sys) : Sys → Prop where
  | head {lh : List Nat} {c : Bio.Cache Blk} (hm : s.mode = .boot)
      (hf : s.toCache.Ok → Bio.Fetched s.toCache c ∧ c.held.Perm s.held ∧
        lh = (s.view g.start).head) :
      Recovering g s { s with toCache := c, lh := lh, mode := .recover 0 }
  | install {t b : Nat} {c : Bio.Cache Blk} (hm : s.mode = .recover t) (hb : s.lh[t]? = some b)
      (hw : s.toCache.Ok → Bio.Wrote s.toCache c [g.slot t, b] b (s.view (g.slot t))) :
      Recovering g s { s with toCache := c, mode := .recover (t + 1) }
  | clear {t : Nat} {c : Bio.Cache Blk} (hm : s.mode = .recover t) (hend : s.lh[t]? = none)
      (hw : s.toCache.Ok → Bio.Wrote s.toCache c [g.start] g.start ((s.view g.start).setHead [])) :
      Recovering g s { s with toCache := c, lh := [], mode := .run }

theorem recover_cases (hs : recover g s = some s') : Recovering g s s' := by
  unfold recover at hs
  split at hs
  · rename_i hm
    obtain ⟨c, hc, rfl⟩ := Option.map_eq_some_iff.mp hs
    refine .head hm fun hok => ?_
    obtain ⟨hf, hheld⟩ := hok.breadAll hc
    exact ⟨hf.trans (hf.ok.brelseAll _), Bio.brelseAll_held hheld, by rw [hf.view]⟩
  · rename_i t hm
    split at hs
    · rename_i b hb
      obtain ⟨c, rfl, hw⟩ := writing_spec hs (.refl _)
      exact .install hm hb hw
    · rename_i hend
      obtain ⟨c, rfl, hw⟩ := writing_spec hs (.refl _)
      exact .clear hm hend hw
  · cases hs

end Xv6Clock.Log
