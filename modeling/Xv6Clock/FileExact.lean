/-
  File:      Xv6Clock/FileExact.lean
  Subject:   Reference counts are exact.

  In every state the counts of the tables are the references that processes have, in their slots
  and in local variables. A file that has no type yet belongs to the call that allocated it. As
  every call gives back what it takes, only the slots are left where nobody is in a call.
-/
import Xv6Clock.FileCalls

namespace Xv6Clock.FileRefs

open Finset (range)
open Lib (wp)

variable {p n f : Nat} {g g' : Global} {l l' : Priv}

/-! ## 1. Files -/

/-- What a process owes, it has more than once. -/
def Solvent (l : Priv) : Prop := ∀ f, l.owed.count f = 0 ∨ l.owed.count f < l.fileWeight f

theorem solvent_nil (h : l.owed = []) : Solvent l := fun f => .inl (by rw [h]; rfl)

theorem FileStep.solvent (h : FileStep g g' l l' f)
    (hs : l.owed.count f = 0 ∨ l.owed.count f < l.fileWeight f) :
    l'.owed.count f = 0 ∨ l'.owed.count f < l'.fileWeight f := by
  cases h with
  | same _ has owes | pay _ has owes | typed _ _ _ has owes => omega
  | borrow _ held has owes | dup held _ has owes =>
    have : 0 < l.fileWeight f := held
    omega
  | alloc _ _ _ has owes => omega
  | close => omega

/-- A file that is not in use has no type. -/
def Untyped (g : Global) : Prop := ∀ f, (g.file f).ref = 0 ∨ nfile ≤ f → (g.file f).type = .none

section
variable (h : FileStep g g' l l' f)
include h

theorem FileStep.untyped (hu : (g.file f).ref = 0 ∨ nfile ≤ f → (g.file f).type = .none)
    (hfresh : f ∈ l.fresh → f < nfile ∧ 0 < (g.file f).ref) (hf : (g'.file f).ref = 0 ∨ nfile ≤ f) :
    (g'.file f).type = .none := by
  cases h with
  | same file | borrow file =>
    rw [file] at hf ⊢
    exact hu hf
  | alloc lt _ file =>
    rw [file] at hf
    exact hf.elim nofun fun hle => absurd lt (Nat.not_lt.mpr hle)
  | dup _ file | pay file =>
    rw [file] at hf ⊢
    exact hu (.inr (hf.resolve_left nofun))
  | close _ ref type =>
    rcases type with ⟨type, h1⟩ | type
    · rw [type]
      exact hu (by omega)
    · exact type
  | typed _ mem file =>
    obtain ⟨hlt, hpos⟩ := hfresh mem
    rw [file] at hf
    change (g.file f).ref = 0 ∨ _ at hf
    omega

/-- **What the others own stays theirs**: a file to which the process does not refer keeps its
    type and stays in use, and the process gets no reference to it. -/
theorem FileStep.other (hown : f ∈ l.fresh → l.Holds f) (hf : ¬ l.Holds f)
    (hr : 0 < (g.file f).ref) :
    (g'.file f).type = (g.file f).type ∧ 0 < (g'.file f).ref ∧ ¬ l'.Holds f := by
  unfold Priv.Holds at *
  cases h with
  | same file has =>
    rw [file, has]
    exact ⟨rfl, hr, hf⟩
  | pay file has =>
    rw [file, has]
    exact ⟨rfl, Nat.succ_pos _, hf⟩
  | alloc _ free => omega
  | borrow _ held | dup held => exact absurd held hf
  | close _ _ _ has => omega
  | typed _ mem => exact absurd (hown mem) hf

/-- What the process still owns, or newly owns. -/
theorem FileStep.mine (hown : f ∈ l.fresh → l.Holds f) (hf : f ∈ l'.fresh) :
    l'.Holds f ∧ (g'.file f).type = (g.file f).type ∧
      (f ∈ l.fresh ∧ (g.file f).ref ≤ (g'.file f).ref ∨
        f < nfile ∧ (g.file f).ref = 0 ∧ 0 < (g'.file f).ref) := by
  unfold Priv.Holds at *
  cases h with
  | same file has _ fresh | borrow file _ has _ fresh =>
    have hm := fresh.mp hf
    have := hown hm
    rw [file]
    exact ⟨by omega, rfl, .inl ⟨hm, Nat.le_refl _⟩⟩
  | alloc lt free file has =>
    rw [file]
    exact ⟨by omega, rfl, .inr ⟨lt, free, Nat.one_pos⟩⟩
  | dup _ file has _ fresh | pay file has _ fresh =>
    have hm := fresh.mp hf
    have := hown hm
    rw [file]
    exact ⟨by omega, rfl, .inl ⟨hm, Nat.le_succ _⟩⟩
  | close _ _ _ _ _ _ fresh | typed _ _ _ _ _ fresh => exact absurd hf fresh

end

/-! ## 2. Inodes -/

/-- A cached inode has one entry in use. -/
def Unique (g : Global) : Prop := ∀ i j, i < ninode → j < ninode → i ≠ j → 0 < (g.inode i).ref →
  0 < (g.inode j).ref → ¬ ((g.inode i).dev = (g.inode j).dev ∧ (g.inode i).inum = (g.inode j).inum)

/-- Counts that only move where they are not zero. -/
theorem Unique.ref (hu : Unique g) {i ref : Nat} (hi : 0 < (g.inode i).ref)
    (h : g' = g.setInode i ⟨(g.inode i).dev, (g.inode i).inum, ref⟩) : Unique g' := by
  have hkey : ∀ j, (g'.inode j).dev = (g.inode j).dev ∧ (g'.inode j).inum = (g.inode j).inum ∧
      (0 < (g'.inode j).ref → 0 < (g.inode j).ref) := fun j => by
    rw [h, inode_setInode]
    split
    · rename_i hj
      rw [hj]
      exact ⟨rfl, rfl, fun _ => hi⟩
    · exact ⟨rfl, rfl, id⟩
  intro a b ha hb hab hra hrb
  rw [(hkey a).1, (hkey a).2.1, (hkey b).1, (hkey b).2.1]
  exact hu a b ha hb hab ((hkey a).2.2 hra) ((hkey b).2.2 hrb)

theorem Unique.fill (hu : Unique g) {k dev inum ref : Nat}
    (hnew : ∀ j, j < ninode → 0 < (g.inode j).ref →
      ¬ ((g.inode j).dev = dev ∧ (g.inode j).inum = inum)) :
    Unique (g.setInode k ⟨dev, inum, ref⟩) := by
  intro a b ha hb hab hra hrb
  rw [inode_setInode] at hra hrb ⊢
  rw [inode_setInode]
  by_cases hak : a = k
  · have hbk : b ≠ k := fun e => hab (hak.trans e.symm)
    rw [if_neg hbk] at hrb ⊢
    rw [if_pos hak]
    exact fun he => hnew b hb hrb ⟨he.1.symm, he.2.symm⟩
  · rw [if_neg hak] at hra ⊢
    by_cases hbk : b = k
    · rw [if_pos hbk]
      exact hnew a ha hra
    · rw [if_neg hbk] at hrb ⊢
      exact hu a b ha hb hab hra hrb

theorem InodeEffect.unique (h : InodeEffect g g' l l') (hu : Unique g) : Unique g' := by
  cases h with
  | move inode =>
    unfold Unique
    rw [inode]
    exact hu
  | dup k pos table | put k pos table => exact hu.ref pos table
  | fill k dev inum _ new table =>
    rw [table]
    exact hu.fill new

/-! ## 3. The invariant -/

/-- The sum of a weight over all processes. -/
def Machine.total (m : Machine) (W : Priv → Nat) : Nat :=
  ∑ p ∈ range nproc, (m.proc p).elim 0 fun x => W x.priv

/-- **Counted**: the tables count what the processes have. -/
structure Counted (m : Machine) : Prop where
  files : ∀ f, (m.g.file f).ref + m.total (·.owed.count f) = m.total (·.fileWeight f)
  inodes : ∀ i, (m.g.inode i).ref = m.g.typed i + m.total (·.inodeWeight i)
  untyped : Untyped m.g
  unique : Unique m.g
  solvent : ∀ p x, m.proc p = some x → Solvent x.priv

/-- **Owned**: a file without a type belongs to the call that allocated it. -/
def Owned (m : Machine) : Prop := ∀ p x, m.proc p = some x → ∀ f ∈ x.priv.fresh,
  f < nfile ∧ (m.g.file f).type = .none ∧ 0 < (m.g.file f).ref ∧ x.priv.Holds f ∧
    ∀ q y, q ≠ p → m.proc q = some y → ¬ y.priv.Holds f

/-- **Processes**: a live process has a slot, the child of a fork has one of its own, and what is
    left of a call gives back what it took. -/
structure Procs (m : Machine) : Prop where
  live : ∀ p x, m.proc p = some x → p < nproc ∧ m.g.state p = .live
  child : ∀ p x c, m.proc p = some x → x.priv.child = some c →
    c.slot < nproc ∧ m.g.state c.slot = .embryo
  apart : ∀ p x c q y d, m.proc p = some x → m.proc q = some y → p ≠ q →
    x.priv.child = some c → y.priv.child = some d → c.slot ≠ d.slot
  returns : ∀ p x, m.proc p = some x → wp rules (fun _ => Idle) x.prog x.priv

structure Inv (m : Machine) : Prop where
  counted : Counted m
  owned : Owned m
  procs : Procs m

variable {m m' : Machine} {x y : Proc}

/-- Who is who, when one process is replaced. -/
theorem update_proc {f : Nat → Option Proc} {q : Nat}
    (h : Function.update f p (some x) q = some y) : q = p ∧ y = x ∨ q ≠ p ∧ f q = some y := by
  by_cases hqp : q = p
  · rw [hqp, Function.update_self] at h
    exact .inl ⟨hqp, (Option.some.inj h).symm⟩
  · exact .inr ⟨hqp, (Function.update_of_ne hqp ..).symm.trans h⟩

theorem total_update (W : Priv → Nat) (hp : p < nproc) (y : Option Proc) (g : Global) :
    Machine.total ⟨g, Function.update m.proc p y⟩ W + (m.proc p).elim 0 (fun x => W x.priv) =
      m.total W + y.elim 0 fun y => W y.priv :=
  Lib.sum_update_entry (fun _ (z : Option Proc) => z.elim 0 fun x => W x.priv) m.proc hp y

/-- A process is replaced by one with another private state. -/
theorem total_replace (W : Priv → Nat) (hp : p < nproc) (hx : m.proc p = some x) (y : Proc)
    (g : Global) : Machine.total ⟨g, Function.update m.proc p (some y)⟩ W + W x.priv =
      m.total W + W y.priv := by
  have h := total_update (m := m) W hp (some y) g
  rw [hx] at h
  exact h

theorem total_le (W : Priv → Nat) (hp : p < nproc) (hx : m.proc p = some x) :
    W x.priv ≤ m.total W := by
  have h := Lib.le_sum (fun p => (m.proc p).elim 0 fun x => W x.priv) hp
  rw [hx] at h
  exact h

/-- **Nobody refers to a file that is not in use.** -/
theorem Counted.nobody (hc : Counted m) (hl : Procs m) (h0 : (m.g.file f).ref = 0) {q : Nat}
    (hq : m.proc q = some y) : ¬ y.priv.Holds f := by
  intro hh
  have hsum := hc.files f
  rw [h0, Nat.zero_add] at hsum
  have hlt : m.total (·.owed.count f) < m.total (·.fileWeight f) := by
    refine Finset.sum_lt_sum (fun p _ => ?_)
      ⟨q, Finset.mem_range.mpr (hl.live q y hq).1, ?_⟩
    · cases hp : m.proc p with
      | none => exact Nat.le_refl _
      | some x =>
        change x.priv.owed.count f ≤ x.priv.fileWeight f
        rcases hc.solvent p x hp f with h | h <;> omega
    · rw [hq]
      change y.priv.owed.count f < y.priv.fileWeight f
      have : 0 < y.priv.fileWeight f := hh
      rcases hc.solvent q y hq f with h | h <;> omega
  omega

theorem Counted.inode_pos (hc : Counted m) (hp : p < nproc) (hx : m.proc p = some x) {ip : Nat}
    (h : ip ∈ x.priv.inodes ∨ x.priv.cwd = some ip) : 0 < (m.g.inode ip).ref := by
  rw [hc.inodes ip]
  have hle := total_le (·.inodeWeight ip) hp hx
  have hw : 1 ≤ x.priv.inodeWeight ip := by
    rw [inodeWeight_eq]
    rcases h with h | h
    · have := List.count_pos_iff.mpr h
      omega
    · rw [h, refsTo_some, ind_self]
      omega
  omega

/-! ## 4. Steps -/

/-- **Owned where processes stay as they are**, but for some that own nothing, before or after,
    and have what one of these had. -/
theorem Owned.of_from (ho : Owned m) (hfile : m'.g.file = m.g.file)
    (hfrom : ∀ q y, m'.proc q = some y → (∃ z, m.proc q = some z ∧ z.priv = y.priv) ∨
      y.priv.fresh = [] ∧ ∃ o z, m.proc o = some z ∧ z.priv.fresh = [] ∧
        ∀ f, y.priv.Holds f → z.priv.Holds f) : Owned m' := by
  intro q y hq f hf
  rcases hfrom q y hq with ⟨z, hz, he⟩ | ⟨hnil, -⟩
  · rw [← he] at hf ⊢
    obtain ⟨h1, h2, h3, h4, h5⟩ := ho q z hz f hf
    rw [hfile]
    refine ⟨h1, h2, h3, h4, fun q' y' hne hq' => ?_⟩
    rcases hfrom q' y' hq' with ⟨z', hz', he'⟩ | ⟨-, o, z', hz', hnil, hholds⟩
    · exact he' ▸ h5 q' z' hne hz'
    · refine fun hh => h5 o z' (fun e => ?_) hz' (hholds f hh)
      rw [e, hz] at hz'
      cases hz'
      rw [hnil] at hf
      cases hf
  · rw [hnil] at hf
    cases hf

/-- **Processes where each is one there was**, or has no child. -/
theorem Procs.of_from (hp : Procs m)
    (hfrom : ∀ q y, m'.proc q = some y → (∃ z, m.proc q = some z ∧ z.priv = y.priv) ∨
      y.priv.child = none)
    (hlive : ∀ q y, m'.proc q = some y → q < nproc ∧ m'.g.state q = .live ∧
      wp rules (fun _ => Idle) y.prog y.priv)
    (hembryo : ∀ q y c, m'.proc q = some y → y.priv.child = some c →
      m.g.state c.slot = .embryo → m'.g.state c.slot = .embryo) : Procs m' := by
  have back : ∀ q y c, m'.proc q = some y → y.priv.child = some c →
      ∃ z, m.proc q = some z ∧ z.priv.child = some c := fun q y c hq hc => by
    rcases hfrom q y hq with ⟨z, hz, he⟩ | hnone
    · exact ⟨z, hz, he ▸ hc⟩
    · rw [hnone] at hc
      cases hc
  refine ⟨fun q y hq => ⟨(hlive q y hq).1, (hlive q y hq).2.1⟩, fun q y c hq hc => ?_,
    fun q y c q' y' d hq hq' hne hc hd => ?_, fun q y hq => (hlive q y hq).2.2⟩
  · obtain ⟨z, hz, hzc⟩ := back q y c hq hc
    obtain ⟨hlt, hst⟩ := hp.child q z c hz hzc
    exact ⟨hlt, hembryo q y c hq hc hst⟩
  · obtain ⟨z, hz, hzc⟩ := back q y c hq hc
    obtain ⟨z', hz', hzd⟩ := back q' y' d hq' hd
    exact hp.apart q z c q' z' d hz hz' hne hzc hzd

/-- A process goes on with another program, and the tables of files and inodes stay. -/
theorem Inv.relabel (hi : Inv m) (hx : m.proc p = some x) {prog : P Unit}
    (hw : wp rules (fun _ => Idle) prog x.priv) :
    Inv { m with proc := Function.update m.proc p (some ⟨x.priv, prog⟩) } := by
  have hp := hi.procs.live p x hx
  -- the private states are the same
  have same : ∀ q y, Function.update m.proc p (some ⟨x.priv, prog⟩) q = some y →
      ∃ z, m.proc q = some z ∧ z.priv = y.priv := fun q y hq => by
    rcases update_proc hq with ⟨rfl, rfl⟩ | ⟨-, hq⟩
    · exact ⟨x, hx, rfl⟩
    · exact ⟨y, hq, rfl⟩
  have htot : ∀ W, Machine.total { m with proc := Function.update m.proc p (some ⟨x.priv, prog⟩) }
      W = m.total W := fun W => Nat.add_right_cancel (total_replace W hp.1 hx ⟨x.priv, prog⟩ m.g)
  refine ⟨⟨fun f => ?_, fun i => ?_, hi.counted.untyped, hi.counted.unique, fun q y hq => ?_⟩,
    hi.owned.of_from rfl fun q y hq => .inl (same q y hq),
    hi.procs.of_from (fun q y hq => .inl (same q y hq)) (fun q y hq => ?_) fun _ _ _ _ _ h => h⟩
  · rw [htot, htot]
    exact hi.counted.files f
  · rw [htot]
    exact hi.counted.inodes i
  · obtain ⟨z, hz, he⟩ := same q y hq
    exact he ▸ hi.counted.solvent q z hz
  · rcases update_proc hq with ⟨rfl, rfl⟩ | ⟨-, hq⟩
    · exact ⟨hp.1, hp.2, hw⟩
    · exact ⟨(hi.procs.live q y hq).1, (hi.procs.live q y hq).2, hi.procs.returns q y hq⟩

/-- A state of a process that is neither live nor being made does not matter. -/
theorem Inv.restate (hi : Inv m) {s : PState} (hp : m.g.state p = .zombie) :
    Inv { m with g := m.g.setState p s } := by
  have keep : ∀ q t, m.g.state q = t → t ≠ .zombie → (m.g.setState p s).state q = t :=
    fun q t hq ht => by
      have hqp : q ≠ p := fun e => ht (by rw [← hq, e, hp])
      exact (Function.update_of_ne hqp _ _).trans hq
  exact ⟨⟨hi.counted.files, hi.counted.inodes, hi.counted.untyped, hi.counted.unique,
    hi.counted.solvent⟩, hi.owned,
    fun q y hq => ⟨(hi.procs.live q y hq).1, keep q _ (hi.procs.live q y hq).2 nofun⟩,
    fun q y c hq hc => ⟨(hi.procs.child q y c hq hc).1,
      keep c.slot _ (hi.procs.child q y c hq hc).2 nofun⟩, hi.procs.apart, hi.procs.returns⟩

section Run

variable {c : Cmd} {k : c.Ans → P Unit} {r : c.Ans}

/-- The counts after a command that neither starts nor ends a process. -/
theorem run_counted (hi : Inv m) (hx : m.proc p = some ⟨l, .cmd c k⟩)
    (ha : act p n m.g l c = some (r, g')) (hn : need c l) (hs : c ≠ .start) (prog : P Unit) :
    Counted ⟨g', Function.update m.proc p (some ⟨l.after c r, prog⟩)⟩ := by
  have hp := (hi.procs.live p _ hx).1
  have hown := hi.owned p _ hx
  have hfile := act_file ha hn hs
  have hinode : InodeEffect m.g g' l (l.after c r) :=
    act_inode (fun ip h => hi.counted.inode_pos hp hx h)
      (fun f hf => hi.counted.untyped f (.inr hf))
      (fun f hf => ⟨(hown f hf).1, (hown f hf).2.1⟩) ha hn hs
  refine ⟨fun f => ?_, fun i => ?_, fun f => ?_, hinode.unique hi.counted.unique, fun q y hq => ?_⟩
  · have h1 := total_replace (·.owed.count f) hp hx ⟨l.after c r, prog⟩ g'
    have h2 := total_replace (·.fileWeight f) hp hx ⟨l.after c r, prog⟩ g'
    have h3 := hi.counted.files f
    have h4 := (hfile f).balance
    change _ + l.owed.count f = _ + (l.after c r).owed.count f at h1
    change _ + l.fileWeight f = _ + (l.after c r).fileWeight f at h2
    change (g'.file f).ref + _ = _
    omega
  · have h1 := total_replace (·.inodeWeight i) hp hx ⟨l.after c r, prog⟩ g'
    have h3 := hi.counted.inodes i
    have h4 := hinode.balance i
    change _ + l.inodeWeight i = _ + (l.after c r).inodeWeight i at h1
    change (g'.inode i).ref = g'.typed i + _
    omega
  · exact (hfile f).untyped (hi.counted.untyped f) fun hf => ⟨(hown f hf).1, (hown f hf).2.2.1⟩
  · rcases update_proc hq with ⟨rfl, rfl⟩ | ⟨-, hq⟩
    · exact fun f => (hfile f).solvent (hi.counted.solvent _ _ hx f)
    · exact hi.counted.solvent q y hq

theorem run_owned (hi : Inv m) (hx : m.proc p = some ⟨l, .cmd c k⟩)
    (ha : act p n m.g l c = some (r, g')) (hn : need c l) (hs : c ≠ .start) (prog : P Unit) :
    Owned ⟨g', Function.update m.proc p (some ⟨l.after c r, prog⟩)⟩ := by
  intro q y hq f hf
  have hfile := act_file ha hn hs f
  have hown : f ∈ l.fresh → l.Holds f := fun hf => (hi.owned p _ hx f hf).2.2.2.1
  rcases update_proc hq with ⟨rfl, rfl⟩ | ⟨hqp, hq⟩
  · obtain ⟨hh, ht, ⟨hm, hr⟩ | ⟨hlt, h0, hr⟩⟩ := hfile.mine hown hf
    · obtain ⟨h1, h2, h3, -, h5⟩ := hi.owned _ _ hx f hm
      have hpos := Nat.lt_of_lt_of_le h3 hr
      refine ⟨h1, ht.trans h2, hpos, hh, fun q' y' hne hq' => ?_⟩
      exact h5 q' y' hne ((update_proc hq').resolve_left fun e => hne e.1).2
    · refine ⟨hlt, ht.trans (hi.counted.untyped f (.inl h0)), hr, hh, fun q' y' hne hq' => ?_⟩
      exact hi.counted.nobody hi.procs h0 ((update_proc hq').resolve_left fun e => hne e.1).2
  · obtain ⟨h1, h2, h3, h4, h5⟩ := hi.owned q y hq f hf
    obtain ⟨ht, hr, hnot⟩ := hfile.other hown (h5 p ⟨l, .cmd c k⟩ (Ne.symm hqp) hx) h3
    refine ⟨h1, ht.trans h2, hr, h4, fun q' y' hne hq' => ?_⟩
    rcases update_proc hq' with ⟨-, rfl⟩ | ⟨-, hq'⟩
    · exact hnot
    · exact h5 q' y' hne hq'

end Run

end Xv6Clock.FileRefs
