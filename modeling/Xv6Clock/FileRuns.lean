/-
  File:      Xv6Clock/FileRuns.lean
  Subject:   Reference counts along every run.

  Most commands change the tables and one private state. The start of a child hands what its
  parent has collected for it to a new process, and the last command of `exit` removes a process
  that has nothing left. With these the invariant holds in every reachable machine, and where
  nobody is in a call it says that the counts are exact.
-/
import Xv6Clock.FileExact
import Mathlib.Algebra.BigOperators.Group.Finset.Piecewise

namespace Xv6Clock.FileRefs

open Finset (range)
open Lib (wp)

/-! ## 1. Slots of the process table -/

/-- **The three effects on the process table**, and on the child of the process. -/
inductive SlotEffect (g g' : Global) (l l' : Priv) : Prop where
  | keep (state : g'.state = g.state) (child : l'.child.map Child.slot = l.child.map Child.slot)
  | alloc (c : Child) (lt : c.slot < nproc) (unused : g.state c.slot = .unused)
      (state : g'.state = Function.update g.state c.slot .embryo) (child : l'.child = some c)
  | free (c : Child) (old : l.child = some c)
      (state : g'.state = Function.update g.state c.slot .unused) (child : l'.child = none)

variable {p n : Nat} {g g' : Global} {l l' : Priv} {m m' : Machine} {x y : Proc}

theorem iget_state {dev inum i : Nat} (h : iget g dev inum = some (i, g')) :
    g'.state = g.state := by
  obtain ⟨-, ⟨-, -, -, rfl⟩ | ⟨-, -, rfl⟩⟩ := iget_spec h <;> rfl

theorem fileclose_state {f : Nat} {r : Option FType} (h : fileclose g f = some (r, g')) :
    g'.state = g.state := by
  obtain ⟨-, -, rfl⟩ | ⟨-, -, rfl⟩ := fileclose_spec h <;> rfl

theorem filedup_state {f : Nat} (h : filedup g f = some g') : g'.state = g.state := by
  rw [(filedup_spec h).2]
  rfl

theorem act_slots {c : Cmd} {r : c.Ans} (h : act p n g l c = some (r, g')) (hs : c ≠ .start)
    (he : c ≠ .exited) : SlotEffect g g' l (l.after c r) := by
  cases c with
  | ask | dev | getFd | iput | setCwd | setInode | setPipe =>
    cases h
    exact .keep rfl rfl
  | panic => cases h
  | iget dev inum => exact .keep (iget_state h) rfl
  | idupCwd | takeCwd =>
    obtain ⟨i, -, he⟩ := Option.map_eq_some_iff.mp h
    cases he
    exact .keep rfl rfl
  | filealloc =>
    rcases filealloc_spec (Option.some.inj h) with ⟨rfl, rfl⟩ | ⟨k, rfl, -, -, rfl⟩
    · exact .keep rfl rfl
    · exact .keep rfl rfl
  | filedup k =>
    obtain ⟨g1, hg1, he⟩ := Option.map_eq_some_iff.mp h
    cases he
    exact .keep (filedup_state hg1) rfl
  | fileclose k =>
    obtain ⟨-, -, hchild, -⟩ := after_fileclose (l := l) k r
    exact .keep (fileclose_state h) (by rw [hchild])
  | takeFd fd =>
    cases h
    refine .keep rfl ?_
    change (l.takeFd fd).child.map _ = _
    unfold Priv.takeFd
    split <;> rfl
  | fdalloc k =>
    obtain ⟨-, rfl⟩ := Prod.mk.inj (Option.some.inj h)
    refine .keep rfl ?_
    change (l.fdalloc k r).child.map _ = _
    unfold Priv.fdalloc
    split
    · rfl
    · dsimp only
      split <;> rfl
  | allocproc =>
    rcases allocproc_spec (Option.some.inj h) with ⟨rfl, rfl⟩ | ⟨q, rfl, hlt, hun, rfl⟩
    · exact .keep rfl rfl
    · exact .alloc ⟨q, fun _ => none, none⟩ hlt hun rfl rfl
  | freeproc =>
    obtain ⟨c, hc, he⟩ := Option.map_eq_some_iff.mp h
    cases he
    exact .free c hc rfl rfl
  | dupFd fd =>
    have hchild : (l.after (.dupFd fd) r).child.map Child.slot = l.child.map Child.slot := by
      change (l.child.map _).map _ = _
      rw [Option.map_map]
      rfl
    rcases dupFd_spec h with ⟨-, rfl⟩ | ⟨k, -, hd⟩
    · exact .keep rfl hchild
    · exact .keep (filedup_state hd) hchild
  | dupCwd =>
    obtain ⟨i, -, he⟩ := Option.map_eq_some_iff.mp h
    cases he
    refine .keep rfl ?_
    change (l.child.map _).map _ = _
    rw [Option.map_map]
    rfl
  | start => exact absurd rfl hs
  | exited => exact absurd rfl he

/-- A live process stays live, and a slot being filled stays so unless it is this child's. -/
theorem SlotEffect.state (h : SlotEffect g g' l l') {q : Nat} :
    (g.state q = .live → (∀ c, l.child = some c → g.state c.slot = .embryo) →
      g'.state q = .live) ∧
    (g.state q = .embryo → (∀ c, l.child = some c → c.slot ≠ q) → g'.state q = .embryo) := by
  cases h with
  | keep state => exact ⟨fun hq _ => state ▸ hq, fun hq _ => state ▸ hq⟩
  | alloc c _ unused state =>
    have hne : ∀ {s : PState}, g.state q = s → s ≠ .unused → q ≠ c.slot := fun hq hs e =>
      hs (by rw [← hq, e, unused])
    refine ⟨fun hq _ => ?_, fun hq _ => ?_⟩
    · rw [state, Function.update_of_ne (hne hq nofun), hq]
    · rw [state, Function.update_of_ne (hne hq nofun), hq]
  | free c old state =>
    refine ⟨fun hq hemb => ?_, fun hq hne => ?_⟩
    · have hqc : q ≠ c.slot := fun e => by
        have h1 := hemb c old
        rw [← e, hq] at h1
        cases h1
      rw [state, Function.update_of_ne hqc, hq]
    · rw [state, Function.update_of_ne (hne c old).symm, hq]

/-- The child after a command: the one there was, or one in a slot that was not in use. -/
theorem SlotEffect.child (h : SlotEffect g g' l l') {c : Child} (hc : l'.child = some c) :
    (∃ d, l.child = some d ∧ d.slot = c.slot ∧ g'.state = g.state) ∨
      c.slot < nproc ∧ g.state c.slot = .unused ∧ g'.state c.slot = .embryo := by
  cases h with
  | keep state child =>
    rw [hc] at child
    obtain ⟨d, hd, he⟩ := Option.map_eq_some_iff.mp child.symm
    exact .inl ⟨d, hd, he, state⟩
  | alloc d lt unused state child =>
    obtain rfl : d = c := Option.some.inj (child.symm.trans hc)
    exact .inr ⟨lt, unused, by rw [state, Function.update_self]⟩
  | free d old state child =>
    rw [child] at hc
    cases hc

section Run

variable {c : Cmd} {k : c.Ans → P Unit} {r : c.Ans}

theorem run_procs (hi : Inv m) (hx : m.proc p = some ⟨l, .cmd c k⟩)
    (ha : act p n m.g l c = some (r, g')) (hs : c ≠ .start) (he : c ≠ .exited) :
    Procs ⟨g', Function.update m.proc p (some ⟨l.after c r, k r⟩)⟩ := by
  have hslot := act_slots ha hs he
  have hw := hi.procs.returns p _ hx
  have hpos : ∀ f ∈ l.fresh, 0 < (m.g.file f).ref := fun f hf => (hi.owned p _ hx f hf).2.2.1
  have hemb : ∀ d, l.child = some d → m.g.state d.slot = .embryo := fun d hd =>
    (hi.procs.child p _ d hx hd).2
  -- the child of another process has another slot than the child of this one
  have hother : ∀ q y d e, q ≠ p → m.proc q = some y → y.priv.child = some d →
      (l.after c r).child = some e → d.slot ≠ e.slot := by
    intro q y d e hqp hq hd hce heq
    rcases hslot.child hce with ⟨d', hd', hsl, -⟩ | ⟨-, hun, -⟩
    · exact hi.procs.apart q y d p _ d' hq hx hqp hd hd' (heq.trans hsl.symm)
    · rw [← heq, (hi.procs.child q y d hq hd).2] at hun
      cases hun
  refine ⟨fun q y hq => ?_, fun q y d hq hd => ?_, fun q y d q' y' d' hq hq' hne hd hd' => ?_,
    fun q y hq => ?_⟩
  · have hlive : q < nproc ∧ m.g.state q = .live := by
      rcases update_proc hq with ⟨rfl, -⟩ | ⟨-, hq⟩
      · exact hi.procs.live _ _ hx
      · exact hi.procs.live q y hq
    exact ⟨hlive.1, hslot.state.1 hlive.2 hemb⟩
  · rcases update_proc hq with ⟨rfl, rfl⟩ | ⟨hqp, hq⟩
    · rcases hslot.child hd with ⟨d', hd', hsl, hst⟩ | ⟨hlt, -, hst⟩
      · rw [← hsl]
        exact ⟨(hi.procs.child _ _ d' hx hd').1, by rw [hst]; exact hemb d' hd'⟩
      · exact ⟨hlt, hst⟩
    · obtain ⟨hlt, hst⟩ := hi.procs.child q y d hq hd
      exact ⟨hlt, hslot.state.2 hst fun d' hd' e =>
        hi.procs.apart q y d p _ d' hq hx hqp hd hd' e.symm⟩
  · rcases update_proc hq with ⟨rfl, rfl⟩ | ⟨hqp, hq⟩
    · obtain ⟨hq'p, hq'⟩ := (update_proc hq').resolve_left fun e => hne e.1.symm
      exact (hother q' y' d' d hq'p hq' hd' hd).symm
    · rcases update_proc hq' with ⟨-, rfl⟩ | ⟨-, hq'⟩
      · exact hother q y d d' hqp hq hd hd'
      · exact hi.procs.apart q y d q' y' d' hq hq' hne hd hd'
  · rcases update_proc hq with ⟨rfl, rfl⟩ | ⟨-, hq⟩
    · exact hw.2 r _ ⟨act_ok ha he hpos, rfl⟩
    · exact hi.procs.returns q y hq

end Run

/-! ## 2. A child starts -/

/-- The parent without the child that starts. -/
def Priv.orphan (l : Priv) : Priv := { l with child := none }

theorem start_files {c : Child} (hc : l.child = some c) (f : Nat) :
    l.fileWeight f = l.orphan.fileWeight f + c.priv.fileWeight f := by
  rw [fileWeight_eq, Priv.childWeight_some hc]
  change _ = slots l.ofile f + l.files.count f + 0 + (slots c.ofile f + 0 + 0)
  omega

theorem start_inodes {c : Child} (hc : l.child = some c) (i : Nat) :
    l.inodeWeight i = l.orphan.inodeWeight i + c.priv.inodeWeight i := by
  rw [inodeWeight_eq, Priv.childCwd_some hc]
  rfl

/-- The machine after process `p` has started its child, with `prog` left to do. -/
def Machine.started (m : Machine) (p : Nat) (l : Priv) (prog : P Unit) (c : Child) : Machine :=
  ⟨m.g.setState c.slot .live, Function.update
    (Function.update m.proc p (some ⟨l.orphan, prog⟩)) c.slot (some ⟨c.priv, pure ()⟩)⟩

section Start

variable {prog : P Unit} {c : Child}

/-- The new process, the parent, and the others. -/
theorem started_proc {q : Nat} (h : (m.started p l prog c).proc q = some y) :
    (q = c.slot ∧ y = ⟨c.priv, pure ()⟩) ∨ (q = p ∧ y = ⟨l.orphan, prog⟩) ∨
      q ≠ p ∧ q ≠ c.slot ∧ m.proc q = some y := by
  rcases update_proc h with h1 | ⟨hqs, hq⟩
  · exact .inl h1
  · exact .inr ((update_proc hq).imp_right fun h1 => ⟨h1.1, hqs, h1.2⟩)

/-- Nobody runs in the slot of the child yet. -/
theorem Inv.child_idle (hi : Inv m) (hx : m.proc p = some x) (hc : x.priv.child = some c) :
    c.slot ≠ p ∧ m.proc c.slot = none := by
  obtain ⟨-, hemb⟩ := hi.procs.child p x c hx hc
  have hnone : m.proc c.slot = none := by
    cases hq : m.proc c.slot with
    | none => rfl
    | some y =>
      have h1 := (hi.procs.live _ y hq).2
      rw [hemb] at h1
      cases h1
  refine ⟨fun e => ?_, hnone⟩
  rw [e, hx] at hnone
  cases hnone

theorem started_total (hi : Inv m) (hx : m.proc p = some x) (hc : x.priv.child = some c)
    (prog : P Unit) (W : Priv → Nat) : (m.started p x.priv prog c).total W + W x.priv =
      m.total W + W x.priv.orphan + W c.priv := by
  obtain ⟨hps, hnone⟩ := hi.child_idle hx hc
  have h1 := total_replace W (hi.procs.live p x hx).1 hx ⟨x.priv.orphan, prog⟩ m.g
  have h2 := total_update (m := ⟨m.g, Function.update m.proc p (some ⟨x.priv.orphan, prog⟩)⟩) W
    (hi.procs.child p x c hx hc).1 (some ⟨c.priv, pure ()⟩) (m.g.setState c.slot .live)
  have h3 : Function.update m.proc p (some ⟨x.priv.orphan, prog⟩) c.slot = none := by
    rw [Function.update_of_ne hps, hnone]
  dsimp only at h1 h2
  rw [h3] at h2
  unfold Machine.started
  change _ + 0 = _ + W c.priv at h2
  omega

theorem run_start {k : Unit → P Unit} (hi : Inv m) (hx : m.proc p = some ⟨l, .cmd .start k⟩)
    (hc : l.child = some c) : Inv (m.started p l (k ()) c) := by
  obtain ⟨⟨hfresh, howed, d, hd, hcwd⟩, hk⟩ := hi.procs.returns p _ hx
  obtain rfl : d = c := Option.some.inj (hd.symm.trans hc)
  obtain ⟨hplt, hplive⟩ := hi.procs.live p _ hx
  obtain ⟨hslt, hsemb⟩ := hi.procs.child p _ d hx hc
  have hps := (hi.child_idle hx hc).1
  have htot := started_total hi hx hc (k ())
  have keep : ∀ q, q ≠ d.slot → (m.g.setState d.slot .live).state q = m.g.state q := fun q hq =>
    Function.update_of_ne hq _ _
  refine ⟨⟨fun f => ?_, fun i => ?_, hi.counted.untyped, hi.counted.unique, fun q y hq => ?_⟩,
    hi.owned.of_from rfl fun q y hq => ?_, hi.procs.of_from (fun q y hq => ?_) (fun q y hq => ?_)
      fun q y e hq he hst => ?_⟩
  · have h1 := htot (·.owed.count f)
    have h2 := htot (·.fileWeight f)
    have h3 := hi.counted.files f
    have h4 := start_files hc f
    have h5 : l.owed.count f = 0 := by rw [howed]; rfl
    have h6 : l.orphan.owed.count f = 0 := h5
    have h7 : d.priv.owed.count f = 0 := rfl
    change (m.g.file f).ref + _ = _
    dsimp only at h1 h2
    omega
  · have h1 := htot (·.inodeWeight i)
    have h3 := hi.counted.inodes i
    have h4 := start_inodes hc i
    change (m.g.inode i).ref = m.g.typed i + _
    dsimp only at h1
    omega
  · rcases started_proc hq with ⟨-, rfl⟩ | ⟨-, rfl⟩ | ⟨-, -, hq⟩
    · exact solvent_nil rfl
    · exact solvent_nil howed
    · exact hi.counted.solvent q y hq
  -- what the parent and the child have, the parent had
  · have hw : ∀ f, l.orphan.fileWeight f ≤ l.fileWeight f ∧ d.priv.fileWeight f ≤ l.fileWeight f :=
      fun f => by
        have := start_files hc f
        omega
    rcases started_proc hq with ⟨-, rfl⟩ | ⟨-, rfl⟩ | ⟨-, -, hq⟩
    · exact .inr ⟨rfl, p, _, hx, hfresh, fun f hf => Nat.lt_of_lt_of_le hf (hw f).2⟩
    · exact .inr ⟨hfresh, p, _, hx, hfresh, fun f hf => Nat.lt_of_lt_of_le hf (hw f).1⟩
    · exact .inl ⟨y, hq, rfl⟩
  · rcases started_proc hq with ⟨-, rfl⟩ | ⟨-, rfl⟩ | ⟨-, -, hq⟩
    · exact .inr rfl
    · exact .inr rfl
    · exact .inl ⟨y, hq, rfl⟩
  · rcases started_proc hq with ⟨rfl, rfl⟩ | ⟨rfl, rfl⟩ | ⟨-, hqs, hq⟩
    · exact ⟨hslt, Function.update_self .., rfl, rfl, rfl, rfl, rfl, hcwd⟩
    · exact ⟨hplt, (keep _ hps.symm).trans hplive, hk () _ ⟨trivial, rfl⟩⟩
    · obtain ⟨h1, h2⟩ := hi.procs.live q y hq
      exact ⟨h1, (keep q hqs).trans h2, hi.procs.returns q y hq⟩
  · rcases started_proc hq with ⟨-, rfl⟩ | ⟨-, rfl⟩ | ⟨hqp, -, hq⟩
    · cases he
    · cases he
    · exact (keep _ (hi.procs.apart q y e p _ d hq hx hqp he hc)).trans hst

end Start

/-! ## 3. A process exits -/

theorem run_exited {k : Unit → P Unit} (hi : Inv m)
    (hx : m.proc p = some ⟨l, .cmd .exited k⟩) :
    Inv ⟨m.g.setState p .zombie, Function.update m.proc p none⟩ := by
  obtain ⟨⟨hfiles, howed, hinodes, -⟩, -⟩ := hi.procs.returns p _ hx
  obtain ⟨hplt, hplive⟩ := hi.procs.live p _ hx
  have others : ∀ q y, Function.update m.proc p none q = some y → q ≠ p ∧ m.proc q = some y := by
    intro q y hq
    by_cases hqp : q = p
    · rw [hqp, Function.update_self] at hq
      cases hq
    · rw [Function.update_of_ne hqp] at hq
      exact ⟨hqp, hq⟩
  have htot : ∀ W : Priv → Nat, W l = 0 →
      Machine.total ⟨m.g.setState p .zombie, Function.update m.proc p none⟩ W = m.total W := by
    intro W hW
    have h := total_update (m := m) W hplt none (m.g.setState p .zombie)
    rw [hx] at h
    change _ + W l = _ + 0 at h
    omega
  have keep : ∀ q, q ≠ p → (m.g.setState p .zombie).state q = m.g.state q := fun q hq =>
    Function.update_of_ne hq _ _
  refine ⟨⟨fun f => ?_, fun i => ?_, hi.counted.untyped, hi.counted.unique, fun q y hq => ?_⟩,
    hi.owned.of_from rfl fun q y hq => .inl ⟨y, (others q y hq).2, rfl⟩,
    hi.procs.of_from (fun q y hq => .inl ⟨y, (others q y hq).2, rfl⟩) (fun q y hq => ?_)
      fun q y e hq he hst => ?_⟩
  · rw [htot (·.fileWeight f) (hfiles f), htot (·.owed.count f) (by rw [howed]; rfl)]
    exact hi.counted.files f
  · rw [htot _ (hinodes i)]
    exact hi.counted.inodes i
  · exact hi.counted.solvent q y (others q y hq).2
  · obtain ⟨hqp, hq⟩ := others q y hq
    obtain ⟨h1, h2⟩ := hi.procs.live q y hq
    exact ⟨h1, (keep q hqp).trans h2, hi.procs.returns q y hq⟩
  · refine (keep _ fun e' => ?_).trans hst
    rw [e', hplive] at hst
    cases hst

/-! ## 4. Runs -/

theorem step_inv {a : Act} (hi : Inv m) (h : step m a = some m') : Inv m' := by
  cases a with
  | call p c =>
    unfold step at h
    dsimp only at h
    split at h
    · rename_i l u hx
      cases h
      exact hi.relabel hx (c.returns p l (hi.procs.returns p _ hx))
    · cases h
  | run p n =>
    unfold step at h
    dsimp only at h
    split at h
    · rename_i l c k hx
      split at h
      · rename_i r g' ha
        cases h
        have hn := (hi.procs.returns p _ hx).1
        by_cases hs : c = .start
        · subst hs
          obtain ⟨d, hd, he⟩ := Option.map_eq_some_iff.mp ha
          cases he
          unfold Machine.procs
          rw [hd]
          exact run_start hi hx hd
        · by_cases he : c = .exited
          · subst he
            cases ha
            exact run_exited hi hx
          · have hprocs : m.procs p l c ⟨l.after c r, k r⟩ =
                Function.update m.proc p (some ⟨l.after c r, k r⟩) := by
              unfold Machine.procs
              split
              · exact absurd rfl hs
              · exact absurd rfl he
              · rfl
            rw [hprocs]
            exact ⟨run_counted hi hx ha hn hs _, run_owned hi hx ha hn hs _,
              run_procs hi hx ha hs he⟩
      · cases h
    · cases h
  | reap p =>
    unfold step at h
    dsimp only at h
    split at h
    · rename_i hz
      cases h
      exact hi.restate hz
    · cases h

theorem boot_total (W : Priv → Nat) : Machine.boot.total W =
    W ⟨fun _ => none, some 0, [], [], [], [], none⟩ := by
  have h := Finset.sum_eq_single_of_mem (s := range nproc)
    (f := fun p => (Machine.boot.proc p).elim 0 fun x => W x.priv) 0
    (Finset.mem_range.mpr (by decide)) fun p _ hp => ?_
  · exact h
  · have hnone : Machine.boot.proc p = none := if_neg hp
    rw [hnone]
    rfl

theorem boot_inv : Inv Machine.boot := by
  have only : ∀ q y, Machine.boot.proc q = some y →
      q = 0 ∧ y = ⟨⟨fun _ => none, some 0, [], [], [], [], none⟩, pure ()⟩ := by
    intro q y hq
    by_cases h0 : q = 0
    · rw [h0] at hq
      exact ⟨h0, (Option.some.inj hq).symm⟩
    · rw [show Machine.boot.proc q = none from if_neg h0] at hq
      cases hq
  refine ⟨⟨fun f => ?_, fun i => ?_, fun f _ => rfl, fun i j _ _ hne hi hj _ => ?_,
    fun q y hq => ?_⟩, fun q y hq f hf => ?_, fun q y hq => ?_, fun q y c hq hc => ?_,
    fun q y c q' y' d hq hq' hne hc hd => ?_, fun q y hq => ?_⟩
  · rw [boot_total, boot_total, fileWeight_eq]
    change 0 + 0 = slots (fun _ => none) f + 0 + 0
    rw [slots_none]
  · have htyped : Machine.boot.g.typed i = 0 := Finset.sum_eq_zero fun f _ => FType.weight_none i
    rw [boot_total, inodeWeight_eq, htyped]
    change (if i = 0 then (⟨rootdev, rootino, 1⟩ : Inode) else ⟨0, 0, 0⟩).ref =
      0 + (refsTo (some 0) i + 0 + 0)
    rw [refsTo_some]
    by_cases h0 : i = 0
    · rw [if_pos h0, h0, ind_self]
    · rw [if_neg h0, ind_ne h0]
  · have zero : ∀ k, 0 < (Machine.boot.g.inode k).ref → k = 0 := fun k hk => by
      by_contra h0
      rw [show Machine.boot.g.inode k = ⟨0, 0, 0⟩ from if_neg h0] at hk
      exact absurd hk (Nat.lt_irrefl 0)
    exact hne ((zero i hi).trans (zero j hj).symm)
  · obtain ⟨-, rfl⟩ := only q y hq
    exact solvent_nil rfl
  · obtain ⟨-, rfl⟩ := only q y hq
    cases hf
  · obtain ⟨rfl, -⟩ := only q y hq
    exact ⟨by decide, rfl⟩
  · obtain ⟨-, rfl⟩ := only q y hq
    cases hc
  · exact absurd ((only q y hq).1.trans (only q' y' hq').1.symm) hne
  · obtain ⟨-, rfl⟩ := only q y hq
    exact ⟨rfl, rfl, rfl, rfl, rfl, rfl⟩

theorem Reachable.inv (h : Reachable m) : Inv m := Lib.Reach.inv h boot_inv step_inv

/-! ## 5. Exact counts -/

/-- The process is not in a call. -/
def Proc.between (x : Proc) : Bool :=
  match x.prog with
  | .ret _ => true
  | .cmd _ _ => false

/-- **Nobody is in a call.** -/
def Quiet (m : Machine) : Prop := ∀ p < nproc, (m.proc p).all Proc.between

instance (m : Machine) : Decidable (Quiet m) := inferInstanceAs (Decidable (∀ p < nproc, _))

/-- **The counts are exact**: of a file, the slots of all processes that point to it; of an entry
    of the inode cache, the files in use on it and the current directories. -/
structure Exact (m : Machine) : Prop where
  files : ∀ f, (m.g.file f).ref = m.total fun l => slots l.ofile f
  inodes : ∀ i, (m.g.inode i).ref =
    ((range nfile).filter fun f =>
      0 < (m.g.file f).ref ∧ (m.g.file f).type = .inode i).card + m.total fun l => refsTo l.cwd i

theorem Quiet.idle (hq : Quiet m) (hi : Inv m) (hx : m.proc p = some x) : Idle x.priv := by
  have hb := hq p (hi.procs.live p x hx).1
  have hr := hi.procs.returns p x hx
  obtain ⟨l, prog⟩ := x
  rw [hx] at hb
  cases prog with
  | ret u => exact hr
  | cmd c k => cases hb

theorem Quiet.total_congr (hq : Quiet m) (hi : Inv m) {W W' : Priv → Nat}
    (h : ∀ l, Idle l → W l = W' l) : m.total W = m.total W' := by
  refine Finset.sum_congr rfl fun p _ => ?_
  cases hx : m.proc p with
  | none => rfl
  | some x => exact h x.priv (hq.idle hi hx)

theorem Idle.fileWeight (hl : Idle l) (f : Nat) : l.fileWeight f = slots l.ofile f := by
  rw [fileWeight_eq, hl.files, Priv.childWeight_none hl.child, List.count_nil, Nat.add_zero]

theorem Idle.inodeWeight (hl : Idle l) (i : Nat) : l.inodeWeight i = refsTo l.cwd i := by
  rw [inodeWeight_eq, hl.inodes, Priv.childCwd_none hl.child, List.count_nil, Nat.add_zero]

/-- A file with a type is in use. -/
theorem Untyped.typed_card (hu : Untyped g) (i : Nat) : g.typed i =
    ((range nfile).filter fun f => 0 < (g.file f).ref ∧ (g.file f).type = .inode i).card := by
  rw [Finset.card_filter]
  refine Finset.sum_congr rfl fun f _ => ?_
  by_cases ht : (g.file f).type = .inode i
  · have hr : 0 < (g.file f).ref := Nat.pos_of_ne_zero fun h0 => by
      rw [hu f (.inl h0)] at ht
      cases ht
    rw [if_pos ht, if_pos ⟨hr, ht⟩]
  · rw [if_neg ht, if_neg fun h => ht h.2]

theorem Inv.exact (hi : Inv m) (hq : Quiet m) : Exact m := by
  refine ⟨fun f => ?_, fun i => ?_⟩
  · have hsum := hi.counted.files f
    have howed : m.total (·.owed.count f) = m.total fun _ => 0 :=
      hq.total_congr hi fun l hl => by rw [hl.owed]; rfl
    have hzero : (m.total fun _ => 0) = 0 := Finset.sum_eq_zero fun p _ => by
      cases m.proc p <;> rfl
    rw [howed, hzero, Nat.add_zero] at hsum
    rw [hsum]
    exact hq.total_congr hi fun l hl => hl.fileWeight f
  · rw [hi.counted.inodes i, hi.counted.untyped.typed_card i,
      hq.total_congr hi fun l hl => hl.inodeWeight i]

/-- **Reference counts are exact.** In every reachable machine an inode has at most one entry of
    the cache in use, and where nobody is in a call every count is what the processes have. -/
theorem refs_exact (h : Reachable m) : Unique m.g ∧ (Quiet m → Exact m) :=
  ⟨h.inv.counted.unique, h.inv.exact⟩

/-- Init creates a file, opens it, and duplicates the descriptor; then it forks. -/
def openDupFork : List Act :=
  [.call 0 (.open ⟨true, [[102]]⟩ true false)] ++ [0, 1, 0, 0, 2, 0, 0, 0, 0, 0, 0].map (.run 0) ++
  [.call 0 (.dup 0)] ++ [0, 0, 0].map (.run 0) ++
  [.call 0 .fork] ++ ([0, 1, 1] ++ List.replicate 18 0).map (.run 0)

theorem openDupFork_run : (Lib.exec step Machine.boot openDupFork).map
    (fun m => (decide (Quiet m), (m.g.file 0).ref, (m.g.inode 0).ref, (m.g.inode 1).ref)) =
      some (true, 4, 2, 1) := by
  decide +kernel

theorem refs_exact_openDupFork : ∃ m, Reachable m ∧ Quiet m ∧ (m.g.file 0).ref = 4 ∧
    (m.g.inode 0).ref = 2 ∧ (m.g.inode 1).ref = 1 ∧ Unique m.g ∧ Exact m := by
  obtain ⟨m, hs, hrun⟩ := Option.map_eq_some_iff.mp openDupFork_run
  simp only [Prod.mk.injEq] at hrun
  obtain ⟨hq, hf, h0, h1⟩ := hrun
  have hm : Reachable m := .exec (fun h => ⟨_, h⟩) .start hs
  obtain ⟨hu, he⟩ := refs_exact hm
  exact ⟨m, hm, of_decide_eq_true hq, hf, h0, h1, hu, he (of_decide_eq_true hq)⟩

end Xv6Clock.FileRefs
