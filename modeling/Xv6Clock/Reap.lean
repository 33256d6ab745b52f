/-
  File:      Xv6Clock/Reap.lean
  Subject:   fork, exit, wait and kill by any number of processes, interleaved between their
             critical sections: who is whose parent, who is reaped, and who sleeps in `wait`.

  A process that is RUNNING does the next section of what it is in. A process that was asleep in
  `wait` holds the lock when the scheduler returns to it and scans again in the same section.
-/
import Xv6Clock.Lib.Reach
import Xv6Clock.Ptable

namespace Xv6Clock.Ptable

/-! ## 1. The machine -/

/-- Where a process is, between sections. -/
inductive Pc where
  | user
  /-- In `fork`, with a slot for the child. -/
  | forking (np : Nat)
  /-- In `fork`, and the child has its parent. -/
  | forked (np : Nat)
  /-- In `sleep` on anything but itself. -/
  | asleep
  /-- In `sleep`, called by `wait`. -/
  | waiting
  | dead
  deriving DecidableEq

/-- The table and the processes. `reaped` is a history: the serial numbers of the processes that
    calls of `wait` have returned. -/
structure Machine where
  t : Table
  pc : Nat → Pc
  reaped : List Nat

def Machine.start : Machine := ⟨Table.boot, fun _ => .user, []⟩

/-- What a section ends with. -/
inductive Ended where
  | nothing
  | forked (pid : Word)
  | forkFailed
  /-- `wait` by process `i` returns the number of the process in slot `j`. -/
  | waited (i j : Nat) (pid : Word)
  | waitFailed (i : Nat)

inductive Act where
  | sched (i : Nat)
  | yield (i : Nat)
  | sleep (i c : Nat)
  | wakeup (c : Chan)
  | kill (pid : Word)
  | forkAlloc (i : Nat)
  | forkFail (i : Nat)
  | forkParent (i : Nat)
  | forkDone (i : Nat)
  | exit (i : Nat)
  | wait (i : Nat)

def Machine.goto (m : Machine) (t : Table) (i : Nat) (c : Pc) : Machine :=
  { m with t := t, pc := Function.update m.pc i c }

/-- The loop body of `wait` by process `i`, which holds the lock. -/
def scan (m : Machine) (i : Nat) : Ended × Machine :=
  match zombieChild m.t i with
  | some j => (.waited i j (m.t.slot j).pid,
      { m.goto (reap m.t j) i .user with reaped := (m.t.slot j).serial :: m.reaped })
  | none =>
    if !haveKids m.t i || (m.t.slot i).killed then (.waitFailed i, m.goto m.t i .user)
    else (.nothing, m.goto (Ptable.sleep m.t i (.proc i)) i .waiting)

/-- The scheduler switches to process `i`, which comes out of `sleep` if it was in it. -/
def sched (m : Machine) (i : Nat) : Ended × Machine :=
  let run := { m.t.slot i with state := .running }
  match m.pc i with
  | .asleep => (.nothing, m.goto (m.t.set i { run with chan := none }) i .user)
  | .waiting => scan { m with t := m.t.set i { run with chan := none } } i
  | _ => (.nothing, { m with t := m.t.set i run })

/-- **One section.** -/
def step (m : Machine) : Act → Option (Ended × Machine)
  | .sched i => if i < nproc ∧ (m.t.slot i).state = .runnable then some (sched m i) else none
  | .yield i =>
    if i < nproc ∧ (m.t.slot i).state = .running then
      some (.nothing, { m with t := m.t.set i { m.t.slot i with state := .runnable } })
    else none
  | .sleep i c =>
    if i < nproc ∧ (m.t.slot i).state = .running ∧ m.pc i = .user then
      some (.nothing, m.goto (Ptable.sleep m.t i (.other c)) i .asleep)
    else none
  | .wakeup c => some (.nothing, { m with t := wakeup1 m.t (some c) })
  | .kill pid => some (.nothing, { m with t := (Ptable.kill m.t pid).2 })
  | .forkAlloc i =>
    if i < nproc ∧ (m.t.slot i).state = .running ∧ m.pc i = .user then
      match allocproc m.t with
      | none => some (.forkFailed, m)
      | some (j, t) => some (.nothing, m.goto t i (.forking j))
    else none
  | .forkFail i =>
    match m.pc i with
    | .forking j =>
      if i < nproc ∧ (m.t.slot i).state = .running then
        some (.forkFailed, m.goto (giveBack m.t j) i .user) else none
    | _ => none
  | .forkParent i =>
    match m.pc i with
    | .forking j =>
      if i < nproc ∧ (m.t.slot i).state = .running then
        some (.nothing, m.goto (adopt m.t i j) i (.forked j)) else none
    | _ => none
  | .forkDone i =>
    match m.pc i with
    | .forked j =>
      if i < nproc ∧ (m.t.slot i).state = .running then
        some (.forked (m.t.slot j).pid,
          { (m.goto (release m.t j) i .user) with
            pc := Function.update (Function.update m.pc i .user) j .user }) else none
    | _ => none
  | .exit i =>
    if i < nproc ∧ (m.t.slot i).state = .running ∧ m.pc i = .user ∧ i ≠ m.t.initproc then
      some (.nothing, m.goto (Ptable.exit m.t i) i .dead)
    else none
  | .wait i =>
    if i < nproc ∧ (m.t.slot i).state = .running ∧ m.pc i = .user then some (scan m i) else none

/-- **Reachable states**, by any interleaving of sections. -/
def Reachable : Machine → Prop :=
  Lib.Reach (fun m (e : Act × Ended) m' => step m e.1 = some (e.2, m')) Machine.start

/-! ## 2. Parents -/

/-- RUNNABLE, RUNNING or SLEEPING. -/
def State.live : State → Bool
  | .runnable | .running | .sleeping => true
  | _ => false

/-- **The family**: init is alive; the slot a process forks into is its own EMBRYO; every other
    process, dead or alive, has a parent that is alive. -/
structure Family (t : Table) (pc : Nat → Pc) : Prop where
  init : t.initproc < nproc ∧ (t.slot t.initproc).state.live = true ∧
    (t.slot t.initproc).parent = none
  forking : ∀ f j, pc f = .forking j → f < nproc ∧ (t.slot f).state.live = true ∧
    (t.slot j).state = .embryo ∧ (t.slot j).parent = none
  forked : ∀ f j, pc f = .forked j → f < nproc ∧ (t.slot f).state.live = true ∧
    (t.slot j).state = .embryo ∧ (t.slot j).parent = some f
  unused : ∀ j, (t.slot j).state = .unused → (t.slot j).parent = none
  outside : ∀ j, nproc ≤ j → (t.slot j).state = .unused
  parent : ∀ j, j ≠ t.initproc → ((t.slot j).state.live = true ∨ (t.slot j).state = .zombie) →
    ∃ p, p < nproc ∧ p ≠ j ∧ (t.slot j).parent = some p ∧ (t.slot p).state.live = true

/-- Two processes do not fork into one slot. -/
def OneForker (pc : Nat → Pc) : Prop :=
  ∀ f g j, (pc f = .forking j ∨ pc f = .forked j) → (pc g = .forking j ∨ pc g = .forked j) → f = g

/-- **Nobody sleeps in `wait` with a zombie child.** -/
def NoLost (t : Table) : Prop :=
  ∀ i, i < nproc → (t.slot i).state = .sleeping → (t.slot i).chan = some (.proc i) →
    ∀ j, j < nproc → (t.slot j).parent = some i → (t.slot j).state ≠ .zombie

/-- **Process numbers are serial numbers**: no two slots have the same but 0, and none has one that
    was reaped. A slot that was given back keeps its number. -/
structure Serials (t : Table) (reaped : List Nat) : Prop where
  le : ∀ j, (t.slot j).serial ≤ t.born
  live : ∀ j, (t.slot j).state ≠ .unused → (t.slot j).serial ≠ 0
  inj : ∀ j k, (t.slot j).serial ≠ 0 → (t.slot j).serial = (t.slot k).serial → j = k
  fresh : ∀ j, (t.slot j).serial ≠ 0 → (t.slot j).serial ∉ reaped
  pid : ∀ j, (t.slot j).pid = BitVec.ofNat 32 (t.slot j).serial
  next : t.nextpid = BitVec.ofNat 32 (t.born + 1)
  nodup : reaped.Nodup
  bound : ∀ s ∈ reaped, s ≤ t.born

structure Inv (m : Machine) : Prop where
  family : Family m.t m.pc
  one : OneForker m.pc
  noLost : NoLost m.t
  serials : Serials m.t m.reaped

theorem family_start : Family Machine.start.t Machine.start.pc where
  init := ⟨by decide, rfl, rfl⟩
  forking _ _ h := nomatch h
  forked _ _ h := nomatch h
  unused j _ := by
    change (Table.boot.slot j).parent = none
    rw [boot_slot]
    split <;> rfl
  outside j hj := by
    have h0 : j ≠ 0 := fun hc => absurd (hc ▸ hj) (by decide)
    change (Table.boot.slot j).state = .unused
    rw [boot_slot, if_neg h0]
    rfl
  parent j hj h := by
    have h0 : j ≠ 0 := hj
    change (Table.boot.slot j).state.live = true ∨ (Table.boot.slot j).state = .zombie at h
    rw [boot_slot, if_neg h0] at h
    rcases h with h | h <;> cases h

theorem serials_start : Serials Table.boot [] where
  le j := by
    rw [boot_slot]
    split <;> decide
  live j := by
    rw [boot_slot]
    split <;> simp [Slot.zero]
  inj j k := by
    rw [boot_slot, boot_slot]
    split
    · split
      · omega
      · exact fun _ h => absurd h (by decide)
    · exact fun h => absurd rfl h
  fresh _ _ h := nomatch h
  pid j := by
    rw [boot_slot]
    split <;> rfl
  next := rfl
  nodup := .nil
  bound _ h := nomatch h

theorem inv_start : Inv Machine.start where
  family := family_start
  one _ _ _ h := by rcases h with h | h <;> cases h
  noLost i _ h := by
    change (Table.boot.slot i).state = _ at h
    rw [boot_slot] at h
    split at h <;> cases h
  serials := serials_start

/-! ## 3. Sections that leave parents and numbers alone -/

/-- **A change that keeps who is alive, dead, in the making and free**, and lets nobody fall
    asleep in `wait` beside a zombie. -/
structure Quiet (t t' : Table) : Prop where
  initproc : t'.initproc = t.initproc
  nextpid : t'.nextpid = t.nextpid
  born : t'.born = t.born
  parent : ∀ k, (t'.slot k).parent = (t.slot k).parent
  pid : ∀ k, (t'.slot k).pid = (t.slot k).pid
  serial : ∀ k, (t'.slot k).serial = (t.slot k).serial
  live : ∀ k, (t'.slot k).state.live = (t.slot k).state.live
  zombie : ∀ k, (t'.slot k).state = .zombie ↔ (t.slot k).state = .zombie
  embryo : ∀ k, (t'.slot k).state = .embryo ↔ (t.slot k).state = .embryo
  unused : ∀ k, (t'.slot k).state = .unused ↔ (t.slot k).state = .unused

theorem Family.quiet {t t' : Table} {pc : Nat → Pc} (h : Family t pc) (q : Quiet t t') :
    Family t' pc where
  init := by
    rw [q.initproc, q.live, q.parent]
    exact h.init
  forking f j hf := by
    rw [q.live, q.embryo, q.parent]
    exact h.forking f j hf
  forked f j hf := by
    rw [q.live, q.embryo, q.parent]
    exact h.forked f j hf
  unused j hj := by
    rw [q.parent]
    exact h.unused j ((q.unused j).mp hj)
  outside j hj := (q.unused j).mpr (h.outside j hj)
  parent j hj hs := by
    rw [q.initproc] at hj
    rw [q.live, q.zombie] at hs
    obtain ⟨p, h1, h2, h3, h4⟩ := h.parent j hj hs
    exact ⟨p, h1, h2, by rw [q.parent]; exact h3, by rw [q.live]; exact h4⟩

variable {reaped : List Nat} {i : Nat} {s : Slot}

/-- Slots may change in all but their numbers, if none comes into use. -/
theorem Serials.same {t t' : Table} (h : Serials t reaped) (hn : t'.nextpid = t.nextpid)
    (hb : t'.born = t.born) (hp : ∀ k, (t'.slot k).pid = (t.slot k).pid)
    (hs : ∀ k, (t'.slot k).serial = (t.slot k).serial)
    (hu : ∀ k, (t'.slot k).state ≠ .unused → (t.slot k).state ≠ .unused) : Serials t' reaped where
  le k := by rw [hs, hb]; exact h.le k
  live k hk := by rw [hs]; exact h.live k (hu k hk)
  inj j k := by rw [hs, hs]; exact h.inj j k
  fresh k := by rw [hs]; exact h.fresh k
  pid k := by rw [hp, hs]; exact h.pid k
  next := by rw [hn, hb]; exact h.next
  nodup := h.nodup
  bound s hs := by rw [hb]; exact h.bound s hs

theorem Serials.quiet {t t' : Table} (h : Serials t reaped) (q : Quiet t t') : Serials t' reaped :=
  h.same q.nextpid q.born q.pid q.serial fun k => mt (q.unused k).mpr

/-- Who sleeps in `wait` afterwards slept in it before. -/
def Wakes (t t' : Table) : Prop :=
  ∀ k, (t'.slot k).state = .sleeping → (t'.slot k).chan = some (.proc k) →
    (t.slot k).state = .sleeping ∧ (t.slot k).chan = some (.proc k)

theorem NoLost.quiet {t t' : Table} (h : NoLost t) (q : Quiet t t') (hw : Wakes t t') :
    NoLost t' := by
  intro i hi hs hc j hj hp hz
  obtain ⟨h1, h2⟩ := hw i hs hc
  rw [q.parent] at hp
  exact h i hi h1 h2 j hj hp ((q.zombie j).mp hz)

/-- Where a process goes on, if it is not in `fork`. -/
def Pc.plain : Pc → Bool
  | .forking _ | .forked _ => false
  | _ => true

variable {c : Pc}

theorem update_forks {pc : Nat → Pc} (hc : c.plain = true) {f j : Nat}
    (h : Function.update pc i c f = .forking j ∨ Function.update pc i c f = .forked j) :
    f ≠ i ∧ (pc f = .forking j ∨ pc f = .forked j) := by
  by_cases hf : f = i
  · subst hf
    rw [Function.update_self] at h
    rcases h with h | h <;> (rw [h] at hc; cases hc)
  · rw [Function.update_of_ne hf] at h
    exact ⟨hf, h⟩

theorem Family.goto {t : Table} {pc : Nat → Pc} (h : Family t pc) (hc : c.plain = true) :
    Family t (Function.update pc i c) where
  init := h.init
  forking f j hf := by
    rcases (update_forks hc (.inl hf)).2 with h1 | h1
    · exact h.forking f j h1
    · rw [Function.update_of_ne (update_forks hc (.inl hf)).1, h1] at hf
      cases hf
  forked f j hf := by
    rcases (update_forks hc (.inr hf)).2 with h1 | h1
    · rw [Function.update_of_ne (update_forks hc (.inr hf)).1, h1] at hf
      cases hf
    · exact h.forked f j h1
  unused := h.unused
  outside := h.outside
  parent := h.parent

theorem OneForker.goto {pc : Nat → Pc} (h : OneForker pc) (hc : c.plain = true) :
    OneForker (Function.update pc i c) :=
  fun f g j hf hg => h f g j (update_forks hc hf).2 (update_forks hc hg).2

/-- The slot `i`, alive, changes its state to another live one, its channel, or `killed`. -/
theorem quiet_set {t : Table} (hp : s.parent = (t.slot i).parent) (hpid : s.pid = (t.slot i).pid)
    (hser : s.serial = (t.slot i).serial) (hl : s.state.live = (t.slot i).state.live)
    (hs : (t.slot i).state.live = true ∨ s.state = (t.slot i).state) : Quiet t (t.set i s) := by
  have hdead : ∀ x : State, x.live = false → (s.state = x ↔ (t.slot i).state = x) := by
    intro x hx
    rcases hs with h1 | h1
    · refine ⟨fun h => ?_, fun h => ?_⟩
      · rw [h, hx, h1] at hl
        cases hl
      · rw [h, hx] at h1
        cases h1
    · rw [h1]
  refine ⟨rfl, rfl, rfl, fun k => ?_, fun k => ?_, fun k => ?_, fun k => ?_, fun k => ?_,
    fun k => ?_, fun k => ?_⟩
  all_goals
    by_cases hk : k = i
    · subst hk
      rw [Table.set_self]
      first | assumption | exact hdead _ rfl
    · rw [Table.set_ne _ _ hk]

theorem wakes_set {t : Table}
    (h : s.state = .sleeping → s.chan ≠ some (.proc i) ∨
      (t.slot i).state = .sleeping ∧ (t.slot i).chan = s.chan) : Wakes t (t.set i s) := by
  intro k hs hc
  by_cases hk : k = i
  · subst hk
    rw [Table.set_self] at hs hc
    rcases h hs with h1 | ⟨h1, h2⟩
    · exact absurd hc h1
    · exact ⟨h1, h2.trans hc⟩
  · rw [Table.set_ne _ _ hk] at hs hc
    exact ⟨hs, hc⟩

theorem quiet_roused {t t' : Table} (hi : t'.initproc = t.initproc)
    (hn : t'.nextpid = t.nextpid) (hb : t'.born = t.born)
    (hp : ∀ k, (t'.slot k).parent = (t.slot k).parent)
    (h : ∀ k, Roused (t.slot k) (t'.slot k)) : Quiet t t' ∧ Wakes t t' := by
  refine ⟨⟨hi, hn, hb, hp, fun k => (h k).pid, fun k => (h k).serial, fun k => ?_, fun k => ?_,
    fun k => ?_, fun k => ?_⟩, fun k hs hc => ⟨(h k).sleeping hs, by rw [← (h k).chan]; exact hc⟩⟩
  all_goals
    rcases (h k).state with h1 | ⟨h1, h2⟩
    · rw [h1]
    · rw [h1, h2]
      simp [State.live]

theorem wakeup1_quiet (t : Table) (c : Option Chan) :
    Quiet t (wakeup1 t c) ∧ Wakes t (wakeup1 t c) :=
  quiet_roused rfl rfl rfl (wakeup1_parent t c) (wakeup1_roused t c)

theorem kill_quiet (t : Table) (pid : Word) :
    Quiet t (kill t pid).2 ∧ Wakes t (kill t pid).2 := by
  unfold kill
  split
  · rename_i j _
    have hl : (t.slot j).kill.state.live = (t.slot j).state.live := by
      unfold Slot.kill
      dsimp only
      split
      · rename_i h
        rw [h]
        rfl
      · rfl
    refine ⟨quiet_set rfl rfl rfl hl ?_, wakes_set fun hs => ?_⟩
    · unfold Slot.kill
      dsimp only
      split
      · rename_i h
        rw [h]
        exact .inl rfl
      · exact .inr rfl
    · -- a killed process is not asleep
      unfold Slot.kill at hs
      dsimp only at hs
      split at hs
      · cases hs
      · rename_i h
        exact absurd hs h
  · exact ⟨⟨rfl, rfl, rfl, fun _ => rfl, fun _ => rfl, fun _ => rfl, fun _ => rfl,
      fun _ => .rfl, fun _ => .rfl, fun _ => .rfl⟩, fun k hs hc => ⟨hs, hc⟩⟩

variable {m : Machine}

/-- The table changes and one process goes on. -/
theorem Inv.intro {t : Table}
    (family : Family t (Function.update m.pc i c)) (one : OneForker (Function.update m.pc i c))
    (noLost : NoLost t) (serials : Serials t m.reaped) : Inv (m.goto t i c) :=
  ⟨family, one, noLost, serials⟩

theorem Inv.quiet {t : Table} (h : Inv m) (q : Quiet m.t t) (hw : Wakes m.t t) :
    Inv { m with t := t } :=
  ⟨h.family.quiet q, h.one, h.noLost.quiet q hw, h.serials.quiet q⟩

theorem Inv.goto (h : Inv m) (hc : c.plain = true) : Inv (m.goto m.t i c) :=
  ⟨h.family.goto hc, h.one.goto hc, h.noLost, h.serials⟩

/-! ## 4. Sections that change one slot -/

section
variable {t t' : Table} {pc pc' : Nat → Pc} {j : Nat}

/-- The slot of no live process changes; the processes that fork into it know. -/
theorem Family.set (h : Family t pc) (hj : j < nproc) (hne : ∀ k, k ≠ j → t'.slot k = t.slot k)
    (hinit : t'.initproc = t.initproc) (hdead : (t.slot j).state.live = false)
    (hpc : ∀ f k, k ≠ j → (pc' f = .forking k → pc f = .forking k) ∧
      (pc' f = .forked k → pc f = .forked k))
    (hforking : ∀ f, pc' f = .forking j → f < nproc ∧ (t.slot f).state.live = true ∧
      (t'.slot j).state = .embryo ∧ (t'.slot j).parent = none)
    (hforked : ∀ f, pc' f = .forked j → f < nproc ∧ (t.slot f).state.live = true ∧
      (t'.slot j).state = .embryo ∧ (t'.slot j).parent = some f)
    (hunused : (t'.slot j).state = .unused → (t'.slot j).parent = none)
    (hparent : (t'.slot j).state.live = true ∨ (t'.slot j).state = .zombie →
      ∃ p, p < nproc ∧ (t'.slot j).parent = some p ∧ (t.slot p).state.live = true) :
    Family t' pc' := by
  have hlive : ∀ {k}, (t.slot k).state.live = true → t'.slot k = t.slot k := fun {k} hk =>
    hne k fun hc => by rw [hc, hdead] at hk; cases hk
  refine ⟨?_, fun f k hf => ?_, fun f k hf => ?_, fun k hk => ?_, fun k hk => ?_,
    fun k hk hs => ?_⟩
  · rw [hinit, hlive h.init.2.1]
    exact h.init
  · by_cases hkj : k = j
    · rw [hkj] at hf ⊢
      obtain ⟨h1, h2, h3⟩ := hforking f hf
      exact ⟨h1, by rw [hlive h2]; exact h2, h3⟩
    · obtain ⟨h1, h2, h3⟩ := h.forking f k ((hpc f k hkj).1 hf)
      rw [hlive h2, hne k hkj]
      exact ⟨h1, h2, h3⟩
  · by_cases hkj : k = j
    · rw [hkj] at hf ⊢
      obtain ⟨h1, h2, h3⟩ := hforked f hf
      exact ⟨h1, by rw [hlive h2]; exact h2, h3⟩
    · obtain ⟨h1, h2, h3⟩ := h.forked f k ((hpc f k hkj).2 hf)
      rw [hlive h2, hne k hkj]
      exact ⟨h1, h2, h3⟩
  · by_cases hkj : k = j
    · rw [hkj] at hk ⊢
      exact hunused hk
    · rw [hne k hkj] at hk ⊢
      exact h.unused k hk
  · rw [hne k (by omega)]
    exact h.outside k hk
  · by_cases hkj : k = j
    · rw [hkj] at hs ⊢
      obtain ⟨p, h1, h2, h3⟩ := hparent hs
      refine ⟨p, h1, fun hc => ?_, h2, by rw [hlive h3]; exact h3⟩
      rw [hc, hdead] at h3
      cases h3
    · rw [hne k hkj] at hs ⊢
      rw [hinit] at hk
      obtain ⟨p, h1, h2, h3, h4⟩ := h.parent k hk hs
      exact ⟨p, h1, h2, h3, by rw [hlive h4]; exact h4⟩

/-- A slot that is neither asleep nor a zombie afterwards. -/
theorem NoLost.set (h : NoLost t) (hne : ∀ k, k ≠ j → t'.slot k = t.slot k)
    (hs : (t'.slot j).state ≠ .sleeping) (hz : (t'.slot j).state ≠ .zombie) : NoLost t' := by
  intro i hi hsi hci k hk hp hzk
  have hij : i ≠ j := fun hc => hs (by rw [← hc]; exact hsi)
  have hkj : k ≠ j := fun hc => hz (by rw [← hc]; exact hzk)
  rw [hne i hij] at hsi hci
  rw [hne k hkj] at hp hzk
  exact h i hi hsi hci k hk hp hzk

/-- A slot that keeps its numbers, and was in use if it is. -/
theorem Serials.set (h : Serials t reaped) (hne : ∀ k, k ≠ j → t'.slot k = t.slot k)
    (hn : t'.nextpid = t.nextpid) (hb : t'.born = t.born) (hp : (t'.slot j).pid = (t.slot j).pid)
    (hs : (t'.slot j).serial = (t.slot j).serial)
    (hu : (t'.slot j).state ≠ .unused → (t.slot j).state ≠ .unused) : Serials t' reaped := by
  refine h.same hn hb (fun k => ?_) (fun k => ?_) fun k hk => ?_
  all_goals
    by_cases hkj : k = j
    · subst hkj
      first | assumption | exact hu hk
    · first | rw [hne k hkj] | exact hne k hkj ▸ hk

/-- A zombie is freed and its number goes to the history. -/
theorem Serials.reap (h : Serials t reaped) (hz : (t.slot j).state ≠ .unused) :
    Serials (Ptable.reap t j) ((t.slot j).serial :: reaped) := by
  have hslot : ∀ k, (Ptable.reap t j).slot k = if k = j then { t.slot j with
      state := .unused, pid := 0, parent := none, killed := false, serial := 0 }
      else t.slot k := fun k => Function.update_apply _ _ _ _
  refine ⟨fun k => ?_, fun k => ?_, fun k l => ?_, fun k => ?_, fun k => ?_, h.next,
    List.nodup_cons.mpr ⟨h.fresh j (h.live j hz), h.nodup⟩, fun s hs => ?_⟩
  · rw [hslot]
    split
    · exact Nat.zero_le _
    · exact h.le k
  · rw [hslot]
    split
    · exact fun hc => absurd rfl hc
    · exact h.live k
  · rw [hslot, hslot]
    split
    · exact fun hc => absurd rfl hc
    · split
      · exact fun hc he => absurd he hc
      · exact h.inj k l
  · rw [hslot]
    split
    · exact fun hc => absurd rfl hc
    · rename_i hkj
      intro hk
      rw [List.mem_cons, not_or]
      exact ⟨fun he => hkj (h.inj k j hk he), h.fresh k hk⟩
  · rw [hslot]
    split
    · rfl
    · exact h.pid k
  · rcases List.mem_cons.mp hs with rfl | h1
    · exact h.le j
    · exact h.bound s h1

/-- `allocproc` hands out the next number. -/
theorem Serials.alloc (h : Serials t reaped) (ha : allocproc t = some (j, t')) :
    Serials t' reaped := by
  obtain ⟨-, -, -, hn, hb, hs⟩ := allocproc_some ha
  have hslot : ∀ k, t'.slot k = if k = j then { t.slot j with
      state := .embryo, pid := t.nextpid, serial := t.born + 1 } else t.slot k := fun k => by
    rw [hs, Function.update_apply]
  refine ⟨fun k => ?_, fun k => ?_, fun k l => ?_, fun k => ?_, fun k => ?_, ?_, h.nodup,
    fun s hs' => by rw [hb]; exact Nat.le_succ_of_le (h.bound s hs')⟩
  · rw [hslot, hb]
    split
    · exact Nat.le_refl _
    · exact Nat.le_succ_of_le (h.le k)
  · rw [hslot]
    split
    · exact fun _ => Nat.succ_ne_zero _
    · exact h.live k
  · -- the new number is larger than all others
    rw [hslot, hslot]
    have hk := h.le k
    have hl := h.le l
    split
    · split
      · omega
      · intro _ he
        simp only at he
        omega
    · split
      · intro _ he
        simp only at he
        omega
      · exact h.inj k l
  · rw [hslot]
    split
    · intro _ hc
      have := h.bound _ hc
      simp only at this
      omega
    · exact h.fresh k
  · rw [hslot]
    split
    · exact h.next
    · exact h.pid k
  · rw [hn, hb, h.next]
    exact (BitVec.ofNat_add _ _).symm

end

/-! ## 5. `wait` -/

theorem Family.inside {t : Table} {pc : Nat → Pc} {j : Nat} (h : Family t pc)
    (hj : (t.slot j).state ≠ .unused) : j < nproc :=
  Nat.lt_of_not_le fun hc => hj (h.outside j hc)

/-- Forks are into embryos. -/
theorem Family.not_into {t : Table} {pc : Nat → Pc} {j : Nat} (h : Family t pc)
    (hj : (t.slot j).state ≠ .embryo) (f : Nat) : ¬ (pc f = .forking j) ∧ ¬ (pc f = .forked j) :=
  ⟨fun hc => hj (h.forking f j hc).2.2.1, fun hc => hj (h.forked f j hc).2.2.1⟩

/-- A zombie child is freed. -/
theorem Inv.reap {j : Nat} (h : Inv m) (hz : (m.t.slot j).state = .zombie) :
    Inv { m with t := Ptable.reap m.t j, reaped := (m.t.slot j).serial :: m.reaped } := by
  have hne : ∀ k, k ≠ j → (Ptable.reap m.t j).slot k = m.t.slot k := fun k hk =>
    Table.set_ne _ _ hk
  have hself : (Ptable.reap m.t j).slot j = { m.t.slot j with
      state := .unused, pid := 0, parent := none, killed := false, serial := 0 } :=
    Table.set_self _ _ _
  have hst : ((Ptable.reap m.t j).slot j).state = .unused := by rw [hself]
  -- nobody forks into a zombie
  have hnot := h.family.not_into (by rw [hz]; decide)
  refine ⟨h.family.set (h.family.inside (by rw [hz]; decide)) hne rfl (by rw [hz]; rfl)
    (fun f k _ => ⟨id, id⟩)
    (fun f hf => absurd hf (hnot f).1) (fun f hf => absurd hf (hnot f).2) (fun _ => by rw [hself])
    (fun hc => ?_), h.one, h.noLost.set hne (by rw [hst]; decide) (by rw [hst]; decide),
    h.serials.reap (by rw [hz]; decide)⟩
  rw [hst] at hc
  rcases hc with hc | hc <;> cases hc

/-- A process that found no zombie child falls asleep. -/
theorem Inv.sleepWait (h : Inv m) (hl : (m.t.slot i).state.live = true)
    (hz : zombieChild m.t i = none) : Inv { m with t := Ptable.sleep m.t i (.proc i) } := by
  have q : Quiet m.t (Ptable.sleep m.t i (.proc i)) :=
    quiet_set rfl rfl rfl (by rw [hl]; rfl) (.inl hl)
  refine ⟨h.family.quiet q, h.one, fun k hk hs hc j hj hp hzj => ?_, h.serials.quiet q⟩
  have hp' : (m.t.slot j).parent = some k := by rw [← q.parent]; exact hp
  have hzj' : (m.t.slot j).state = .zombie := (q.zombie j).mp hzj
  by_cases hki : k = i
  · subst hki
    exact zombieChild_none hz hj hp' hzj'
  · have e : (Ptable.sleep m.t i (.proc i)).slot k = m.t.slot k := Table.set_ne _ _ hki
    exact h.noLost k hk (e ▸ hs) (e ▸ hc) j hj hp' hzj'

variable {m' : Machine} {e : Ended}

theorem Inv.scan (h : Inv m)
    (hl : (m.t.slot i).state.live = true) (hs : Ptable.scan m i = (e, m')) : Inv m' := by
  unfold Ptable.scan at hs
  split at hs
  · rename_i j hj
    cases hs
    exact (h.reap (zombieChild_some hj).2.2).goto (i := i) (c := .user) rfl
  · rename_i hz
    split at hs
    · cases hs
      exact h.goto rfl
    · cases hs
      exact (h.sleepWait hl hz).goto (i := i) (c := .waiting) rfl

/-- The scheduler switches to a process. -/
theorem Inv.sched (h : Inv m) (hr : (m.t.slot i).state = .runnable)
    (hs : Ptable.sched m i = (e, m')) : Inv m' := by
  have hl : (m.t.slot i).state.live = true := by rw [hr]; rfl
  have run : ∀ s : Slot, s.state = .running → s.parent = (m.t.slot i).parent →
      s.pid = (m.t.slot i).pid → s.serial = (m.t.slot i).serial → Inv { m with t := m.t.set i s } :=
    fun s h1 h2 h3 h4 => h.quiet (quiet_set h2 h3 h4 (by rw [hl, h1]; rfl) (.inl hl))
      (wakes_set fun hc => by rw [h1] at hc; cases hc)
  unfold Ptable.sched at hs
  dsimp only at hs
  split at hs
  · cases hs
    exact (run { m.t.slot i with state := .running, chan := none } rfl rfl rfl rfl).goto
      (i := i) (c := .user) rfl
  · exact (run { m.t.slot i with state := .running, chan := none } rfl rfl rfl rfl).scan
      (by simp [State.live]) hs
  · cases hs
    exact run { m.t.slot i with state := .running } rfl rfl rfl rfl

/-! ## 6. `fork` -/

theorem Inv.forkAlloc {j : Nat} {t : Table} (h : Inv m) (hi : i < nproc)
    (hl : (m.t.slot i).state.live = true) (ha : allocproc m.t = some (j, t)) :
    Inv (m.goto t i (.forking j)) := by
  obtain ⟨hj, hu, hinit, -, -, hslots⟩ := allocproc_some ha
  have hne : ∀ k, k ≠ j → t.slot k = m.t.slot k := fun k hk => by
    rw [hslots, Function.update_of_ne hk]
  have hself : (t.slot j).state = .embryo ∧ (t.slot j).parent = none := by
    rw [hslots, Function.update_self]
    exact ⟨rfl, h.family.unused j hu⟩
  -- nobody forks into an UNUSED slot
  have hnot := h.family.not_into (by rw [hu]; decide)
  have hforks : ∀ {f k}, Function.update m.pc i (.forking j) f = .forking k ∨
      Function.update m.pc i (.forking j) f = .forked k →
      (f = i ∧ k = j) ∨ (m.pc f = .forking k ∨ m.pc f = .forked k) := fun {f k} hf => by
    by_cases hfi : f = i
    · rw [hfi, Function.update_self] at hf
      rcases hf with h1 | h1
      · cases h1
        exact .inl ⟨hfi, rfl⟩
      · cases h1
    · rw [Function.update_of_ne hfi] at hf
      exact .inr hf
  refine .intro (h.family.set hj hne hinit (by rw [hu]; rfl) (fun f k hk => ?_) (fun f hf => ?_)
    (fun f hf => ?_) (fun hc => ?_) (fun hc => ?_)) (fun f g k hf hg => ?_)
    (h.noLost.set hne (by rw [hself.1]; decide) (by rw [hself.1]; decide)) (h.serials.alloc ha)
  · by_cases hfi : f = i
    · simp [hfi, Ne.symm hk]
    · simp [Function.update_of_ne hfi]
  · rcases hforks (.inl hf) with ⟨rfl, -⟩ | h1 | h1
    · exact ⟨hi, hl, hself⟩
    · exact absurd h1 (hnot f).1
    · exact absurd h1 (hnot f).2
  · rcases hforks (.inr hf) with ⟨rfl, -⟩ | h1 | h1
    · simp at hf
    · exact absurd h1 (hnot f).1
    · exact absurd h1 (hnot f).2
  · exact hself.2
  · rw [hself.1] at hc
    rcases hc with hc | hc <;> cases hc
  · have hno : ∀ {x}, ¬ (m.pc x = .forking j ∨ m.pc x = .forked j) := fun hx =>
      hx.elim (hnot _).1 (hnot _).2
    rcases hforks hf with ⟨rfl, hkj⟩ | h1
    · rcases hforks hg with ⟨rfl, -⟩ | h2
      · rfl
      · exact absurd (hkj ▸ h2) hno
    · rcases hforks hg with ⟨-, hkj⟩ | h2
      · exact absurd (hkj ▸ h1) hno
      · exact h.one f g k h1 h2

/-- The child's slot, in which only `i` is interested, changes to `s`. -/
theorem Inv.child {j : Nat} (h : Inv m) (hf : m.pc i = .forking j ∨ m.pc i = .forked j)
    (hpid : s.pid = (m.t.slot j).pid) (hser : s.serial = (m.t.slot j).serial)
    (hs : s.state = .unused ∧ s.parent = none ∨ s.state = .runnable ∧ s.parent = some i) :
    Inv (m.goto (m.t.set j s) i .user) := by
  have hemb : (m.t.slot j).state = .embryo := by
    rcases hf with hf | hf
    · exact (h.family.forking i j hf).2.2.1
    · exact (h.family.forked i j hf).2.2.1
  have hi : i < nproc ∧ (m.t.slot i).state.live = true := by
    rcases hf with hf | hf
    · exact ⟨(h.family.forking i j hf).1, (h.family.forking i j hf).2.1⟩
    · exact ⟨(h.family.forked i j hf).1, (h.family.forked i j hf).2.1⟩
  -- only `i` forks into the slot, and it is done
  have hnot : ∀ f, ¬ (Function.update m.pc i Pc.user f = .forking j ∨
      Function.update m.pc i Pc.user f = .forked j) := fun f hc => by
    obtain ⟨h1, h2⟩ := update_forks rfl hc
    exact h1 (h.one f i j h2 hf)
  have hne : ∀ k, k ≠ j → (m.t.set j s).slot k = m.t.slot k := fun k hk => Table.set_ne _ _ hk
  have hst : (m.t.set j s).slot j = s := Table.set_self _ _ _
  have hstate : s.state ≠ .sleeping ∧ s.state ≠ .zombie := by
    rcases hs with ⟨h1, -⟩ | ⟨h1, -⟩ <;> rw [h1] <;> decide
  refine .intro (h.family.set (h.family.inside (by rw [hemb]; decide)) hne rfl
    (by rw [hemb]; rfl) (fun f k _ => ⟨fun hx => ?_, fun hx => ?_⟩)
    (fun f hx => absurd (.inl hx) (hnot f)) (fun f hx => absurd (.inr hx) (hnot f)) (fun hc => ?_)
    (fun hc => ?_)) (h.one.goto rfl) (h.noLost.set hne (by rw [hst]; exact hstate.1)
    (by rw [hst]; exact hstate.2)) (h.serials.set hne rfl rfl (by rw [hst, hpid])
    (by rw [hst, hser]) fun _ => by rw [hemb]; decide)
  · have hfi := (update_forks (c := .user) rfl (.inl hx)).1
    rwa [Function.update_of_ne hfi] at hx
  · have hfi := (update_forks (c := .user) rfl (.inr hx)).1
    rwa [Function.update_of_ne hfi] at hx
  · rw [hst] at hc ⊢
    rcases hs with ⟨-, h1⟩ | ⟨h1, -⟩
    · exact h1
    · rw [h1] at hc
      cases hc
  · rw [hst] at hc ⊢
    rcases hs with ⟨h1, -⟩ | ⟨-, h1⟩
    · rw [h1] at hc
      rcases hc with hc | hc <;> cases hc
    · exact ⟨i, hi.1, h1, hi.2⟩

/-- `np->parent = curproc`. -/
theorem Inv.adopt {j : Nat} (h : Inv m) (hf : m.pc i = .forking j) :
    Inv (m.goto (Ptable.adopt m.t i j) i (.forked j)) := by
  obtain ⟨hi, hl, hemb, -⟩ := h.family.forking i j hf
  have hne : ∀ k, k ≠ j → (Ptable.adopt m.t i j).slot k = m.t.slot k := fun k hk =>
    Table.set_ne _ _ hk
  have hself : (Ptable.adopt m.t i j).slot j = { m.t.slot j with parent := some i } :=
    Table.set_self _ _ _
  have hst : ((Ptable.adopt m.t i j).slot j).state = .embryo := by rw [hself]; exact hemb
  have hforks : ∀ {f k}, Function.update m.pc i (.forked j) f = .forking k ∨
      Function.update m.pc i (.forked j) f = .forked k →
      m.pc f = .forking k ∨ m.pc f = .forked k := fun {f k} hx => by
    by_cases hfi : f = i
    · rw [hfi, Function.update_self] at hx
      rcases hx with h1 | h1
      · cases h1
      · cases h1
        rw [hfi]
        exact .inl hf
    · rwa [Function.update_of_ne hfi] at hx
  refine .intro (h.family.set (h.family.inside (by rw [hemb]; decide)) hne rfl
    (by rw [hemb]; rfl) (fun f k hk => ?_) (fun f hx => ?_) (fun f hx => ?_) (fun hc => ?_)
    (fun hc => ?_)) (fun f g k hx hy => h.one f g k (hforks hx) (hforks hy))
    (h.noLost.set hne (by rw [hst]; decide) (by rw [hst]; decide))
    (h.serials.set hne rfl rfl (by rw [hself]) (by rw [hself]) fun _ => by rw [hemb]; decide)
  · by_cases hfi : f = i
    · simp [hfi, Ne.symm hk]
    · simp [Function.update_of_ne hfi]
  · have hfi : f = i := h.one f i j (hforks (.inl hx)) (.inl hf)
    simp [hfi] at hx
  · have hfi : f = i := h.one f i j (hforks (.inr hx)) (.inl hf)
    rw [hfi]
    exact ⟨hi, hl, hst, by rw [hself]⟩
  · rw [hst] at hc
    cases hc
  · rw [hst] at hc
    rcases hc with hc | hc <;> cases hc

/-! ## 7. `exit` -/

section Exit

variable {t t' : Table} {pc : Nat → Pc} {k p : Nat} {x : State} (he : Exited i t t')

include he

/-- Nobody but `i` dies. -/
theorem Exited.live (hk : k ≠ i) : (t'.slot k).state.live = (t.slot k).state.live := by
  rcases he.state k hk with h1 | ⟨h1, h2⟩
  · rw [h1]
  · rw [h1, h2]
    rfl

/-- Zombies, embryos and free slots stay what they are. -/
theorem Exited.state_iff (hk : k ≠ i) (hx : x.live = false) :
    (t'.slot k).state = x ↔ (t.slot k).state = x := by
  rcases he.state k hk with h1 | ⟨h1, h2⟩
  · rw [h1]
  · rw [h1, h2]
    refine ⟨fun hc => ?_, fun hc => ?_⟩ <;> (rw [← hc] at hx; cases hx)

/-- A parent other than `i` stays the parent. -/
theorem Exited.parent_some (hk : (t.slot k).parent = some p) (hp : p ≠ i) :
    (t'.slot k).parent = some p := by
  rw [he.parent k, if_neg fun hc => hp (Option.some.inj (hk.symm.trans hc.2))]
  exact hk

theorem Exited.parent_none (hk : (t.slot k).parent = none) : (t'.slot k).parent = none := by
  rw [he.parent k, if_neg fun hc => by rw [hk] at hc; cases hc.2]
  exact hk

variable (hl : (t.slot i).state.live = true) (hinit : i ≠ t.initproc)

include hl hinit

/-- The orphans have init for a parent. -/
theorem Family.exit (hf : Family t pc) (hi : i < nproc) (hpc : pc i = .user) : Family t' pc := by
  have hforker : ∀ {f j}, pc f = .forking j ∨ pc f = .forked j → f ≠ i := by
    rintro f j (h1 | h1) rfl <;> (rw [hpc] at h1; cases h1)
  have hembryo : ∀ {k}, (t.slot k).state = .embryo → k ≠ i := by
    rintro k hk rfl
    rw [hk] at hl
    cases hl
  refine ⟨?_, fun f j hfj => ?_, fun f j hfj => ?_, fun k hk => ?_, fun k hk => ?_,
    fun k hk hs => ?_⟩
  · rw [he.initproc, he.live (Ne.symm hinit)]
    exact ⟨hf.init.1, hf.init.2.1, he.parent_none hf.init.2.2⟩
  · obtain ⟨h1, h2, h3, h4⟩ := hf.forking f j hfj
    rw [he.live (hforker (.inl hfj)), he.state_iff (hembryo h3) rfl]
    exact ⟨h1, h2, h3, he.parent_none h4⟩
  · obtain ⟨h1, h2, h3, h4⟩ := hf.forked f j hfj
    rw [he.live (hforker (.inr hfj)), he.state_iff (hembryo h3) rfl]
    exact ⟨h1, h2, h3, he.parent_some h4 (hforker (.inr hfj))⟩
  · have hki : k ≠ i := fun hc => by
      rw [hc, he.self] at hk
      cases hk
    exact he.parent_none (hf.unused k ((he.state_iff hki rfl).mp hk))
  · exact (he.state_iff (by omega) rfl).mpr (hf.outside k hk)
  · rw [he.initproc] at hk
    have hs0 : (t.slot k).state.live = true ∨ (t.slot k).state = .zombie := by
      by_cases hki : k = i
      · rw [hki]
        exact .inl hl
      · rwa [he.live hki, he.state_iff hki rfl] at hs
    obtain ⟨p, h1, h2, h3, h4⟩ := hf.parent k hk hs0
    by_cases hpi : p = i
    · -- an orphan, passed to init
      subst hpi
      refine ⟨t.initproc, hf.init.1, Ne.symm hk, ?_, ?_⟩
      · have hkn : k < nproc := hf.inside fun hc => by
          rw [hc] at hs0
          rcases hs0 with hs0 | hs0 <;> cases hs0
        rw [he.parent k, if_pos ⟨hkn, h3⟩]
      · rw [he.live (Ne.symm hinit)]
        exact hf.init.2.1
    · exact ⟨p, h1, h2, he.parent_some h3 hpi, by rw [he.live hpi]; exact h4⟩

theorem NoLost.exit (hn : NoLost t) (hf : Family t pc) : NoLost t' := by
  intro p hp hsp hcp k hk hpk hzk
  have hpi : p ≠ i := fun hc => by
    rw [hc, he.self] at hsp
    cases hsp
  have hsp0 : (t.slot p).state = .sleeping := by
    rcases he.state p hpi with h1 | ⟨h1, -⟩
    · rw [← h1]
      exact hsp
    · exact h1
  have hcp0 : (t.slot p).chan = some (.proc p) := by
    rw [← (he.fields p).2.2.2]
    exact hcp
  rw [he.parent k] at hpk
  split at hpk
  · -- `p` is init, and `k` is an orphan
    rename_i hor
    cases hpk
    by_cases hki : k = i
    · obtain ⟨q, -, h2, h3, -⟩ := hf.parent i hinit (.inl hl)
      rw [hki, h3] at hor
      exact h2 (Option.some.inj hor.2)
    · exact he.heir ⟨k, hk, hor.2, (he.state_iff hki rfl).mp hzk⟩ _ hp hsp hcp
  · by_cases hki : k = i
    · rw [hki] at hpk
      exact he.told p hp hpk hsp hcp
    · exact hn p hp hsp0 hcp0 k hk hpk ((he.state_iff hki rfl).mp hzk)

end Exit

theorem Inv.exit (h : Inv m) (hi : i < nproc) (hl : (m.t.slot i).state.live = true)
    (hpc : m.pc i = .user) (hinit : i ≠ m.t.initproc) :
    Inv (m.goto (Ptable.exit m.t i) i .dead) := by
  have he := exit_ok (Ne.symm hinit)
  have hser : Serials (Ptable.exit m.t i) m.reaped := by
    refine h.serials.same he.nextpid he.born (fun k => (he.fields k).1)
      (fun k => (he.fields k).2.2.1) fun k hk hc => ?_
    have hki : k ≠ i := by
      rintro rfl
      rw [hc] at hl
      cases hl
    exact hk ((he.state_iff hki rfl).mpr hc)
  exact ⟨(h.family.exit he hl hinit hi hpc).goto rfl, h.one.goto rfl,
    h.noLost.exit he hl hinit h.family, hser⟩

/-! ## 8. Runs -/

theorem live_running {s : State} (h : s = .running) : s.live = true := by rw [h]; rfl

variable {a : Act}

/-- **One section keeps the invariant.** -/
theorem step_inv (h : Inv m) (hs : step m a = some (e, m')) : Inv m' := by
  cases a with
  | sched i =>
    simp only [step] at hs
    split at hs
    · rename_i hr
      exact h.sched hr.2 (Option.some.inj hs)
    · cases hs
  | yield i =>
    simp only [step] at hs
    split at hs
    · rename_i hr
      cases hs
      have hl := live_running hr.2
      exact h.quiet (quiet_set rfl rfl rfl (by rw [hl]; rfl) (.inl hl))
        (wakes_set fun hc => by cases hc)
    · cases hs
  | sleep i c =>
    simp only [step] at hs
    split at hs
    · rename_i hr
      cases hs
      have hl := live_running hr.2.1
      have h1 : Inv { m with t := Ptable.sleep m.t i (.other c) } :=
        h.quiet (quiet_set rfl rfl rfl (by rw [hl]; rfl) (.inl hl))
          (wakes_set fun _ => .inl fun hc => by cases hc)
      exact h1.goto (i := i) (c := .asleep) rfl
    · cases hs
  | wakeup c =>
    cases hs
    obtain ⟨q, hw⟩ := wakeup1_quiet m.t (some c)
    exact h.quiet q hw
  | kill pid =>
    cases hs
    obtain ⟨q, hw⟩ := kill_quiet m.t pid
    exact h.quiet q hw
  | forkAlloc i =>
    simp only [step] at hs
    split at hs
    · rename_i hr
      split at hs
      · cases hs
        exact h
      · rename_i j t ha
        cases hs
        exact h.forkAlloc hr.1 (live_running hr.2.1) ha
    · cases hs
  | forkFail i =>
    simp only [step] at hs
    split at hs
    · rename_i j hf
      split at hs
      · cases hs
        exact h.child (.inl hf) rfl rfl (.inl ⟨rfl, (h.family.forking i j hf).2.2.2⟩)
      · cases hs
    · cases hs
  | forkParent i =>
    simp only [step] at hs
    split at hs
    · rename_i j hf
      split at hs
      · cases hs
        exact h.adopt hf
      · cases hs
    · cases hs
  | forkDone i =>
    simp only [step] at hs
    split at hs
    · rename_i j hf
      split at hs
      · cases hs
        have h1 : Inv (m.goto (release m.t j) i .user) :=
          h.child (.inr hf) rfl rfl (.inr ⟨rfl, (h.family.forked i j hf).2.2.2⟩)
        exact h1.goto (i := j) (c := .user) rfl
      · cases hs
    · cases hs
  | exit i =>
    simp only [step] at hs
    split at hs
    · rename_i hr
      cases hs
      exact h.exit hr.1 (live_running hr.2.1) hr.2.2.1 hr.2.2.2
    · cases hs
  | wait i =>
    simp only [step] at hs
    split at hs
    · rename_i hr
      exact h.scan (live_running hr.2.1) (Option.some.inj hs)
    · cases hs

theorem reachable_inv (h : Reachable m) : Inv m :=
  h.inv inv_start fun hi hs => step_inv hi hs

/-! ## 9. What `wait` returns -/

/-- **A call of `wait` ends in a scan**, of the table or of the table in which its process runs. -/
theorem wait_ends (he : (∃ j pid, e = .waited i j pid) ∨ e = .waitFailed i)
    (hs : step m a = some (e, m')) :
    ∃ t, scan { m with t := t } i = (e, m') ∧
      (t = m.t ∨ t = m.t.set i { m.t.slot i with state := .running, chan := none }) := by
  have hno : e ≠ .nothing ∧ e ≠ .forkFailed ∧ ∀ pid, e ≠ .forked pid := by
    rcases he with ⟨j, pid, rfl⟩ | rfl
    · exact ⟨nofun, nofun, nofun⟩
    · exact ⟨nofun, nofun, nofun⟩
  -- a scan by a process reports that process
  have hwho : ∀ {m1 : Machine} {k : Nat}, scan m1 k = (e, m') → k = i := fun {m1 k} hk => by
    unfold scan at hk
    split at hk
    · cases hk
      rcases he with ⟨j, pid, he⟩ | he <;> cases he
      rfl
    · split at hk
      · cases hk
        rcases he with ⟨j, pid, he⟩ | he <;> cases he
        rfl
      · cases hk
        exact absurd rfl hno.1
  cases a with
  | sched k =>
    simp only [step] at hs
    split at hs
    · have hk := Option.some.inj hs
      unfold sched at hk
      dsimp only at hk
      split at hk
      · cases hk
        exact absurd rfl hno.1
      · have := hwho hk
        subst this
        exact ⟨_, hk, .inr rfl⟩
      · cases hk
        exact absurd rfl hno.1
    · cases hs
  | wait k =>
    simp only [step] at hs
    split at hs
    · have hk := Option.some.inj hs
      have := hwho hk
      subst this
      exact ⟨m.t, hk, .inl rfl⟩
    · cases hs
  | yield k =>
    simp only [step] at hs
    split at hs <;> cases hs
    exact absurd rfl hno.1
  | sleep k c =>
    simp only [step] at hs
    split at hs <;> cases hs
    exact absurd rfl hno.1
  | wakeup c =>
    cases hs
    exact absurd rfl hno.1
  | kill pid =>
    cases hs
    exact absurd rfl hno.1
  | forkAlloc k =>
    simp only [step] at hs
    split at hs
    · split at hs <;> cases hs
      · exact absurd rfl hno.2.1
      · exact absurd rfl hno.1
    · cases hs
  | forkFail k =>
    simp only [step] at hs
    split at hs
    · split at hs <;> cases hs
      exact absurd rfl hno.2.1
    · cases hs
  | forkParent k =>
    simp only [step] at hs
    split at hs
    · split at hs <;> cases hs
      exact absurd rfl hno.1
    · cases hs
  | forkDone k =>
    simp only [step] at hs
    split at hs
    · split at hs <;> cases hs
      exact absurd rfl (hno.2.2 _)
    · cases hs
  | exit k =>
    simp only [step] at hs
    split at hs <;> cases hs
    exact absurd rfl hno.1

/-- The slots of other processes, and the parents and `killed` of all, in the table a scan sees. -/
theorem scanned_slot {t : Table}
    (h : t = m.t ∨ t = m.t.set i { m.t.slot i with state := .running, chan := none }) (k : Nat) :
    (t.slot k).parent = (m.t.slot k).parent ∧ (t.slot k).killed = (m.t.slot k).killed ∧
    ((t.slot k).state = .zombie → t.slot k = m.t.slot k) := by
  rcases h with rfl | rfl
  · exact ⟨rfl, rfl, fun _ => rfl⟩
  · by_cases hk : k = i
    · subst hk
      rw [Table.set_self]
      exact ⟨rfl, rfl, fun hc => by cases hc⟩
    · rw [Table.set_ne _ _ hk]
      exact ⟨rfl, rfl, fun _ => rfl⟩

theorem waited_ok {j : Nat} {pid : Word}
    (hs : step m a = some (.waited i j pid, m')) : (m.t.slot j).state = .zombie ∧
      (m.t.slot j).parent = some i ∧ (m.t.slot j).pid = pid ∧
      (m'.t.slot j).state = .unused ∧ m'.reaped = (m.t.slot j).serial :: m.reaped := by
  obtain ⟨t, hscan, ht⟩ := wait_ends (.inl ⟨j, pid, rfl⟩) hs
  unfold scan at hscan
  split at hscan
  · rename_i k hk
    cases hscan
    obtain ⟨-, h2, h3⟩ := zombieChild_some hk
    have e := (scanned_slot ht j).2.2 h3
    rw [e] at h2 h3 ⊢
    refine ⟨h3, h2, rfl, ?_, rfl⟩
    change ((Ptable.reap t j).slot j).state = .unused
    unfold Ptable.reap
    rw [Table.set_self]
  · split at hscan <;> cases hscan

theorem waitFailed_ok (hs : step m a = some (.waitFailed i, m')) :
    (∀ j, j < nproc → (m.t.slot j).parent ≠ some i) ∨ (m.t.slot i).killed = true := by
  obtain ⟨t, hscan, ht⟩ := wait_ends (.inr rfl) hs
  unfold scan at hscan
  split at hscan
  · cases hscan
  · split at hscan
    · rename_i hend
      rw [Bool.or_eq_true, Bool.not_eq_true'] at hend
      rcases hend with h1 | h1
      · refine .inl fun j hj => ?_
        rw [← (scanned_slot ht j).1]
        exact haveKids_false h1 hj
      · exact .inr ((scanned_slot ht i).2.1 ▸ h1)
    · cases hscan

/-- **Every exited process is reaped once, by its parent.** In every reachable state: a process
    other than init that is alive or a zombie has a parent that is alive; a call of `wait` that
    returns a number returns that of a zombie child of the caller and frees its slot; it returns -1
    only to a caller without children or killed; no process is returned by two calls, and with less
    than 2^32 processes made no number is. -/
theorem reaped_once {m : Machine} (h : Reachable m) :
    (∀ j, j ≠ m.t.initproc → (m.t.slot j).state.live = true ∨ (m.t.slot j).state = .zombie →
      ∃ p, p < nproc ∧ (m.t.slot j).parent = some p ∧ (m.t.slot p).state.live = true) ∧
    (∀ a i j pid m', step m a = some (.waited i j pid, m') →
      (m.t.slot j).state = .zombie ∧ (m.t.slot j).parent = some i ∧ (m.t.slot j).pid = pid ∧
      pid = BitVec.ofNat 32 (m.t.slot j).serial ∧ (m'.t.slot j).state = .unused ∧
      m'.reaped = (m.t.slot j).serial :: m.reaped) ∧
    (∀ a i m', step m a = some (.waitFailed i, m') →
      (∀ j, j < nproc → (m.t.slot j).parent ≠ some i) ∨ (m.t.slot i).killed = true) ∧
    m.reaped.Nodup ∧
    (m.t.born < 2 ^ 32 → (m.reaped.map fun s => BitVec.ofNat 32 s).Nodup) := by
  have hi := reachable_inv h
  refine ⟨fun j hj hs => ?_, fun a i j pid m' hs => ?_, fun a i m' hs => waitFailed_ok hs,
    hi.serials.nodup, fun hb => ?_⟩
  · obtain ⟨p, h1, -, h3, h4⟩ := hi.family.parent j hj hs
    exact ⟨p, h1, h3, h4⟩
  · obtain ⟨h1, h2, h3, h4, h5⟩ := waited_ok hs
    exact ⟨h1, h2, h3, by rw [← h3]; exact hi.serials.pid j, h4, h5⟩
  · refine hi.serials.nodup.map_on fun a ha b hb' hab => ?_
    have h1 := hi.serials.bound a ha
    have h2 := hi.serials.bound b hb'
    have h3 := congrArg BitVec.toNat hab
    rwa [BitVec.toNat_ofNat, BitVec.toNat_ofNat, Nat.mod_eq_of_lt (by omega),
      Nat.mod_eq_of_lt (by omega)] at h3

/-- Init forks, waits, and the child exits. -/
def forkWaitExit : List Act :=
  [.sched 0, .forkAlloc 0, .forkParent 0, .forkDone 0, .wait 0, .sched 1, .exit 1]

theorem reachable_exec {as : List Act}
    (h : Lib.exec (fun m a => (step m a).map (·.2)) Machine.start as = some m) : Reachable m := by
  refine Lib.Reach.exec (fun {m m' a} hs => ?_) .start h
  obtain ⟨⟨e, m1⟩, h1, rfl⟩ := Option.map_eq_some_iff.mp hs
  exact ⟨(a, e), h1⟩

/-- The child of init is a zombie, and init can be scheduled. -/
theorem reaped_once_child : ∃ m, Reachable m ∧ (m.t.slot 1).state = .zombie ∧
    ∃ p, p < nproc ∧ (m.t.slot 1).parent = some p ∧ (m.t.slot p).state.live = true := by
  have h1 : (Lib.exec (fun m a => (step m a).map (·.2)) Machine.start forkWaitExit).map
      (fun m => ((m.t.slot 1).state, m.t.initproc)) = some (.zombie, 0) := by decide +kernel
  obtain ⟨m, hm, hz⟩ := Option.map_eq_some_iff.mp h1
  simp only [Prod.mk.injEq] at hz
  have hr := reachable_exec hm
  exact ⟨m, hr, hz.1, (reaped_once hr).1 1 (by rw [hz.2]; decide) (.inr hz.1)⟩

/-- **No wakeup is lost in `wait`**: nobody sleeps in `wait` with a zombie child. -/
theorem no_lost_wakeup {m : Machine} (h : Reachable m) {i : Nat} (hi : i < nproc)
    (hs : (m.t.slot i).state = .sleeping) (hc : (m.t.slot i).chan = some (.proc i)) :
    ∀ j, j < nproc → (m.t.slot j).parent = some i → (m.t.slot j).state ≠ .zombie :=
  (reachable_inv h).noLost i hi hs hc

/-- Init sleeps in `wait` while its child runs. -/
theorem no_lost_wakeup_init : ∃ m, Reachable m ∧ (m.t.slot 0).state = .sleeping ∧
    (m.t.slot 1).parent = some 0 ∧ (m.t.slot 1).state ≠ .zombie := by
  have h1 : (Lib.exec (fun m a => (step m a).map (·.2)) Machine.start (forkWaitExit.take 6)).map
      (fun m => ((m.t.slot 0).state, (m.t.slot 0).chan, (m.t.slot 1).parent)) =
      some (.sleeping, some (.proc 0), some 0) := by decide +kernel
  obtain ⟨m, hm, hz⟩ := Option.map_eq_some_iff.mp h1
  simp only [Prod.mk.injEq] at hz
  have hr := reachable_exec hm
  exact ⟨m, hr, hz.1, hz.2.2,
    no_lost_wakeup hr (by decide) hz.1 hz.2.1 1 (by decide) hz.2.2⟩

end Xv6Clock.Ptable
