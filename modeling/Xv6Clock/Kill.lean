/-
  File:      Xv6Clock/Kill.lean
  Subject:   Whom does `kill` reach?

  `kill` looks for a process number and not at the state of the slot. An UNUSED slot has the number
  0, or the number of a process that fork gave up, so `kill` succeeds on it and leaves `killed` set
  in a slot that `allocproc` will hand out without clearing it. Where no UNUSED slot has the
  number, `kill` does what it should. A process that fork makes starts with `killed` clear where no
  `kill` of the run hit an UNUSED slot, or an EMBRYO: fork gives up the lock between the section
  that takes the number and the one that makes the child RUNNABLE.
-/
import Xv6Clock.Reap

namespace Xv6Clock.Ptable

/-! ## 1. What `kill` should do -/

/-- No UNUSED slot has the number. -/
def NotStale (t : Table) (pid : Word) : Prop :=
  ∀ j, j < nproc → (t.slot j).state = .unused → (t.slot j).pid ≠ pid

/-- The slot has no process, or one that has not started. -/
def State.unstarted : State → Bool
  | .unused | .embryo => true
  | _ => false

/-- `kill` is called with the number of no UNUSED slot, and of no EMBRYO. -/
def KillsStarted (t : Table) : Act → Prop
  | .kill pid => ∀ j, j < nproc → (t.slot j).state.unstarted = true → (t.slot j).pid ≠ pid
  | _ => True

instance (t : Table) (a : Act) : Decidable (KillsStarted t a) :=
  match a with
  | .kill pid => inferInstanceAs (Decidable (∀ j, j < nproc → (t.slot j).state.unstarted = true →
      (t.slot j).pid ≠ pid))
  | .sched _ | .yield _ | .sleep .. | .wakeup _ | .forkAlloc _ | .forkFail _ | .forkParent _
  | .forkDone _ | .exit _ | .wait _ => .isTrue trivial

/-- **States reached** by sections whose calls of `kill` hit processes that have started. -/
def ReachableStarted : Machine → Prop :=
  Lib.Reach (fun m (e : Act × Ended) m' => KillsStarted m.t e.1 ∧ step m e.1 = some (e.2, m'))
    Machine.start

/-- **What `kill` should do**: return 0 exactly if a process has the number, and change that
    process; otherwise return -1 and change nothing. -/
structure KillOk (t : Table) (pid : Word) : Prop where
  found : (kill t pid).1 = 0 ↔ ∃ j, j < nproc ∧ (t.slot j).state ≠ .unused ∧ (t.slot j).pid = pid
  only : (kill t pid).1 = 0 → ∃ j, j < nproc ∧ (t.slot j).state ≠ .unused ∧
    (t.slot j).pid = pid ∧ (kill t pid).2 = t.set j (t.slot j).kill
  refused : (kill t pid).1 ≠ 0 → (kill t pid).1 = -1 ∧ (kill t pid).2 = t

variable {pid : Word} {m m' : Machine} {e : Ended}

/-- Where no UNUSED slot has the number, `kill` does what it should. -/
theorem killOk_of_notStale {t : Table} (h : NotStale t pid) : KillOk t pid := by
  cases hf : (List.range nproc).find? fun j => (t.slot j).pid == pid with
  | some j =>
    have hk : kill t pid = (0, t.set j (t.slot j).kill) := by
      unfold kill
      rw [hf]
    obtain ⟨hj, hp⟩ := find_some hf
    have hpid : (t.slot j).pid = pid := by simpa using hp
    have hlive : (t.slot j).state ≠ .unused := fun hc => h j hj hc hpid
    refine ⟨?_, fun _ => ⟨j, hj, hlive, hpid, by rw [hk]⟩, fun hne => absurd (by rw [hk]) hne⟩
    rw [hk]
    exact ⟨fun _ => ⟨j, hj, hlive, hpid⟩, fun _ => rfl⟩
  | none =>
    have hk : kill t pid = (-1, t) := by
      unfold kill
      rw [hf]
    refine ⟨?_, fun h0 => ?_, fun _ => ⟨by rw [hk], by rw [hk]⟩⟩
    · rw [hk]
      refine ⟨fun hc => absurd hc (show (-1 : Int) ≠ 0 by decide), fun ⟨j, hj, _, hp⟩ => ?_⟩
      have := find_none hf hj
      rw [hp] at this
      simp at this
    · rw [hk] at h0
      exact absurd h0 (show (-1 : Int) ≠ 0 by decide)

/-- Where one has, `kill` succeeds without a process. -/
theorem not_killOk_of_stale {t : Table} {reaped : List Nat} (hp : Serials t reaped)
    (hb : t.born < 2 ^ 31 - 1) (h : ¬ NotStale t pid) : ¬ KillOk t pid := by
  intro hk
  unfold NotStale at h
  simp only [not_forall, not_not] at h
  obtain ⟨j, hj, hu, hpid⟩ := h
  have hfound : (kill t pid).1 = 0 := by
    unfold kill
    split
    · rfl
    · rename_i hf
      have := find_none hf hj
      rw [hpid] at this
      simp at this
  obtain ⟨k, -, hlive, hpk⟩ := hk.found.mp hfound
  -- the numbers are below 2^31, so equal numbers are equal serial numbers
  have hser : (t.slot k).serial = (t.slot j).serial := by
    have h1 := hp.le j
    have h2 := hp.le k
    have h3 : BitVec.ofNat 32 (t.slot k).serial = BitVec.ofNat 32 (t.slot j).serial := by
      rw [← hp.pid, ← hp.pid, hpid, hpk]
    have h4 := congrArg BitVec.toNat h3
    rwa [BitVec.toNat_ofNat, BitVec.toNat_ofNat, Nat.mod_eq_of_lt (by omega),
      Nat.mod_eq_of_lt (by omega)] at h4
  rw [hp.inj k j (hp.live k hlive) hser] at hlive
  exact hlive hu

/-! ## 2. New processes -/

/-- `killed` is clear in the slots of no process, and of processes that have not started. -/
def Fresh (t : Table) : Prop :=
  ∀ j, (t.slot j).state.unstarted = true → (t.slot j).killed = false

theorem fresh_boot : Fresh Table.boot := by
  intro j _
  rw [boot_slot]
  split <;> rfl

section
variable {t t' : Table} {i j : Nat} (h : Fresh t)
include h

theorem Fresh.set {s : Slot} (hs : s.state.unstarted = true → s.killed = false) :
    Fresh (t.set i s) := by
  intro k hk
  by_cases hki : k = i
  · subst hki
    rw [Table.set_self] at hk ⊢
    exact hs hk
  · rw [Table.set_ne _ _ hki] at hk ⊢
    exact h k hk

/-- `allocproc` takes `killed` over from the slot. -/
theorem Fresh.alloc (ha : allocproc t = some (j, t')) : Fresh t' := by
  obtain ⟨-, hu, -, -, -, hs⟩ := allocproc_some ha
  intro k hk
  rw [hs, Function.update_apply] at hk ⊢
  split
  · exact h j (by rw [hu]; rfl)
  · rename_i hkj
    rw [if_neg hkj] at hk
    exact h k hk

theorem Fresh.wakeup1 (c : Option Chan) : Fresh (Ptable.wakeup1 t c) := by
  intro k hk
  have hr := wakeup1_roused t c k
  rw [hr.killed]
  rcases hr.state with h1 | ⟨-, h1⟩
  · exact h k (h1 ▸ hk)
  · rw [h1] at hk
    cases hk

theorem Fresh.exit (hi : t.initproc ≠ i) : Fresh (Ptable.exit t i) := by
  have he := exit_ok hi
  intro k hk
  rw [(he.fields k).2.1]
  by_cases hki : k = i
  · rw [hki, he.self] at hk
    cases hk
  · rcases he.state k hki with h1 | ⟨-, h1⟩
    · exact h k (h1 ▸ hk)
    · rw [h1] at hk
      cases hk

/-- **A `kill` of a process that has started keeps it.** -/
theorem Fresh.kill (hok : KillsStarted t (.kill pid)) : Fresh (Ptable.kill t pid).2 := by
  unfold Ptable.kill
  split
  · rename_i j hf
    obtain ⟨hj, hp⟩ := find_some hf
    refine h.set fun hc => absurd (by simpa using hp) (hok j hj ?_)
    -- the state of a slot that is not asleep stays
    unfold Slot.kill at hc
    simp only at hc
    split at hc
    · cases hc
    · exact hc
  · exact h

end

theorem Fresh.scan {i : Nat} (h : Fresh m.t) (hs : Ptable.scan m i = (e, m')) : Fresh m'.t := by
  unfold Ptable.scan at hs
  split at hs
  · cases hs
    exact h.set fun _ => rfl
  · split at hs <;> cases hs
    · exact h
    · exact h.set fun hc => by cases hc

theorem Fresh.sched {i : Nat} (h : Fresh m.t) (hs : Ptable.sched m i = (e, m')) : Fresh m'.t := by
  unfold Ptable.sched at hs
  dsimp only at hs
  split at hs
  · cases hs
    exact h.set fun hc => by cases hc
  · have h1 : Fresh (m.t.set i { m.t.slot i with state := .running, chan := none }) :=
      h.set fun hc => by cases hc
    exact Fresh.scan (m := { m with t := _ }) h1 hs
  · cases hs
    exact h.set fun hc => by cases hc

/-- **One section keeps it**, where a `kill` hits a process that has started. -/
theorem Fresh.step {a : Act} (h : Fresh m.t) (hi : Inv m) (hok : KillsStarted m.t a)
    (hs : Ptable.step m a = some (e, m')) : Fresh m'.t := by
  have hembryo : ∀ {i j : Nat}, m.pc i = .forking j ∨ m.pc i = .forked j →
      (m.t.slot j).killed = false := fun {i j} hf => by
    refine h j ?_
    rcases hf with hf | hf
    · rw [(hi.family.forking i j hf).2.2.1]
      rfl
    · rw [(hi.family.forked i j hf).2.2.1]
      rfl
  cases a with
  | sched i =>
    simp only [Ptable.step] at hs
    split at hs
    · exact h.sched (Option.some.inj hs)
    · cases hs
  | yield i =>
    simp only [Ptable.step] at hs
    split at hs <;> cases hs
    exact h.set fun hc => by cases hc
  | sleep i c =>
    simp only [Ptable.step] at hs
    split at hs <;> cases hs
    exact h.set fun hc => by cases hc
  | wakeup c =>
    cases hs
    exact h.wakeup1 _
  | kill pid =>
    cases hs
    exact h.kill hok
  | forkAlloc i =>
    simp only [Ptable.step] at hs
    split at hs
    · split at hs
      · cases hs
        exact h
      · rename_i ha
        cases hs
        exact h.alloc ha
    · cases hs
  | forkFail i =>
    simp only [Ptable.step] at hs
    split at hs
    · rename_i j hf
      split at hs <;> cases hs
      exact h.set fun _ => hembryo (.inl hf)
    · cases hs
  | forkParent i =>
    simp only [Ptable.step] at hs
    split at hs
    · rename_i j hf
      split at hs <;> cases hs
      exact h.set fun _ => hembryo (.inl hf)
    · cases hs
  | forkDone i =>
    simp only [Ptable.step] at hs
    split at hs
    · split at hs <;> cases hs
      exact h.set fun hc => by cases hc
    · cases hs
  | exit i =>
    simp only [Ptable.step] at hs
    split at hs
    · rename_i hr
      cases hs
      exact h.exit (Ne.symm hr.2.2.2)
    · cases hs
  | wait i =>
    simp only [Ptable.step] at hs
    split at hs
    · exact h.scan (Option.some.inj hs)
    · cases hs

theorem reachableStarted_fresh (h : ReachableStarted m) : Inv m ∧ Fresh m.t :=
  h.inv (I := fun m => Inv m ∧ Fresh m.t) ⟨inv_start, fresh_boot⟩ fun hi hs =>
    ⟨step_inv hi.1 hs.2, hi.2.step hi.1 hs.1 hs.2⟩

/-- The last section of fork. -/
theorem forkDone_spec {i j : Nat} (hf : m.pc i = .forked j)
    (hs : step m (.forkDone i) = some (e, m')) : m'.t = release m.t j := by
  simp only [step, hf] at hs
  split at hs <;> cases hs
  rfl

/-- **`kill` reaches live processes only where no UNUSED slot has the number.** In every state that
    any interleaving reaches, with less than 2^31 processes made, `kill` does what it should for
    exactly the numbers that no UNUSED slot has. If every `kill` of a run hits no UNUSED slot and no
    EMBRYO, every process that fork makes in the run starts with `killed` clear. -/
theorem kill_live_only (m : Machine) :
    (Reachable m → m.t.born < 2 ^ 31 - 1 → ∀ pid, KillOk m.t pid ↔ NotStale m.t pid) ∧
    (ReachableStarted m → ∀ i j e m', m.pc i = .forked j → step m (.forkDone i) = some (e, m') →
      (m'.t.slot j).state = .runnable ∧ (m'.t.slot j).parent = some i ∧
      (m'.t.slot j).killed = false) := by
  refine ⟨fun h hb pid => ⟨fun hk => ?_, killOk_of_notStale⟩, fun h i j e m' hf hs => ?_⟩
  · exact not_not.mp fun hn => not_killOk_of_stale (reachable_inv h).serials hb hn hk
  · obtain ⟨hi, hfresh⟩ := reachableStarted_fresh h
    obtain ⟨-, -, hemb, hpar⟩ := hi.family.forked i j hf
    rw [forkDone_spec hf hs]
    unfold release
    rw [Table.set_self]
    exact ⟨rfl, hpar, hfresh j (by rw [hemb]; rfl)⟩

/-- A fork by init, with other sections before it and after its first one. -/
def forkBeside (before after : List Act) : List Act :=
  [.sched 0] ++ before ++ [.forkAlloc 0] ++ after ++ [.forkParent 0]

/-- The sections of a list, as long as they hit processes that have started. -/
def runStarted (m : Machine) (a : Act) : Option Machine :=
  if KillsStarted m.t a then (step m a).map (·.2) else none

/-- Init forks, and kills itself meanwhile: the child is not killed. -/
theorem kill_live_only_init : ∃ m, (m.t.slot 0).killed = true ∧ KillOk m.t 2 ∧
    ∃ e m', step m (.forkDone 0) = some (e, m') ∧ (m'.t.slot 1).killed = false := by
  have hrun : (Lib.exec runStarted Machine.start (forkBeside [] [.kill 1])).map (fun m =>
      ((m.t.slot 0).killed, m.pc 0, m.t.born,
        (List.range nproc).all fun j => (m.t.slot j).state != .unused || (m.t.slot j).pid != 2,
        (step m (.forkDone 0)).isSome)) = some (true, .forked 1, 2, true, true) := by decide +kernel
  obtain ⟨m, hm, hval⟩ := Option.map_eq_some_iff.mp hrun
  simp only [Prod.mk.injEq] at hval
  obtain ⟨hkilled, hpc, hborn, hstale, hdone⟩ := hval
  have hs : ReachableStarted m := by
    refine .exec (fun {m m' a} ha => ?_) .start hm
    unfold runStarted at ha
    split at ha
    · rename_i hok
      obtain ⟨⟨e, m1⟩, h1, rfl⟩ := Option.map_eq_some_iff.mp ha
      exact ⟨(a, e), hok, h1⟩
    · cases ha
  have hr : Reachable m := hs.inv .start fun hr hst => .step hr hst.2
  obtain ⟨⟨e, m'⟩, hstep⟩ := Option.isSome_iff_exists.mp hdone
  refine ⟨m, hkilled, ((kill_live_only m).1 hr (by rw [hborn]; decide) 2).mpr fun j hj hu hp => ?_,
    e, m', hstep, ((kill_live_only m).2 hs 0 1 e m' hpc hstep).2.2⟩
  have := List.all_eq_true.mp hstale j (List.mem_range.mpr hj)
  rw [hu, hp] at this
  cases this

/-- **`kill(0)` succeeds on an UNUSED slot, and the next child is born killed.** So is a child that
    is killed as an EMBRYO. -/
theorem kill_zero_unused : Reachable Machine.start ∧ (kill Machine.start.t 0).1 = 0 ∧
    (∀ j, j < nproc → (Machine.start.t.slot j).state ≠ .unused →
      (Machine.start.t.slot j).pid ≠ 0) ∧
    ∀ kills ∈ [forkBeside [.kill 0] [], forkBeside [] [.kill 2]],
      (Lib.exec (fun m a => (step m a).map (·.2)) Machine.start (kills ++ [.forkDone 0])).map
        (fun m => ((m.t.slot 1).state, (m.t.slot 1).parent, (m.t.slot 1).killed)) =
        some (.runnable, some 0, true) :=
  ⟨.start, by decide, by decide, by decide +kernel⟩

end Xv6Clock.Ptable
