/-
  File:      Xv6Clock/Ptable.lean
  Subject:   The process table under its lock (proc.c): `allocproc`, the parts of `fork`, `exit`,
             `wait`, `sleep`, `wakeup1` and `kill`, each critical section one function.

  Only what these sections read and write is kept of a slot. `serial` is no field of the source: it
  is the process number before it wraps around, so that two processes never have the same.
-/
import Xv6Clock.Kernel

namespace Xv6Clock.Ptable

/-! ## 1. The table -/

/-- `enum procstate`. -/
inductive State where
  | unused | embryo | sleeping | runnable | running | zombie
  deriving DecidableEq, Repr

/-- What a process can sleep on: a `struct proc`, or anything else. -/
inductive Chan where
  | proc (i : Nat)
  | other (c : Nat)
  deriving DecidableEq, Repr

/-- A `struct proc`; a null pointer is `none`. -/
structure Slot where
  state : State
  pid : Word
  parent : Option Nat
  chan : Option Chan
  killed : Bool
  serial : Nat
  deriving DecidableEq, Repr

/-- `ptable`, `nextpid` and `initproc`; `born` counts the calls of `allocproc` that found a slot. -/
structure Table where
  slot : Nat → Slot
  nextpid : Word
  initproc : Nat
  born : Nat

def Table.set (t : Table) (i : Nat) (s : Slot) : Table :=
  { t with slot := Function.update t.slot i s }

@[simp] theorem Table.set_self (t : Table) (i : Nat) (s : Slot) : (t.set i s).slot i = s :=
  Function.update_self _ _ _

variable {i j : Nat}

theorem Table.set_ne (t : Table) (s : Slot) (h : j ≠ i) :
    (t.set i s).slot j = t.slot j := Function.update_of_ne h _ _

@[simp] theorem Table.set_initproc (t : Table) (i : Nat) (s : Slot) :
    (t.set i s).initproc = t.initproc := rfl

@[simp] theorem Table.set_nextpid (t : Table) (i : Nat) (s : Slot) :
    (t.set i s).nextpid = t.nextpid := rfl

@[simp] theorem Table.set_born (t : Table) (i : Nat) (s : Slot) : (t.set i s).born = t.born := rfl

/-- The slots as the loader leaves them. -/
def Slot.zero : Slot := ⟨.unused, 0, none, none, false, 0⟩

/-- The table after `userinit`. -/
def Table.boot : Table where
  slot := Function.update (fun _ => Slot.zero) 0 ⟨.runnable, 1, none, none, false, 1⟩
  nextpid := 2
  initproc := 0
  born := 1

theorem boot_slot (j : Nat) : Table.boot.slot j =
    if j = 0 then ⟨.runnable, 1, none, none, false, 1⟩ else Slot.zero := by
  unfold Table.boot
  simp only [Function.update_apply]

/-! ## 2. The critical sections -/

/-- `allocproc` under the lock. -/
def allocproc (t : Table) : Option (Nat × Table) :=
  match (List.range nproc).find? fun j => (t.slot j).state == .unused with
  | none => none
  | some j => some (j, { t.set j { t.slot j with
      state := .embryo, pid := t.nextpid, serial := t.born + 1 } with
      nextpid := t.nextpid + 1, born := t.born + 1 })

/-- The slot is given back: no kernel stack, or no memory for the pages. -/
def giveBack (t : Table) (j : Nat) : Table := t.set j { t.slot j with state := .unused }

/-- `np->parent = curproc`. -/
def adopt (t : Table) (i j : Nat) : Table := t.set j { t.slot j with parent := some i }

/-- `np->state = RUNNABLE`. -/
def release (t : Table) (j : Nat) : Table := t.set j { t.slot j with state := .runnable }

/-- The slot after `wakeup1`. -/
def Slot.wakeup (s : Slot) (c : Option Chan) : Slot :=
  if s.state = .sleeping ∧ s.chan = c then { s with state := .runnable } else s

/-- `wakeup1`. -/
def wakeup1 (t : Table) (c : Option Chan) : Table :=
  { t with slot := fun j => if j < nproc then (t.slot j).wakeup c else t.slot j }

/-- A round of the loop of `exit`: a child is passed to init, which is woken for a zombie. -/
def abandon (i : Nat) (t : Table) (j : Nat) : Table :=
  if (t.slot j).parent = some i then
    let t := t.set j { t.slot j with parent := some t.initproc }
    if (t.slot j).state = .zombie then wakeup1 t (some (.proc t.initproc)) else t
  else t

/-- `exit` under the lock. -/
def exit (t : Table) (i : Nat) : Table :=
  let t := wakeup1 t ((t.slot i).parent.map .proc)
  let t := (List.range nproc).foldl (abandon i) t
  t.set i { t.slot i with state := .zombie }

/-- The child that a scan of `wait` frees. -/
def zombieChild (t : Table) (i : Nat) : Option Nat :=
  (List.range nproc).find? fun j =>
    (t.slot j).parent == some i && (t.slot j).state == .zombie

/-- `havekids` after a scan. -/
def haveKids (t : Table) (i : Nat) : Bool :=
  (List.range nproc).any fun j => (t.slot j).parent == some i

/-- A zombie's slot is freed. -/
def reap (t : Table) (j : Nat) : Table :=
  t.set j { t.slot j with state := .unused, pid := 0, parent := none, killed := false, serial := 0 }

/-- `sleep` on a channel. -/
def sleep (t : Table) (i : Nat) (c : Chan) : Table :=
  t.set i { t.slot i with state := .sleeping, chan := some c }

/-- The slot after `kill`. -/
def Slot.kill (s : Slot) : Slot :=
  { s with killed := true, state := if s.state = .sleeping then .runnable else s.state }

/-- `kill`. -/
def kill (t : Table) (pid : Word) : Int × Table :=
  match (List.range nproc).find? fun j => (t.slot j).pid == pid with
  | some j => (0, t.set j (t.slot j).kill)
  | none => (-1, t)

/-! ## 3. What they do -/

/-- A search of the table. -/
theorem find_some {f : Nat → Bool} (h : (List.range nproc).find? f = some j) :
    j < nproc ∧ f j = true :=
  ⟨List.mem_range.mp (List.mem_of_find?_eq_some h), List.find?_some h⟩

theorem find_none {f : Nat → Bool} (h : (List.range nproc).find? f = none) (hj : j < nproc) :
    f j = false := by
  have := List.find?_eq_none.mp h j (List.mem_range.mpr hj)
  simpa using this

variable {t : Table}

theorem allocproc_some {t' : Table} (h : allocproc t = some (j, t')) :
    j < nproc ∧ (t.slot j).state = .unused ∧ t'.initproc = t.initproc ∧
    t'.nextpid = t.nextpid + 1 ∧ t'.born = t.born + 1 ∧
    t'.slot = Function.update t.slot j { t.slot j with
      state := .embryo, pid := t.nextpid, serial := t.born + 1 } := by
  unfold allocproc at h
  split at h
  · cases h
  · rename_i k hk
    cases h
    obtain ⟨h1, h2⟩ := find_some hk
    exact ⟨h1, by simpa using h2, rfl, rfl, rfl, rfl⟩

/-- A wakeup changes the state of sleepers only. -/
structure Roused (s s' : Slot) : Prop where
  pid : s'.pid = s.pid
  chan : s'.chan = s.chan
  killed : s'.killed = s.killed
  serial : s'.serial = s.serial
  state : s'.state = s.state ∨ (s.state = .sleeping ∧ s'.state = .runnable)

theorem Roused.refl (s : Slot) : Roused s s := ⟨rfl, rfl, rfl, rfl, .inl rfl⟩

variable {s s' : Slot}

theorem Roused.trans {s'' : Slot} (h : Roused s s') (h' : Roused s' s'') : Roused s s'' := by
  refine ⟨h'.pid.trans h.pid, h'.chan.trans h.chan, h'.killed.trans h.killed,
    h'.serial.trans h.serial, ?_⟩
  rcases h.state with h1 | ⟨h1, h2⟩
  · rw [← h1]
    exact h'.state
  · rcases h'.state with h3 | ⟨h3, -⟩
    · exact .inr ⟨h1, h3.trans h2⟩
    · rw [h2] at h3
      cases h3

theorem wakeup_roused (s : Slot) (c : Option Chan) : Roused s (s.wakeup c) := by
  unfold Slot.wakeup
  split
  · rename_i h
    exact ⟨rfl, rfl, rfl, rfl, .inr ⟨h.1, rfl⟩⟩
  · exact Roused.refl s

@[simp] theorem wakeup_parent (s : Slot) (c : Option Chan) : (s.wakeup c).parent = s.parent := by
  unfold Slot.wakeup
  split <;> rfl

theorem wakeup1_roused (t : Table) (c : Option Chan) (k : Nat) :
    Roused (t.slot k) ((wakeup1 t c).slot k) := by
  unfold wakeup1
  dsimp only
  split
  · exact wakeup_roused _ _
  · exact Roused.refl _

@[simp] theorem wakeup1_parent (t : Table) (c : Option Chan) (k : Nat) :
    ((wakeup1 t c).slot k).parent = (t.slot k).parent := by
  unfold wakeup1
  dsimp only
  split
  · exact wakeup_parent _ _
  · rfl

/-- Nobody is left asleep on the channel. -/
theorem wakeup1_awake {c : Option Chan} {k : Nat} (hk : k < nproc)
    (hs : ((wakeup1 t c).slot k).state = .sleeping) : ((wakeup1 t c).slot k).chan ≠ c := by
  unfold wakeup1 at hs ⊢
  dsimp only at hs ⊢
  rw [if_pos hk] at hs ⊢
  unfold Slot.wakeup at hs ⊢
  split at hs
  · cases hs
  · rename_i hn
    rw [if_neg hn]
    exact fun hc => hn ⟨hs, hc⟩

/-- **What the loop of `exit` does** with the slots of a list: children of `i` go to init, sleepers
    may be woken, and if a child is a zombie nobody is left asleep on init. -/
structure Abandoned (i : Nat) (L : List Nat) (t t' : Table) : Prop where
  initproc : t'.initproc = t.initproc
  nextpid : t'.nextpid = t.nextpid
  born : t'.born = t.born
  roused : ∀ k, Roused (t.slot k) (t'.slot k)
  parent : ∀ k, (t'.slot k).parent =
    if k ∈ L ∧ (t.slot k).parent = some i then some t.initproc else (t.slot k).parent
  awake : (∃ k ∈ L, (t.slot k).parent = some i ∧ (t.slot k).state = .zombie) →
    ∀ k, k < nproc → (t'.slot k).state = .sleeping → (t'.slot k).chan ≠ some (.proc t.initproc)

/-- One slot. -/
theorem abandon_one (i : Nat) (t : Table) (j : Nat) : Abandoned i [j] t (abandon i t j) := by
  unfold abandon
  split
  · rename_i hp
    have hset : ∀ k, Roused (t.slot k)
        ((t.set j { t.slot j with parent := some t.initproc }).slot k) := by
      intro k
      by_cases hk : k = j
      · subst hk
        rw [Table.set_self]
        exact ⟨rfl, rfl, rfl, rfl, .inl rfl⟩
      · rw [Table.set_ne _ _ hk]
        exact Roused.refl _
    have hpar : ∀ k, ((t.set j { t.slot j with parent := some t.initproc }).slot k).parent =
        if k ∈ [j] ∧ (t.slot k).parent = some i then some t.initproc else (t.slot k).parent := by
      intro k
      by_cases hk : k = j
      · subst hk
        rw [Table.set_self, if_pos ⟨List.mem_singleton.mpr rfl, hp⟩]
      · rw [Table.set_ne _ _ hk, if_neg fun hc => hk (List.mem_singleton.mp hc.1)]
    dsimp only
    split
    · refine ⟨rfl, rfl, rfl, fun k => (hset k).trans (wakeup1_roused _ _ k), fun k => ?_,
        fun _ k hk hs => wakeup1_awake hk hs⟩
      rw [wakeup1_parent, hpar]
    · rename_i hz
      refine ⟨rfl, rfl, rfl, hset, hpar, fun ⟨k, hk, _, hzk⟩ => absurd ?_ hz⟩
      rw [List.mem_singleton.mp hk] at hzk
      rw [Table.set_self]
      exact hzk
  · rename_i hp
    refine ⟨rfl, rfl, rfl, fun k => Roused.refl _, fun k => (if_neg fun hc => hp ?_).symm,
      fun ⟨k, hk, hc, _⟩ => absurd ?_ hp⟩
    · rw [← List.mem_singleton.mp hc.1]
      exact hc.2
    · rw [← List.mem_singleton.mp hk]
      exact hc

/-- Zombies are not changed by a wakeup. -/
theorem Roused.zombie (h : Roused s s') (hz : s.state = .zombie) : s'.state = .zombie := by
  rcases h.state with h1 | ⟨h1, -⟩
  · rw [h1, hz]
  · rw [hz] at h1
    cases h1

/-- What sleeps after a wakeup slept before. -/
theorem Roused.sleeping (h : Roused s s') (hs : s'.state = .sleeping) : s.state = .sleeping := by
  rcases h.state with h1 | ⟨h1, -⟩
  · rw [← h1, hs]
  · exact h1

theorem Abandoned.cons {L : List Nat} {t1 t' : Table} (hi : t.initproc ≠ i)
    (h1 : Abandoned i [j] t t1) (h : Abandoned i L t1 t') : Abandoned i (j :: L) t t' := by
  refine ⟨h.initproc.trans h1.initproc, h.nextpid.trans h1.nextpid, h.born.trans h1.born,
    fun k => (h1.roused k).trans (h.roused k), fun k => ?_, fun ⟨k, hk, hc, hz⟩ m hm hs => ?_⟩
  · rw [h.parent k, h1.initproc, h1.parent k]
    by_cases hp : (t.slot k).parent = some i
    · by_cases hj : k = j
      · -- passed on in the first round, and init is not `i`
        have hnew : (if k ∈ [j] ∧ (t.slot k).parent = some i then some t.initproc
            else (t.slot k).parent) = some t.initproc := if_pos ⟨List.mem_singleton.mpr hj, hp⟩
        rw [hnew, if_neg fun hc => hi (Option.some.inj hc.2), if_pos ⟨by simp [hj], hp⟩]
      · simp [hj, hp]
    · simp [hp]
  · by_cases hkj : k = j
    · have h2 := h1.awake ⟨k, by simp [hkj], hc, hz⟩ m hm ((h.roused m).sleeping hs)
      rw [(h.roused m).chan]
      exact h2
    · have hkL : k ∈ L := (List.mem_cons.mp hk).resolve_left hkj
      have hp1 : (t1.slot k).parent = some i := by
        rw [h1.parent k, if_neg fun hx => hkj (List.mem_singleton.mp hx.1)]
        exact hc
      have := h.awake ⟨k, hkL, hp1, (h1.roused k).zombie hz⟩ m hm hs
      rwa [h1.initproc] at this

theorem abandon_all {L : List Nat} : ∀ {t : Table}, t.initproc ≠ i →
    Abandoned i L t (L.foldl (abandon i) t) := by
  induction L with
  | nil =>
    intro t _
    exact ⟨rfl, rfl, rfl, fun k => Roused.refl _, fun k => by simp, fun ⟨k, hk, _⟩ => by cases hk⟩
  | cons j L ih =>
    intro t hi
    have h1 := abandon_one i t j
    exact h1.cons hi (ih (by rw [h1.initproc]; exact hi))

/-- **What `exit` by `i` does.** -/
structure Exited (i : Nat) (t t' : Table) : Prop where
  initproc : t'.initproc = t.initproc
  nextpid : t'.nextpid = t.nextpid
  born : t'.born = t.born
  self : (t'.slot i).state = .zombie
  fields : ∀ k, (t'.slot k).pid = (t.slot k).pid ∧ (t'.slot k).killed = (t.slot k).killed ∧
    (t'.slot k).serial = (t.slot k).serial ∧ (t'.slot k).chan = (t.slot k).chan
  state : ∀ k, k ≠ i → (t'.slot k).state = (t.slot k).state ∨
    ((t.slot k).state = .sleeping ∧ (t'.slot k).state = .runnable)
  parent : ∀ k, (t'.slot k).parent =
    if k < nproc ∧ (t.slot k).parent = some i then some t.initproc else (t.slot k).parent
  /-- The parent is awake. -/
  told : ∀ p, p < nproc → (t.slot i).parent = some p → (t'.slot p).state = .sleeping →
    (t'.slot p).chan ≠ some (.proc p)
  /-- Init is awake if it inherits a zombie. -/
  heir : (∃ k, k < nproc ∧ (t.slot k).parent = some i ∧ (t.slot k).state = .zombie) →
    ∀ k, k < nproc → (t'.slot k).state = .sleeping → (t'.slot k).chan ≠ some (.proc t.initproc)

theorem exit_ok (hi : t.initproc ≠ i) : Exited i t (exit t i) := by
  obtain ⟨t1, ht1⟩ : ∃ t1, t1 = wakeup1 t ((t.slot i).parent.map .proc) := ⟨_, rfl⟩
  obtain ⟨t2, ht2⟩ : ∃ t2, t2 = (List.range nproc).foldl (abandon i) t1 := ⟨_, rfl⟩
  have he : exit t i = t2.set i { t2.slot i with state := .zombie } := by
    rw [ht2, ht1]
    rfl
  have h1 : ∀ k, Roused (t.slot k) (t1.slot k) := by
    rw [ht1]
    exact wakeup1_roused _ _
  have hp1 : ∀ k, (t1.slot k).parent = (t.slot k).parent := by
    rw [ht1]
    exact wakeup1_parent _ _
  have hi1 : t1.initproc = t.initproc := by rw [ht1]; rfl
  have h2 : Abandoned i (List.range nproc) t1 t2 := by
    rw [ht2]
    exact abandon_all (by rw [hi1]; exact hi)
  have hr : ∀ k, Roused (t.slot k) (t2.slot k) := fun k => (h1 k).trans (h2.roused k)
  -- who sleeps in the end slept after the loop
  have hback : ∀ {k}, ((exit t i).slot k).state = .sleeping → (exit t i).slot k = t2.slot k := by
    intro k hs
    rw [he] at hs ⊢
    by_cases hk : k = i
    · rw [hk, Table.set_self] at hs
      cases hs
    · exact Table.set_ne _ _ hk
  refine ⟨?_, ?_, ?_, ?_, fun k => ?_, fun k hk => ?_, fun k => ?_, fun p hp hpar hs => ?_,
    fun ⟨k, hk, hc, hzk⟩ m hm hs => ?_⟩
  · rw [he, Table.set_initproc, h2.initproc, hi1]
  · rw [he, Table.set_nextpid, h2.nextpid, ht1]
    rfl
  · rw [he, Table.set_born, h2.born, ht1]
    rfl
  · rw [he, Table.set_self]
  · rw [he]
    by_cases hk : k = i
    · rw [hk, Table.set_self]
      exact ⟨(hr i).pid, (hr i).killed, (hr i).serial, (hr i).chan⟩
    · rw [Table.set_ne _ _ hk]
      exact ⟨(hr k).pid, (hr k).killed, (hr k).serial, (hr k).chan⟩
  · rw [he, Table.set_ne _ _ hk]
    exact (hr k).state
  · have h3 := h2.parent k
    simp only [hp1, List.mem_range, hi1] at h3
    rw [he]
    by_cases hk : k = i
    · subst hk
      rw [Table.set_self]
      exact h3
    · rw [Table.set_ne _ _ hk]
      exact h3
  · have e := hback hs
    rw [e] at hs ⊢
    rw [(h2.roused p).chan]
    have hs1 := (h2.roused p).sleeping hs
    rw [ht1, hpar] at hs1 ⊢
    exact wakeup1_awake hp hs1
  · have e := hback hs
    rw [e] at hs ⊢
    rw [← hi1]
    exact h2.awake ⟨k, List.mem_range.mpr hk, by rw [hp1]; exact hc, (h1 k).zombie hzk⟩ m hm hs

theorem zombieChild_some (h : zombieChild t i = some j) :
    j < nproc ∧ (t.slot j).parent = some i ∧ (t.slot j).state = .zombie := by
  obtain ⟨h1, h2⟩ := find_some h
  rw [Bool.and_eq_true, beq_iff_eq, beq_iff_eq] at h2
  exact ⟨h1, h2⟩

theorem zombieChild_none (h : zombieChild t i = none) (hj : j < nproc)
    (hp : (t.slot j).parent = some i) : (t.slot j).state ≠ .zombie := by
  intro hz
  have h1 := find_none h hj
  rw [hp, hz] at h1
  simp at h1

theorem haveKids_false (h : haveKids t i = false) (hj : j < nproc) :
    (t.slot j).parent ≠ some i := by
  intro hp
  unfold haveKids at h
  have := List.any_eq_false.mp h j (List.mem_range.mpr hj)
  rw [hp] at this
  simp at this

end Xv6Clock.Ptable
