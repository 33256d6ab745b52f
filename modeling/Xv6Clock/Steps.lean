/-
  File:      Xv6Clock/Steps.lean
  Subject:   Everything one operation of the machine can do, and what follows for the address
             spaces of the processes.

  `Stepped` inverts `step` once. From it: an operation of one process leaves the address space and
  the queue of every other one alone (`step_other`), and a property of address space and queue that
  every call of its own process keeps holds for all processes along every run (`ImageInv.run`).
-/
import Xv6Clock.Machine
import Xv6Clock.Fork

namespace Xv6Clock

variable (cfg : Config)

/-! ## 1. `exit` and `wait` -/

/-- The address space and the queue are the same. -/
structure SameImage (p p' : Proc) : Prop where
  pgdir : p'.pgdir = p.pgdir
  sz : p'.sz = p.sz
  q : p'.q = p.q

theorem SameImage.refl (p : Proc) : SameImage p p := ⟨rfl, rfl, rfl⟩

variable {p p' : Proc} {k k' : Kernel} {i fuel : Nat} {op : Op} {o : Out} {I : Proc → Prop}

theorem SameImage.trans {p'' : Proc} (h1 : SameImage p p') (h2 : SameImage p' p'') :
    SameImage p p'' :=
  ⟨h2.pgdir.trans h1.pgdir, h2.sz.trans h1.sz, h2.q.trans h1.q⟩

theorem SameImage.sane (h : SameImage p p') (hp : Sane p) : Sane p' :=
  ⟨h.pgdir ▸ hp.high, h.sz ▸ hp.size⟩

theorem SameImage.queue (h : SameImage p p') (hp : QueueOk cfg p) : QueueOk cfg p' := by
  refine ⟨h.sane hp.sane, ?_, h.q ▸ hp.wf, ?_⟩
  · rw [h.pgdir, h.sz]
    exact hp.used
  · rw [h.q, h.sz]
    exact hp.low

/-- What exit of process `i` does to the process table: `i` becomes a zombie, its children change
    their parent. -/
structure Exited (k k' : Kernel) (i : Nat) : Prop where
  image : ∀ j, SameImage (k.proc j) (k'.proc j)
  kstack : ∀ j, (k'.proc j).kstack = (k.proc j).kstack
  state : ∀ j, (k'.proc j).state = if j = i then .zombie else (k.proc j).state
  kpgdir : k'.kpgdir = k.kpgdir
  cpuStacks : k'.cpuStacks = k.cpuStacks
  closed : ∃ o, closeAll cfg nofile k.kmem k.files (k.proc i).ofile = .ok (k'.kmem, k'.files, o)

/-- Only the parent changes. -/
theorem reparent_proc (k : Kernel) (i j : Nat) :
    ∃ x, (k.reparent i).proc j = { k.proc j with parent := x } := by
  simp only [Kernel.reparent]
  split
  · exact ⟨some k.initproc, rfl⟩
  · exact ⟨(k.proc j).parent, rfl⟩

theorem exit_ok (h : exit cfg k i = .ok k') : Exited cfg k k' i := by
  unfold exit at h
  split at h
  · cases h
  obtain ⟨⟨m, t, o⟩, h1, h2⟩ := Lib.bind_eq_ok.mp h
  simp only [Except.ok.injEq] at h2
  generalize hk : ((k.setKmem m).setFiles t).setProc i { k.proc i with ofile := o } = k1 at h2
  have hp1 : ∀ j, ∃ x, k1.proc j = { k.proc j with ofile := x } := by
    intro j
    rw [← hk, Kernel.setProc_proc]
    by_cases hj : j = i
    · rw [if_pos hj, hj]
      exact ⟨o, rfl⟩
    · rw [if_neg hj]
      exact ⟨(k.proc j).ofile, rfl⟩
  have hp2 : ∀ j, ∃ y, k'.proc j = { k1.proc j with
      parent := y, state := if j = i then .zombie else (k1.proc j).state } := by
    intro j
    obtain ⟨y, hy⟩ := reparent_proc k1 i j
    rw [← h2, Kernel.setProc_proc]
    by_cases hj : j = i
    · subst hj
      exact ⟨y, by simp [hy]⟩
    · exact ⟨y, by simp [hj, hy]⟩
  have hp : ∀ j, ∃ x y, k'.proc j = { k.proc j with
      ofile := x, parent := y, state := if j = i then .zombie else (k.proc j).state } := by
    intro j
    obtain ⟨x, hx⟩ := hp1 j
    obtain ⟨y, hy⟩ := hp2 j
    exact ⟨x, y, by rw [hy, hx]⟩
  refine ⟨fun j => ?_, fun j => ?_, fun j => ?_, ?_, ?_, o, ?_⟩
  · obtain ⟨x, y, e⟩ := hp j
    rw [e]
    exact ⟨rfl, rfl, rfl⟩
  · obtain ⟨x, y, e⟩ := hp j
    rw [e]
  · obtain ⟨x, y, e⟩ := hp j
    rw [e]
  · rw [← h2, ← hk]
    rfl
  · rw [← h2, ← hk]
    rfl
  · rw [← h2, ← hk]
    exact h1

/-- **What `wait` does when it returns**: nothing, or a zombie child's pages are given back. -/
theorem wait_ok {w : Waited} (h : wait cfg k i = .ok (w, k')) :
    k' = k ∨ ∃ j m1 m2 p, j < nproc ∧ (k.proc j).state = .zombie ∧
      kfree cfg k.kmem (k.proc j).kstack = .ok m1 ∧
      freevm cfg ((k.proc j).vm m1) = .ok m2 ∧ SameImage (k.proc j) p ∧ p.state = .unused ∧
      k' = (k.setKmem m2).setProc j p := by
  unfold wait at h
  split at h
  · rename_i j hj
    have h0 := List.find?_some hj
    rw [Bool.and_eq_true] at h0
    obtain ⟨m1, h1, h2⟩ := Lib.bind_eq_ok.mp h
    obtain ⟨m2, h3, h4⟩ := Lib.bind_eq_ok.mp h2
    cases h4
    refine Or.inr ⟨j, m1, m2, _, List.mem_range.mp (List.mem_of_find?_eq_some hj),
      by simpa using h0.2, h1, h3, ?_, ?_, rfl⟩
    · exact ⟨rfl, rfl, rfl⟩
    · rfl
  · split at h
    · cases h
      exact Or.inl rfl
    · cases h
      exact Or.inl rfl

/-! ## 2. One operation -/

/-- **Everything one operation of process `i` can do.** -/
inductive Stepped (fuel : Nat) (k : Kernel) (i : Nat) : Op → Out → Kernel → Prop where
  | mem {op : MemOp} {out : Out} {m : Kmem} {p : Proc} (hout : out ≠ .killed)
      (h : memStep cfg fuel k.kmem (k.proc i) op = .ok (out, m, p)) :
      Stepped fuel k i (.mem op) out ((k.setKmem m).setProc i p)
  | killed {op : MemOp} {m : Kmem} {p : Proc} {k' : Kernel}
      (h : memStep cfg fuel k.kmem (k.proc i) op = .ok (.killed, m, p))
      (he : Exited cfg ((k.setKmem m).setProc i p) k' i) : Stepped fuel k i (.mem op) .killed k'
  | fork {r : Int} {k' : Kernel} (h : Forked cfg fuel k i r k') : Stepped fuel k i .fork (.ret r) k'
  | exit {k' : Kernel} (h : Exited cfg k k' i) : Stepped fuel k i .exit .exited k'
  | wait {w : Waited} {k' : Kernel} (h : wait cfg k i = .ok (w, k')) :
      Stepped fuel k i .wait (.waited w) k'
  | pipe {r : Int} {m : Kmem} {t : Files} {o : Nat → Option Nat}
      (h : sysPipe cfg k.kmem k.files (k.proc i).ofile = .ok (r, m, t, o)) :
      Stepped fuel k i .pipe (.ret r)
        (((k.setKmem m).setFiles t).setProc i { k.proc i with ofile := o })
  | close {fd : Nat} {r : Int} {m : Kmem} {t : Files} {o : Nat → Option Nat}
      (h : sysClose cfg k.kmem k.files (k.proc i).ofile fd = .ok (r, m, t, o)) :
      Stepped fuel k i (.close fd) (.ret r)
        (((k.setKmem m).setFiles t).setProc i { k.proc i with ofile := o })

theorem step_cases (h : step cfg fuel k i op = .ok (o, k')) :
    i < nproc ∧ (k.proc i).state = .runnable ∧ Stepped cfg fuel k i op o k' := by
  unfold step at h
  split at h
  · cases h
  rename_i hrun
  rw [Decidable.not_not] at hrun
  refine ⟨hrun.1, hrun.2, ?_⟩
  cases op with
  | mem op =>
    obtain ⟨⟨out, m, p⟩, h1, h2⟩ := Lib.bind_eq_ok.mp h
    dsimp only at h2
    split at h2
    · rename_i hk
      obtain ⟨k1, h3, h4⟩ := Lib.bind_eq_ok.mp h2
      cases h4
      exact .killed (hk ▸ h1) (exit_ok cfg h3)
    · rename_i hk
      cases h2
      exact .mem hk h1
  | fork =>
    obtain ⟨⟨r, k1⟩, h1, h2⟩ := Lib.bind_eq_ok.mp h
    cases h2
    exact .fork (fork_ok cfg (by rw [hrun.2]; decide) h1)
  | exit =>
    obtain ⟨k1, h1, h2⟩ := Lib.bind_eq_ok.mp h
    cases h2
    exact .exit (exit_ok cfg h1)
  | wait =>
    obtain ⟨⟨w, k1⟩, h1, h2⟩ := Lib.bind_eq_ok.mp h
    cases h2
    exact .wait h1
  | pipe =>
    obtain ⟨⟨r, m, t, x⟩, h1, h2⟩ := Lib.bind_eq_ok.mp h
    cases h2
    exact .pipe h1
  | close fd =>
    obtain ⟨⟨r, m, t, x⟩, h1, h2⟩ := Lib.bind_eq_ok.mp h
    cases h2
    exact .close h1

/-! ## 3. Other processes -/

/-- **An operation of process `j` leaves the address space and the queue of every other process in
    use alone**, and does not end it. -/
theorem Stepped.other {j : Nat} (h : Stepped cfg fuel k j op o k') (hij : i ≠ j)
    (hi : (k.proc i).state = .runnable) :
    SameImage (k.proc i) (k'.proc i) ∧ (k'.proc i).state = .runnable := by
  have hset : ∀ (k1 : Kernel) (p : Proc), k1.proc = k.proc →
      SameImage (k.proc i) ((k1.setProc j p).proc i) ∧
        ((k1.setProc j p).proc i).state = .runnable := by
    intro k1 p h1
    rw [Kernel.setProc_ne _ _ hij, h1]
    exact ⟨SameImage.refl _, hi⟩
  cases h with
  | mem hout h1 => exact hset _ _ rfl
  | killed h1 he =>
    obtain ⟨h2, h3⟩ := hset (k.setKmem _) _ rfl
    exact ⟨h2.trans (he.image i), (he.state i).trans (by rw [if_neg hij]; exact h3)⟩
  | fork h1 =>
    have hne : ∀ {l : Nat}, (k.proc l).state = .unused → i ≠ l := by
      rintro l hl rfl
      rw [hi] at hl
      cases hl
    cases h1 with
    | full => exact ⟨SameImage.refl _, hi⟩
    | noStack hl =>
      simp only [Function.update_of_ne (hne hl)]
      exact ⟨SameImage.refl _, hi⟩
    | noCopy hl =>
      simp only [Function.update_of_ne (hne hl)]
      exact ⟨SameImage.refl _, hi⟩
    | child hn hl =>
      simp only [Function.update_of_ne (hne hl), Function.update_of_ne hij]
      exact ⟨SameImage.refl _, hi⟩
  | exit he => exact ⟨he.image i, (he.state i).trans (by rw [if_neg hij]; exact hi)⟩
  | wait h1 =>
    rcases wait_ok cfg h1 with rfl | ⟨l, m1, m2, p, -, hl, -, -, -, -, rfl⟩
    · exact ⟨SameImage.refl _, hi⟩
    · have hil : i ≠ l := by
        rintro rfl
        rw [hi] at hl
        cases hl
      rw [Kernel.setProc_ne _ _ hil]
      exact ⟨SameImage.refl _, hi⟩
  | pipe h1 => exact hset _ _ rfl
  | close h1 => exact hset _ _ rfl

/-! ## 4. Properties of every process -/

/-- **A property of address space and queue** that every call keeps: operations on memory for the
    process itself, fork for both processes. -/
structure ImageInv (Ok : Kernel → Nat → Op → Prop) (I : Proc → Prop) : Prop where
  image : ∀ {p p' : Proc}, SameImage p p' → I p → I p'
  mem : ∀ {k : Kernel} {i fuel : Nat} {op : MemOp} {o : Out} {m : Kmem} {p : Proc},
    Ok k i (.mem op) → I (k.proc i) →
    memStep cfg fuel k.kmem (k.proc i) op = .ok (o, m, p) → I p
  fork : ∀ {k : Kernel} {i fuel : Nat} {nodes : Nat → Nat} {m1 m2 : Kmem} {d : PgDir}
    {x : ForkState} {p' : Proc}, Ok k i .fork → I (k.proc i) →
    copyuvm cfg m1 (k.proc i).pgdir (k.proc i).sz = .ok (some d, m2) →
    forkNodes cfg fuel cfg.clockSize 0 ⟨m2, k.proc i, d, nodes⟩ = .ok x →
    p'.pgdir = x.d → p'.sz = x.cur.sz →
    p'.q = ⟨x.nodes, (k.proc i).q.inClock, toI ((k.proc i).q.currInd + 3)⟩ → I x.cur ∧ I p'

/-- The property holds for every process in use. -/
def EveryProc (I : Proc → Prop) (k : Kernel) : Prop :=
  ∀ i, (k.proc i).state ≠ .unused → I (k.proc i)

theorem EveryProc.setProc {k1 : Kernel} (h : EveryProc I k) (hk : k1.proc = k.proc) (i : Nat)
    (hp : p.state ≠ .unused → I p) : EveryProc I (k1.setProc i p) := by
  intro j hj
  by_cases hji : j = i
  · subst hji
    rw [Kernel.setProc_self] at hj ⊢
    exact hp hj
  · rw [Kernel.setProc_ne _ _ hji, hk] at hj ⊢
    exact h j hj

theorem Exited.every (hI : ∀ {p p' : Proc}, SameImage p p' → I p → I p') (he : Exited cfg k k' i)
    (hi : (k.proc i).state ≠ .unused) (h : EveryProc I k) : EveryProc I k' := by
  intro j hj
  refine hI (he.image j) (h j ?_)
  rw [he.state j] at hj
  by_cases hji : j = i
  · rw [hji]
    exact hi
  · rwa [if_neg hji] at hj

theorem ImageInv.step {Ok : Kernel → Nat → Op → Prop} (hI : ImageInv cfg Ok I)
    (hstate : ∀ {k : Kernel} {i fuel : Nat} {op : MemOp} {o : Out} {m : Kmem} {p : Proc},
      I (k.proc i) → memStep cfg fuel k.kmem (k.proc i) op = .ok (o, m, p) →
      p.state = (k.proc i).state)
     (h : EveryProc I k) (hok : Ok k i op)
    (hs : Xv6Clock.step cfg fuel k i op = .ok (o, k')) : EveryProc I k' := by
  obtain ⟨-, hrun, hst⟩ := step_cases cfg hs
  have hused : (k.proc i).state ≠ .unused := by
    rw [hrun]
    decide
  have hi := h i hused
  cases hst with
  | mem hout h1 => exact h.setProc rfl i fun _ => hI.mem hok hi h1
  | killed h1 he =>
    refine he.every cfg hI.image ?_ (h.setProc rfl i fun _ => hI.mem hok hi h1)
    rw [Kernel.setProc_self, hstate hi h1]
    exact hused
  | fork h1 =>
    have hdead : ∀ {k1 : Kernel} {j : Nat} {p : Proc}, p.state = .unused →
        k1.proc = Function.update k.proc j p → EveryProc I k1 := by
      intro k1 j p hp hk l hl
      rw [hk] at hl ⊢
      by_cases hlj : l = j
      · subst hlj
        rw [Function.update_self, hp] at hl
        exact absurd rfl hl
      · rw [Function.update_of_ne hlj] at hl ⊢
        exact h l hl
    cases h1 with
    | full => exact h
    | noStack hj => exact hdead (p := { k.proc _ with
        pid := k.nextpid, q := { (k.proc _).q with inClock := 0 }, kstack := 0 }) hj rfl
    | noCopy hj => exact hdead (p := { k.proc _ with
        pid := k.nextpid, q := { (k.proc _).q with inClock := 0 }, kstack := 0 }) hj rfl
    | @child j f m1 m2 d x t o hn hj hf hc hx hd =>
      intro l hl
      simp only at hl ⊢
      by_cases hlj : l = j
      · subst hlj
        rw [Function.update_self]
        refine And.right (a := I x.cur) (hI.fork hok hi hc hx ?_ ?_ ?_) <;> rfl
      · rw [Function.update_of_ne hlj] at hl ⊢
        by_cases hli : l = i
        · subst hli
          rw [Function.update_self]
          let p : Proc := { x.cur with
            pgdir := x.d, q := ⟨x.nodes, (k.proc l).q.inClock, toI ((k.proc l).q.currInd + 3)⟩ }
          exact And.left (b := I p) (hI.fork hok hi hc hx rfl rfl rfl)
        · rw [Function.update_of_ne hli] at hl ⊢
          exact h l hl
  | exit he => exact he.every cfg hI.image hused h
  | wait h1 =>
    rcases wait_ok cfg h1 with rfl | ⟨j, m1, m2, p, -, -, -, -, -, hp, rfl⟩
    · exact h
    · exact h.setProc rfl j fun hc => absurd hp hc
  | pipe h1 => exact h.setProc rfl i fun _ => hI.image (p := k.proc i) ⟨rfl, rfl, rfl⟩ hi
  | close h1 => exact h.setProc rfl i fun _ => hI.image (p := k.proc i) ⟨rfl, rfl, rfl⟩ hi

end Xv6Clock
