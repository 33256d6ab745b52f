/-
  File:      Xv6Clock/Ownership.lean
  Subject:   Every frame of the allocator is in exactly one place.

  `places k f` counts where frame `f` is: on the free list, in the address space or as kernel stack
  of a process, in the kernel's own page directory, as stack of another processor, as a pipe. Every
  operation moves frames between these places and the count of each stays as it was.
-/
import Xv6Clock.Steps

namespace Xv6Clock

open Finset

variable (cfg : Config)

/-! ## 1. Places -/

/-- A process in use holds its address space and its kernel stack. -/
def procHolds (f : Frame) (p : Proc) : Nat :=
  if p.state = .unused then 0 else p.pgdir.holds f + one p.kstack f

variable {p : Proc} {i : Nat} {k k' : Kernel}

theorem procHolds_used (h : p.state ≠ .unused) (f : Frame) :
    procHolds f p = p.pgdir.holds f + one p.kstack f := if_neg h

theorem procHolds_unused (h : p.state = .unused) (f : Frame) : procHolds f p = 0 :=
  if_pos h

/-- What the process table holds. -/
def tableHolds (proc : Nat → Proc) (f : Frame) : Nat := ∑ i ∈ range nproc, procHolds f (proc i)

/-- **How many places hold frame `f`.** -/
def places (k : Kernel) (f : Frame) : Nat :=
  k.kmem.free f + tableHolds k.proc f + k.kpgdir.holds f + k.cpuStacks.count f + k.files.holds f

/-- **The account is in order**: a frame of the allocator is in one place and no other frame is in
    any; `kfree` never met a free frame; pipe ends and pipes agree; address spaces are sane. -/
structure Accounted (k : Kernel) : Prop where
  one : ∀ f, places k f = if managed cfg f then 1 else 0
  once : k.kmem.twice = false
  pipes : PipesOk k.files
  sane : EveryProc Sane k

/-- The table after entry `i` changed. -/
theorem tableHolds_update (proc : Nat → Proc) (hi : i < nproc) (p : Proc) (f : Frame) :
    tableHolds (Function.update proc i p) f + procHolds f (proc i) =
      tableHolds proc f + procHolds f p :=
  Lib.sum_update_entry (fun _ => procHolds f) proc hi p

theorem tableHolds_congr {proc proc' : Nat → Proc} {f : Frame}
    (h : ∀ i, procHolds f (proc' i) = procHolds f (proc i)) :
    tableHolds proc' f = tableHolds proc f := sum_congr rfl fun i _ => h i

section
variable (h : Accounted cfg k)
include h

theorem Accounted.le_one (f : Frame) : places k f ≤ 1 := by
  rw [h.one f]
  split <;> omega

/-- What a process in use and the free list hold together. -/
theorem Accounted.proc_le (hi : i < nproc) (hu : (k.proc i).state ≠ .unused) (f : Frame) :
    k.kmem.free f + ((k.proc i).pgdir.holds f + Xv6Clock.one (k.proc i).kstack f) ≤ 1 := by
  have h1 := h.le_one cfg f
  have h2 : procHolds f (k.proc i) ≤ tableHolds k.proc f :=
    Lib.le_sum (fun j => procHolds f (k.proc j)) hi
  rw [procHolds_used hu] at h2
  unfold places at h1
  omega

theorem Accounted.files_le (f : Frame) : k.kmem.free f + k.files.holds f ≤ 1 := by
  have h1 := h.le_one cfg f
  unfold places at h1
  omega

theorem Accounted.managed (hi : i < nproc) (hu : (k.proc i).state ≠ .unused) :
    AllManaged cfg k.kmem (k.proc i).pgdir := by
  intro f hf
  by_contra hn
  have h1 := h.one f
  have h2 : procHolds f (k.proc i) ≤ tableHolds k.proc f :=
    Lib.le_sum (fun j => procHolds f (k.proc j)) hi
  rw [if_neg hn] at h1
  rw [procHolds_used hu] at h2
  unfold places at h1
  omega

end

/-! ## 2. The steps -/

/-- The loop over the queue in a fork changes within the limits of `Deep`. -/
def ForkDeep (fuel : Nat) (p : Proc) : Prop :=
  ∀ {m1 m2 : Kmem} {d : PgDir} {nodes : Nat → Nat} {x : ForkState},
    copyuvm cfg m1 p.pgdir p.sz = .ok (some d, m2) →
    forkNodes cfg fuel cfg.clockSize 0 ⟨m2, p, d, nodes⟩ = .ok x → Deep m2 p d nodes x

section
variable (h : Accounted cfg k)
include h

/-- A step of a process on its own memory. -/
theorem Accounted.own {m : Kmem} (hi : i < nproc) (hu : (k.proc i).state ≠ .unused)
    (hs : ProcStep k.kmem (k.proc i) m p) : Accounted cfg ((k.setKmem m).setProc i p) := by
  have hle := h.proc_le cfg hi hu
  have hp : p.state ≠ .unused := by rwa [hs.state]
  refine ⟨fun f => ?_, ?_, h.pipes, h.sane.setProc rfl i fun _ => hs.sane⟩
  · rw [← h.one f]
    have e1 := tableHolds_update k.proc hi p f
    have e2 := hs.count f
    rw [procHolds_used hu, procHolds_used hp, hs.kstack] at e1
    change m.free f + tableHolds (Function.update k.proc i p) f + k.kpgdir.holds f +
      k.cpuStacks.count f + k.files.holds f = places k f
    unfold places
    omega
  · exact (hs.twice fun f => by have := hle f; omega).trans h.once

/-- Files and pipes change, and the descriptors of process `i`. -/
theorem Accounted.files (hs : FilesStep k.kmem k'.kmem k.files k'.files)
    (ht : ∀ f, tableHolds k'.proc f = tableHolds k.proc f) (hk : k'.kpgdir = k.kpgdir)
    (hc : k'.cpuStacks = k.cpuStacks) (hsane : EveryProc Sane k') : Accounted cfg k' := by
  refine ⟨fun f => ?_, (hs.twice (h.files_le cfg)).trans h.once, hs.ok, hsane⟩
  rw [← h.one f]
  have e1 := hs.count f
  have e2 := ht f
  unfold places
  rw [hk, hc]
  omega

theorem Accounted.exited (hu : (k.proc i).state ≠ .unused) (he : Exited cfg k k' i) :
    Accounted cfg k' := by
  obtain ⟨o, hc⟩ := he.closed
  refine h.files cfg (closeAll_ok cfg h.pipes hc).filesStep (fun f => tableHolds_congr fun j => ?_)
    he.kpgdir he.cpuStacks (he.every cfg (fun hi hp => hi.sane hp) hu h.sane)
  unfold procHolds
  rw [he.state j, he.kstack j, (he.image j).pgdir]
  by_cases hj : j = i
  · rw [if_pos hj, hj, if_neg hu, if_neg (by decide)]
  · rw [if_neg hj]

/-- A zombie's pages and kernel stack go back. -/
theorem Accounted.reaped {j : Nat} {m1 m2 : Kmem} (hj : j < nproc) (hz : (k.proc j).state = .zombie)
    (h1 : kfree cfg k.kmem (k.proc j).kstack = .ok m1) (h2 : freevm cfg ((k.proc j).vm m1) = .ok m2)
    (hp : p.state = .unused) : Accounted cfg ((k.setKmem m2).setProc j p) := by
  have hu : (k.proc j).state ≠ .unused := by
    rw [hz]
    decide
  have hle := h.proc_le cfg hj hu
  have hk := kfree_free h1
  obtain ⟨hf1, -, hf3⟩ := freevm_ok h2
  refine ⟨fun f => ?_, ?_, h.pipes, h.sane.setProc rfl j fun hc => absurd hp hc⟩
  · rw [← h.one f]
    have e1 := tableHolds_update k.proc hj p f
    have e2 := hk f
    have e3 : m2.free f = m1.free f + (k.proc j).pgdir.holds f := hf1 f
    rw [procHolds_used hu, procHolds_unused hp] at e1
    change m2.free f + tableHolds (Function.update k.proc j p) f + k.kpgdir.holds f +
      k.cpuStacks.count f + k.files.holds f = places k f
    unfold places
    omega
  · have e1 := hle (k.proc j).kstack
    rw [one_self] at e1
    have e2 : m2.twice = m1.twice := hf3 fun f => by
      have e3 := hle f
      have e4 := hk f
      change m1.free f + (k.proc j).pgdir.holds f ≤ 1
      omega
    exact (e2.trans (kfree_twice h1 (by omega))).trans h.once

/-- An entry of the table that stays unused. -/
theorem Accounted.dead {j : Nat} (hj : (k.proc j).state = .unused) (hp : p.state = .unused)
    (hm : ∀ f, k'.kmem.free f = k.kmem.free f) (ht : k'.kmem.twice = k.kmem.twice)
    (hproc : k'.proc = Function.update k.proc j p) (hf : k'.files = k.files)
    (hk : k'.kpgdir = k.kpgdir) (hc : k'.cpuStacks = k.cpuStacks) : Accounted cfg k' := by
  refine ⟨fun f => ?_, ht.trans h.once, by rw [hf]; exact h.pipes, fun i hi => ?_⟩
  · rw [← h.one f]
    have e : tableHolds k'.proc f = tableHolds k.proc f := by
      refine tableHolds_congr fun i => ?_
      rw [hproc]
      by_cases hij : i = j
      · rw [hij, Function.update_self, procHolds_unused hp, procHolds_unused hj]
      · rw [Function.update_of_ne hij]
    unfold places
    rw [hm f, e, hf, hk, hc]
  · rw [hproc] at hi ⊢
    by_cases hij : i = j
    · rw [hij, Function.update_self, hp] at hi
      exact absurd rfl hi
    · rw [Function.update_of_ne hij] at hi ⊢
      exact h.sane i hi

/-- **`fork`**: a child takes its frames from the free list; a failed fork gives back what it
    took. -/
theorem Accounted.forked {fuel : Nat} {r : Int} (hrun : (k.proc i).state = .runnable)
    (hdeep : ForkDeep cfg fuel (k.proc i)) (hs : Forked cfg fuel k i r k') : Accounted cfg k' := by
  have hui : (k.proc i).state ≠ .unused := by
    rw [hrun]
    decide
  have hsane := h.sane i hui
  have hfree : ∀ f, k.kmem.free f ≤ 1 := fun f => by
    have := h.files_le cfg f
    omega
  cases hs with
  | full => exact h
  | @noStack j hj =>
    exact h.dead cfg (p := { k.proc j with
      pid := k.nextpid, q := { (k.proc j).q with inClock := 0 }, kstack := 0 }) hj hj
      (fun _ => rfl) rfl rfl rfl rfl rfl
  | @noCopy j f m1 m2 m3 hj hf hc hk =>
    have e1 := kalloc_free hf
    have e3 := kfree_free hk
    rcases copyuvm_ok (Nat.le_of_lt hsane.size) hc with ⟨-, hr⟩ | ⟨d, hd, -⟩
    · refine h.dead cfg (p := { k.proc j with
        pid := k.nextpid, q := { (k.proc j).q with inClock := 0 }, kstack := 0 }) hj hj
        (fun g => ?_) ?_ rfl rfl rfl rfl
      · have e2 := hr.free g
        have e4 := e1 g
        have e5 := e3 g
        change m3.free g = k.kmem.free g
        omega
      · have e4 := e1 f
        rw [one_self] at e4
        have e5 := hfree f
        have e6 := hr.free f
        have e7 : m2.twice = m1.twice := hr.twice fun g => by
          have := e1 g
          have := hfree g
          omega
        exact ((kfree_twice hk (by omega)).trans e7).trans (kalloc_some hf).2.2
    · cases hd
  | @child j f m1 m2 d x t o hn hj hf hc hx hd =>
    have e1 := kalloc_free hf
    have hx' := hdeep hc hx
    rcases copyuvm_ok (Nat.le_of_lt hsane.size) hc with ⟨hnone, -⟩ | ⟨d1, hd1, hcop⟩
    · cases hnone
    cases hd1
    obtain ⟨hp1, hp2⟩ := dupAll_ok h.pipes hd
    refine ⟨fun g => ?_, ?_, hp1, fun l hl => ?_⟩
    · rw [← h.one g]
      have e2 := hcop.took.count g
      have e3 := e1 g
      have e4 := hp2 g
      have e5 := hx'.holds g
      have e6 : Function.update k.proc i x.cur = k.proc := by
        rw [hx'.cur]
        exact Function.update_eq_self i k.proc
      have e7 := tableHolds_update k.proc hn { k.proc j with
        pid := k.nextpid, kstack := f, pgdir := x.d, sz := x.cur.sz, parent := some i
        q := ⟨x.nodes, (k.proc i).q.inClock, toI ((k.proc i).q.currInd + 3)⟩
        tf := { x.cur.tf with eax := 0 }, ofile := o, name := x.cur.name
        state := .runnable } g
      rw [procHolds_unused hj, procHolds_used (by simp)] at e7
      simp only at e7
      unfold places
      simp only [e6, hx'.m]
      omega
    · simp only [hx'.m]
      refine (hcop.took.twice fun g => ?_).trans ((kalloc_some hf).2.2.trans h.once)
      have := e1 g
      have := hfree g
      omega
    · simp only at hl ⊢
      by_cases hlj : l = j
      · rw [hlj, Function.update_self]
        exact ⟨hx'.high, by simp only [hx'.cur]; exact hsane.size⟩
      · rw [Function.update_of_ne hlj] at hl ⊢
        by_cases hli : l = i
        · rw [hli, Function.update_self, hx'.cur]
          exact hsane
        · rw [Function.update_of_ne hli] at hl ⊢
          exact h.sane l hl

/-- **One operation of any process.** -/
theorem Accounted.step {fuel : Nat} {op : Op} {o : Out}
    (hdeep : op = .fork → ForkDeep cfg fuel (k.proc i))
    (hs : Xv6Clock.step cfg fuel k i op = .ok (o, k')) : Accounted cfg k' := by
  obtain ⟨hi, hrun, hst⟩ := step_cases cfg hs
  have hu : (k.proc i).state ≠ .unused := by
    rw [hrun]
    decide
  have hsane := h.sane i hu
  have hsame : ∀ (t : Files) (m : Kmem) (o : Nat → Option Nat) (f : Frame),
      tableHolds (((k.setKmem m).setFiles t).setProc i { k.proc i with ofile := o }).proc f =
        tableHolds k.proc f := by
    intro t m o f
    refine tableHolds_congr fun j => ?_
    rw [Kernel.setProc_proc]
    by_cases hj : j = i
    · rw [if_pos hj, hj]
      rfl
    · rw [if_neg hj]
      rfl
  cases hst with
  | mem hout h1 => exact h.own cfg hi hu (memStep_step cfg hsane h1)
  | killed h1 he =>
    have hps := memStep_step cfg hsane h1
    refine (h.own cfg hi hu hps).exited cfg ?_ he
    rw [Kernel.setProc_self, hps.state]
    exact hu
  | fork h1 => exact h.forked cfg hrun (hdeep rfl) h1
  | exit he => exact h.exited cfg hu he
  | wait h1 =>
    rcases wait_ok cfg h1 with rfl | ⟨j, m1, m2, p, hj, hz, h2, h3, -, hp, rfl⟩
    · exact h
    · exact h.reaped cfg hj hz h2 h3 hp
  | pipe h1 =>
    exact h.files cfg (sysPipe_ok cfg h.pipes (h.files_le cfg) h1) (hsame _ _ _) rfl rfl
      (h.sane.setProc rfl i fun _ => ⟨hsane.high, hsane.size⟩)
  | close h1 =>
    exact h.files cfg (sysClose_ok cfg h.pipes h1) (hsame _ _ _) rfl rfl
      (h.sane.setProc rfl i fun _ => ⟨hsane.high, hsane.size⟩)

end

end Xv6Clock
