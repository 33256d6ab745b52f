/-
  File:      Xv6Clock/Fork.lean
  Subject:   What `fork` can do (proc.c).

  `Forked` lists the ways `fork` returns. The deep copy of the queue looks every node up in both
  page tables; where every node is below the size, all these lookups succeed, the fix-up of PTE_P
  changes nothing, and the child's entries are the parent's.
-/
import Xv6Clock.Account
import Xv6Clock.Kernel

namespace Xv6Clock

variable (cfg : Config)

/-! ## 1. The deep copy -/

/-- Every node is looked up successfully in both page tables, and the child's page is present only
    if the parent's is. -/
structure Mirrors (x : ForkState) : Prop where
  parent : ∀ i, i < x.cur.q.inClock → x.cur.pgdir.tabAt (vpn (x.cur.q.nodes i)) = true
  child : ∀ i, i < x.cur.q.inClock → x.d.tabAt (vpn (x.cur.q.nodes i)) = true
  same : ∀ i, i < x.cur.q.inClock → has (x.d.pteAt (vpn (x.cur.q.nodes i))) pteP = true →
    has (x.cur.pgdir.pteAt (vpn (x.cur.q.nodes i))) pteP = true

variable {fuel i : Nat} {x : ForkState} {k : Kernel} {p : Proc} {d : PgDir} {nodes : Nat → Nat}

theorem forkNode_eq (h : Mirrors x) (hi : i < x.cur.q.inClock) :
    forkNode cfg fuel i x =
      .ok { x with nodes := Function.update x.nodes i (x.cur.q.nodes i) } := by
  unfold forkNode
  simp only [Function.update_self, PgDir.walk_of_tabAt (h.parent i hi),
    PgDir.walk_of_tabAt (h.child i hi), ForkState.loadParent, ForkState.loadChild, Lib.ok_bind]
  split
  · rfl
  · rename_i hp
    rw [if_pos]
    cases hc : has (x.d.pteAt (vpn (x.cur.q.nodes i))) pteP with
    | false => rfl
    | true => exact absurd (h.same i hi hc) hp

theorem forkNodes_eq {f r : Nat} : ∀ {i : Nat} {x : ForkState}, Mirrors x →
    forkNodes cfg f r i x =
      if x.cur.q.inClock ≤ i + r then .ok { x with nodes := fun j =>
        if i ≤ j ∧ j < x.cur.q.inClock then x.cur.q.nodes j else x.nodes j }
      else .error .refault := by
  induction r with
  | zero =>
    intro i x _
    unfold forkNodes
    rw [Nat.add_zero]
    split
    · rename_i hle
      have e : (fun j => if i ≤ j ∧ j < x.cur.q.inClock then x.cur.q.nodes j else x.nodes j) =
          x.nodes := funext fun j => if_neg (by omega)
      rw [e]
    · rfl
  | succ r ih =>
    intro i x h
    unfold forkNodes
    by_cases hle : x.cur.q.inClock ≤ i
    · have e : (fun j => if i ≤ j ∧ j < x.cur.q.inClock then x.cur.q.nodes j else x.nodes j) =
          x.nodes := funext fun j => if_neg (by omega)
      rw [if_pos hle, if_pos (by omega), e]
    have h1 : Mirrors { x with nodes := Function.update x.nodes i (x.cur.q.nodes i) } :=
      ⟨h.parent, h.child, h.same⟩
    rw [if_neg hle, forkNode_eq cfg h (by omega), Lib.ok_bind, ih h1]
    simp only [show i + 1 + r = i + (r + 1) by omega]
    have e : (fun j => if i + 1 ≤ j ∧ j < x.cur.q.inClock then x.cur.q.nodes j
          else Function.update x.nodes i (x.cur.q.nodes i) j) =
        fun j => if i ≤ j ∧ j < x.cur.q.inClock then x.cur.q.nodes j else x.nodes j := by
      funext j
      by_cases hj : j = i
      · subst hj
        rw [if_neg (by omega), if_pos (by omega), Function.update_self]
      · rw [Function.update_of_ne hj]
        by_cases h1 : i ≤ j ∧ j < x.cur.q.inClock
        · rw [if_pos h1, if_pos (by omega)]
        · rw [if_neg h1, if_neg (by omega)]
    rw [e]

/-! ## 2. The ways `fork` returns -/

/-- **Everything `fork` by process `i` can do**: no entry of the table, no page for the kernel
    stack, no memory for the copy, or a child in entry `j`. -/
inductive Forked (fuel : Nat) (k : Kernel) (i : Nat) : Int → Kernel → Prop where
  | full : Forked fuel k i (-1) k
  | noStack {j : Nat} (hj : (k.proc j).state = .unused) : Forked fuel k i (-1)
      { k with
        nextpid := k.nextpid + 1
        proc := Function.update k.proc j { k.proc j with
          pid := k.nextpid, q := { (k.proc j).q with inClock := 0 }, kstack := 0 } }
  | noCopy {j : Nat} {f : Frame} {m1 m2 m3 : Kmem} (hj : (k.proc j).state = .unused)
      (hf : kalloc k.kmem = some (f, m1))
      (hc : copyuvm cfg m1 (k.proc i).pgdir (k.proc i).sz = .ok (none, m2))
      (hk : kfree cfg m2 f = .ok m3) : Forked fuel k i (-1)
      { k with
        kmem := m3
        nextpid := k.nextpid + 1
        proc := Function.update k.proc j { k.proc j with
          pid := k.nextpid, q := { (k.proc j).q with inClock := 0 }, kstack := 0 } }
  | child {j : Nat} {f : Frame} {m1 m2 : Kmem} {d : PgDir} {x : ForkState} {t : Files}
      {o : Nat → Option Nat} (hn : j < nproc) (hj : (k.proc j).state = .unused)
      (hf : kalloc k.kmem = some (f, m1))
      (hc : copyuvm cfg m1 (k.proc i).pgdir (k.proc i).sz = .ok (some d, m2))
      (hx : forkNodes cfg fuel cfg.clockSize 0 ⟨m2, k.proc i, d, (k.proc j).q.nodes⟩ = .ok x)
      (hd : dupAll nofile k.files x.cur.ofile (k.proc j).ofile = .ok (t, o)) :
      Forked fuel k i (toI k.nextpid)
      { k with
        kmem := x.m
        files := t
        nextpid := k.nextpid + 1
        proc := Function.update (Function.update k.proc i x.cur) j { k.proc j with
          pid := k.nextpid, kstack := f, pgdir := x.d, sz := x.cur.sz, parent := some i
          q := ⟨x.nodes, (k.proc i).q.inClock, toI ((k.proc i).q.currInd + 3)⟩
          tf := { x.cur.tf with eax := 0 }, ofile := o, name := x.cur.name
          state := .runnable } }

theorem findUnused_some {j : Nat} (h : findUnused k = some j) :
    j < nproc ∧ (k.proc j).state = .unused := by
  unfold findUnused at h
  exact ⟨List.mem_range.mp (List.mem_of_find?_eq_some h), by simpa using List.find?_some h⟩

theorem fork_ok {k' : Kernel} {r : Int} (hi : (k.proc i).state ≠ .unused)
    (h : fork cfg fuel k i = .ok (r, k')) : Forked cfg fuel k i r k' := by
  unfold fork allocproc at h
  cases hu : findUnused k with
  | none =>
    simp only [hu] at h
    cases h
    exact .full
  | some j =>
    obtain ⟨hn, hj⟩ := findUnused_some hu
    have hij : i ≠ j := by
      rintro rfl
      exact hi hj
    simp only [hu, Kernel.setProc_kmem] at h
    cases hf : kalloc k.kmem with
    | none =>
      simp only [hf] at h
      cases h
      have h1 : Forked cfg fuel k i (-1) _ := .noStack hj
      simpa [Kernel.setProc, Function.update_idem, hj] using h1
    | some x =>
      obtain ⟨f, m1⟩ := x
      simp only [hf] at h
      obtain ⟨⟨d, m2⟩, h1, h2⟩ := Lib.bind_eq_ok.mp h
      simp only [Kernel.setProc, Kernel.setKmem, Function.update_self,
        Function.update_of_ne hij] at h1 h2
      cases d with
      | none =>
        obtain ⟨m3, h3, h4⟩ := Lib.bind_eq_ok.mp h2
        cases h4
        have h5 : Forked cfg fuel k i (-1) _ := .noCopy hj hf h1 h3
        simpa [Function.update_idem, hj] using h5
      | some d =>
        obtain ⟨x, h3, h4⟩ := Lib.bind_eq_ok.mp h2
        obtain ⟨⟨t, o⟩, h5, h6⟩ := Lib.bind_eq_ok.mp h4
        simp only [Except.ok.injEq, Prod.mk.injEq] at h6
        obtain ⟨rfl, rfl⟩ := h6
        have h7 := Forked.child hn hj hf h1 h3 h5
        simpa [Kernel.setFiles, Function.update_idem, Function.update_comm hij] using h7

/-! ## 3. Nodes below the size -/

theorem vpn_lt_pages {a sz : Nat} (ha : a < sz) : vpn a < pages sz := by
  unfold vpn pages
  omega

/-- Every queued address is below the size. -/
def QueueLow (p : Proc) : Prop := ∀ a, a ∈ p.q.entries → a < p.sz

theorem Copied.mirrors {m m' : Kmem} (nodes : Nat → Nat) (h : Copied m m' p.pgdir d (pages p.sz))
    (hl : QueueLow p) : Mirrors ⟨m', p, d, nodes⟩ := by
  have hv : ∀ i, i < p.q.inClock → vpn (p.q.nodes i) < pages p.sz := fun i hi =>
    vpn_lt_pages (hl _ (Lib.mem_front.mpr ⟨i, hi, rfl⟩))
  refine ⟨fun i hi => PgDir.tabAt_of_mapped (h.src _ (hv i hi)), fun i hi => ?_, fun i hi h1 => ?_⟩
  · obtain ⟨f, h1, -⟩ := h.pte _ (hv i hi)
    refine PgDir.tabAt_of_mapped ?_
    rw [show ForkState.d _ = d from rfl, h1]
    exact mapped_copyEntry f (h.src _ (hv i hi))
  · obtain ⟨f, h2, -⟩ := h.pte _ (hv i hi)
    rw [show ForkState.d _ = d from rfl, h2, has_copyEntry f (h.src _ (hv i hi)) (by decide)] at h1
    exact h1

/-- **With every node below the size the deep copy only copies.** -/
theorem forkNodes_low {m1 m2 : Kmem} (hs : p.sz < kernBase) (hl : QueueLow p)
    (hc : copyuvm cfg m1 p.pgdir p.sz = .ok (some d, m2))
    (hx : forkNodes cfg fuel cfg.clockSize 0 ⟨m2, p, d, nodes⟩ = .ok x) :
    Copied m1 m2 p.pgdir d (pages p.sz) ∧
      x = ⟨m2, p, d, fun j => if j < p.q.inClock then p.q.nodes j else nodes j⟩ := by
  rcases copyuvm_ok (Nat.le_of_lt hs) hc with ⟨h1, -⟩ | ⟨d1, h1, h2⟩
  · cases h1
  · cases h1
    refine ⟨h2, ?_⟩
    rw [forkNodes_eq cfg (h2.mirrors _ hl)] at hx
    split at hx
    · cases hx
      simp
    · cases hx

/-- **The child of process `i` in entry `j`**, where the deep copy only copied. -/
structure Born (k k' : Kernel) (i j : Nat) (f : Frame) (m1 : Kmem) (d : PgDir) : Prop where
  stack : kalloc k.kmem = some (f, m1)
  copied : Copied m1 k'.kmem (k.proc i).pgdir d (pages (k.proc i).sz)
  parent : k'.proc i = k.proc i
  pgdir : (k'.proc j).pgdir = d
  size : (k'.proc j).sz = (k.proc i).sz
  queue : (k'.proc j).q = ⟨fun l => if l < (k.proc i).q.inClock then (k.proc i).q.nodes l
    else (k.proc j).q.nodes l, (k.proc i).q.inClock, toI ((k.proc i).q.currInd + 3)⟩

/-- An entry that was unused and is runnable after the fork is the child's. -/
theorem Forked.born {k' : Kernel} {j : Nat} {r : Int} (h : Forked cfg fuel k i r k')
    (hi : (k.proc i).state = .runnable) (hs : (k.proc i).sz < kernBase) (hl : QueueLow (k.proc i))
    (hj : (k.proc j).state = .unused) (hr : (k'.proc j).state = .runnable) :
    ∃ f m1 d, Born k k' i j f m1 d := by
  -- an entry that was not taken is still unused
  have hdead : ∀ {l : Nat} {p : Proc}, (k.proc l).state = .unused → p.state = (k.proc l).state →
      (Function.update k.proc l p j).state ≠ .runnable := by
    intro l p hl h2 h3
    by_cases hlj : j = l
    · rw [hlj, Function.update_self, h2, hl] at h3
      cases h3
    · rw [Function.update_of_ne hlj, hj] at h3
      cases h3
  have hij : j ≠ i := by
    rintro rfl
    rw [hi] at hj
    cases hj
  cases h with
  | full =>
    rw [hj] at hr
    cases hr
  | noStack hl => exact absurd hr (hdead hl rfl)
  | noCopy hl => exact absurd hr (hdead hl rfl)
  | @child l f m1 m2 d x t o hn hu hf hc hx hd =>
    obtain ⟨hcop, rfl⟩ := forkNodes_low cfg hs hl hc hx
    simp only at hr
    obtain rfl : j = l := by
      by_contra hlj
      rw [Function.update_of_ne hlj, Function.update_of_ne hij, hj] at hr
      cases hr
    refine ⟨f, m1, d, hf, hcop, ?_, ?_, ?_, ?_⟩
    · simp only [Function.update_of_ne hij.symm, Function.update_self]
    · simp only [Function.update_self]
    · simp only [Function.update_self]
    · simp only [Function.update_self]

/-- **What the deep copy keeps**: allocator and parent as they are, the child's page table below
    KERNBASE and its page-table pages, and the parent's nodes. -/
structure Deep (m : Kmem) (p : Proc) (d : PgDir) (nodes : Nat → Nat) (x : ForkState) : Prop where
  m : x.m = m
  cur : x.cur = p
  pte : ∀ u, u < 2 ^ 19 → x.d.pteAt u = d.pteAt u
  high : KernHigh x.d
  tab : ∀ u, x.d.tabAt u = d.tabAt u
  holds : ∀ f, x.d.holds f = d.holds f
  nodes : x.nodes = fun j => if j < p.q.inClock then p.q.nodes j else nodes j

theorem deep_of_low {m1 m2 : Kmem} (hs : p.sz < kernBase) (hl : QueueLow p)
    (hc : copyuvm cfg m1 p.pgdir p.sz = .ok (some d, m2))
    (hx : forkNodes cfg fuel cfg.clockSize 0 ⟨m2, p, d, nodes⟩ = .ok x) : Deep m2 p d nodes x := by
  obtain ⟨h1, rfl⟩ := forkNodes_low cfg hs hl hc hx
  exact ⟨rfl, rfl, fun _ _ => rfl, h1.high, fun _ => rfl, fun _ => rfl, rfl⟩

/-- When the child's `currInd` fits the copied queue: the queue is empty, or full (and three more
    places can be counted). -/
def ForkOk (q : ClockQ) : Prop :=
  q.inClock = 0 ∨ q.inClock = cfg.clockSize ∧ q.currInd + 3 + cfg.clockSize < 2 ^ 31

theorem ForkOk.wf {q : ClockQ} (h : ForkOk cfg q) (hq : ClockWf cfg q) :
    ClockWf cfg ⟨nodes, q.inClock, toI (q.currInd + 3)⟩ := by
  rcases h with h0 | ⟨h0, h1⟩
  · exact ClockWf.empty cfg h0
  · obtain ⟨h2, h3⟩ := hq.hand h0
    refine ⟨hq.le, fun _ h4 => ?_, fun _ => ?_⟩
    · simp only at h4
      omega
    · have e : toI (q.currInd + 3) = q.currInd + 3 := toI_of_bounds (by omega) (by omega)
      simp only [e]
      omega

theorem QueueOk.queueLow (h : QueueOk cfg p) : QueueLow p := fun a ha => (h.low a ha).2

/-- The entries of the child's queue. -/
theorem entries_copied (q : ClockQ) (nodes : Nat → Nat) (c : Int) :
    ClockQ.entries ⟨fun j => if j < q.inClock then q.nodes j else nodes j, q.inClock, c⟩ =
      q.entries :=
  Lib.front_congr fun _ hi => if_pos hi

/-- **The child's queue is in order** when the parent's is and `currInd` fits. -/
theorem Copied.queue {m m' : Kmem} {p' : Proc}
    (h : Copied m m' p.pgdir d (pages p.sz)) (hq : QueueOk cfg p) (hf : ForkOk cfg p.q)
    (hd : p'.pgdir = d) (hz : p'.sz = p.sz)
    (hqq : p'.q = ⟨fun j => if j < p.q.inClock then p.q.nodes j else nodes j, p.q.inClock,
      toI (p.q.currInd + 3)⟩) : QueueOk cfg p' := by
  refine ⟨⟨hd ▸ h.high, hz ▸ hq.sane.size⟩, fun u hu => ?_, ?_, fun a ha => ?_⟩
  · rw [hd, hz]
    by_cases h1 : u < pages p.sz
    · obtain ⟨f, h2, -⟩ := h.pte u h1
      refine Or.inr ⟨?_, h1⟩
      rw [h2]
      exact mapped_copyEntry f (h.src u h1)
    · exact Or.inl (h.rest u (by omega) hu)
  · rw [hqq]
    exact hf.wf cfg hq.wf
  · rw [hqq, entries_copied] at ha
    rw [hz]
    exact hq.low a ha

end Xv6Clock
