/-
  File:      Xv6Clock/ForkClock.lean
  Subject:   Does fork (proc.c) clone the clock queue?

  Fork copies the entries of the queue and their number, and then sets the child's hand three places
  further than the parent's. An empty queue has no hand (the first page that comes in sets it), so
  there parent and child do the same from then on. Any other queue of the child is out of step: a
  queue that fills is written to beside its entries, a full one is scanned from another entry.
-/
import Xv6Clock.Twins
import Xv6Clock.ForkRoom
import Xv6Clock.FrameOwner

namespace Xv6Clock

variable (cfg : Config)

/-! ## 1. What happens after the fork -/

/-- What is done to a process. -/
inductive Beat where
  /-- User code accesses address `va`; an access that faults is made again by a later beat. -/
  | touch (va : Word)
  /-- The reference bit of the page of `va` is set or cleared. -/
  | ref (va : Word) (b : Bool)

/-- The address it is done to. -/
def Beat.addr : Beat → Nat
  | .touch va => va.toNat
  | .ref va _ => va.toNat

/-- The page of `va` with its reference bit cleared. -/
def Proc.untouch (p : Proc) (va : Nat) : Proc :=
  { p with pgdir := p.pgdir.store (vpn va) (clearRef (p.pgdir.pteAt (vpn va))) }

def beat (m : Kmem) (p : Proc) : Beat → Except Err (Out × Kmem × Proc)
  | .touch va => userRead cfg m p va.toNat
  | .ref va b => .ok (.done, m, if b then p.touch va.toNat else p.untouch va.toNat)

/-- The pages that were encrypted from one state of a process to the next. -/
def evictedPages (p p' : Proc) : List Nat :=
  (List.range (pages p.sz)).filter fun u =>
    !has (p.pgdir.pteAt u) pteE && has (p'.pgdir.pteAt u) pteE

/-- **A sequence of beats**: the pages evicted in each of them, and the state they lead to. A
    process that is killed does nothing more. -/
def beats : List Beat → Kmem → Proc → Except Err (List (List Nat) × Kmem × Proc)
  | [], m, p => .ok ([], m, p)
  | b :: bs, m, p => do
    let (o, m1, p1) ← beat cfg m p b
    if o = .killed then .ok ([evictedPages p p1], m1, p1) else do
    let (ev, m2, p2) ← beats bs m1 p1
    .ok (evictedPages p p1 :: ev, m2, p2)

/-! ## 2. The property -/

/-- **The same queue**: entries, their order on the clock, and the slot under the hand of a queue
    that is not empty. -/
structure SameClock (q r : ClockQ) : Prop where
  count : r.inClock = q.inClock
  entries : r.entries = q.entries
  order : clockOrder cfg r = clockOrder cfg q
  hand : 0 < q.inClock → sweepInd cfg r 0 = sweepInd cfg q 0

/-- **Fork has cloned the clock** of process `p` for child `c`: the same beats, applied to each of
    them, evict the same pages in the same order and lead to the same queue. -/
def ClonesClock (m : Kmem) (p c : Proc) : Prop :=
  ∀ bs : List Beat, (∀ b ∈ bs, b.addr < p.sz) → ∃ ev m1 p1 m2 c1,
    beats cfg bs m p = .ok (ev, m1, p1) ∧ beats cfg bs m c = .ok (ev, m2, c1) ∧
    SameClock cfg p1.q c1.q

/-! ## 3. Processes in step -/

/-- Two processes whose address spaces and queues are the same up to frames. -/
structure InStep (n : Nat) (m : Kmem) (p : Proc) (m' : Kmem) (c : Proc) : Prop where
  vm : Twin n (p.vm m) (c.vm m')
  queue : QTwin cfg n p.q c.q
  size : pages p.sz = n
  child : pages c.sz = n

section
variable {cfg} {n : Nat} {m m' : Kmem} {p c : Proc}

theorem QTwin.sameClock {q r : ClockQ} (h : QTwin cfg n q r) : SameClock cfg q r := by
  refine ⟨h.count, h.entries, ?_, fun h0 => h.ind h0 0⟩
  unfold clockOrder
  rw [h.count, h.entries]
  split
  · rfl
  · rename_i hge
    have hfull : q.inClock = cfg.clockSize := by
      have := h.wf.le
      omega
    refine List.map_congr_left fun i _ => ?_
    have := sweepSlot_lt cfg q i
    rw [h.slot (pos_of_full hfull), h.nodes _ (by omega)]

/-- The same pages are evicted. -/
theorem InStep.evicted {m1 m1' : Kmem} {p1 c1 : Proc} (h : InStep cfg n m p m' c)
    (h1 : InStep cfg n m1 p1 m1' c1) : evictedPages c c1 = evictedPages p p1 := by
  unfold evictedPages
  rw [h.size, h.child]
  refine List.filter_congr fun u hu => ?_
  have hu := List.mem_range.mp hu
  have e0 : has (c.pgdir.pteAt u) pteE = has (p.pgdir.pteAt u) pteE := h.vm.flags u hu _ (by decide)
  have e1 : has (c1.pgdir.pteAt u) pteE = has (p1.pgdir.pteAt u) pteE :=
    h1.vm.flags u hu _ (by decide)
  rw [e0, e1]

/-- One access. -/
theorem InStep.read (h : InStep cfg n m p m' c) {va : Nat} (hv : vpn va < n) :
    ∃ o m1 p1 m1' c1, userRead cfg m p va = .ok (o, m1, p1) ∧
      userRead cfg m' c va = .ok (o, m1', c1) ∧ InStep cfg n m1 p1 m1' c1 := by
  have hflag : ∀ x, IsFlags x →
      has (c.pgdir.pteAt (vpn va)) x = has (p.pgdir.pteAt (vpn va)) x := h.vm.flags _ hv
  have hreach : c.reaches va = p.reaches va := by
    unfold Proc.reaches
    rw [hflag _ (by decide), hflag _ (by decide)]
  have hbytes : m'.mem (c.frameOf va) = m.mem (p.frameOf va) := h.vm.bytes _ hv
  unfold userRead
  rw [hreach]
  cases hr : p.reaches va with
  | true =>
    rw [hbytes]
    refine ⟨_, _, _, _, _, rfl, rfl, ?_⟩
    exact ⟨h.vm.setRef hv, h.queue, h.size, h.child⟩
  | false =>
    obtain ⟨x, s', q', t', r', h1, h2, h3, h4⟩ := h.vm.mdecrypt h.queue hv
    simp only [Bool.false_eq_true, if_false, userFault, pageFault, h1, h2, Lib.ok_bind]
    by_cases hx : x = 0
    · simp only [if_pos hx]
      refine ⟨_, _, _, _, _, rfl, rfl, ?_⟩
      exact ⟨h3, h4, h.size, h.child⟩
    · simp only [if_neg hx]
      refine ⟨_, _, _, _, _, rfl, rfl, ?_⟩
      exact ⟨h3, h4, h.size, h.child⟩

theorem InStep.beat (h : InStep cfg n m p m' c) {b : Beat} (hb : vpn b.addr < n) :
    ∃ o m1 p1 m1' c1, Xv6Clock.beat cfg m p b = .ok (o, m1, p1) ∧
      Xv6Clock.beat cfg m' c b = .ok (o, m1', c1) ∧ InStep cfg n m1 p1 m1' c1 := by
  cases b with
  | touch va => exact h.read hb
  | ref va b =>
    refine ⟨_, _, _, _, _, rfl, rfl, ?_⟩
    cases b with
    | true => exact ⟨h.vm.setRef hb, h.queue, h.size, h.child⟩
    | false => exact ⟨h.vm.clearRef hb, h.queue, h.size, h.child⟩

/-- **Processes in step stay in step.** -/
theorem InStep.beats {bs : List Beat} : ∀ {m m' : Kmem} {p c : Proc}, InStep cfg n m p m' c →
    (∀ b ∈ bs, vpn b.addr < n) → ∃ ev m1 p1 m1' c1, Xv6Clock.beats cfg bs m p = .ok (ev, m1, p1) ∧
      Xv6Clock.beats cfg bs m' c = .ok (ev, m1', c1) ∧ InStep cfg n m1 p1 m1' c1 := by
  induction bs with
  | nil => exact fun h _ => ⟨_, _, _, _, _, rfl, rfl, h⟩
  | cons b bs ih =>
    intro m m' p c h hb
    obtain ⟨o, m1, p1, m1', c1, h1, h2, h3⟩ := h.beat (hb b List.mem_cons_self)
    obtain ⟨ev, m2, p2, m2', c2, h4, h5, h6⟩ := ih h3 fun b hm => hb b (List.mem_cons_of_mem _ hm)
    simp only [Xv6Clock.beats, h1, h2, Lib.ok_bind, h.evicted h3]
    split
    · exact ⟨_, _, _, _, _, rfl, rfl, h3⟩
    · rw [h4, h5]
      exact ⟨_, _, _, _, _, rfl, rfl, h6⟩

/-- Processes in step have the same clock. -/
theorem InStep.clones (h : InStep cfg n m p m c) : ClonesClock cfg m p c := by
  intro bs hbs
  obtain ⟨ev, m1, p1, m2, c1, h1, h2, h3⟩ := h.beats fun b hb => by
    rw [← h.size]
    exact vpn_lt_pages (hbs b hb)
  exact ⟨ev, m1, p1, m2, c1, h1, h2, h3.queue.sameClock⟩

/-! ## 4. After a fork -/

/-- Parent and child of a fork have the same pages. -/
theorem Copied.twin {m0 m1 m2 : Kmem} {d : PgDir} {f : Frame}
    (hc : Copied m1 m2 p.pgdir d (pages p.sz)) (hf : kalloc m0 = some (f, m1))
    (hone : ∀ g, m0.free g + p.pgdir.holds g ≤ 1) (hsz : p.sz < kernBase) (hd : c.pgdir = d) :
    Twin (pages p.sz) (p.vm m2) (c.vm m2) := by
  have hlow := pages_le hsz
  have hle : ∀ g, m1.free g + p.pgdir.holds g ≤ 1 := fun g => by
    have := hone g
    have := kalloc_free hf g
    omega
  have hfree : ∀ u, u < pages p.sz → m1.free (pteFrame (p.pgdir.pteAt u)) = 0 := fun u hu => by
    have h1 := hle (pteFrame (p.pgdir.pteAt u))
    have h2 := PgDir.one_le_holds (hc.src u hu) (by omega)
    omega
  refine ⟨fun u hu x hx => ?_, fun u hu => ?_, hc.src, hlow, fun g => ?_, fun g => ?_⟩
  · obtain ⟨g, hg, -⟩ := hc.pte u hu
    rw [Proc.vm_pd, Proc.vm_pd, hd, hg, has_copyEntry g (hc.src u hu) hx]
  · rw [Proc.vm_pd, Proc.vm_pd, hd, Proc.vm_m, Proc.vm_m,
      hc.content (fun g => by have := hle g; omega) hfree u hu, hc.took.mem _ (hfree u hu)]
  · have := hle g
    rw [Proc.vm_pd]
    omega
  · have h1 := hle g
    have h2 := hc.took.count g
    rw [Proc.vm_pd, hd]
    omega

/-- Empty queues agree. -/
theorem QTwin.empty {q r : ClockQ} (hq : q.inClock = 0) (hr : r.inClock = 0) : QTwin cfg n q r :=
  ⟨hr.trans hq.symm, fun i hi => by omega, fun i hi => by omega, fun h0 => by omega,
    ClockWf.empty cfg hq⟩

end

theorem toI_mod_eight (z : Int) : (toI z - z) % 8 = 0 := by
  unfold toI
  rw [Int.bmod_def]
  split <;> omega

/-- The hand three places on is over another slot, on a clock of eight. -/
theorem hand_moves (hcs : cfg.clockSize = xv6.clockSize) {q r : ClockQ}
    (h : r.currInd = toI (q.currInd + 3)) : sweepInd cfg r 0 ≠ sweepInd cfg q 0 := by
  intro he
  unfold sweepInd at he
  rw [hcs, h] at he
  have h8 : ((xv6.clockSize : Nat) : Int) = 8 := rfl
  rw [h8] at he
  -- the slots would differ by three, up to multiples of eight
  have h1 := toI_mod_eight (q.currInd + 3)
  have h2 := toI_mod_eight ((0 : Nat) + toI (q.currInd + 3))
  have h3 := toI_mod_eight ((0 : Nat) + q.currInd)
  have h4 := Int.tmod_add_mul_tdiv (toI ((0 : Nat) + toI (q.currInd + 3))) 8
  have h5 := Int.tmod_add_mul_tdiv (toI ((0 : Nat) + q.currInd)) 8
  omega

/-- **When fork clones the clock**: for every process of every state of every run from boot whose
    operations keep inside the page tables, exactly if its queue is empty. -/
theorem clonesClock_iff (hcs : cfg.clockSize = xv6.clockSize) {ncpu : Nat} {code : List Byte}
    {k0 k k' : Kernel} {i j fuel : Nat} {r : Int} (hb : boot cfg ncpu code = .ok k0)
    (hrun : Run cfg OwnOk k0 k) (hi : i < nproc) (hstate : (k.proc i).state = .runnable)
    (hok : OwnOk k i .fork) (hfork : fork cfg fuel k i = .ok (r, k'))
    (hj : (k.proc j).state = .unused) (hchild : (k'.proc j).state = .runnable) :
    ClonesClock cfg k'.kmem (k'.proc i) (k'.proc j) ↔ (k.proc i).q.inClock = 0 := by
  have hacc := run_accounted cfg (boot_ok cfg hb).1 hrun
  have hu : (k.proc i).state ≠ .unused := by
    rw [hstate]
    decide
  have hsz := (hacc.sane i hu).size
  obtain ⟨f, m1, d, hborn⟩ := (fork_ok cfg hu hfork).born cfg hstate hsz hok hj hchild
  rw [hborn.parent]
  constructor
  · intro h
    obtain ⟨ev, m2, p2, m3, c3, h1, h2, h3⟩ := h [] nofun
    cases h1
    cases h2
    by_contra h0
    have hcur : (k'.proc j).q.currInd = toI ((k.proc i).q.currInd + 3) := by rw [hborn.queue]
    exact hand_moves cfg hcs hcur (h3.hand (by omega))
  · intro h0
    have htwin := hborn.copied.twin hborn.stack (fun g => ?_) hsz hborn.pgdir
    · have hq : (k'.proc j).q.inClock = 0 := by
        rw [hborn.queue]
        exact h0
      have hstep : InStep cfg (pages (k.proc i).sz) k'.kmem (k.proc i) k'.kmem (k'.proc j) :=
        ⟨htwin, .empty h0 hq, rfl, by rw [hborn.size]⟩
      exact hstep.clones
    · have := hacc.proc_le cfg hi hu g
      omega

/-- The first process forks. -/
theorem clonesClock_first : ∃ k0 k' r, boot xv6 0 [] = .ok k0 ∧
    fork xv6 0 k0 0 = .ok (r, k') ∧ ClonesClock xv6 k'.kmem (k'.proc 0) (k'.proc 1) := by
  obtain ⟨k0, k', r, hb, hfirst, hempty, hlow, hunused, hfork, hrun⟩ := boot_forks
  exact ⟨k0, k', r, hb, hfork, (clonesClock_iff xv6 rfl hb .start (by decide) hfirst.run hlow hfork
    hunused hrun).mpr hempty⟩

/-! ## 5. A queue that is not empty -/

/-- A process of two pages that has touched the first. -/
structure TwoPages (m : Kmem) (p : Proc) : Prop where
  sz : p.sz = 8192
  first : mapped (p.pgdir.pteAt 0) = true
  second : encrypted (p.pgdir.pteAt 1) = true
  absent : has (p.pgdir.pteAt 1) pteP = false
  byte : firstByte (p.vm m) 4096 ≠ 0#8
  node : p.q.nodes 0 = 0
  inClock : p.q.inClock = 1
  currInd : p.q.currInd = 1
  files : p.ofile = fun _ => none
  len : 90 ≤ m.freelist.length
  man : ∀ f, 1 ≤ m.free f → managed xv6 f
  one : ∀ f, m.free f + p.pgdir.holds f ≤ 1

/-- Growing an empty process by two pages and touching the first makes one. -/
theorem twoPages_touched : ∃ m0 p0 m p, growproc xv6 roomyKmem Proc.zero (8192#32).toInt =
    .ok (0, m0, p0) ∧ userRead xv6 m0 p0 0 = .ok (.again, m, p) ∧ TwoPages m p := by
  have h : Lib.okAnd (do
      let y ← growproc xv6 roomyKmem Proc.zero (8192#32).toInt
      let x ← userRead xv6 y.2.1 y.2.2 0
      .ok (y.1, x)) (fun x => x.1 == 0 && (x.2.1 == .again && (x.2.2.2.sz == 8192 &&
        (mapped (x.2.2.2.pgdir.pteAt 0) && (encrypted (x.2.2.2.pgdir.pteAt 1) &&
        (!has (x.2.2.2.pgdir.pteAt 1) pteP && (firstByte (x.2.2.2.vm x.2.2.1) 4096 != 0#8 &&
        (x.2.2.2.q.nodes 0 == 0 && (x.2.2.2.q.inClock == 1 && (x.2.2.2.q.currInd == 1 &&
        (Nat.ble 90 x.2.2.1.freelist.length &&
          x.2.2.1.freelist.all fun f => decide (managed xv6 f)))))))))))) = true := by
    decide +kernel
  obtain ⟨⟨r, o, m, p⟩, h1, h2⟩ := Lib.okAnd_iff.mp h
  obtain ⟨⟨r0, m0, p0⟩, h3, h4⟩ := Lib.bind_eq_ok.mp h1
  obtain ⟨x, h5, h6⟩ := Lib.bind_eq_ok.mp h4
  cases h6
  simp only [Bool.and_eq_true, Bool.not_eq_true', beq_iff_eq, bne_iff_ne, Nat.ble_eq,
    List.all_eq_true, decide_eq_true_eq] at h2
  obtain ⟨rfl, rfl, hsz, hfst, hsnd, habs, hbyte, hnode, hin, hcur, hlen, hman⟩ := h2
  have hg := (growproc_ok xv6 zero_sane (by decide) h3).step zero_sane
  have hr := memStep_step xv6 hg.sane (show memStep xv6 0 m0 p0 (.read 0) = _ from h5)
  refine ⟨m0, p0, m, p, h3, h5, hsz, hfst, hsnd, habs, hbyte, hnode, hin, hcur, ?_, hlen,
    fun f hf => hman f (List.count_pos_iff.mp hf), fun f => ?_⟩
  · rw [hr.ofile, hg.ofile]
    rfl
  · rw [hr.count, hg.count]
    exact roomyKmem_one f

/-- The process runs in entry 0 of an empty table. -/
def aloneKernel (m : Kmem) (p : Proc) : Kernel :=
  { freshKernel 0 with
    kmem := m
    proc := fun i => if i = 0 then { p with state := .runnable } else Proc.zero }

/-- A touch of the second page while the queue fills, with the hand at `c`. -/
theorem touch_second {m : Kmem} {p : Proc} {c : Nat} (he : encrypted (p.pgdir.pteAt 1) = true)
    (habs : has (p.pgdir.pteAt 1) pteP = false) (hb : firstByte (p.vm m) 4096 ≠ 0#8)
    (hin : p.q.inClock = 1) (hc : p.q.currInd = c) (hlt : c < xv6.clockSize) :
    ∃ ev m1 p1, beats xv6 [.touch 0x1000] m p = .ok (ev, m1, p1) ∧
      p1.q.inClock = 2 ∧ p1.q.nodes = Function.update p.q.nodes c 4096 := by
  have hva : (0x1000 : Word).toNat = 4096 := rfl
  have hreach : p.reaches 4096 = false := by
    change (has (p.pgdir.pteAt 1) pteP && _) = false
    rw [habs, Bool.false_and]
  have hi : nodeIndex xv6 (c : Int) = .ok c := by
    rw [nodeIndex, if_pos (by omega)]
    rfl
  have hins : ∀ s, clockInsert xv6 s p.q 4096 =
      .ok (s, ⟨Function.update p.q.nodes c 4096, 2, toI (c + 1)⟩) := fun s => by
    rw [clockInsert, if_neg (by omega), if_pos (by rw [hin]; decide), hc, hi, hin]
    rfl
  have hd : mdecrypt xv6 (p.vm m) p.q 4096 = .ok (0, (p.vm m).opened 1,
      ⟨Function.update p.q.nodes c 4096, 2, toI (c + 1)⟩) := by
    have hopen : mdecrypt xv6 (p.vm m) p.q 4096 = _ := mdecrypt_open xv6 he hb
    rw [hopen]
    exact congrArg (· >>= _) (hins _)
  simp only [beats, beat, hva, userRead, hreach, Bool.false_eq_true, if_false, userFault, pageFault,
    hd, Lib.ok_bind, if_true, reduceCtorEq]
  exact ⟨_, _, _, rfl, rfl, rfl⟩

/-- **The child's queue is out of step**: after a fork of a process that has touched its first
    page, both touch the second one. The parent's queue then holds the two pages; the child has
    written the second page beside its queue. -/
theorem forkedHand_strays : ∃ m p k' r, TwoPages m p ∧
    fork xv6 0 (aloneKernel m p) 0 = .ok (r, k') ∧
    (∃ ev m1 p1, beats xv6 [.touch 0x1000] k'.kmem (k'.proc 0) = .ok (ev, m1, p1) ∧
      p1.q.entries = [0, 4096]) ∧
    (∃ ev m1 c1, beats xv6 [.touch 0x1000] k'.kmem (k'.proc 1) = .ok (ev, m1, c1) ∧
      c1.q.entries = [0, 0]) ∧
    ¬ ClonesClock xv6 k'.kmem (k'.proc 0) (k'.proc 1) := by
  obtain ⟨-, -, m, p, -, -, hp⟩ := twoPages_touched
  have hpages : pages p.sz = 2 := by
    rw [hp.sz]
    decide
  have hsz : p.sz < kernBase := by
    rw [hp.sz]
    decide
  have hlow : QueueLow { p with state := .runnable } := fun a ha => by
    obtain ⟨l, hl, rfl⟩ := Lib.mem_front.mp ha
    obtain rfl : l = 0 := by
      have := hp.inClock
      simp only at hl
      omega
    simp only [hp.node, hp.sz]
    decide
  have hmap : ∀ u, u < pages p.sz → mapped (p.pgdir.pteAt u) = true := fun u hu => by
    have h2 : u = 0 ∨ u = 1 := by omega
    rcases h2 with rfl | rfl
    · exact hp.first
    · exact mapped_of_E (encrypted_iff.mp hp.second).1
  have hlen := hp.len
  obtain ⟨r, k', hfork, hrun⟩ := fork_room xv6 (k := aloneKernel m p) (i := 0) (j := 1) 0
    rfl (by decide) hsz hlow (by simp only [aloneKernel, if_true, hp.inClock]; decide) hp.files hmap
    hp.man (by
      change pages p.sz + pages p.sz / 1024 + 67 ≤ m.freelist.length
      omega)
  obtain ⟨f, m1, d, hborn⟩ := (fork_ok xv6 (by change ProcState.runnable ≠ _; decide)
    hfork).born xv6 rfl hsz hlow rfl hrun
  have htwin := hborn.copied.twin (p := p) hborn.stack hp.one hsz hborn.pgdir
  have hflags := htwin.flags 1 (by omega)
  have hfree : m1.free (pteFrame (p.pgdir.pteAt 1)) = 0 := by
    have h1 := hp.one (pteFrame (p.pgdir.pteAt 1))
    have h2 := PgDir.one_le_holds (hmap 1 (by omega)) (by decide)
    have h3 : m.free _ = m1.free (pteFrame (p.pgdir.pteAt 1)) + _ := kalloc_free hborn.stack _
    omega
  have hbyte : firstByte (p.vm k'.kmem) 4096 ≠ 0#8 := by
    have h1 : firstByte (p.vm k'.kmem) 4096 = firstByte (p.vm m) 4096 := by
      change k'.kmem.mem (pteFrame (p.pgdir.pteAt 1)) 0 = m.mem (pteFrame (p.pgdir.pteAt 1)) 0
      rw [hborn.copied.took.mem _ hfree, (kalloc_some hborn.stack).2.1]
      rfl
    rw [h1]
    exact hp.byte
  have hcur : toI ((1 : Int) + 3) = (4 : Nat) := by decide
  have hparent : ∃ ev m1 p1, beats xv6 [.touch 0x1000] k'.kmem (k'.proc 0) = .ok (ev, m1, p1) ∧
      p1.q.entries = [0, 4096] := by
    obtain ⟨ev, m2, p2, h1, h2, h3⟩ := touch_second (p := { p with state := .runnable }) hp.second
      hp.absent hbyte hp.inClock hp.currInd (by decide)
    rw [hborn.parent]
    refine ⟨ev, m2, p2, h1, ?_⟩
    rw [ClockQ.entries, h2, h3]
    simp [Lib.front, List.range_succ, hp.node]
  have hchild : ∃ ev m1 c1, beats xv6 [.touch 0x1000] k'.kmem (k'.proc 1) = .ok (ev, m1, c1) ∧
      c1.q.entries = [0, 0] := by
    have hq : (k'.proc 1).q = ⟨fun l => if l < p.q.inClock then p.q.nodes l else 0, p.q.inClock,
      toI (p.q.currInd + 3)⟩ := hborn.queue
    have hin : (k'.proc 1).q.inClock = 1 := by rw [hq, hp.inClock]
    have hc : (k'.proc 1).q.currInd = (4 : Nat) := by rw [hq, hp.currInd, hcur]
    obtain ⟨ev, m2, c2, h1, h2, h3⟩ := touch_second (p := k'.proc 1) (m := k'.kmem)
      (hflags.encrypted.trans hp.second) ((hflags _ (by decide)).trans hp.absent)
      (fun h0 => hbyte ((htwin.first (show vpn 4096 < _ by rw [hpages]; decide)).symm.trans h0))
      hin hc (by decide)
    refine ⟨ev, m2, c2, h1, ?_⟩
    rw [ClockQ.entries, h2, h3, hq]
    simp [Lib.front, List.range_succ, hp.node, hp.inClock]
  refine ⟨m, p, k', r, hp, hfork, hparent, hchild, fun h => ?_⟩
  obtain ⟨ev1, m2, p2, h1, h2⟩ := hparent
  obtain ⟨ev2, m3, c3, h3, h4⟩ := hchild
  obtain ⟨ev, m4, p4, m5, c5, h5, h6, h7⟩ := h [.touch 0x1000] fun b hb => by
    rw [List.mem_singleton.mp hb, hborn.parent]
    change 4096 < p.sz
    rw [hp.sz]
    decide
  rw [h1] at h5
  rw [h3] at h6
  cases h5
  cases h6
  have he := h7.entries
  rw [h2, h4] at he
  revert he
  decide

end Xv6Clock
