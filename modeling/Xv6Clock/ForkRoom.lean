/-
  File:      Xv6Clock/ForkRoom.lean
  Subject:   `copyuvm` succeeds when there is room, and what `fork`'s fix-up then does to a process
             with a stale node in its queue.
-/
import Xv6Clock.ForkExact
import Xv6Clock.Room
import Xv6Clock.Resize
import Xv6Clock.ShrinkOrder
import Xv6Clock.Handled

namespace Xv6Clock

variable (cfg : Config)

/-! ## 1. Room for a copy -/

/-- The loop of `copyuvm` with a frame for every page and page-table page. -/
theorem copyuvmLoop_room {D : Nat → Bool} {n : Nat} : ∀ {m m' : Kmem} {pd d : PgDir} {v sz : Nat}
    {r : Option PgDir}, sz < kernBase → (∀ u, v ≤ u → u < pages sz → D (u / 1024) = true) →
    pages sz - v + absent D d ≤ m.freelist.length →
    copyuvmLoop cfg n m pd d (v * 4096) sz = .ok (r, m') → r.isSome = true := by
  induction n with
  | zero =>
    intro m m' pd d v sz r _ _ _ h
    cases h
    rfl
  | succ n ih =>
    intro m m' pd d v sz r hk hD hroom h
    unfold copyuvmLoop at h
    split at h
    · cases h
      rfl
    have hv : v < pages sz := by
      unfold pages
      omega
    have hv19 := pages_le hk
    split at h
    · cases h
    split at h
    · cases h
    obtain ⟨f, m1, hka, hlen⟩ := kalloc_total (m := m) (by omega)
    simp only [hka] at h
    obtain ⟨⟨r1, s1⟩, h1, h2⟩ := Lib.bind_eq_ok.mp h
    have e : ∀ s pa perm, mappages s (v * 4096) pgSize pa perm =
        mappagesLoop 0 s (v * 4096) pa perm :=
      fun s pa perm => mappages_pages (n := 0) (by omega)
    rw [e] at h1
    obtain ⟨rfl, hsp⟩ := mappagesLoop_room (D := D) (by omega)
      (fun u h3 h4 => hD u h3 (by omega)) (by
        unfold Room
        simp only [Kmem.setPage_freelist]
        omega) h1
    have heq := hsp.eq
    simp only [Kmem.setPage_freelist] at heq
    dsimp only at h2
    rw [if_neg (by decide), vpn_addU (by omega)] at h2
    exact ih hk (fun u h3 h4 => hD u (by omega) h4) (by omega) h2

/-- **`copyuvm` succeeds** on mapped pages with enough free frames. -/
theorem copyuvm_room {m : Kmem} {pd : PgDir} {sz : Nat} (hk : sz < kernBase)
    (hmap : ∀ u, u < pages sz → mapped (pd.pteAt u) = true)
    (hman : ∀ f, 1 ≤ m.free f → managed cfg f)
    (hroom : pages sz + pages sz / 1024 + 66 ≤ m.freelist.length) :
    ∃ d m', copyuvm cfg m pd sz = .ok (some d, m') := by
  cases hc : copyuvm cfg m pd sz with
  | error e =>
    exfalso
    rcases copyuvm_error (Nat.le_of_lt hk) hc with ⟨u, hu, hm⟩ | ⟨f, h1, h2⟩
    · rw [hmap u hu] at hm
      cases hm
    · exact h2 (hman f h1)
  | ok x =>
    obtain ⟨r, m'⟩ := x
    unfold copyuvm at hc
    obtain ⟨d0, m1, h1, -, -, hlen⟩ := setupkvm_room cfg (m := m) (by omega)
    rw [h1, Lib.ok_bind] at hc
    have habs := absent_le (pages sz / 1024 + 1) d0
    have hr := copyuvmLoop_room cfg (D := fun d => decide (d < pages sz / 1024 + 1)) (v := 0) hk
      (fun u _ hu => decide_eq_true (by omega)) (by omega) hc
    obtain ⟨d, rfl⟩ := Option.isSome_iff_exists.mp hr
    exact ⟨d, m', rfl⟩

/-- A process without open files. -/
theorem dupAll_none {n : Nat} (t : Files) (np : Nat → Option Nat) :
    dupAll n t (fun _ => none) np = .ok (t, np) := by
  induction n with
  | zero => rfl
  | succ n ih => exact ih

/-- **Fork succeeds** for a process without open files whose queue is below its size. -/
theorem fork_room {k : Kernel} {i j : Nat} (fuel : Nat) (hfind : findUnused k = some j)
    (hij : i ≠ j) (hsz : (k.proc i).sz < kernBase) (hlow : QueueLow (k.proc i))
    (hclock : (k.proc i).q.inClock ≤ cfg.clockSize) (hfiles : (k.proc i).ofile = fun _ => none)
    (hmap : ∀ u, u < pages (k.proc i).sz → mapped ((k.proc i).pgdir.pteAt u) = true)
    (hman : ∀ f, 1 ≤ k.kmem.free f → managed cfg f)
    (hroom : pages (k.proc i).sz + pages (k.proc i).sz / 1024 + 67 ≤ k.kmem.freelist.length) :
    ∃ r k', fork cfg fuel k i = .ok (r, k') ∧ (k'.proc j).state = .runnable := by
  obtain ⟨f, m1, hk, hlen⟩ := kalloc_total (m := k.kmem) (by omega)
  have hfree := kalloc_free hk
  obtain ⟨d, m2, hc⟩ := copyuvm_room cfg (m := m1) hsz hmap
    (fun g hg => hman g (by rw [hfree g]; omega)) (by omega)
  have hcop : Copied m1 m2 (k.proc i).pgdir d (pages (k.proc i).sz) := by
    rcases copyuvm_ok (Nat.le_of_lt hsz) hc with ⟨h1, -⟩ | ⟨d1, h1, h2⟩
    · cases h1
    · cases h1
      exact h2
  have hx := forkNodes_eq cfg (f := fuel) (r := cfg.clockSize) (i := 0)
    (hcop.mirrors (k.proc j).q.nodes hlow)
  rw [if_pos (by simpa using hclock)] at hx
  unfold fork allocproc
  simp only [hfind, Kernel.setProc_kmem, hk]
  simp only [Kernel.setProc, Kernel.setKmem, Function.update_self, Function.update_of_ne hij, hc,
    Lib.ok_bind, hx, hfiles, dupAll_none]
  exact ⟨_, _, rfl, by simp only [Function.update_self]⟩

/-- The first process forks. -/
theorem boot_forks : ∃ k0 k' r, boot xv6 0 [] = .ok k0 ∧ FirstProc k0 0xDB00 ∧
    (k0.proc 0).q.inClock = 0 ∧ QueueLow (k0.proc 0) ∧ (k0.proc 1).state = .unused ∧
    fork xv6 0 k0 0 = .ok (r, k') ∧ (k'.proc 1).state = .runnable := by
  obtain ⟨k0, hb, hfirst⟩ := boot_total xv6 0 [] (by decide)
  have hacc := (boot_ok xv6 hb).1
  have hfresh := boot_fresh xv6 hb
  have hu : (k0.proc 0).state ≠ .unused := by
    rw [hfirst.run]
    decide
  have hunused : (k0.proc 1).state = .unused := by
    rw [hfresh.others 1 (by decide)]
    rfl
  have hfind : findUnused k0 = some 1 := by
    change List.find? _ (0 :: 1 :: _) = some 1
    rw [List.find?_cons_of_neg (by rw [hfirst.run]; decide),
      List.find?_cons_of_pos (by rw [hunused]; rfl)]
  have hempty : (k0.proc 0).q.inClock = 0 := by rw [hfresh.queue]
  have hsz : (k0.proc 0).sz = 4096 := hfirst.size
  have hpages : pages (k0.proc 0).sz = 1 := by
    rw [hsz]
    decide
  have hlow : QueueLow (k0.proc 0) := fun a ha => by
    obtain ⟨l, hl, -⟩ := Lib.mem_front.mp ha
    omega
  obtain ⟨r, k', hfork, hrun⟩ := fork_room xv6 0 hfind (by decide)
    (by rw [hsz]; decide) hlow (by rw [hempty]; decide) hfresh.ofile
    (fun u hu => by
      obtain rfl : u = 0 := by omega
      obtain ⟨f, hf⟩ := hfirst.page
      rw [hf]
      exact mapped_mapEntry _ _)
    (fun f hf => hacc.managed xv6 (by decide) hu f (by omega))
    (by have := hfirst.room; omega)
  exact ⟨k0, k', r, hb, hfirst, hempty, hlow, hunused, hfork, hrun⟩

/-! ## 2. A stale node -/

section
variable {cfg} {n : Nat} {m : Kmem} {p : Proc}

theorem loadNull_eq (hq : ZeroQuiet p) :
    loadNull cfg (n + 1) m p = .ok (le32 (m.mem (p.frameOf 0)) 0, m, p) := by
  have hf : faultNull cfg (n + 1) m p = .ok (m, p) := by
    unfold faultNull
    rw [if_pos hq.1, hq.touch]
  unfold loadNull
  rw [hf]
  rfl

/-- Page 0 is encrypted, and the queue has a place for it: reading address 0 decrypts it. -/
structure ZeroSealed (cfg : Config) (m : Kmem) (p : Proc) : Prop where
  enc : encrypted (p.pgdir.pteAt 0) = true
  absent : has (p.pgdir.pteAt 0) pteP = false
  byte : m.mem (p.frameOf 0) 0 = 0xFF#8
  fill : 0 < p.q.inClock ∧ p.q.inClock < cfg.clockSize
  next : p.q.currInd = p.q.inClock

/-- The process after that. -/
def zeroOpened (m : Kmem) (p : Proc) : Proc :=
  { p with
    pgdir := ((p.vm m).opened 0).pd
    q := ⟨Function.update p.q.nodes p.q.inClock 0, p.q.inClock + 1, (p.q.inClock + 1 : Nat)⟩ }

section
variable (h : ZeroSealed cfg m p)
include h

theorem ZeroSealed.pte (q : ClockQ) :
    ({ p with pgdir := ((p.vm m).opened 0).pd, q := q } : Proc).pgdir.pteAt 0 =
      openEntry (p.pgdir.pteAt 0) :=
  (opened_pteAt (s := p.vm m) (encrypted_iff.mp h.enc).1 0).trans (if_pos rfl)

theorem ZeroSealed.quiet : ZeroQuiet (zeroOpened m p) := by
  unfold ZeroQuiet zeroOpened
  rw [h.pte]
  exact ⟨by simp [openEntry], by simp [openEntry]⟩

theorem ZeroSealed.bit : zeroBit ((p.vm m).opened 0).m (zeroOpened m p) = false := by
  have hf : (zeroOpened m p).frameOf 0 = p.frameOf 0 := by
    unfold Proc.frameOf zeroOpened
    rw [show vpn 0 = 0 from rfl, h.pte, pteFrame_open]
  have hm : ((p.vm m).opened 0).m.mem (p.frameOf 0) = xorPage (m.mem (p.frameOf 0)) :=
    flipFrame_self m _
  unfold zeroBit
  have hx : xorPage (m.mem (p.frameOf 0)) 0 = 0#8 := by
    unfold xorPage
    rw [h.byte]
    decide
  rw [hf, hm, has_le32, hx]
  decide

/-- The read itself. -/
theorem ZeroSealed.load :
    ∃ w, loadNull cfg (n + 2) m p = .ok (w, ((p.vm m).opened 0).m, zeroOpened m p) ∧
      has w pteP = false := by
  have hb : firstByte (p.vm m) 0 ≠ 0#8 := by
    have h1 : firstByte (p.vm m) 0 = 0xFF#8 := h.byte
    rw [h1]
    decide
  have hfault : pageFault cfg m p 0 = .ok (0, ((p.vm m).opened 0).m, zeroOpened m p) := by
    unfold pageFault
    have henc : encrypted ((p.vm m).pd.pteAt (vpn 0)) = true := h.enc
    rw [mdecrypt_open cfg (q := p.q) henc hb, show vpn 0 = 0 from rfl,
      show pgRoundDown 0 = 0 from rfl, clockInsert_fill h.fill.1 h.fill.2 h.next]
    rfl
  have hnull : faultNull cfg (n + 2) m p =
      .ok (((p.vm m).opened 0).m, zeroOpened m p) := by
    unfold faultNull
    rw [if_neg (by rw [h.absent]; decide), hfault, Lib.ok_bind]
    dsimp only
    rw [if_neg (by decide)]
    unfold faultNull
    rw [if_pos h.quiet.1, h.quiet.touch]
  refine ⟨_, ?_, h.bit⟩
  unfold loadNull
  rw [hnull]
  rfl

/-- **A queue with one stale node, for which neither parent nor child has an entry**: the fix-up
    decrypts page 0 of the parent, and goes on. -/
theorem ZeroSealed.forkNodes {d : PgDir} {w : Nat → Nat} (hq : p.q.inClock = 1)
    (h2 : 2 < cfg.clockSize) (hp : p.pgdir.tabAt (nodePage p 0) = false)
    (hd : d.tabAt (nodePage p 0) = false) :
    ∃ x, Xv6Clock.forkNodes cfg 2 cfg.clockSize 0 ⟨m, p, d, w⟩ = .ok x ∧
      x.cur = zeroOpened m p := by
  obtain ⟨x, hload, hx⟩ := h.load (n := 0)
  have hagain : loadNull cfg 2 ((p.vm m).opened 0).m (zeroOpened m p) = _ :=
    loadNull_eq (n := 1) h.quiet
  have hbit : has (le32 (((p.vm m).opened 0).m.mem ((zeroOpened m p).frameOf 0)) 0) pteP = false :=
    h.bit
  -- the stale node: both words are read through the null pointer
  have hfirst : forkNode cfg 2 0 ⟨m, p, d, w⟩ = .ok ⟨((p.vm m).opened 0).m, zeroOpened m p, d,
      Function.update w 0 (p.q.nodes 0)⟩ := by
    unfold forkNode
    simp only [Function.update_self]
    rw [PgDir.walk_of_no_tab hp, PgDir.walk_of_no_tab hd]
    unfold ForkState.loadParent ForkState.loadChild
    dsimp only
    rw [hload]
    simp only [Lib.ok_bind, hx, Bool.false_eq_true, if_false]
    rw [hagain]
    simp only [Lib.ok_bind, hbit, Bool.not_false, if_true]
  -- the fault has put page 0 into the queue, and it is present
  have hn : (zeroOpened m p).q.nodes 1 = 0 := by
    have h1 : (zeroOpened m p).q.nodes = Function.update p.q.nodes p.q.inClock 0 := rfl
    rw [h1, hq, Function.update_self]
  have hopen : has ((zeroOpened m p).pgdir.pteAt 0) pteP = true := h.quiet.1
  have hwalk : (zeroOpened m p).pgdir.walk 0 = some 0 :=
    PgDir.walk_of_tabAt (show _ = true from PgDir.tabAt_of_mapped (mapped_of_P hopen))
  have hsecond : forkNode cfg 2 1 ⟨((p.vm m).opened 0).m, zeroOpened m p, d,
      Function.update w 0 (p.q.nodes 0)⟩ = .ok ⟨((p.vm m).opened 0).m, zeroOpened m p, d,
      Function.update (Function.update w 0 (p.q.nodes 0)) 1 0⟩ := by
    unfold forkNode
    simp only [hn, hwalk]
    unfold ForkState.loadParent
    simp only [Lib.ok_bind, hopen, if_true]
  have hlen : (zeroOpened m p).q.inClock = 2 := congrArg (· + 1) hq
  obtain ⟨r, hr⟩ : ∃ r, cfg.clockSize = r + 3 := ⟨cfg.clockSize - 3, by omega⟩
  refine ⟨⟨((p.vm m).opened 0).m, zeroOpened m p, d,
    Function.update (Function.update w 0 (p.q.nodes 0)) 1 0⟩, ?_, rfl⟩
  rw [hr]
  unfold Xv6Clock.forkNodes
  rw [if_neg (by dsimp only; omega), hfirst, Lib.ok_bind]
  unfold Xv6Clock.forkNodes
  rw [if_neg (by dsimp only; omega), hsecond, Lib.ok_bind]
  unfold Xv6Clock.forkNodes
  rw [if_pos (by dsimp only; omega)]

end

end

/-- A hundred free frames. -/
def roomyKmem : Kmem :=
  ⟨(List.range 100).map fun i => BitVec.ofNat 20 (0x4000 + i), fun _ => fill 0x55, false⟩

theorem zero_sane : Sane Proc.zero := by
  have hzero : ∀ u, Proc.zero.pgdir.pteAt u = 0#32 := fun _ => rfl
  exact ⟨fun u _ => by rw [hzero]; decide, by decide⟩

theorem roomyKmem_one (f : Frame) : roomyKmem.free f + Proc.zero.pgdir.holds f ≤ 1 := by
  have hz : Proc.zero.pgdir.holds f = one 0 f := by
    simp [PgDir.holds, Proc.zero, tabHolds]
  have hc : List.count f ((0 : Frame) :: roomyKmem.freelist) ≤ 1 :=
    List.nodup_iff_count_le_one.mp (by decide +kernel) f
  rw [List.count_cons] at hc
  rw [hz]
  simpa [one, Kmem.free] using hc

/-- What `copiesExactly_iff` needs of a one-page parent, and what the stale node needs. -/
structure OnePage (m : Kmem) (p : Proc) : Prop where
  sz : p.sz = 4096
  enc : encrypted (p.pgdir.pteAt 0) = true
  absent : has (p.pgdir.pteAt 0) pteP = false
  byte : m.mem (p.frameOf 0) 0 = 0xFF#8
  tab : p.pgdir.tabAt 1024 = false
  len : 98 ≤ m.freelist.length
  man : ∀ f, 1 ≤ m.free f → managed xv6 f
  one : ∀ f, m.free f + p.pgdir.holds f ≤ 1

/-- Growing an empty process by a page makes one. -/
theorem onePage_grown : ∃ m p, growproc xv6 roomyKmem Proc.zero (4096#32).toInt = .ok (0, m, p) ∧
    OnePage m p := by
  have h : Lib.okAnd (growproc xv6 roomyKmem Proc.zero (4096#32).toInt) (fun x =>
      x.1 == 0 && (x.2.2.sz == 4096 && (encrypted (x.2.2.pgdir.pteAt 0) &&
        (!has (x.2.2.pgdir.pteAt 0) pteP &&
          (x.2.1.mem (x.2.2.frameOf 0) 0 == 0xFF#8 && (!x.2.2.pgdir.tabAt 1024 &&
            (Nat.ble 98 x.2.1.freelist.length &&
              x.2.1.freelist.all fun f => decide (managed xv6 f)))))))) = true := by
    decide +kernel
  obtain ⟨⟨r, m, p⟩, h1, h2⟩ := Lib.okAnd_iff.mp h
  simp only [Bool.and_eq_true, Bool.not_eq_true', beq_iff_eq, Nat.ble_eq, List.all_eq_true,
    decide_eq_true_eq] at h2
  obtain ⟨rfl, hsz, henc, habs, hbyte, htab, hlen, hman⟩ := h2
  have hstep := (growproc_ok xv6 zero_sane (by decide) h1).step zero_sane
  refine ⟨m, p, h1, hsz, henc, habs, hbyte, htab, hlen,
    fun f hf => hman f (List.count_pos_iff.mp hf), fun f => ?_⟩
  rw [hstep.count]
  exact roomyKmem_one f

/-- The parent with one node in its queue. -/
def withNode (p : Proc) (va : Nat) : Proc := { p with q := ⟨fun _ => va, 1, 1⟩ }

/-- `copyuvm` succeeds for it. -/
theorem OnePage.copyuvm {m : Kmem} {p : Proc} (h : OnePage m p) :
    ∃ d m', Xv6Clock.copyuvm xv6 m p.pgdir p.sz = .ok (some d, m') := by
  have hpages : pages 4096 = 1 := by decide
  rw [h.sz]
  refine copyuvm_room xv6 (by decide) (fun u hu => ?_) h.man ?_
  · obtain rfl : u = 0 := by omega
    exact mapped_of_E (encrypted_iff.mp h.enc).1
  · have := h.len
    omega

/-- A process of one page and the child's directory of it. -/
theorem onePage_copied : ∃ m p d m', OnePage m p ∧ p.sz ≤ kernBase ∧
    copyuvm xv6 m p.pgdir p.sz = .ok (some d, m') ∧ Copied m m' p.pgdir d (pages p.sz) := by
  obtain ⟨m, p, -, hp⟩ := onePage_grown
  obtain ⟨d, m', hc⟩ := hp.copyuvm
  have hk : p.sz ≤ kernBase := by
    rw [hp.sz]
    decide
  rcases copyuvm_ok hk hc with ⟨h1, -⟩ | ⟨d1, h1, hcop⟩
  · cases h1
  cases h1
  exact ⟨m, p, d, m', hp, hk, hc, hcop⟩

/-- **A node of a clean queue**: the parent's one page. -/
theorem copiesExactly_onePage : ∃ m p d m' x, OnePage m p ∧
    copyuvm xv6 m p.pgdir p.sz = .ok (some d, m') ∧
    forkNodes xv6 2 xv6.clockSize 0 ⟨m', withNode p 0, d, fun _ => 0⟩ = .ok x ∧
    CopiesExactly m (withNode p 0) x := by
  obtain ⟨m, p, d, m', hp, hk, hc, hcop⟩ := onePage_copied
  have hpair := hcop.forkPair xv6 hk hc
  have htab : p.pgdir.tabAt 0 = true :=
    PgDir.tabAt_of_mapped (mapped_of_E (encrypted_iff.mp hp.enc).1)
  have hchild : childTab p.sz 0 := by
    rw [hp.sz]
    decide
  have hn : ∀ i, vpn ((withNode p 0).q.nodes i) = 0 := fun _ => show vpn 0 = 0 by decide
  have hmir : Mirrors ⟨m', withNode p 0, d, fun _ => 0⟩ := by
    refine ⟨fun i _ => ?_, fun i _ => ?_, fun i _ => ?_⟩ <;> dsimp only <;> rw [hn]
    · exact htab
    · exact (hpair.tab 0 (by decide)).mpr hchild
    · exact hpair.same 0 (by decide)
  have hx := forkNodes_eq xv6 (f := 2) (r := xv6.clockSize) (i := 0) hmir
  rw [if_pos (by exact (show (1 : Nat) ≤ 0 + xv6.clockSize by decide))] at hx
  have hclean : ∀ i, i < (withNode p 0).q.inClock → CleanNode m (withNode p 0) i := by
    intro i _
    unfold CleanNode NullParent NullChild nodePage
    rw [hn]
    exact .inl ⟨fun h1 => Bool.false_ne_true (h1.symm.trans htab), fun h1 => h1.2.2 hchild⟩
  exact ⟨m, p, d, m', _, hp, hc, hx,
    (copiesExactly_iff xv6 (p := withNode p 0) hk hp.one hc hx).mpr hclean⟩

/-- **A stale node decrypts a page of the parent.** -/
theorem staleNode_decrypts : ∃ m p d m' x, OnePage m p ∧
    copyuvm xv6 m p.pgdir p.sz = .ok (some d, m') ∧
    forkNodes xv6 2 xv6.clockSize 0 ⟨m', withNode p 0x400000, d, fun _ => 0⟩ = .ok x ∧
    has (p.pgdir.pteAt 0) pteE = true ∧ has (x.cur.pgdir.pteAt 0) pteE = false ∧
    ¬ CopiesExactly m (withNode p 0x400000) x := by
  obtain ⟨m, p, d, m', hp, hk, hc, hcop⟩ := onePage_copied
  have hmap : mapped (p.pgdir.pteAt 0) = true := mapped_of_E (encrypted_iff.mp hp.enc).1
  have hbyte : m'.mem (p.frameOf 0) = m.mem (p.frameOf 0) :=
    hcop.took.mem _ (free_of_mapped hp.one (by decide) hmap)
  have hsealed : ZeroSealed xv6 m' (withNode p 0x400000) :=
    ⟨hp.enc, hp.absent, (congrFun hbyte 0).trans hp.byte,
      show 0 < 1 ∧ 1 < xv6.clockSize by decide, rfl⟩
  have hchild : d.tabAt 1024 = false := by
    rw [Bool.eq_false_iff]
    intro ht
    have := (copyuvm_tab xv6 hk hc (by decide)).mp ht
    rw [hp.sz] at this
    exact absurd this (by decide)
  have hn : nodePage (withNode p 0x400000) 0 = 1024 := show vpn 0x400000 = 1024 by decide
  obtain ⟨x, hx, hcur⟩ := hsealed.forkNodes (d := d) (w := fun _ => 0) rfl (by decide)
    (by rw [hn]; exact hp.tab) (by rw [hn]; exact hchild)
  have hE : has (x.cur.pgdir.pteAt 0) pteE = false := by
    rw [hcur]
    unfold zeroOpened
    rw [hsealed.pte]
    simp [openEntry]
  refine ⟨m, p, d, m', x, hp, hc, hx, (encrypted_iff.mp hp.enc).1, hE, fun hex => ?_⟩
  have h1 : x.cur.pgdir.pteAt 0 = p.pgdir.pteAt 0 := hex.parentPte 0
  rw [h1, (encrypted_iff.mp hp.enc).1] at hE
  cases hE

end Xv6Clock
