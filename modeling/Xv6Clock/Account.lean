/-
  File:      Xv6Clock/Account.lean
  Subject:   What a call can do to the frames of the process that makes it.

  Whatever a process does on its own (grow, shrink, encrypt, fault, access its memory, exec), the
  frames it gains leave the free list and those it loses go back, and it changes the contents of
  frames that were free or its own only. `ProcStep` says this once for all these calls.
-/
import Xv6Clock.Exec

namespace Xv6Clock

variable (cfg : Config)

/-! ## 1. Steps of one process -/

/-- What every address space keeps: the kernel half is the kernel's, and the size is below
    KERNBASE. -/
structure Sane (p : Proc) : Prop where
  high : KernHigh p.pgdir
  size : p.sz < kernBase

/-- **The shape of an address space** of size `sz`: below the size every page has exactly one of
    PTE_P and PTE_E (and PTE_W), above it up to KERNBASE there is nothing, PTE_E comes with PTE_U
    only, the kernel half is the kernel's. -/
structure Shape (pd : PgDir) (sz : Nat) : Prop where
  low : ∀ u, u < pages sz → (has (pd.pteAt u) pteP != has (pd.pteAt u) pteE) = true ∧
    has (pd.pteAt u) pteW = true
  rest : ∀ u, pages sz ≤ u → u < 2 ^ 19 → pd.pteAt u = 0#32
  encUser : ∀ u, has (pd.pteAt u) pteE = true → has (pd.pteAt u) pteU = true
  high : KernHigh pd
  dev : ∀ u, 0xFE000 ≤ u → u < 2 ^ 20 → pd.tabAt u = true

variable {pd : PgDir} {sz u va lo hi : Nat} {m m' : Kmem} {p p' : Proc} {s : Vm} {r len n : Int}

theorem PdRecoded.shape {pd' : PgDir} (h : PdRecoded pd pd') (hs : Shape pd sz) : Shape pd' sz where
  low u hu := by
    obtain ⟨h1, h2⟩ := hs.low u hu
    exact ⟨(h.entry u).one h1, (h.entry u).write.trans h2⟩
  rest u h1 h2 := (h.entry u).zero (hs.rest u h1 h2)
  encUser u hE := by
    have hu := (h.entry u).user
    cases hU : has (pd.pteAt u) pteU with
    | true => rw [hu, hU]
    | false =>
      rw [((h.entry u).nonUser hU).2] at hE
      rw [hs.encUser u hE] at hU
      cases hU
  high := h.kernHigh hs.high
  dev u h1 h2 := (h.tab u).trans (hs.dev u h1 h2)

theorem Shape.mapped (h : Shape pd sz) (hu : u < pages sz) : mapped (pd.pteAt u) = true := by
  have h2 := (h.low u hu).1
  rw [mapped_eq]
  revert h2
  cases has (pd.pteAt u) pteP <;> cases has (pd.pteAt u) pteE <;> decide

/-- Below KERNBASE a page is mapped and below the size, or its entry is zero. -/
theorem Shape.used (h : Shape pd sz) (hu : u < 2 ^ 19) :
    pd.pteAt u = 0#32 ∨ Xv6Clock.mapped (pd.pteAt u) = true ∧ u < pages sz := by
  by_cases h1 : u < pages sz
  · exact Or.inr ⟨h.mapped h1, h1⟩
  · exact Or.inl (h.rest u (by omega) hu)

/-- The state a successful exec leaves: every page of the user is encrypted, the queue is empty. -/
structure ExecFresh (p : Proc) : Prop where
  sane : Sane p
  shape : Shape p.pgdir p.sz
  sealed : ∀ u, plain (p.pgdir.pteAt u) = false
  inClock : p.q.inClock = 0
  currInd : p.q.currInd = 0

/-- **A step of process `p`** on its own memory. -/
structure ProcStep (m : Kmem) (p : Proc) (m' : Kmem) (p' : Proc) : Prop where
  count : ∀ f, m'.free f + p'.pgdir.holds f = m.free f + p.pgdir.holds f
  mem : ∀ f, m.free f = 0 → p.pgdir.holds f = 0 → m'.mem f = m.mem f
  twice : (∀ f, m.free f + p.pgdir.holds f ≤ 1) → m'.twice = m.twice
  kstack : p'.kstack = p.kstack
  state : p'.state = p.state
  parent : p'.parent = p.parent
  ofile : p'.ofile = p.ofile
  sane : Sane p'

theorem ProcStep.refl (h : Sane p) : ProcStep m p m p :=
  ⟨fun _ => rfl, fun _ _ _ => rfl, fun _ => rfl, rfl, rfl, rfl, rfl, h⟩

theorem ProcStep.trans {m'' : Kmem} {p'' : Proc} (h1 : ProcStep m p m' p')
    (h2 : ProcStep m' p' m'' p'') : ProcStep m p m'' p'' where
  count f := (h2.count f).trans (h1.count f)
  mem f h0 h3 := by
    have e := h1.count f
    rw [h2.mem f (by omega) (by omega), h1.mem f h0 h3]
  twice hs := by rw [h2.twice fun f => by rw [h1.count f]; exact hs f, h1.twice hs]
  kstack := h2.kstack.trans h1.kstack
  state := h2.state.trans h1.state
  parent := h2.parent.trans h1.parent
  ofile := h2.ofile.trans h1.ofile
  sane := h2.sane

/-- Flags and bytes changes of the process's own pages. -/
theorem Recoded.procStep (h : Recoded (p.vm m) s) (hp : Sane p) (q : ClockQ) :
    ProcStep m p s.m { p with pgdir := s.pd, q := q } where
  count f := by
    have e1 : s.m.free f = m.free f := congrArg (List.count f) h.list
    have e2 : s.pd.holds f = p.pgdir.holds f := h.holds f
    rw [e1, e2]
  mem f _ h0 := h.mem f h0
  twice _ := h.twice
  kstack := rfl
  state := rfl
  parent := rfl
  ofile := rfl
  sane := ⟨h.kernHigh hp.high, hp.size⟩

/-- The contents of a frame of the process change. -/
theorem ProcStep.setPage {f : Frame} (hp : Sane p) (hf : 1 ≤ p.pgdir.holds f) (pg : Page) :
    ProcStep m p (m.setPage f pg) p where
  count _ := rfl
  mem g _ h0 := by
    refine Kmem.setPage_mem_ne m pg ?_
    rintro rfl
    omega
  twice _ := rfl
  kstack := rfl
  state := rfl
  parent := rfl
  ofile := rfl
  sane := hp

/-! ## 2. The queue of a process -/

/-- **The queue is in order**: it is well formed and holds page addresses below the size; what is
    mapped lies below the size too, and an entry that maps nothing is zero. -/
structure QueueOk (p : Proc) : Prop where
  sane : Sane p
  used : ∀ u, u < 2 ^ 19 →
    p.pgdir.pteAt u = 0#32 ∨ mapped (p.pgdir.pteAt u) = true ∧ u < pages p.sz
  wf : ClockWf cfg p.q
  low : ∀ a, a ∈ p.q.entries → a % 4096 = 0 ∧ a < p.sz

/-- A page below the size starts below it. -/
theorem lt_pages : u < pages sz ↔ u * 4096 < sz := by
  unfold pages
  omega

theorem pgRoundDown_vpn (h : va < 2 ^ 32) : pgRoundDown va = vpn va * 4096 := by
  unfold pgRoundDown vpn
  omega

/-- A page of the user lies below the size. -/
theorem QueueOk.user_lt (h : QueueOk cfg p) (hu : has (p.pgdir.pteAt u) pteU = true) :
    u < pages p.sz := by
  rcases h.used u (h.sane.high.lt hu) with h1 | h1
  · rw [h1, has_zero] at hu
    cases hu
  · exact h1.2

theorem mdecrypt_low {q : ClockQ} (hva : va < 2 ^ 32) (hq : QueueOk cfg p)
    (h : mdecrypt cfg (p.vm m) p.q va = .ok (r, s, q)) :
    ∀ a, a ∈ q.entries → a % 4096 = 0 ∧ a < p.sz := by
  rcases mdecrypt_ok cfg h with ⟨-, rfl, -⟩ | ⟨-, rfl, -⟩ | ⟨-, -, hU, -, hi⟩
  · exact hq.low
  · exact hq.low
  · intro a ha
    rcases clockInsert_mem cfg hq.wf hi ha with rfl | h1
    · have h2 := lt_pages.mp (hq.user_lt cfg hU)
      rw [pgRoundDown_vpn hva]
      exact ⟨Nat.mul_mod_left _ _, h2⟩
    · exact hq.low a h1

/-! ## 3. Accesses and faults -/

/-- A step that only accesses memory, faulting as needed. -/
structure FaultStep (m : Kmem) (p : Proc) (m' : Kmem) (p' : Proc) : Prop
    extends ProcStep m p m' p' where
  pd : PdRecoded p.pgdir p'.pgdir
  sz : p'.sz = p.sz
  queue : QueueOk cfg p → QueueOk cfg p'
  list : m'.freelist = m.freelist
  once : m'.twice = m.twice
  holds : ∀ f, p'.pgdir.holds f = p.pgdir.holds f

theorem FaultStep.trans {m'' : Kmem} {p'' : Proc} (h1 : FaultStep cfg m p m' p')
    (h2 : FaultStep cfg m' p' m'' p'') : FaultStep cfg m p m'' p'' where
  toProcStep := h1.toProcStep.trans h2.toProcStep
  pd := h1.pd.trans h2.pd
  sz := h2.sz.trans h1.sz
  queue h := h2.queue (h1.queue h)
  list := h2.list.trans h1.list
  once := h2.once.trans h1.once
  holds f := (h2.holds f).trans (h1.holds f)

theorem FaultStep.refl (h : Sane p) : FaultStep cfg m p m p :=
  ⟨ProcStep.refl h, PdRecoded.refl _, rfl, fun h => h, rfl, rfl, fun _ => rfl⟩

/-- Flags and bytes changes with a new queue. -/
theorem Recoded.faultStep (h : Recoded (p.vm m) s) (hp : Sane p) {q : ClockQ}
    (hq : QueueOk cfg p → ClockWf cfg q ∧ ∀ a, a ∈ q.entries → a % 4096 = 0 ∧ a < p.sz) :
    FaultStep cfg m p s.m { p with pgdir := s.pd, q := q } where
  toProcStep := h.procStep hp q
  pd := h.toPdRecoded
  sz := rfl
  queue h1 := ⟨⟨h.kernHigh hp.high, hp.size⟩, fun u hu => (h1.used u hu).imp (h.entry u).zero
    fun h2 => ⟨(h.entry u).map.trans h2.1, h2.2⟩, (hq h1).1, (hq h1).2⟩
  list := h.list
  once := h.twice
  holds := h.holds

theorem touch_step (hp : Sane p) (hm : mapped (p.pgdir.pteAt (vpn va)) = true) :
    FaultStep cfg m p m (p.touch va) := by
  have hf : Flip (p.vm m) ((p.vm m).mark (vpn va) (setRef (p.pgdir.pteAt (vpn va)))) :=
    Flip.ref (vpn_lt va) hm
  exact hf.recoded.faultStep cfg hp fun h => ⟨h.wf, h.low⟩

theorem mdecrypt_step {q : ClockQ} (hp : Sane p) (hva : va < 2 ^ 32)
    (h : mdecrypt cfg (p.vm m) p.q va = .ok (r, s, q)) :
    FaultStep cfg m p s.m { p with pgdir := s.pd, q := q } :=
  (mdecrypt_recoded cfg hp.high h).faultStep cfg hp fun hq =>
    ⟨mdecrypt_wf cfg hq.wf h, mdecrypt_low cfg hva hq h⟩

theorem pageFault_step (hp : Sane p) (hva : va < 2 ^ 32)
    (h : pageFault cfg m p va = .ok (r, m', p')) : FaultStep cfg m p m' p' := by
  obtain ⟨⟨r1, s, q⟩, h1, h2⟩ := Lib.bind_eq_ok.mp h
  cases h2
  exact mdecrypt_step cfg hp hva h1

/-- A touch leaves plain pages plain. -/
theorem touch_plain (hm : mapped (p.pgdir.pteAt (vpn va)) = true) (u : Nat) :
    plain ((p.touch va).pgdir.pteAt u) = plain (p.pgdir.pteAt u) := by
  have e : (p.touch va).pgdir.pteAt u =
      if u = vpn va then setRef (p.pgdir.pteAt (vpn va)) else p.pgdir.pteAt u :=
    PgDir.pteAt_store _ _ (PgDir.tabAt_of_mapped hm)
  rw [e]
  split
  · rename_i hu
    rw [plain_setRef, hu]
  · rfl

/-- The entry of the page at `va` after a touch. -/
theorem touch_pteAt {a : Nat} (hm : mapped (p.pgdir.pteAt (vpn a)) = true) :
    (p.touch a).pgdir.pteAt (vpn a) = setRef (p.pgdir.pteAt (vpn a)) :=
  PgDir.pteAt_store_self _ (PgDir.tabAt_of_mapped hm)

/-- Faulting address 0 in leaves its page mapped. -/
theorem faultNull_step {n : Nat} : ∀ {m m' : Kmem} {p p' : Proc}, Sane p →
    faultNull cfg n m p = .ok (m', p') →
    FaultStep cfg m p m' p' ∧ mapped (p'.pgdir.pteAt 0) = true := by
  induction n with
  | zero =>
    intro m m' p p' _ h
    cases h
  | succ n ih =>
    intro m m' p p' hp h
    unfold faultNull at h
    split at h
    · rename_i hP
      cases h
      have hm : mapped (p.pgdir.pteAt (vpn 0)) = true := mapped_of_P hP
      refine ⟨touch_step cfg hp hm, ?_⟩
      have e := touch_pteAt hm
      rw [show vpn 0 = 0 from rfl] at e
      rw [e, mapped_setRef]
      exact mapped_of_P hP
    · obtain ⟨⟨r, m1, p1⟩, h1, h2⟩ := Lib.bind_eq_ok.mp h
      have hs := pageFault_step cfg hp (by decide) h1
      dsimp only at h2
      split at h2
      · cases h2
      · obtain ⟨h3, h4⟩ := ih hs.sane h2
        exact ⟨hs.trans cfg h3, h4⟩

theorem loadNull_step {n : Nat} {w : Word} (hp : Sane p)
    (h : loadNull cfg n m p = .ok (w, m', p')) : FaultStep cfg m p m' p' := by
  unfold loadNull at h
  obtain ⟨⟨m1, p1⟩, h1, h2⟩ := Lib.bind_eq_ok.mp h
  cases h2
  exact (faultNull_step cfg hp h1).1

/-! ## 4. `mencrypt` and `growproc` -/

/-- `mencrypt` on the process's own page table. -/
theorem mencrypt_step (hp : Sane p) (h : mencrypt (p.vm m) va len = .ok (r, s)) :
    FaultStep cfg m p s.m { p with pgdir := s.pd } :=
  (mencrypt_flips hp.high h).recoded.faultStep cfg hp fun hq => ⟨hq.wf, hq.low⟩

/-- `sys_mencrypt` refuses its arguments, or it is `mencrypt`. -/
theorem sysMencrypt_ok (h : sysMencrypt m p va len = .ok (r, m', p')) :
    (m' = m ∧ p' = p) ∨ ∃ s, 0 < len ∧ va < p.sz ∧ mencrypt (p.vm m) va len = .ok (r, s) ∧
      m' = s.m ∧ p' = { p with pgdir := s.pd } := by
  unfold sysMencrypt at h
  split at h
  · cases h
    exact Or.inl ⟨rfl, rfl⟩
  · split at h
    · cases h
      exact Or.inl ⟨rfl, rfl⟩
    · split at h
      · cases h
        exact Or.inl ⟨rfl, rfl⟩
      · obtain ⟨⟨r1, s⟩, h1, h2⟩ := Lib.bind_eq_ok.mp h
        cases h2
        exact Or.inr ⟨s, by omega, by omega, h1, rfl, rfl⟩

theorem sysMencrypt_step (hp : Sane p) (h : sysMencrypt m p va len = .ok (r, m', p')) :
    FaultStep cfg m p m' p' := by
  rcases sysMencrypt_ok h with ⟨rfl, rfl⟩ | ⟨s, -, -, h1, rfl, rfl⟩
  · exact FaultStep.refl cfg hp
  · exact mencrypt_step cfg hp h1

/-- Pages allocated for the process. -/
theorem Allocd.procStep (h : Allocd (p.vm m) s lo hi) (hp : Sane p) (hlo : hi ≤ 2 ^ 19) (sz : Nat)
    (hsz : sz < kernBase) : ProcStep m p s.m { p with pgdir := s.pd, sz := sz } where
  count f := h.count f
  mem f h0 _ := h.mem f h0
  twice _ := h.twice
  kstack := rfl
  state := rfl
  parent := rfl
  ofile := rfl
  sane := by
    refine ⟨fun u hu => ?_, hsz⟩
    have e : s.pd.pteAt u = p.pgdir.pteAt u := h.pte u (by omega)
    rw [e]
    exact hp.high u hu

theorem AllocUndone.procStep (h : AllocUndone (p.vm m) s lo hi) (hp : Sane p) :
    ProcStep m p s.m { p with pgdir := s.pd } where
  count f := h.count f
  mem f h0 h1 := by
    have e : s.m.free f + s.pd.holds f = m.free f + p.pgdir.holds f := h.count f
    exact h.mem f h0 (by omega)
  twice hs := h.twice hs
  kstack := rfl
  state := rfl
  parent := rfl
  ofile := rfl
  sane := by
    refine ⟨fun u hu => ?_, hp.size⟩
    rcases h.pte u with e | ⟨-, -, e⟩
    · rw [show s.pd.pteAt u = p.pgdir.pteAt u from e]
      exact hp.high u hu
    · rw [e]
      exact ⟨has_zero _, has_zero _⟩

theorem Unmapped.procStep (h : Unmapped (p.vm m) s lo hi) (hp : Sane p) (sz : Nat)
    (hsz : sz < kernBase) (q : ClockQ) :
    ProcStep m p s.m { p with pgdir := s.pd, sz := sz, q := q } := by
  have h1 := h.allocUndone.procStep hp
  exact ⟨h1.count, h1.mem, h1.twice, rfl, rfl, rfl, rfl, ⟨h1.sane.high, hsz⟩⟩

theorem pages_le (h : sz < kernBase) : pages sz ≤ 2 ^ 19 := by
  unfold pages
  unfold kernBase at h
  omega

/-- Adding a positive `int` to a size below KERNBASE does not wrap. -/
theorem toU_add (hs : sz < kernBase) (h0 : 0 ≤ n) (hn : n < 2 ^ 31) :
    toU (sz + n) = sz + n.toNat := by
  unfold toU
  unfold kernBase at hs
  omega

/-- **Everything `growproc` can do.** -/
inductive Growproc (m : Kmem) (p : Proc) (n : Int) : Int → Kmem → Proc → Prop where
  | same (hn : n = 0) : Growproc m p n 0 m p
  | grown {s s' : Vm} {x : Int} (hn : 0 < n) (hlt : p.sz + n.toNat < kernBase)
      (ha : Allocd (p.vm m) s (pages p.sz) (pages (p.sz + n.toNat)))
      (he : mencrypt s (pages p.sz * 4096) (n / pgSize) = .ok (x, s')) :
      Growproc m p n 0 s'.m { p with pgdir := s'.pd, sz := p.sz + n.toNat }
  | failed {s : Vm} (hn : 0 < n)
      (hu : s = p.vm m ∨ p.sz + n.toNat < kernBase ∧
        AllocUndone (p.vm m) s (pages p.sz) (pages (p.sz + n.toNat))) :
      Growproc m p n (-1) s.m { p with pgdir := s.pd }
  | wrapped {r : Int} (hn : n < 0) (hge : p.sz ≤ toU (p.sz + n)) :
      Growproc m p n r m { p with q := removeFreed p.q.inClock p.q (toU (p.sz + n)) 0 }
  | shrunk {r : Int} {s : Vm} (hn : n < 0) (hlt : toU (p.sz + n) < p.sz)
      (hu : Unmapped (p.vm m) s (pages (toU (p.sz + n))) (pages p.sz)) :
      Growproc m p n r s.m { p with
        pgdir := s.pd
        q := removeFreed p.q.inClock p.q (toU (p.sz + n)) 0
        sz := if toU (p.sz + n) = 0 then p.sz else toU (p.sz + n) }

theorem growproc_ok (hp : Sane p) (hn : n < 2 ^ 31) (h : growproc cfg m p n = .ok (r, m', p')) :
    Growproc m p n r m' p' := by
  have hk : p.sz ≤ kernBase := Nat.le_of_lt hp.size
  unfold growproc at h
  split at h
  · rename_i h0
    rw [toU_add hp.size (Int.le_of_lt h0) hn] at h
    obtain ⟨⟨sz, s⟩, h1, h2⟩ := Lib.bind_eq_ok.mp h
    dsimp only at h2
    rcases allocuvm_ok hk h1 with ⟨hlt, -, rfl, ha⟩ | ⟨-, hlt, -, -⟩ | ⟨-, rfl, rfl⟩ |
      ⟨hlt, -, rfl, hu⟩
    · rw [if_neg (by omega)] at h2
      obtain ⟨⟨x, s'⟩, h3, h4⟩ := Lib.bind_eq_ok.mp h2
      cases h4
      have e : (if p.sz % pgSize = 0 then p.sz else pgRoundUp p.sz) = pages p.sz * 4096 := by
        rw [pgRoundUp_pages hk]
        unfold pages pgSize
        split <;> omega
      rw [e] at h3
      exact .grown h0 hlt ha h3
    · omega
    · cases h2
      exact .failed h0 (Or.inl rfl)
    · cases h2
      exact .failed h0 (Or.inr ⟨hlt, hu⟩)
  · split at h
    · rename_i h0
      obtain ⟨⟨sz, s⟩, h1, h2⟩ := Lib.bind_eq_ok.mp h
      dsimp only at h2
      generalize hz : toU (p.sz + n) = newsz at h1 h2
      rcases deallocuvm_ok hk h1 with ⟨hge, rfl, rfl⟩ | ⟨hlt, rfl, hu⟩
      · split at h2
        · cases h2
          exact hz ▸ .wrapped h0 (by omega)
        · cases h2
          exact hz ▸ .wrapped h0 (by omega)
      · have h3 : ∀ r, Growproc m p n r s.m { p with
            pgdir := s.pd
            q := removeFreed p.q.inClock p.q sz 0
            sz := if sz = 0 then p.sz else sz } := fun r =>
          hz ▸ .shrunk h0 (by omega) (hz.symm ▸ hu)
        split at h2
        · rename_i hz0
          cases h2
          have h4 := h3 (-1)
          rwa [if_pos hz0] at h4
        · rename_i hz0
          cases h2
          have h4 := h3 0
          rwa [if_neg hz0] at h4
    · cases h
      exact .same (by omega)

theorem Growproc.step (hp : Sane p) (h : Growproc m p n r m' p') : ProcStep m p m' p' := by
  cases h with
  | same hn => exact ProcStep.refl hp
  | @grown s s' x hn hlt ha he =>
    have h1 := ha.procStep hp (pages_le hlt) _ hlt
    exact h1.trans (Recoded.procStep (m := s.m) (p := { p with pgdir := s.pd, sz := _ })
      (mencrypt_flips h1.sane.high he).recoded h1.sane p.q)
  | failed hn hu =>
    rcases hu with rfl | ⟨-, hu⟩
    · exact ProcStep.refl hp
    · exact hu.procStep hp
  | wrapped hn hge =>
    exact ⟨fun _ => rfl, fun _ _ _ => rfl, fun _ => rfl, rfl, rfl, rfl, rfl, ⟨hp.high, hp.size⟩⟩
  | shrunk hn hlt hu =>
    refine hu.procStep hp _ ?_ _
    have := hp.size
    split <;> omega

/-- **`growproc` keeps the queue in order**, where shrinking keeps `currInd` right. -/
theorem Growproc.queue (hq : QueueOk cfg p) (hok : n < 0 → ShrinkOk p.q (toU (p.sz + n)))
    (h : Growproc m p n r m' p') : QueueOk cfg p' := by
  have hsane := (h.step hq.sane).sane
  cases h with
  | same h0 => exact hq
  | @grown s s' x h0 hlt ha he =>
    have hk : KernHigh s.pd := (ha.procStep hq.sane (pages_le hlt) _ hlt).sane.high
    have hrec := (mencrypt_flips hk he).recoded
    have hle : pages p.sz ≤ pages (p.sz + n.toNat) := by
      unfold pages
      omega
    refine ⟨hsane, fun u hu => ?_, hq.wf, fun a h1 => ?_⟩
    · by_cases h2 : pages p.sz ≤ u ∧ u < pages (p.sz + n.toNat)
      · obtain ⟨f, h3, -⟩ := ha.new u h2.1 h2.2
        refine Or.inr ⟨(hrec.entry u).map.trans ?_, h2.2⟩
        rw [h3]
        exact mapped_of_P ((has_allocEntry f (by decide)).trans (by decide))
      · have h3 : s.pd.pteAt u = p.pgdir.pteAt u := ha.pte u h2
        refine (hq.used u hu).imp (fun h4 => (hrec.entry u).zero (h3.trans h4)) fun h4 =>
          ⟨(hrec.entry u).map.trans ((congrArg mapped h3).trans h4.1), ?_⟩
        exact Nat.lt_of_lt_of_le h4.2 hle
    · have h2 := hq.low a h1
      exact ⟨h2.1, Nat.lt_of_lt_of_le h2.2 (Nat.le_add_right _ _)⟩
  | @failed s h0 hu =>
    refine ⟨hsane, fun u h1 => ?_, hq.wf, hq.low⟩
    rcases hu with rfl | ⟨-, hu⟩
    · exact hq.used u h1
    · rcases hu.pte u with h2 | ⟨-, -, h2⟩
      · rw [show s.pd.pteAt u = p.pgdir.pteAt u from h2]
        exact hq.used u h1
      · exact Or.inl h2
  | wrapped h0 hge =>
    refine ⟨hsane, hq.used, removeFreed_wf cfg hq.wf (hok h0), fun a h1 => hq.low a ?_⟩
    rw [removeFreed_filter] at h1
    exact (List.mem_filter.mp h1).1
  | @shrunk r s h0 hlt hu =>
    have hsz : toU (p.sz + n) ≤
        (if toU (p.sz + n) = 0 then p.sz else toU (p.sz + n)) := by
      split <;> omega
    refine ⟨hsane, fun u h1 => ?_, removeFreed_wf cfg hq.wf (hok h0), fun a h1 => ?_⟩
    · have h2 : s.pd.pteAt u = if pages (toU (p.sz + n)) ≤ u ∧ u < pages p.sz ∧
          mapped (p.pgdir.pteAt u) = true then 0#32 else p.pgdir.pteAt u := hu.pte u
      rw [h2]
      split
      · exact Or.inl rfl
      · rename_i h3
        refine (hq.used u h1).imp (fun h4 => h4) fun h4 => ⟨h4.1, ?_⟩
        refine Nat.lt_of_lt_of_le (m := pages (toU (p.sz + n))) ?_ ?_
        · by_contra hc
          exact h3 ⟨by omega, h4.2, h4.1⟩
        · unfold pages
          simp only
          omega
    · rw [removeFreed_filter] at h1
      obtain ⟨h2, h3⟩ := List.mem_filter.mp h1
      have h4 : a < toU (p.sz + n) := by simpa using h3
      exact ⟨(hq.low a h2).1, Nat.lt_of_lt_of_le h4 hsz⟩

end Xv6Clock
