/-
  File:      Xv6Clock/DumpRaw.lean
  Subject:   `dump_rawphymem` (vm.c) and its system call (sysproc.c): a page of physical memory,
             copied to a buffer of the process.

  The call touches the first byte of the buffer, which brings its page in, and copies with
  `copyout`. That goes through the frames: if the buffer reaches into a second page and this one is
  encrypted, the raw bytes are stored there as they are, and user code reads their complement
  (`dump_delivers_iff`). The physical address is not checked (`dump_source_iff`).
-/
import Xv6Clock.AddressSpace
import Xv6Clock.Copyout
import Xv6Clock.Getpgtable

namespace Xv6Clock

variable (cfg : Config)

/-! ## 1. The call -/

/-- An access of the kernel to user address `va` faults its page in. The page may be chosen for
    eviction at once, so the access may fault again; the first argument bounds the retries. -/
def faultIn : Nat → Kmem → Proc → Nat → Except Err (Kmem × Proc)
  | 0, _, _, _ => .error .refault
  | n + 1, m, p, va =>
    if has (p.pgdir.pteAt (vpn va)) pteP then .ok (m, p.touch va) else do
    let (r, m, p) ← pageFault cfg m p va
    if r ≠ 0 then .error (.panic .trap) else faultIn n m p va

/-- `*buffer = *buffer`. -/
def touchByte (fuel : Nat) (m : Kmem) (p : Proc) (va : Nat) : Except Err (Kmem × Proc) := do
  let (m, p) ← faultIn cfg fuel m p va
  .ok (storeByte m p va (m.mem (p.frameOf va) (va % pgSize)), p.touch va)

/-- `PGROUNDDOWN((int)P2V(physical_addr))`. -/
def dumpSource (physicalAddr : Nat) : Nat := pgRoundDown (addU physicalAddr kernBase)

/-- The page at `a` is in the kernel's map of physical memory. -/
def InDirectMap (a : Nat) : Prop := kernBase ≤ a ∧ a + pgSize ≤ kernBase + phystop

instance (a : Nat) : Decidable (InDirectMap a) :=
  inferInstanceAs (Decidable (kernBase ≤ a ∧ a + pgSize ≤ kernBase + phystop))

/-- The frame at a page of the direct map. -/
def mapFrame (a : Nat) : Frame := BitVec.ofNat 20 ((a - kernBase) / pgSize)

/-- The bytes of a frame. The frames of the kernel itself (its text and data, stacks, page tables)
    are kept apart in this model; their bytes are given by `own`. -/
def Kmem.raw (m : Kmem) (own : Frame → Option Page) (f : Frame) : Page := (own f).getD (m.mem f)

/-- The loop of `copyout` with the source in frame `f`, `off` bytes of which are copied. -/
def dumpLoop (own : Frame → Option Page) (f : Frame) : Nat → Vm → Nat → Nat → Except Err (Int × Vm)
  | 0, s, _, _ => .ok (0, s)
  | r + 1, s, va, off =>
    if pgSize - off = 0 then .ok (0, s) else do
    let va0 := pgRoundDown va
    match ← uva2ka s.pd va0 with
    | none => .ok (-1, s)
    | some g =>
      let n := min (pgSize - (va - va0)) (pgSize - off)
      let bytes := (List.range n).map fun j => s.m.raw own f (off + j)
      dumpLoop own f r ⟨s.m.setPage g (overlay (s.m.mem g) (va - va0) bytes), s.pd⟩
        (addU va0 pgSize) (off + n)

/-- `sys_dump_rawphymem`, its arguments fetched, up to the first byte that is copied: the source of
    the copy, or none where the call returns -1 before. -/
def dumpStart (fuel : Nat) (m : Kmem) (p : Proc) (physicalAddr buffer : Nat) :
    Except Err (Option Nat × Kmem × Proc) :=
  if !argptr p buffer pgSize then .ok (none, m, p) else do
  let (m, p) ← touchByte cfg fuel m p buffer
  -- the first round of `copyout`
  match ← uva2ka p.pgdir (pgRoundDown buffer) with
  | none => .ok (none, m, p)
  | some _ => .ok (some (dumpSource physicalAddr), m, p)

/-- `sys_dump_rawphymem`; none if it copies from elsewhere than the direct map. -/
def sysDumpRawphymem (own : Frame → Option Page) (fuel : Nat) (m : Kmem) (p : Proc)
    (physicalAddr buffer : Nat) : Except Err (Option (Int × Kmem × Proc)) := do
  let (src, m, p) ← dumpStart cfg fuel m p physicalAddr buffer
  match src with
  | none => .ok (some (-1, m, p))
  | some src =>
    if ¬ InDirectMap src then .ok none else do
    let (r, s) ← dumpLoop own (mapFrame src) pgSize (p.vm m) buffer 0
    .ok (some (if r ≠ 0 then -1 else 0, s.m, { p with pgdir := s.pd }))

/-! ## 2. The touch -/

section
variable {cfg} {m m' : Kmem} {p p' : Proc} {va : Nat}

/-- A byte stored over itself. -/
theorem storeByte_self (m : Kmem) (p : Proc) (va : Nat) :
    storeByte m p va (m.mem (p.frameOf va) (va % pgSize)) = m := by
  unfold storeByte Kmem.setPage
  rw [Function.update_eq_self, Function.update_eq_self]

/-- **The page is brought in by small steps**, and is present. -/
theorem faultIn_flips {n : Nat} : ∀ {m : Kmem} {p : Proc}, KernHigh p.pgdir →
    faultIn cfg n m p va = .ok (m', p') → Flips (p.vm m) (p'.vm m') ∧ p'.sz = p.sz ∧
      has (p'.pgdir.pteAt (vpn va)) pteP = true := by
  induction n with
  | zero =>
    intro m p _ h
    cases h
  | succ n ih =>
    intro m p hk h
    unfold faultIn at h
    split at h
    · rename_i hP
      cases h
      refine ⟨.single (Flip.ref (vpn_lt va) (mapped_of_P hP)), rfl, ?_⟩
      rw [touch_pteAt (mapped_of_P hP), has_setRef_P]
      exact hP
    · obtain ⟨⟨r, m1, p1⟩, h1, h2⟩ := Lib.bind_eq_ok.mp h
      dsimp only at h2
      split at h2
      · cases h2
      · rename_i hr
        obtain rfl : r = 0 := not_not.mp hr
        unfold pageFault at h1
        obtain ⟨⟨r, s, q⟩, h3, h4⟩ := Lib.bind_eq_ok.mp h1
        cases h4
        have hflips := mdecrypt_flips cfg hk h3
        obtain ⟨h5, h6, h7⟩ := ih (hflips.recoded.kernHigh hk) h2
        exact ⟨hflips.trans h5, h6, h7⟩

theorem touchByte_flips {fuel : Nat} (hk : KernHigh p.pgdir)
    (h : touchByte cfg fuel m p va = .ok (m', p')) : Flips (p.vm m) (p'.vm m') ∧ p'.sz = p.sz ∧
      has (p'.pgdir.pteAt (vpn va)) pteP = true := by
  obtain ⟨⟨m1, p1⟩, h1, h2⟩ := Lib.bind_eq_ok.mp h
  obtain ⟨h3, h4, hP⟩ := faultIn_flips hk h1
  dsimp only at h2
  rw [storeByte_self] at h2
  cases h2
  refine ⟨h3.tail (Flip.ref (vpn_lt va) (mapped_of_P hP)), h4, ?_⟩
  rw [touch_pteAt (mapped_of_P hP), has_setRef_P]
  exact hP

/-- **When the copy starts**: the buffer is accepted, its first byte touched, and its first page is
    a user page. -/
theorem dumpStart_some {fuel src : Nat} (pa : Nat) (hk : KernHigh p.pgdir) :
    dumpStart cfg fuel m p pa va = .ok (some src, m', p') ↔ argptr p va pgSize = true ∧
      touchByte cfg fuel m p va = .ok (m', p') ∧ has (p.pgdir.pteAt (vpn va)) pteU = true ∧
      src = dumpSource pa := by
  unfold dumpStart
  cases harg : argptr p va pgSize with
  | false =>
    rw [if_pos (by decide)]
    exact ⟨fun h => (by cases h), fun h => (by cases h.1)⟩
  | true =>
    rw [if_neg (by decide)]
    cases ht : touchByte cfg fuel m p va with
    | error e => exact ⟨fun h => (by cases h), fun h => (by cases h.2.1)⟩
    | ok r =>
      obtain ⟨m1, p1⟩ := r
      obtain ⟨hflips, -, hP⟩ := touchByte_flips hk ht
      have hm := mapped_of_P hP
      have hU : has (p1.pgdir.pteAt (vpn va)) pteU = has (p.pgdir.pteAt (vpn va)) pteU :=
        (hflips.recoded.entry _).user
      have hka : uva2ka p1.pgdir (pgRoundDown va) = .ok (if has (p.pgdir.pteAt (vpn va)) pteU then
          some (pteFrame (p1.pgdir.pteAt (vpn va))) else none) := by
        rw [uva2ka_tab (by rw [vpn_pgRoundDown]; exact PgDir.tabAt_of_mapped hm), vpn_pgRoundDown,
          hm, hU, Bool.true_and]
      rw [Lib.ok_bind]
      dsimp only
      rw [hka, Lib.ok_bind]
      cases has (p.pgdir.pteAt (vpn va)) pteU with
      | false => exact ⟨fun h => (by cases h), fun h => (by cases h.2.2.1)⟩
      | true =>
        refine ⟨fun h => ?_, fun h => ?_⟩
        · cases h
          exact ⟨rfl, rfl, rfl, rfl⟩
        · obtain ⟨-, h1, -, rfl⟩ := h
          cases h1
          rfl

end

/-! ## 3. The source -/

/-- **The copy reads physical memory only**, or the call ends before it. -/
def SourceInside (m : Kmem) (p : Proc) (physicalAddr buffer : Nat) : Prop :=
  ∀ fuel src m' p', dumpStart cfg fuel m p physicalAddr buffer = .ok (some src, m', p') →
    InDirectMap src

/-- The source is in the direct map exactly for addresses of physical memory. -/
theorem dumpSource_iff (a : Word) : InDirectMap (dumpSource a.toNat) ↔ a.toNat < phystop := by
  have ha := a.isLt
  unfold InDirectMap dumpSource addU pgRoundDown kernBase pgSize phystop
  omega

/-- **When the source is inside**: the address is below PHYSTOP, or the call does not get to the
    copy, since `argptr` refuses the buffer, the page fault of the touch is not handled, or the
    first page of the buffer is not a user page. -/
theorem dump_source_iff (m : Kmem) (p : Proc) (physicalAddr : Word) (buffer : Nat) (hp : Sane p) :
    SourceInside cfg m p physicalAddr.toNat buffer ↔
      physicalAddr.toNat < phystop ∨ argptr p buffer pgSize = false ∨
        (∀ fuel r, touchByte cfg fuel m p buffer ≠ .ok r) ∨
        has (p.pgdir.pteAt (vpn buffer)) pteU = false := by
  constructor
  · intro h
    by_contra hc
    rw [not_or, not_or, not_or] at hc
    obtain ⟨hlt, harg, ht, hU⟩ := hc
    push Not at ht
    obtain ⟨fuel, ⟨m1, p1⟩, ht⟩ := ht
    have hstart := (dumpStart_some physicalAddr.toNat hp.high).mpr
      ⟨Bool.eq_true_of_not_eq_false harg, ht, Bool.eq_true_of_not_eq_false hU, rfl⟩
    exact hlt ((dumpSource_iff physicalAddr).mp (h fuel _ m1 p1 hstart))
  · intro h fuel src m1 p1 hstart
    obtain ⟨harg, ht, hU, rfl⟩ := (dumpStart_some _ hp.high).mp hstart
    rcases h with h | h | h | h
    · exact (dumpSource_iff physicalAddr).mpr h
    · rw [harg] at h
      cases h
    · exact absurd ht (h fuel _)
    · rw [hU] at h
      cases h

/-- The first frame of memory. -/
theorem dump_source_iff_zero : SourceInside xv6 (freshKernel 1).kmem (freshProc 1) 0 0 :=
  (dump_source_iff xv6 _ (freshProc 1) 0 0 (freshProc_fresh 1 (by decide)).sane).mpr
    (.inl (by decide))

/-- **A source above physical memory**: the call copies from KERNBASE + PHYSTOP. -/
theorem dump_above_phystop : Sane (freshProc 1) ∧
    ¬ SourceInside xv6 (freshKernel 1).kmem (freshProc 1) phystop 0 := by
  refine ⟨(freshProc_fresh 1 (by decide)).sane, fun h => ?_⟩
  have hrun : Lib.okAnd (dumpStart xv6 2 (freshKernel 1).kmem (freshProc 1) phystop 0)
      (fun r => r.1 == some (kernBase + phystop)) = true := by
    decide +kernel
  obtain ⟨⟨src, m, p⟩, h1, h2⟩ := Lib.okAnd_iff.mp hrun
  dsimp only at h2
  rw [beq_iff_eq] at h2
  subst h2
  exact absurd (h 2 _ m p h1) (by decide)

/-! ## 4. The bytes -/

/-- **The buffer delivers the bytes `raw`** as user code reads it, and every other byte is as it
    was. -/
structure Delivers (s s' : Vm) (raw : Page) (buffer : Nat) : Prop where
  bytes : ∀ j, j < pgSize → ubyte s' (buffer + j) = raw j
  others : ∀ c, c < kernBase → mapped (s.pd.pteAt (vpn c)) = true →
    c < buffer ∨ buffer + pgSize ≤ c → ubyte s' c = ubyte s c

theorem ubyte_rbyte (s : Vm) (va : Nat) : ubyte s va =
    if has (s.pd.pteAt (vpn va)) pteE then s.rbyte va ^^^ 0xFF else s.rbyte va := by
  unfold ubyte Vm.logical
  split <;> rfl

section
variable {own : Frame → Option Page} {f : Frame}

theorem raw_setPage {m : Kmem} {g : Frame} (pg : Page) (h : g ≠ f) :
    (m.setPage g pg).raw own f = m.raw own f := by
  unfold Kmem.raw
  rw [Kmem.setPage_mem_ne _ _ h.symm]

/-- The bytes of the frame that are still to be copied. -/
def restBytes (own : Frame → Option Page) (f : Frame) (m : Kmem) (off : Nat) : List Byte :=
  (List.range (pgSize - off)).map fun j => m.raw own f (off + j)

theorem restBytes_length (m : Kmem) (off : Nat) :
    (restBytes own f m off).length = pgSize - off := by
  unfold restBytes
  rw [List.length_map, List.length_range]

theorem restBytes_getD {m : Kmem} {off j : Nat} (h : j < pgSize - off) :
    (restBytes own f m off).getD j 0 = m.raw own f (off + j) := by
  unfold restBytes
  rw [List.getD_eq_getElem?_getD, List.getElem?_map, List.getElem?_range h]
  rfl

theorem restBytes_take {m : Kmem} {off k : Nat} (h : k ≤ pgSize - off) :
    (restBytes own f m off).take k = (List.range k).map fun j => m.raw own f (off + j) := by
  unfold restBytes
  rw [← List.map_take, List.take_range, Nat.min_eq_left h]

theorem restBytes_drop {m m' : Kmem} {off k : Nat} (h : m'.raw own f = m.raw own f) :
    (restBytes own f m off).drop k = restBytes own f m' (off + k) := by
  refine List.ext_getElem? fun j => ?_
  unfold restBytes
  rw [h, List.getElem?_drop, List.getElem?_map, List.getElem?_map]
  by_cases hj : k + j < pgSize - off
  · rw [List.getElem?_range hj, List.getElem?_range (by omega), Option.map_some, Option.map_some,
      Nat.add_assoc]
  · rw [List.getElem?_eq_none (by rw [List.length_range]; omega),
      List.getElem?_eq_none (by rw [List.length_range]; omega)]
    rfl

/-- A buffer that is not backed by the frame gets its bytes as from a copy of them. -/
theorem dumpLoop_eq {n : Nat} : ∀ {s : Vm} {va off : Nat}, va + (pgSize - off) ≤ kernBase →
    (∀ c, va ≤ c → c < va + (pgSize - off) → pteFrame (s.pd.pteAt (vpn c)) ≠ f) →
    dumpLoop own f n s va off = copyoutLoop n s va (restBytes own f s.m off) := by
  induction n with
  | zero =>
    intro s va off _ _
    rfl
  | succ n ih =>
    intro s va off hlow hne
    unfold dumpLoop copyoutLoop
    rw [restBytes_length]
    by_cases h0 : pgSize - off = 0
    · rw [if_pos h0, if_pos h0]
    rw [if_neg h0, if_neg h0]
    dsimp only
    cases hka : uva2ka s.pd (pgRoundDown va) with
    | error e => rfl
    | ok o =>
      rw [Lib.ok_bind, Lib.ok_bind]
      cases o with
      | none => rfl
      | some g =>
        dsimp only
        obtain ⟨-, -, hg⟩ := uva2ka_some hka
        rw [vpn_pgRoundDown] at hg
        have hgf : g ≠ f := hg ▸ hne va (Nat.le_refl va) (by omega)
        rw [restBytes_take (Nat.min_le_right _ _)]
        generalize hkn : min (pgSize - (va - pgRoundDown va)) (pgSize - off) = k
        rw [restBytes_drop (raw_setPage _ hgf)]
        have hk : kernBase = 2 ^ 31 := rfl
        have hpg : pgSize = 4096 := rfl
        have hoff : va - pgRoundDown va = va % 4096 := by
          unfold pgRoundDown
          omega
        have hnext : addU (pgRoundDown va) pgSize = va / 4096 * 4096 + 4096 := by
          unfold addU pgRoundDown pgSize
          omega
        rw [hnext]
        refine ih (by omega) fun c h1 h2 => hne c (by omega) (by omega)

end

/-! ## 5. The theorem -/

/-- The frame that is dumped. -/
theorem mapFrame_dumpSource {a : Word} (h : a.toNat < phystop) :
    mapFrame (dumpSource a.toNat) = BitVec.ofNat 20 (a.toNat / pgSize) := by
  have hn : (dumpSource a.toNat - kernBase) / pgSize = a.toNat / pgSize := by
    unfold phystop at h
    unfold dumpSource addU pgRoundDown kernBase pgSize
    omega
  unfold mapFrame
  rw [hn]

section
variable {cfg} {own : Frame → Option Page} {fuel : Nat} {m m1 m' : Kmem} {p p1 p' : Proc}
  {a : Word} {buffer : Nat}

/-- The stored bytes after a call that returns 0. -/
theorem dump_rbyte (hp : Shaped p) (hone : ∀ f, p.pgdir.holds f ≤ 1) (ha : a.toNat < phystop)
    (hbuf : buffer + pgSize ≤ p.sz)
    (hframe : ∀ c, buffer ≤ c → c < buffer + pgSize →
      pteFrame (p.pgdir.pteAt (vpn c)) ≠ BitVec.ofNat 20 (a.toNat / pgSize))
    (ht : touchByte cfg fuel m p buffer = .ok (m1, p1))
    (h : sysDumpRawphymem cfg own fuel m p a.toNat buffer = .ok (some (0, m', p'))) :
    p'.pgdir = p1.pgdir ∧ ∀ c, c < kernBase → mapped (p1.pgdir.pteAt (vpn c)) = true →
      (p'.vm m').rbyte c = if buffer ≤ c ∧ c < buffer + pgSize then
        m1.raw own (BitVec.ofNat 20 (a.toNat / pgSize)) (c - buffer) else (p1.vm m1).rbyte c := by
  have hsz := hp.size
  obtain ⟨⟨src, m2, p2⟩, h1, h2⟩ := Lib.bind_eq_ok.mp h
  cases src with
  | none => cases h2
  | some src =>
    obtain ⟨-, ht', -, rfl⟩ := (dumpStart_some _ hp.high).mp h1
    cases ht.symm.trans ht'
    obtain ⟨hflips, -, -⟩ := touchByte_flips hp.high ht
    have hrec := hflips.recoded
    dsimp only at h2
    rw [if_neg (not_not.mpr ((dumpSource_iff a).mpr ha)), mapFrame_dumpSource ha] at h2
    obtain ⟨⟨r, s⟩, h3, h4⟩ := Lib.bind_eq_ok.mp h2
    obtain rfl : r = 0 := by
      by_contra hr
      dsimp only at h4
      rw [if_pos hr] at h4
      cases h4
    cases h4
    have hsame : ∀ u, pteFrame (p1.pgdir.pteAt u) = pteFrame (p.pgdir.pteAt u) := fun u =>
      (hrec.entry u).frame
    have hne : ∀ c, buffer ≤ c → c < buffer + (pgSize - 0) →
        pteFrame ((p1.vm m1).pd.pteAt (vpn c)) ≠ BitVec.ofNat 20 (a.toNat / pgSize) :=
      fun c hc1 hc2 => by
        rw [Proc.vm_pd, hsame]
        exact hframe c hc1 hc2
    rw [dumpLoop_eq (by omega) hne] at h3
    have hlen := @restBytes_length own (BitVec.ofNat 20 (a.toNat / pgSize)) m1 0
    rw [Nat.sub_zero] at hlen
    obtain ⟨hpd, hbytes⟩ := copyoutLoop_rbyte (s := p1.vm m1)
      (fun f => (hrec.holds f).symm ▸ hone f) (Nat.le_of_eq hlen) (by omega) h3
    refine ⟨hpd, fun c hc hm => (hbytes c hc hm).trans ?_⟩
    rw [hlen]
    by_cases hin : buffer ≤ c ∧ c < buffer + pgSize
    · rw [if_pos hin, if_pos hin]
      exact (restBytes_getD (by omega)).trans (by rw [Nat.zero_add])
    · rw [if_neg hin, if_neg hin]

end

/-- **When the buffer delivers the frame**: it is one page, or its second page is not encrypted when
    the copy starts. `p1` is the process after the touch of the first byte, and `m1` the memory; the
    bytes are those the frame held at that time. -/
theorem dump_delivers_iff (own : Frame → Option Page) (fuel : Nat) (m m1 m' : Kmem)
    (p p1 p' : Proc) (physicalAddr : Word) (buffer : Nat) (hp : Shaped p)
    (hone : ∀ f, p.pgdir.holds f ≤ 1) (hpa : physicalAddr.toNat < phystop)
    (hbuf : buffer + pgSize ≤ p.sz)
    (hframe : ∀ c, buffer ≤ c → c < buffer + pgSize →
      pteFrame (p.pgdir.pteAt (vpn c)) ≠ BitVec.ofNat 20 (physicalAddr.toNat / pgSize))
    (ht : touchByte cfg fuel m p buffer = .ok (m1, p1))
    (h : sysDumpRawphymem cfg own fuel m p physicalAddr.toNat buffer = .ok (some (0, m', p'))) :
    Delivers (p.vm m) (p'.vm m') (m1.raw own (BitVec.ofNat 20 (physicalAddr.toNat / pgSize)))
        buffer ↔
      buffer % pgSize = 0 ∨ has (p1.pgdir.pteAt (vpn (buffer + (pgSize - 1)))) pteE = false := by
  obtain ⟨hpd, hbytes⟩ := dump_rbyte hp hone hpa hbuf hframe ht h
  obtain ⟨hflips, -, hP⟩ := touchByte_flips hp.high ht
  have hrec := hflips.recoded
  have hshape := hrec.toPdRecoded.shape hp.shape
  have hsz := hp.size
  have hk : kernBase = 2 ^ 31 := rfl
  have hpg : pgSize = 4096 := rfl
  have hmap : ∀ u, mapped (p1.pgdir.pteAt u) = mapped (p.pgdir.pteAt u) := fun u =>
    (hrec.entry u).map
  -- the first page was touched
  have hfirst : has (p1.pgdir.pteAt (vpn buffer)) pteE = false := by
    have hlow := (hshape.low (vpn buffer) (vpn_lt_pages (by omega))).1
    rw [Proc.vm_pd, hP] at hlow
    simpa using hlow
  have hread : ∀ j, j < pgSize → ubyte (p'.vm m') (buffer + j) =
      if has (p1.pgdir.pteAt (vpn (buffer + j))) pteE then
        m1.raw own (BitVec.ofNat 20 (physicalAddr.toNat / pgSize)) j ^^^ 0xFF
      else m1.raw own (BitVec.ofNat 20 (physicalAddr.toNat / pgSize)) j := fun j hj => by
    have hb := hbytes (buffer + j) (by omega)
      (by rw [hmap]; exact hp.shape.mapped (vpn_lt_pages (by omega)))
    rw [if_pos ⟨Nat.le_add_right _ _, by omega⟩, Nat.add_sub_cancel_left] at hb
    rw [ubyte_rbyte, Proc.vm_pd, hpd, hb]
  have hmod : buffer % pgSize = buffer % 4096 := rfl
  constructor
  · intro hd
    by_contra hc
    rw [not_or] at hc
    -- the first byte of the second page
    have hv : vpn (buffer + (4096 - buffer % 4096)) = vpn (buffer + (pgSize - 1)) := by
      unfold vpn
      omega
    have hj := hd.bytes (4096 - buffer % 4096) (by omega)
    rw [hread _ (by omega), hv, Bool.eq_true_of_not_eq_false hc.2, if_pos rfl] at hj
    exact flip_ne _ hj
  · intro hc
    refine ⟨fun j hj => ?_, fun c hlow hm hout => ?_⟩
    · have hE : has (p1.pgdir.pteAt (vpn (buffer + j))) pteE = false := by
        have hv : vpn (buffer + j) = vpn buffer ∨
            buffer % 4096 ≠ 0 ∧ vpn (buffer + j) = vpn (buffer + (pgSize - 1)) := by
          unfold vpn
          omega
        rcases hv with hv | ⟨h0, hv⟩ <;> rw [hv]
        · exact hfirst
        · exact hc.resolve_left h0
      rw [hread j hj, hE]
      rfl
    · have hb := hbytes c hlow (by rw [hmap]; exact hm)
      rw [if_neg fun hin => by omega] at hb
      have hsame : ubyte (p'.vm m') c = ubyte (p1.vm m1) c := by
        rw [ubyte_rbyte, ubyte_rbyte, Proc.vm_pd, Proc.vm_pd, hpd, hb]
      rw [hsame]
      unfold ubyte
      rw [hflips.logical hone (vpn_low hlow) hm]

/-- Frame 1, dumped to the one page of a process. -/
theorem dump_delivers_iff_aligned : ∃ m1 p1 m' p',
    touchByte xv6 2 (freshKernel 1).kmem (freshProc 1) 0 = .ok (m1, p1) ∧
    sysDumpRawphymem xv6 (fun _ => none) 2 (freshKernel 1).kmem (freshProc 1) 0x1000 0 =
      .ok (some (0, m', p')) ∧
    Delivers ((freshProc 1).vm (freshKernel 1).kmem) (p'.vm m') (m1.raw (fun _ => none) 1) 0 := by
  have ht : Lib.okAnd (touchByte xv6 2 (freshKernel 1).kmem (freshProc 1) 0) (fun _ => true) =
      true := by
    decide +kernel
  have hd : Lib.okAnd (sysDumpRawphymem xv6 (fun _ => none) 2 (freshKernel 1).kmem (freshProc 1)
      0x1000 0) (fun o => o.any fun r => r.1 == 0) = true := by
    decide +kernel
  obtain ⟨⟨m1, p1⟩, ht, -⟩ := Lib.okAnd_iff.mp ht
  obtain ⟨o, hd, h0⟩ := Lib.okAnd_iff.mp hd
  obtain ⟨⟨r, m', p'⟩, rfl, hr⟩ := (Option.any_eq_true _ _).mp h0
  obtain rfl : r = 0 := by simpa using hr
  have hfresh := freshProc_fresh 1 (by decide)
  refine ⟨m1, p1, m', p', ht, hd, ?_⟩
  refine (dump_delivers_iff xv6 (fun _ => none) 2 _ m1 m' _ p1 p' 0x1000#32 0
    ⟨hfresh.sane, hfresh.shape⟩ (freshDir_once 1) (by decide) (by decide) (fun c _ hc => ?_)
    ht hd).mpr (.inl rfl)
  have hv : vpn c = 0 := by
    unfold pgSize at hc
    unfold vpn
    omega
  rw [hv]
  decide

/-- **A buffer over two pages**: the second is encrypted, so its byte is read as its complement. -/
theorem dump_second_page : ∃ m1 p1 m' p',
    Shaped (freshProc 2) ∧ 1 + pgSize ≤ (freshProc 2).sz ∧
    touchByte xv6 2 (freshKernel 2).kmem (freshProc 2) 1 = .ok (m1, p1) ∧
    sysDumpRawphymem xv6 (fun _ => none) 2 (freshKernel 2).kmem (freshProc 2) 0x1000 1 =
      .ok (some (0, m', p')) ∧
    ¬ Delivers ((freshProc 2).vm (freshKernel 2).kmem) (p'.vm m') (m1.raw (fun _ => none) 1) 1 := by
  have ht : Lib.okAnd (touchByte xv6 2 (freshKernel 2).kmem (freshProc 2) 1) (fun r =>
      r.1.raw (fun _ => none) 1 4095 == 0x55) = true := by
    decide +kernel
  have hd : Lib.okAnd (sysDumpRawphymem xv6 (fun _ => none) 2 (freshKernel 2).kmem (freshProc 2)
      0x1000 1)
      (fun o => o.any fun r => r.1 == 0 && ubyte (r.2.2.vm r.2.1) 4096 == 0xAA) = true := by
    decide +kernel
  obtain ⟨⟨m1, p1⟩, ht, hraw⟩ := Lib.okAnd_iff.mp ht
  obtain ⟨o, hd, h0⟩ := Lib.okAnd_iff.mp hd
  obtain ⟨⟨r, m', p'⟩, rfl, hr⟩ := (Option.any_eq_true _ _).mp h0
  simp only [Bool.and_eq_true, beq_iff_eq] at hr hraw
  obtain ⟨rfl, hbyte⟩ := hr
  have hfresh := freshProc_fresh 2 (by decide)
  refine ⟨m1, p1, m', p', ⟨hfresh.sane, hfresh.shape⟩, by decide, ht, hd, fun hc => ?_⟩
  have h1 := (hbyte.symm.trans (hc.bytes 4095 (by decide))).trans hraw
  exact absurd h1 (by decide)

end Xv6Clock
