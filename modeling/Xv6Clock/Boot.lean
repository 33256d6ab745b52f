/-
  File:      Xv6Clock/Boot.lean
  Subject:   The state after boot: every frame given to the allocator is in one place, and the
             first process has an empty queue. Boot itself succeeds with enough memory below 4 MB.
-/
import Xv6Clock.Ownership
import Xv6Clock.ClockIndex

namespace Xv6Clock

open Finset

variable (cfg : Config)

/-! ## 1. Giving the frames to the allocator -/

/-- Frame `f` is one of `n` frames from `lo` on. -/
def inFrames (lo n : Nat) (f : Frame) : Nat := if lo ≤ f.toNat ∧ f.toNat < lo + n then 1 else 0

theorem toNat_frame {lo : Nat} (h : lo < 2 ^ 20) : (BitVec.ofNat 20 lo).toNat = lo := by
  rw [BitVec.toNat_ofNat]
  exact Nat.mod_eq_of_lt h

theorem one_frame {lo : Nat} (h : lo < 2 ^ 20) (f : Frame) :
    one (BitVec.ofNat 20 lo) f = inFrames lo 1 f := by
  unfold one inFrames
  have e : BitVec.ofNat 20 lo = f ↔ lo ≤ f.toNat ∧ f.toNat < lo + 1 := by
    rw [← BitVec.toNat_inj, toNat_frame h]
    omega
  simp only [e]

theorem inFrames_succ (lo n : Nat) (f : Frame) :
    inFrames lo (n + 1) f = inFrames lo 1 f + inFrames (lo + 1) n f := by
  unfold inFrames
  split_ifs <;> omega

/-- **`freerange`** puts each of its frames on the list once. -/
theorem freerange_ok {n : Nat} : ∀ {m m' : Kmem} {lo : Nat}, lo + n ≤ 2 ^ 20 →
    freerange cfg n m lo = .ok m' →
    (∀ f, m'.free f = m.free f + inFrames lo n f) ∧ (∀ f, inFrames lo n f = 1 → managed cfg f) ∧
    ((∀ f, m.free f + inFrames lo n f ≤ 1) → m'.twice = m.twice) := by
  induction n with
  | zero =>
    intro m m' lo _ h
    cases h
    have e : ∀ f, inFrames lo 0 f = 0 := fun f => if_neg (by omega)
    refine ⟨fun f => by rw [e f]; rfl, fun f hf => ?_, fun _ => rfl⟩
    rw [e f] at hf
    cases hf
  | succ n ih =>
    intro m m' lo hlo h
    obtain ⟨m1, h1, h2⟩ := Lib.bind_eq_ok.mp h
    obtain ⟨e1, e2, e3⟩ := ih (by omega) h2
    have e4 := kfree_free h1
    have e5 : ∀ f, one (BitVec.ofNat 20 lo) f = inFrames lo 1 f := one_frame (by omega)
    refine ⟨fun f => ?_, fun f hf => ?_, fun hle => ?_⟩
    · have h3 := inFrames_succ lo n f
      rw [e1 f, e4 f, e5 f]
      omega
    · rw [inFrames_succ] at hf
      by_cases h3 : inFrames (lo + 1) n f = 1
      · exact e2 f h3
      · have h4 : one (BitVec.ofNat 20 lo) f = 1 := by
          rw [e5 f]
          unfold inFrames at *
          split_ifs at * <;> omega
        have h5 : BitVec.ofNat 20 lo = f := by
          by_contra hc
          rw [one, if_neg hc] at h4
          cases h4
        rw [← h5]
        exact (kfree_ok h1).1
    · have h3 := hle (BitVec.ofNat 20 lo)
      rw [inFrames_succ, ← e5, one_self] at h3
      rw [e3 fun f => ?_, kfree_twice h1 (by omega)]
      have h4 := hle f
      rw [inFrames_succ] at h4
      rw [e4 f, e5 f]
      omega

theorem startothers_ok {n : Nat} : ∀ {m m' : Kmem} {fs fs' : List Frame},
    startothers n m fs = .ok (fs', m') →
    (∀ f, m'.free f + fs'.count f = m.free f + fs.count f) ∧ m'.twice = m.twice := by
  induction n with
  | zero =>
    intro m m' fs fs' h
    cases h
    exact ⟨fun _ => rfl, rfl⟩
  | succ n ih =>
    intro m m' fs fs' h
    unfold startothers at h
    split at h
    · cases h
    · rename_i g m1 hk
      obtain ⟨e1, e2⟩ := ih h
      refine ⟨fun f => ?_, e2.trans (kalloc_some hk).2.2⟩
      have e3 := kalloc_free hk f
      rw [e1 f, List.count_cons, e3]
      unfold one
      by_cases hg : g = f
      · simp [hg]
        omega
      · simp [hg]

/-! ## 2. The first process -/

/-- The page of `initcode`. -/
theorem inituvm_ok {m : Kmem} {pd : PgDir} {code : List Byte} {s : Vm} (hd : KernDir pd)
    (h : inituvm m pd code = .ok s) :
    (∀ f, s.m.free f + s.pd.holds f = m.free f + pd.holds f) ∧ s.m.twice = m.twice ∧
    Shape s.pd pgSize := by
  unfold inituvm at h
  split at h
  · cases h
  rename_i f m1 hk
  obtain ⟨⟨r, s1⟩, h1, h2⟩ := Lib.bind_eq_ok.mp h
  dsimp only at h2
  have h1' : mappages ⟨m1.setPage f (fill 0), pd⟩ (0 * 4096) pgSize (frameAddr f)
      (pteW ||| pteU) = .ok (r, s1) := h1
  rcases newPage_of_mappages (s := ⟨m, pd⟩) hk (by decide) isFlags_user h1' with
    ⟨rfl, -⟩ | ⟨rfl, hp⟩
  · cases h2
  rw [if_neg (by decide)] at h2
  cases h2
  have hpte : ∀ u, s1.pd.pteAt u = if u = 0 then allocEntry f else pd.pteAt u := hp.pte
  have hpg : pages pgSize = 1 := by decide
  have hhigh : KernHigh s1.pd := fun u hu => by
    rw [hpte u, if_neg (by omega)]
    exact hd.high u hu
  refine ⟨hp.count, hp.twice, fun u hu => ?_, fun u h3 h4 => ?_, fun u hu => ?_, hhigh,
    fun u h3 h4 => hp.tab u (hd.dev u h3 h4)⟩
  · rw [hpg] at hu
    simp only
    rw [hpte u, if_pos (by omega), has_allocEntry f (by decide), has_allocEntry f (by decide),
      has_allocEntry f (by decide)]
    decide
  · rw [hpg] at h3
    exact (hpte u).trans ((if_neg (by omega)).trans (hd.pte u h4))
  · simp only at hu ⊢
    rw [hpte u] at hu ⊢
    by_cases h0 : u = 0
    · rw [if_pos h0, has_allocEntry f (by decide)]
      decide
    · rw [if_neg h0] at hu
      by_cases h1 : u < 2 ^ 19
      · rw [hd.pte u h1, has_zero] at hu
        cases hu
      · rw [(hd.high u (by omega)).2] at hu
        cases hu

theorem pipesOk_empty : PipesOk ⟨fun _ => ⟨0, none, false, false⟩, fun _ => none⟩ where
  opened _ _ _ h := absurd h.1 (Nat.lt_irrefl 0)
  inj _ _ _ _ h := absurd h.1 (Nat.lt_irrefl 0)
  surj _ _ h := by
    obtain ⟨p, hp, -⟩ := h
    cases hp
  live _ _ h := by cases h
  closed _ _ := rfl

/-- A process as boot leaves it: of the right shape, with an empty queue. -/
structure Booted (p : Proc) : Prop extends Started p where
  shape : Shape p.pgdir p.sz

/-- What `userinit` starts from: an empty table. -/
structure Bare (k : Kernel) : Prop where
  unused : ∀ i, k.proc i = Proc.zero
  pipes : k.files = ⟨fun _ => ⟨0, none, false, false⟩, fun _ => none⟩
  once : k.kmem.twice = false
  count : ∀ f, k.kmem.free f + k.kpgdir.holds f + k.cpuStacks.count f =
    if managed cfg f then 1 else 0

theorem userinit_ok {k k' : Kernel} {code : List Byte} (hb : Bare cfg k)
    (h : userinit cfg k code = .ok k') : Accounted cfg k' ∧ EveryProc Booted k' := by
  have hfree : ∀ f, k.kmem.free f ≤ 1 := fun f => by
    have := hb.count f
    split at this <;> omega
  unfold userinit allocproc at h
  cases hu : findUnused k with
  | none =>
    simp only [hu] at h
    cases h
  | some j =>
    obtain ⟨hn, -⟩ := findUnused_some hu
    simp only [hu, Kernel.setProc_kmem] at h
    cases hf : kalloc k.kmem with
    | none =>
      simp only [hf] at h
      cases h
    | some x =>
      obtain ⟨f, m1⟩ := x
      simp only [hf] at h
      have e1 := kalloc_free hf
      obtain ⟨⟨o, m2⟩, h1, h2⟩ := Lib.bind_eq_ok.mp h
      simp only [Kernel.setProc, Kernel.setKmem, Function.update_self] at h1 h2
      rcases setupkvm_ok cfg h1 with ⟨rfl, -⟩ | ⟨pd, rfl, hd, ht⟩
      · cases h2
      obtain ⟨s, h3, h4⟩ := Lib.bind_eq_ok.mp h2
      obtain ⟨e2, e3, hshape⟩ := inituvm_ok hd h3
      simp only [Except.ok.injEq] at h4
      have hsane : ∀ p : Proc, p.pgdir = s.pd → p.sz = pgSize → Sane p := fun p h5 h6 =>
        ⟨h5 ▸ hshape.high, by rw [h6]; decide⟩
      have hz : ∀ i, (k.proc i).state = .unused := fun i => by rw [hb.unused i]; rfl
      subst h4
      refine ⟨⟨fun g => ?_, ?_, ?_, fun i hi => ?_⟩, fun i hi => ?_⟩
      · have e4 := hb.count g
        have e5 := e1 g
        have e6 := e2 g
        have e7 := ht.count g
        have e8 : tableHolds k.proc g = 0 :=
          sum_eq_zero fun i _ => procHolds_unused (hz i) g
        have e9 : k.files.holds g = 0 := by
          rw [hb.pipes]
          rfl
        rw [← e4]
        unfold places
        simp only [Function.update_idem]
        have e10 := tableHolds_update k.proc hn { k.proc j with
          kstack := f, pid := k.nextpid, q := { (k.proc j).q with inClock := 0 }
          pgdir := s.pd, sz := pgSize, tf := ⟨0, 0, pgSize⟩, state := .runnable
          name := [0x69, 0x6e, 0x69, 0x74, 0x63, 0x6f, 0x64, 0x65] } g
        rw [procHolds_unused (hz j), procHolds_used (by simp)] at e10
        simp only at e10
        omega
      · have e4 : m2.twice = m1.twice := ht.twice fun g => by
          have := e1 g
          have := hfree g
          omega
        exact (e3.trans e4).trans ((kalloc_some hf).2.2.trans hb.once)
      · rw [hb.pipes]
        exact pipesOk_empty
      · simp only [Function.update_idem] at hi ⊢
        by_cases hij : i = j
        · rw [hij, Function.update_self]
          exact hsane _ rfl rfl
        · rw [Function.update_of_ne hij, hz i] at hi
          exact absurd rfl hi
      · simp only [Function.update_idem] at hi ⊢
        by_cases hij : i = j
        · rw [hij, Function.update_self]
          exact ⟨⟨hsane _ rfl rfl, fun _ => hshape.used, rfl⟩, hshape⟩
        · rw [Function.update_of_ne hij, hz i] at hi
          exact absurd rfl hi

/-- `kinit1` and `kinit2` together hand out the frames of the allocator. -/
theorem inFrames_kinit (he : cfg.endPage ≤ kinitSplit) (f : Frame) :
    inFrames cfg.endPage (kinitSplit - cfg.endPage) f +
      inFrames kinitSplit (phystop / pgSize - kinitSplit) f = if managed cfg f then 1 else 0 := by
  have hlast : phystop / pgSize = 0xE000 := by decide
  by_cases hm : managed cfg f
  · obtain ⟨h1, h2⟩ := hm
    rw [if_pos ⟨h1, h2⟩]
    unfold inFrames kinitSplit at *
    split_ifs <;> omega
  · have h3 : ¬ (cfg.endPage ≤ f.toNat ∧ f.toNat < phystop / pgSize) := hm
    rw [if_neg hm]
    unfold inFrames kinitSplit at *
    split_ifs <;> omega

/-- **After boot the account is in order**, and the one process has its shape and an empty queue. -/
theorem boot_ok {ncpu : Nat} {code : List Byte} {k : Kernel} (h : boot cfg ncpu code = .ok k) :
    Accounted cfg k ∧ EveryProc Booted k := by
  obtain ⟨m1, h1, h2⟩ := Lib.bind_eq_ok.mp h
  obtain ⟨⟨o, m2⟩, h3, h4⟩ := Lib.bind_eq_ok.mp h2
  have hend := cfg.endLt
  have hlast : phystop / pgSize = 0xE000 := by decide
  obtain ⟨a1, a2, a3⟩ := freerange_ok cfg (by unfold kinitSplit; omega) h1
  rcases setupkvm_ok cfg h3 with ⟨rfl, -⟩ | ⟨pd, rfl, hd, ht⟩
  · cases h4
  obtain ⟨⟨fs, m3⟩, h5, h6⟩ := Lib.bind_eq_ok.mp h4
  obtain ⟨m4, h7, h8⟩ := Lib.bind_eq_ok.mp h6
  obtain ⟨b1, b2⟩ := startothers_ok h5
  obtain ⟨c1, c2, c3⟩ := freerange_ok cfg (by rw [hlast]; unfold kinitSplit; omega) h7
  -- the second range is the allocator's, so `end` lies below its first frame
  have he : cfg.endPage ≤ kinitSplit := by
    have h9 := (c2 (BitVec.ofNat 20 kinitSplit) (by rw [hlast]; decide)).1
    rwa [toNat_frame (by decide)] at h9
  have hall := inFrames_kinit cfg he
  have a0 : ∀ f, m1.free f = inFrames cfg.endPage (kinitSplit - cfg.endPage) f := fun f => by
    rw [a1 f]
    exact Nat.zero_add _
  have hle : ∀ f, m1.free f + inFrames kinitSplit (phystop / pgSize - kinitSplit) f ≤ 1 :=
    fun f => by
      rw [a0 f, hall f]
      split <;> omega
  refine userinit_ok cfg ⟨fun _ => rfl, rfl, ?_, fun f => ?_⟩ h8
  · have t1 : m1.twice = false := a3 fun f => by
      have := hle f
      rw [a0 f] at this
      exact Nat.le_trans (Nat.zero_add _).le (by omega)
    have t2 : m2.twice = m1.twice := ht.twice fun f => by
      have := hle f
      omega
    have t3 : m4.twice = m3.twice := c3 fun f => by
      have e1 := b1 f
      have e2 := ht.count f
      have e3 := hle f
      rw [List.count_nil] at e1
      omega
    exact t3.trans (b2.trans (t2.trans t1))
  · have e1 := b1 f
    have e2 := ht.count f
    have e3 := c1 f
    have e4 := hall f
    have e5 := a0 f
    rw [List.count_nil] at e1
    rw [← e4]
    change m4.free f + pd.holds f + fs.count f = _
    omega

end Xv6Clock
