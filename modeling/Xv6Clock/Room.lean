/-
  File:      Xv6Clock/Room.lean
  Subject:   Enough memory: with a free frame for every page-table page that may be needed, mapping
             pages succeeds; so `setupkvm` needs 65 free frames, and boot of the repository's build
             goes through.

  `absent D pd` counts the directory entries of `D` that have no page-table page. Mapping a page
  takes a frame from the free list exactly when it makes one of them present, so the difference of
  the list's length and `absent` does not change.
-/
import Xv6Clock.Boot

namespace Xv6Clock

open Finset

variable (cfg : Config)

/-! ## 1. Page-table pages still missing -/

variable {m : Kmem} {D : Nat → Bool} {s s' : Vm} {n : Nat} {k : Kernel}

/-- `kalloc` of a list that is not empty. -/
theorem kalloc_total (h : 0 < m.freelist.length) : ∃ f m', kalloc m = some (f, m') ∧
    m.freelist.length = m'.freelist.length + 1 := by
  cases hk : kalloc m with
  | none =>
    exfalso
    unfold kalloc at hk
    split at hk
    · rename_i h0
      rw [h0] at h
      cases h
    · cases hk
  | some x => exact ⟨x.1, x.2, rfl, by rw [(kalloc_some hk).1, List.length_cons]⟩

/-- The directory entries in `D` without a page-table page. -/
def absent (D : Nat → Bool) (pd : PgDir) : Nat :=
  ∑ d ∈ range 1024, if D d && (pd.pde d).isNone then 1 else 0

/-- A page-table page for `d`. -/
theorem absent_addTab {pd : PgDir} {d : Nat} (f : Frame) (hd : d < 1024) (hD : D d = true)
    (hn : pd.pde d = none) : absent D (pd.addTab d f) + 1 = absent D pd := by
  have h := Lib.sum_update_entry (fun d (o : Option PgTab) => if D d && o.isNone then 1 else 0)
    pd.pde hd (some ⟨f, fun _ => 0#32⟩)
  simp only [hn, hD, Option.isNone_some, Option.isNone_none, Bool.and_true, Bool.and_false,
    Bool.false_eq_true, if_true, if_false, Nat.add_zero] at h
  exact h

theorem absent_store (D : Nat → Bool) (pd : PgDir) (v : Nat) (w : Word) :
    absent D (pd.store v w) = absent D pd := by
  unfold absent PgDir.store
  split
  · rename_i t ht
    refine sum_congr rfl fun d _ => ?_
    rw [PgDir.setTab_pde]
    by_cases hd : d = v / 1024
    · rw [if_pos hd, hd, ht]
      rfl
    · rw [if_neg hd]
  · rfl

/-- Frames left and page-table pages missing shrink together. -/
structure Spent (D : Nat → Bool) (s s' : Vm) : Prop where
  eq : s'.m.freelist.length + absent D s.pd = s.m.freelist.length + absent D s'.pd

theorem Spent.trans {s'' : Vm} (h1 : Spent D s s') (h2 : Spent D s' s'') :
    Spent D s s'' := ⟨by have := h1.eq; have := h2.eq; omega⟩

/-- There is a frame for every page-table page that is missing. -/
def Room (D : Nat → Bool) (s : Vm) : Prop := absent D s.pd ≤ s.m.freelist.length

theorem Spent.room (h : Spent D s s') (hr : Room D s) : Room D s' := by
  have := h.eq
  unfold Room at *
  omega

theorem walkpgdir_room {va : Nat} (hD : D (pdx va) = true) (hr : Room D s) :
    ∃ s', walkpgdir s va true = (some (vpn va), s') ∧ Spent D s s' := by
  unfold walkpgdir
  cases hp : s.pd.pde (pdx va) with
  | some t => exact ⟨s, rfl, ⟨rfl⟩⟩
  | none =>
    simp only [Bool.not_true, Bool.false_eq_true, if_false]
    have h1 := fun f => absent_addTab f (pdx_lt va) hD hp
    have h2 := h1 0
    unfold Room at hr
    obtain ⟨f, m, hk, hlen⟩ := kalloc_total (m := s.m) (by omega)
    rw [hk]
    refine ⟨_, rfl, ⟨?_⟩⟩
    have h3 := h1 f
    simp only
    omega

theorem mapPage_room {a : Nat} {pa perm : Word} {b : Bool} (hD : D (pdx a) = true) (hr : Room D s)
    (h : mapPage s a pa perm = .ok (b, s')) : b = true ∧ Spent D s s' := by
  obtain ⟨s1, h1, h2⟩ := walkpgdir_room hD hr
  unfold mapPage at h
  simp only [h1] at h
  split at h
  · cases h
  · cases h
    refine ⟨rfl, ⟨?_⟩⟩
    have := h2.eq
    simp only [absent_store]
    omega

/-- The loop of `mappages` with room. -/
theorem mappagesLoop_room : ∀ {s s' : Vm} {v : Nat} {pa perm : Word}
    {r : Int}, v + n < 2 ^ 20 → (∀ u, v ≤ u → u ≤ v + n → D (u / 1024) = true) → Room D s →
    mappagesLoop n s (v * 4096) pa perm = .ok (r, s') → r = 0 ∧ Spent D s s' := by
  induction n using Nat.strongRecOn with
  | ind n ih =>
    intro s s' v pa perm r hv hD hr h
    unfold mappagesLoop at h
    obtain ⟨⟨b, s1⟩, h1, h2⟩ := Lib.bind_eq_ok.mp h
    obtain ⟨rfl, h3⟩ := mapPage_room (by rw [pdx_page (by omega)]; exact hD v (by omega) (by omega))
      hr h1
    cases n with
    | zero =>
      cases h2
      exact ⟨rfl, h3⟩
    | succ n =>
      simp only [Bool.not_true, Bool.false_eq_true, if_false] at h2
      rw [vpn_addU (by omega)] at h2
      obtain ⟨h4, h5⟩ := ih n (Nat.lt_succ_self n) (by omega)
        (fun u h6 h7 => hD u (by omega) (by omega)) (h3.room hr) h2
      exact ⟨h4, h3.trans h5⟩

/-! ## 2. `setupkvm` with room -/

/-- The directory entries of the kernel half. -/
def kernTab (d : Nat) : Bool := decide (512 ≤ d ∧ d < 568 ∨ 1016 ≤ d)

theorem kmapPages_kernTab : ∀ p ∈ kmapPages cfg, ∀ u, p.1 ≤ u → u ≤ p.1 + p.2 →
    kernTab (u / 1024) = true := by
  have h1 := cfg.textLt
  have h2 := cfg.dataLe
  have h3 := cfg.endLt
  simp only [extMem, pgSize, phystop] at h1 h3
  unfold kernTab kmapPages
  simp only [List.mem_cons, List.not_mem_nil, or_false, forall_eq_or_imp, forall_eq,
    decide_eq_true_eq]
  refine ⟨fun u h4 h5 => ?_, fun u h4 h5 => ?_, fun u h4 h5 => ?_, fun u h4 h5 => ?_⟩ <;> omega

theorem kmapLoop_room {ks : List Kmap} {ps : List (Nat × Nat)}
    (hrows : List.Forall₂ (fun k p => RowPages k p.1 p.2) ks ps) :
    ∀ {s s' : Vm} {b : Bool}, (∀ p ∈ ps, ∀ u, p.1 ≤ u → u ≤ p.1 + p.2 → kernTab (u / 1024) = true) →
      Room kernTab s → kmapLoop ks s = .ok (b, s') → b = true ∧ Spent kernTab s s' := by
  induction hrows with
  | nil =>
    intro s s' b _ _ h
    cases h
    exact ⟨rfl, ⟨rfl⟩⟩
  | @cons k p ks ps hr _ ih =>
    intro s s' b hD hroom h
    unfold kmapLoop at h
    obtain ⟨⟨r, s1⟩, h1, h2⟩ := Lib.bind_eq_ok.mp h
    rw [hr.virt, hr.size, mappages_pages hr.fits] at h1
    obtain ⟨rfl, h3⟩ := mappagesLoop_room hr.fits (hD p (List.mem_cons_self ..)) hroom h1
    dsimp only at h2
    rw [if_neg (by decide)] at h2
    obtain ⟨h4, h5⟩ := ih (fun q hq => hD q (List.mem_cons_of_mem p hq)) (h3.room hroom) h2
    exact ⟨h4, h3.trans h5⟩

theorem absent_fresh (f : Frame) : absent kernTab ⟨f, fun _ => none⟩ = 64 := by
  unfold absent
  simp only [Option.isNone_none, Bool.and_true]
  decide +kernel

/-- **`setupkvm` takes at most 65 frames**, and succeeds when it has them. -/
theorem setupkvm_room (h : 65 ≤ m.freelist.length) : ∃ pd m',
    setupkvm cfg m = .ok (some pd, m') ∧ KernDir pd ∧ Took m m' pd ∧
      m.freelist.length ≤ m'.freelist.length + 65 := by
  obtain ⟨f, m1, hk, hlen⟩ := kalloc_total (m := m) (by omega)
  have hfresh := absent_fresh f
  obtain ⟨b, s, h1, hd, ht⟩ := kmapLoop_fresh cfg hk
  have hroom : Room kernTab ⟨m1, ⟨f, fun _ => none⟩⟩ := by
    unfold Room
    simp only [hfresh]
    omega
  obtain ⟨rfl, hsp⟩ := kmapLoop_room (kmap_rows cfg) (kmapPages_kernTab cfg) hroom h1
  refine ⟨s.pd, s.m, ?_, hd rfl, ht, ?_⟩
  · unfold setupkvm
    simp only [hk]
    rw [if_neg (by decide), h1]
    rfl
  · have := hsp.eq
    simp only [hfresh] at this
    omega

/-! ## 3. `allocuvm` and `growproc` with room -/

/-- The loop of `allocuvm` with a frame for every page and page-table page. -/
theorem allocuvmLoop_room : ∀ {s s' : Vm} {v oldsz newsz r : Nat},
    newsz < kernBase → (∀ u, v ≤ u → u < pages newsz → D (u / 1024) = true) →
    pages newsz - v + absent D s.pd ≤ s.m.freelist.length →
    allocuvmLoop cfg n s (v * 4096) oldsz newsz = .ok (r, s') →
    r = newsz ∧ s.m.freelist.length ≤
      s'.m.freelist.length + (pages newsz - v) + absent D s.pd := by
  induction n with
  | zero =>
    intro s s' v oldsz newsz r _ _ _ h
    cases h
    exact ⟨rfl, by omega⟩
  | succ n ih =>
    intro s s' v oldsz newsz r hk hD hroom h
    unfold allocuvmLoop at h
    split at h
    · cases h
      exact ⟨rfl, by omega⟩
    rename_i hlt
    have hv : v < pages newsz := by
      unfold pages
      omega
    have hv19 := pages_le hk
    obtain ⟨f, m1, hka, hlen⟩ := kalloc_total (m := s.m) (by omega)
    simp only [hka] at h
    obtain ⟨⟨r1, s1⟩, h1, h2⟩ := Lib.bind_eq_ok.mp h
    have hr : Room D ⟨m1.setPage f (fill 0), s.pd⟩ := by
      unfold Room
      simp only [Kmem.setPage_freelist]
      omega
    have h1' : mappagesLoop 0 ⟨m1.setPage f (fill 0), s.pd⟩ (v * 4096) (frameAddr f)
        (pteW ||| pteU) = .ok (r1, s1) := by
      rw [← mappages_pages (v := v) (n := 0) (by omega)]
      exact h1
    obtain ⟨rfl, hsp⟩ := mappagesLoop_room (by omega) (fun u h3 h4 => hD u h3 (by omega)) hr h1'
    have e := hsp.eq
    simp only [Kmem.setPage_freelist] at e
    dsimp only at h2
    rw [if_neg (by decide), vpn_addU (by omega)] at h2
    obtain ⟨h3, h4⟩ := ih hk (fun u h3 h4 => hD u (by omega) h4) (by omega) h2
    exact ⟨h3, by omega⟩

/-- **`allocuvm` succeeds** on unmapped pages with enough free frames. -/
theorem allocuvm_room (oldsz newsz : Nat) (hk : newsz < kernBase) (hle : oldsz ≤ newsz)
    (hm : AllManaged cfg s.m s.pd)
    (hz : ∀ u, pages oldsz ≤ u → u < pages newsz → mapped (s.pd.pteAt u) = false)
    (hD : ∀ u, pages oldsz ≤ u → u < pages newsz → D (u / 1024) = true)
    (hroom : pages newsz - pages oldsz + absent D s.pd ≤ s.m.freelist.length) :
    ∃ s', allocuvm cfg s oldsz newsz = .ok (newsz, s') ∧ s.m.freelist.length ≤
      s'.m.freelist.length + (pages newsz - pages oldsz) + absent D s.pd := by
  cases ha : allocuvm cfg s oldsz newsz with
  | error e =>
    exfalso
    obtain ⟨-, ⟨u, h1, h2, h3⟩ | ⟨f, h1, h2⟩⟩ := allocuvm_error (by omega) ha
    · rw [hz u h1 h2] at h3
      cases h3
    · exact h2 (hm f h1)
  | ok x =>
    obtain ⟨r, s'⟩ := x
    have hold : oldsz ≤ 2 ^ 31 := Nat.le_of_lt (Nat.lt_of_le_of_lt hle hk)
    unfold allocuvm at ha
    rw [if_neg (by omega), if_neg (by omega)] at ha
    simp only [pgRoundUp_pages hold] at ha
    obtain ⟨rfl, h1⟩ := allocuvmLoop_room cfg hk hD hroom ha
    exact ⟨s', rfl, h1⟩

/-- The entries of a range of directory entries that are missing. -/
theorem absent_le (n : Nat) (pd : PgDir) : absent (fun d => decide (d < n)) pd ≤ n := by
  unfold absent
  have h1 : ∀ d, (if decide (d < n) && (pd.pde d).isNone then 1 else 0) ≤
      if d < n then 1 else 0 := by
    intro d
    by_cases hd : d < n
    · rw [if_pos hd]
      split <;> omega
    · simp [hd]
  refine (sum_le_sum fun d _ => h1 d).trans ?_
  rw [Lib.sum_lt]
  exact Nat.min_le_right _ _

/-! ## 4. Boot -/

theorem freerange_total : ∀ {m : Kmem} (lo : Nat),
    (∀ i, i < n → managed cfg (BitVec.ofNat 20 (lo + i))) →
    ∃ m', freerange cfg n m lo = .ok m' ∧ m'.freelist.length = m.freelist.length + n := by
  induction n with
  | zero => exact fun {m} _ _ => ⟨m, rfl, rfl⟩
  | succ n ih =>
    intro m lo h
    have h0 := h 0 (by omega)
    rw [Nat.add_zero] at h0
    obtain ⟨m', h1, h2⟩ := @ih ⟨BitVec.ofNat 20 lo :: m.freelist,
      Function.update m.mem (BitVec.ofNat 20 lo) (fill 1),
      m.twice || decide (BitVec.ofNat 20 lo ∈ m.freelist)⟩ (lo + 1) fun i hi => by
        have := h (i + 1) (by omega)
        rwa [show lo + (i + 1) = lo + 1 + i by omega] at this
    refine ⟨m', ?_, ?_⟩
    · unfold freerange
      rw [kfree_managed h0, Lib.ok_bind]
      exact h1
    · rw [h2, List.length_cons]
      omega

/-- `inituvm` maps page 0 and nothing else, with two frames at most. -/
theorem inituvm_total {pd : PgDir} (code : List Byte) (hd : KernDir pd)
    (h : 2 ≤ m.freelist.length) : ∃ s, inituvm m pd code = .ok s ∧
      m.freelist.length ≤ s.m.freelist.length + 2 ∧ (∃ f, s.pd.pteAt 0 = allocEntry f) ∧
      ∀ u, 1 ≤ u → u < 2 ^ 19 → s.pd.pteAt u = 0#32 := by
  unfold inituvm
  obtain ⟨f, m1, hk, hlen⟩ := kalloc_total (m := m) (by omega)
  have hab := absent_le 1 pd
  simp only [hk]
  cases hm : mappages ⟨m1.setPage f (fill 0), pd⟩ (0 * 4096) pgSize (frameAddr f)
    (pteW ||| pteU) with
  | error e =>
    have h1 : mapped (pd.pteAt 0) = true :=
      mappages_one_error (s := ⟨m1.setPage f (fill 0), pd⟩) (by decide) hm
    rw [hd.pte 0 (by decide), mapped_zero] at h1
    cases h1
  | ok y =>
    obtain ⟨r, s1⟩ := y
    have hm' := hm
    rw [show pgSize = (0 + 1) * 4096 from rfl, mappages_pages (v := 0) (n := 0) (by decide)] at hm'
    obtain ⟨rfl, hsp⟩ := mappagesLoop_room (D := fun d => decide (d < 1)) (by decide)
      (fun u h1 h2 => by rw [show u = 0 by omega]; rfl)
      (by unfold Room; simp only [Kmem.setPage_freelist]; omega) hm'
    have e := hsp.eq
    simp only [Kmem.setPage_freelist] at e
    refine ⟨_, rfl, ?_, ?_⟩
    · simp only [Kmem.setPage_freelist]
      omega
    · rcases newPage_of_mappages (s := ⟨m, pd⟩) hk (by decide) isFlags_user hm with
        ⟨h1, -⟩ | ⟨-, hp⟩
      · cases h1
      · refine ⟨⟨f, ?_⟩, fun u h1 h2 => ?_⟩
        · rw [hp.pte 0, if_pos rfl]
          rfl
        · rw [hp.pte u, if_neg (by omega)]
          exact hd.pte u h2

theorem startothers_total : ∀ {m : Kmem} (fs : List Frame), n ≤ m.freelist.length →
    ∃ fs' m', startothers n m fs = .ok (fs', m') := by
  induction n with
  | zero => exact fun {m} fs _ => ⟨fs, m, rfl⟩
  | succ n ih =>
    intro m fs h
    obtain ⟨f, m1, hk, hlen⟩ := kalloc_total (m := m) (by omega)
    obtain ⟨fs', m', h1⟩ := ih (m := m1) (f :: fs) (by omega)
    refine ⟨fs', m', ?_⟩
    unfold startothers
    simp only [hk]
    exact h1

/-- The first process: one plain page, and `n` frames left. -/
structure FirstProc (k : Kernel) (n : Nat) : Prop where
  run : (k.proc 0).state = .runnable
  size : (k.proc 0).sz = pgSize
  page : ∃ f, (k.proc 0).pgdir.pteAt 0 = allocEntry f
  rest : ∀ u, 1 ≤ u → u < 2 ^ 19 → (k.proc 0).pgdir.pteAt u = 0#32
  room : n ≤ k.kmem.freelist.length

theorem userinit_total (code : List Byte) (hz : ∀ i, k.proc i = Proc.zero)
    (h : n + 68 ≤ k.kmem.freelist.length) :
    ∃ k', userinit cfg k code = .ok k' ∧ FirstProc k' n := by
  have hfind : findUnused k = some 0 := by
    unfold findUnused
    simp only [hz]
    rfl
  obtain ⟨f, m1, hk, hlen⟩ := kalloc_total (m := k.kmem) (by omega)
  obtain ⟨pd, m2, h1, hd, -, h2⟩ := setupkvm_room cfg (m := m1) (by omega)
  obtain ⟨s, h3, h4, h5, h6⟩ := inituvm_total code hd (m := m2) (by omega)
  unfold userinit allocproc
  simp only [hfind, Kernel.setProc_kmem, hk]
  simp only [Kernel.setProc, Kernel.setKmem, h1, Lib.ok_bind, h3]
  refine ⟨_, rfl, ?_, ?_, ?_, ?_, ?_⟩
  · simp only [Function.update_self]
  · simp only [Function.update_self]
  · simp only [Function.update_self]
    exact h5
  · simp only [Function.update_self]
    exact h6
  · simp only
    omega

/-- **Boot goes through** when the frames below 4 MB are enough for the kernel's page table and
    the stacks of the other processors. -/
theorem boot_total (ncpu : Nat) (code : List Byte) (h : cfg.endPage + 65 + ncpu ≤ kinitSplit) :
    ∃ k, boot cfg ncpu code = .ok k ∧ FirstProc k 0xDB00 := by
  have hlast : phystop / pgSize = 0xE000 := by decide
  have hsplit : kinitSplit = 1024 := rfl
  have hman : ∀ n, cfg.endPage ≤ n → n < 0xE000 → managed cfg (BitVec.ofNat 20 n) := by
    intro n h1 h2
    unfold managed
    rw [toNat_frame (by omega), hlast]
    exact ⟨h1, h2⟩
  obtain ⟨m1, h1, l1⟩ := freerange_total cfg (n := kinitSplit - cfg.endPage)
    (m := ⟨[], fun _ => fill 0, false⟩) cfg.endPage fun i hi => hman _ (by omega) (by omega)
  rw [List.length_nil] at l1
  obtain ⟨pd, m2, h2, -, -, l2⟩ := setupkvm_room cfg (m := m1) (by omega)
  obtain ⟨fs, m3, h3⟩ := startothers_total (n := ncpu) (m := m2) [] (by omega)
  obtain ⟨m4, h4, l4⟩ := freerange_total cfg (n := phystop / pgSize - kinitSplit) (m := m3)
    kinitSplit fun i hi => hman _ (by omega) (by omega)
  unfold boot
  rw [h1, Lib.ok_bind, h2, Lib.ok_bind]
  simp only
  rw [h3, Lib.ok_bind]
  simp only
  rw [h4, Lib.ok_bind]
  exact userinit_total cfg code (fun _ => rfl) (by
    change 0xDB00 + 68 ≤ m4.freelist.length
    omega)

/-- The process table after boot: only entry 0 is in use, with no open file and an empty queue. -/
structure FreshTable (k : Kernel) : Prop where
  others : ∀ j, j ≠ 0 → k.proc j = Proc.zero
  ofile : (k.proc 0).ofile = fun _ => none
  queue : (k.proc 0).q = ⟨fun _ => 0, 0, 0⟩

theorem userinit_fresh {k' : Kernel} {code : List Byte} (hz : ∀ i, k.proc i = Proc.zero)
    (h : userinit cfg k code = .ok k') : FreshTable k' := by
  have hfind : findUnused k = some 0 := by
    unfold findUnused
    simp only [hz]
    rfl
  unfold userinit allocproc at h
  simp only [hfind, Kernel.setProc_kmem] at h
  cases hf : kalloc k.kmem with
  | none =>
    simp only [hf] at h
    cases h
  | some x =>
    simp only [hf] at h
    obtain ⟨⟨o, m2⟩, -, h2⟩ := Lib.bind_eq_ok.mp h
    cases o with
    | none => cases h2
    | some pd =>
      obtain ⟨s, -, h4⟩ := Lib.bind_eq_ok.mp h2
      simp only [Except.ok.injEq] at h4
      subst h4
      refine ⟨fun j hj => ?_, ?_, ?_⟩
      · simp only [Kernel.setProc, Kernel.setKmem, Function.update_of_ne hj, hz]
      · simp only [Kernel.setProc, Kernel.setKmem, Function.update_self, hz, Proc.zero]
      · simp only [Kernel.setProc, Kernel.setKmem, Function.update_self, hz, Proc.zero]

theorem boot_fresh {ncpu : Nat} {code : List Byte} (h : boot cfg ncpu code = .ok k) :
    FreshTable k := by
  unfold boot at h
  obtain ⟨m1, -, h⟩ := Lib.bind_eq_ok.mp h
  obtain ⟨⟨o, m2⟩, -, h⟩ := Lib.bind_eq_ok.mp h
  cases o with
  | none => cases h
  | some pd =>
    obtain ⟨⟨fs, m3⟩, -, h⟩ := Lib.bind_eq_ok.mp h
    obtain ⟨m4, -, h⟩ := Lib.bind_eq_ok.mp h
    exact userinit_fresh cfg (fun _ => rfl) h

end Xv6Clock
