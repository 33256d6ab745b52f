/-
  File:      Xv6Clock/Setupkvm.lean
  Subject:   The kernel half of every page table: `kmap` and `setupkvm` (vm.c).

  The four rows of `kmap` are disjoint runs of whole pages above KERNBASE, so mapping them never
  meets a mapped page. What a fresh page directory looks like afterwards is `KernDir`: nothing
  below KERNBASE, and no entry above it that a user could reach or that is marked encrypted.
-/
import Xv6Clock.Uvm

namespace Xv6Clock

open Finset

variable (cfg : Config)

/-! ## 1. The table and the function -/

/-- A row of `kmap`. -/
structure Kmap where
  virt : Nat
  physStart : Nat
  physEnd : Nat
  perm : Word

/-- `kmap[]`. -/
def kmap : List Kmap :=
  [⟨kernBase, 0, extMem, pteW⟩,
   ⟨kernLink, extMem, cfg.dataPage * pgSize, 0#32⟩,
   ⟨kernBase + cfg.dataPage * pgSize, cfg.dataPage * pgSize, phystop, pteW⟩,
   ⟨devSpace, devSpace, 0, pteW⟩]

/-- The loop of `setupkvm`; `false` when a `mappages` fails. -/
def kmapLoop : List Kmap → Vm → Except Err (Bool × Vm)
  | [], s => .ok (true, s)
  | k :: ks, s => do
    let (r, s) ← mappages s k.virt ((k.physEnd + (2 ^ 32 - k.physStart)) % 2 ^ 32)
      (BitVec.ofNat 32 k.physStart) k.perm
    if r < 0 then .ok (false, s) else kmapLoop ks s

/-- `setupkvm`. -/
def setupkvm (m : Kmem) : Except Err (Option PgDir × Kmem) :=
  match kalloc m with
  | none => .ok (none, m)
  | some (f, m) =>
    if devSpace < kernBase + phystop then .error (.panic .phystopTooHigh) else do
    let (done, s) ← kmapLoop (kmap cfg) ⟨m, ⟨f, fun _ => none⟩⟩
    if done then .ok (some s.pd, s.m) else do
    let m ← freevm cfg s
    .ok (none, m)

/-! ## 2. The rows as runs of pages -/

/-- A row maps `n + 1` whole pages from page `v`, above KERNBASE, to page-aligned frames, without
    PTE_U or PTE_E. -/
structure RowPages (k : Kmap) (v n : Nat) : Prop where
  virt : k.virt = v * 4096
  size : (k.physEnd + (2 ^ 32 - k.physStart)) % 2 ^ 32 = (n + 1) * 4096
  high : 2 ^ 19 ≤ v
  fits : v + n < 2 ^ 20
  gap : v + n < 0x8E000 ∨ 0xFE000 ≤ v
  aligned : k.physStart % 4096 = 0
  perm : k.perm = pteW ∨ k.perm = 0#32

/-- The pages of the rows, in order: first page and last page. -/
def kmapPages : List (Nat × Nat) :=
  [(2 ^ 19, 255), (2 ^ 19 + 256, cfg.dataPage - 257),
   (2 ^ 19 + cfg.dataPage, 0xE000 - cfg.dataPage - 1), (0xFE000, 0x1FFF)]

theorem kmap_rows : List.Forall₂ (fun k p => RowPages k p.1 p.2) (kmap cfg) (kmapPages cfg) := by
  have h1 := cfg.textLt
  have h2 := cfg.dataLe
  have h3 := cfg.endLt
  simp only [extMem, pgSize, phystop] at h1 h3
  refine .cons ?_ (.cons ?_ (.cons ?_ (.cons ?_ .nil)))
  · refine ⟨?_, ?_, ?_, ?_, ?_, ?_, Or.inl rfl⟩ <;> simp only [kernBase, extMem] <;> omega
  · refine ⟨?_, ?_, ?_, ?_, ?_, ?_, Or.inr rfl⟩ <;>
      simp only [pgSize, extMem, kernLink, kernBase] <;> omega
  · refine ⟨?_, ?_, ?_, ?_, ?_, ?_, Or.inl rfl⟩ <;> simp only [pgSize, kernBase, phystop] <;> omega
  · refine ⟨?_, ?_, ?_, ?_, ?_, ?_, Or.inl rfl⟩ <;> simp only [devSpace] <;> omega

/-- No two rows share a page. -/
theorem kmapPages_disjoint :
    (kmapPages cfg).Pairwise fun p q => p.1 + p.2 < q.1 := by
  have h1 := cfg.textLt
  have h2 := cfg.dataLe
  have h3 := cfg.endLt
  simp only [extMem, pgSize, phystop] at h1 h3
  simp only [kmapPages, List.pairwise_cons, List.mem_cons, List.not_mem_nil, or_false,
    forall_eq_or_imp, forall_eq, false_imp_iff, implies_true, List.Pairwise.nil, and_true]
  omega

/-- An aligned physical address sets no flag. -/
theorem has_aligned {w m : Word} (hw : w.toNat % 4096 = 0) (hm : IsFlags m) : has w m = false := by
  have h : w &&& m = 0#32 := by
    apply BitVec.eq_of_getLsbD_eq
    intro i hi
    by_cases h12 : i < 12
    · have hb : w.getLsbD i = false := by
        have e : w.toNat = 2 ^ 12 * (w.toNat / 2 ^ 12) := by omega
        rw [BitVec.getLsbD, e, Nat.testBit_two_pow_mul]
        simp
        omega
      simp [hb]
    · simp [isFlags_bit hm (show 12 ≤ i by omega)]
  simp [has, h]

variable {k : Kmap} {v n : Nat} {s : Vm} {m m' : Kmem}

/-- The entries a row writes are present, out of the user's reach and not encrypted. -/
theorem row_entry (h : RowPages k v n) (i : Nat) :
    let w := mapEntry (BitVec.ofNat 32 k.physStart + 4096#32 * BitVec.ofNat 32 i) k.perm
    has w pteP = true ∧ has w pteU = false ∧ has w pteE = false := by
  have ha : (BitVec.ofNat 32 k.physStart + 4096#32 * BitVec.ofNat 32 i).toNat % 4096 = 0 := by
    have h1 := h.aligned
    simp only [BitVec.toNat_add, BitVec.toNat_ofNat, BitVec.toNat_mul]
    omega
  have hu := has_aligned ha (show IsFlags pteU by decide)
  have he := has_aligned ha (show IsFlags pteE by decide)
  have hne : has k.perm pteE = false := by
    rcases h.perm with hp | hp <;> rw [hp] <;> decide
  have hnu : has k.perm pteU = false := by
    rcases h.perm with hp | hp <;> rw [hp] <;> decide
  have h1 : has pteP pteU = false := by decide
  have h2 : has pteP pteE = false := by decide
  have h3 : has pteP pteP = true := by decide
  simp only [mapEntry, hne, Bool.false_eq_true, if_false, has_or, hu, he, hnu, h1, h2, h3,
    Bool.or_true, Bool.or_false, and_self]

/-! ## 3. What the rows leave behind -/

/-- The pages for which the kernel's page table has no page-table page: those of the user, and those
    between the physical memory mapped above KERNBASE and the devices. -/
def NoKern (u : Nat) : Prop := u < 2 ^ 19 ∨ 0x8E000 ≤ u ∧ u < 0xFE000

/-- **Mapping rows of `kmap`**: only entries above KERNBASE change, to ones that a user cannot
    reach; frames move from the free list to page-table pages. -/
structure KernRows (s s' : Vm) : Prop where
  pte : ∀ u, s'.pd.pteAt u = s.pd.pteAt u ∨ 2 ^ 19 ≤ u ∧ has (s'.pd.pteAt u) pteP = true ∧
    has (s'.pd.pteAt u) pteU = false ∧ has (s'.pd.pteAt u) pteE = false
  tab : ∀ u, NoKern u → s'.pd.tabAt u = s.pd.tabAt u
  tabs : ∀ u, s.pd.tabAt u = true → s'.pd.tabAt u = true
  dir : s'.pd.frame = s.pd.frame
  mem : s'.m.mem = s.m.mem
  twice : s'.m.twice = s.m.twice
  shrink : ∀ f, s'.m.free f ≤ s.m.free f
  count : ∀ f, s'.m.free f + s'.pd.holds f = s.m.free f + s.pd.holds f

theorem KernRows.refl (s : Vm) : KernRows s s where
  pte _ := Or.inl rfl
  tab _ _ := rfl
  tabs _ h := h
  dir := rfl
  mem := rfl
  twice := rfl
  shrink _ := Nat.le_refl _
  count _ := rfl

theorem KernRows.trans {s' s'' : Vm} (h1 : KernRows s s') (h2 : KernRows s' s'') :
    KernRows s s'' where
  pte u := by
    rcases h2.pte u with h | h
    · rw [h]
      exact h1.pte u
    · exact Or.inr h
  tab u hu := (h2.tab u hu).trans (h1.tab u hu)
  tabs u hu := h2.tabs u (h1.tabs u hu)
  dir := h2.dir.trans h1.dir
  mem := h2.mem.trans h1.mem
  twice := h2.twice.trans h1.twice
  shrink f := Nat.le_trans (h2.shrink f) (h1.shrink f)
  count f := (h2.count f).trans (h1.count f)

/-- A stretch of a row's pages. -/
theorem MappedTo.kernRows {s' : Vm} {j : Nat} (hr : RowPages k v n) (hj : j ≤ n + 1)
    (h : MappedTo s s' v j (BitVec.ofNat 32 k.physStart) k.perm) : KernRows s s' where
  pte u := by
    rw [h.pte u]
    split
    · rename_i hu
      have h19 := hr.high
      exact Or.inr ⟨by omega, row_entry hr (u - v)⟩
    · exact Or.inl rfl
  tab u hu := by
    rw [Bool.eq_iff_iff]
    refine ⟨fun hs => ?_, h.tab u⟩
    rcases h.only u hs with hs | ⟨x, hx1, hx2, hd⟩
    · exact hs
    · have h19 := hr.high
      have hgap := hr.gap
      unfold NoKern at hu
      omega
  tabs := h.tab
  dir := h.dir
  mem := h.mem
  twice := h.twice
  shrink := h.shrink
  count f := by
    have h0 : ∑ i ∈ range j, userHolds (v + i)
        (mapEntry (BitVec.ofNat 32 k.physStart + 4096#32 * BitVec.ofNat 32 i) k.perm) f = 0 := by
      refine sum_eq_zero fun i _ => ?_
      have h19 := hr.high
      rw [userHolds, if_neg (by omega)]
    rw [h.count f, h0, Nat.add_zero]

/-- One row: `mappages` returns, having mapped a first stretch of the row's pages. -/
theorem mappages_row (hr : RowPages k v n)
    (hz : ∀ u, v ≤ u → u ≤ v + n → mapped (s.pd.pteAt u) = false) :
    ∃ r s' j, mappages s k.virt ((k.physEnd + (2 ^ 32 - k.physStart)) % 2 ^ 32)
        (BitVec.ofNat 32 k.physStart) k.perm = .ok (r, s') ∧ j ≤ n + 1 ∧
      (¬ r < 0 → j = n + 1) ∧ MappedTo s s' v j (BitVec.ofNat 32 k.physStart) k.perm := by
  rw [hr.virt, hr.size, mappages_pages hr.fits]
  cases h : mappagesLoop n s (v * 4096) (BitVec.ofNat 32 k.physStart) k.perm with
  | error e =>
    obtain ⟨u, h1, h2, h3⟩ := mappagesLoop_error hr.fits h
    rw [hz u h1 h2] at h3
    cases h3
  | ok p =>
    obtain ⟨r, s'⟩ := p
    rcases mappagesLoop_ok hr.fits h with ⟨-, hm⟩ | ⟨rfl, j, hj, hm⟩
    · exact ⟨r, s', n + 1, rfl, Nat.le_refl _, fun _ => rfl, hm⟩
    · exact ⟨-1, s', j, rfl, by omega, fun hn => absurd (by decide) hn, hm⟩

/-- **The loop of `setupkvm`** always returns. -/
theorem kmapLoop_ok {ks : List Kmap} {ps : List (Nat × Nat)}
    (hrows : List.Forall₂ (fun k p => RowPages k p.1 p.2) ks ps) :
    ∀ {s : Vm}, ps.Pairwise (fun p q => p.1 + p.2 < q.1) →
      (∀ p ∈ ps, ∀ u, p.1 ≤ u → u ≤ p.1 + p.2 → mapped (s.pd.pteAt u) = false) →
      ∃ b s', kmapLoop ks s = .ok (b, s') ∧ KernRows s s' ∧
        (b = true → ∀ p ∈ ps, ∀ u, p.1 ≤ u → u ≤ p.1 + p.2 → s'.pd.tabAt u = true) := by
  induction hrows with
  | nil => exact fun {s} _ _ => ⟨true, s, rfl, KernRows.refl s, fun _ p hp => by cases hp⟩
  | @cons k p ks ps hr _ ih =>
    intro s hp hz
    obtain ⟨hp1, hp2⟩ := List.pairwise_cons.mp hp
    obtain ⟨r, s1, j, h1, hj, hfull, hm⟩ := mappages_row hr (hz p (List.mem_cons_self ..))
    have hk1 := hm.kernRows hr hj
    unfold kmapLoop
    rw [h1, Lib.ok_bind]
    by_cases hneg : r < 0
    · exact ⟨false, s1, if_pos hneg, hk1, fun hb => by cases hb⟩
    · -- the remaining rows lie above this one
      have hz1 : ∀ q ∈ ps, ∀ u, q.1 ≤ u → u ≤ q.1 + q.2 → mapped (s1.pd.pteAt u) = false := by
        intro q hq u h2 h3
        have h4 := hp1 q hq
        rw [hm.pte u, if_neg (by omega)]
        exact hz q (List.mem_cons_of_mem p hq) u h2 h3
      obtain ⟨b, s2, h2, hk2, hall⟩ := ih hp2 hz1
      refine ⟨b, s2, (if_neg hneg).trans h2, hk1.trans hk2, fun hb q hq u hu1 hu2 => ?_⟩
      rcases List.mem_cons.mp hq with rfl | hq
      · have hj' := hfull hneg
        exact hk2.tabs u (hm.new u hu1 (by omega))
      · exact hall hb q hq u hu1 hu2

/-- A page directory with nothing below KERNBASE, above it nothing for the user, and the device
    space mapped. -/
structure KernDir (pd : PgDir) : Prop where
  pte : ∀ u, u < 2 ^ 19 → pd.pteAt u = 0#32
  tab : ∀ u, NoKern u → pd.tabAt u = false
  high : ∀ u, 2 ^ 19 ≤ u → has (pd.pteAt u) pteU = false ∧ has (pd.pteAt u) pteE = false
  dev : ∀ u, 0xFE000 ≤ u → u < 2 ^ 20 → pd.tabAt u = true

/-- What a call that gave everything back did to the allocator. -/
structure Restored (m m' : Kmem) : Prop where
  free : ∀ f, m'.free f = m.free f
  mem : ∀ f, m.free f = 0 → m'.mem f = m.mem f
  twice : (∀ f, m.free f ≤ 1) → m'.twice = m.twice

theorem Restored.refl (m : Kmem) : Restored m m := ⟨fun _ => rfl, fun _ _ => rfl, fun _ => rfl⟩

/-- What a call that returned the page directory `pd` did to the allocator: its frames left the
    free list. -/
structure Took (m m' : Kmem) (pd : PgDir) : Prop where
  count : ∀ f, m'.free f + pd.holds f = m.free f
  mem : ∀ f, m.free f = 0 → m'.mem f = m.mem f
  twice : (∀ f, m.free f ≤ 1) → m'.twice = m.twice

/-- The frames of a page directory that is freed again. -/
theorem Took.undo {cfg : Config} {m'' : Kmem} {pd : PgDir} (h : Took m m' pd)
    (hf : freevm cfg ⟨m', pd⟩ = .ok m'') : Restored m m'' := by
  obtain ⟨h1, h2, h3⟩ := freevm_ok hf
  refine ⟨fun f => ?_, fun f h0 => ?_, fun hle => ?_⟩
  · rw [h1 f, h.count f]
  · have e := h.count f
    rw [h2 f (by simp only; omega), h.mem f h0]
  · rw [h3 fun f => by rw [h.count f]; exact hle f, h.twice hle]

theorem Took.undo_error {cfg : Config} {pd : PgDir} {e : Err} (h : Took m m' pd)
    (hf : freevm cfg ⟨m', pd⟩ = .error e) : ∃ f, 1 ≤ m.free f ∧ ¬ managed cfg f := by
  obtain ⟨f, h1, h2⟩ := freevm_error hf
  have h3 : 1 ≤ pd.holds f := h1
  have h4 := h.count f
  exact ⟨f, by omega, h2⟩

/-- The loop of `setupkvm` on the fresh directory. -/
theorem kmapLoop_fresh {m1 : Kmem} {f : Frame} (h : kalloc m = some (f, m1)) :
    ∃ b s, kmapLoop (kmap cfg) ⟨m1, ⟨f, fun _ => none⟩⟩ = .ok (b, s) ∧
      (b = true → KernDir s.pd) ∧ Took m s.m s.pd := by
  have hpte : ∀ u, (⟨f, fun _ => none⟩ : PgDir).pteAt u = 0#32 := fun u => rfl
  obtain ⟨b, s, h1, hk, hall⟩ := kmapLoop_ok (kmap_rows cfg) (s := ⟨m1, ⟨f, fun _ => none⟩⟩)
    (kmapPages_disjoint cfg) (fun p _ u _ _ => by rw [hpte, mapped_zero])
  refine ⟨b, s, h1, fun hb => ⟨fun u hu => ?_, fun u hu => ?_, fun u hu => ?_, fun u h2 h3 => ?_⟩,
    ⟨fun g => ?_, fun g hg => ?_, fun _ => ?_⟩⟩
  · rcases hk.pte u with h2 | h2
    · rw [h2, hpte]
    · omega
  · rw [hk.tab u hu]
    rfl
  · rcases hk.pte u with h2 | h2
    · rw [h2, hpte]
      exact ⟨has_zero _, has_zero _⟩
    · exact h2.2.2
  · exact hall hb (0xFE000, 0x1FFF) (by simp [kmapPages]) u h2 (by omega)
  · have e1 := hk.count g
    have e2 := kalloc_free h g
    have e3 : (⟨f, fun _ => none⟩ : PgDir).holds g = one f g := by
      unfold PgDir.holds
      simp only [tabHolds_none, sum_const_zero, Nat.add_zero]
    simp only [e3] at e1
    omega
  · rw [hk.mem, (kalloc_some h).2.1]
  · rw [hk.twice, (kalloc_some h).2.2]

/-- **`setupkvm`, when it returns.** -/
theorem setupkvm_ok {r : Option PgDir} (h : setupkvm cfg m = .ok (r, m')) :
    (r = none ∧ Restored m m') ∨ ∃ pd, r = some pd ∧ KernDir pd ∧ Took m m' pd := by
  unfold setupkvm at h
  split at h
  · cases h
    exact Or.inl ⟨rfl, Restored.refl _⟩
  · rename_i f m1 hk
    obtain ⟨b, s, h1, hd, ht⟩ := kmapLoop_fresh cfg hk
    rw [if_neg (by decide), h1, Lib.ok_bind] at h
    cases b with
    | true =>
      cases h
      exact Or.inr ⟨_, rfl, hd rfl, ht⟩
    | false =>
      simp only [Bool.false_eq_true, if_false] at h
      obtain ⟨m2, h2, h3⟩ := Lib.bind_eq_ok.mp h
      cases h3
      exact Or.inl ⟨rfl, ht.undo h2⟩

/-- `setupkvm` fails only when a frame on the free list was never the allocator's. -/
theorem setupkvm_error {e : Err} (h : setupkvm cfg m = .error e) :
    ∃ f, 1 ≤ m.free f ∧ ¬ managed cfg f := by
  unfold setupkvm at h
  split at h
  · cases h
  · rename_i f m1 hk
    obtain ⟨b, s, h1, hd, ht⟩ := kmapLoop_fresh cfg hk
    rw [if_neg (by decide), h1, Lib.ok_bind] at h
    cases b with
    | true => cases h
    | false =>
      simp only [Bool.false_eq_true, if_false] at h
      rcases Lib.bind_eq_error.mp h with h2 | ⟨m2, h2, h3⟩
      · exact ht.undo_error h2
      · cases h3

end Xv6Clock
