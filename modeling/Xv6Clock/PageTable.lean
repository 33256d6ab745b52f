/-
  File:      Xv6Clock/PageTable.lean
  Subject:   The two-level page table: `walkpgdir` and `mappages` (vm.c).

  A page directory owns its frame and, for each present directory entry, one page-table page:
  the page's own frame and its 1024 entries. A directory entry never carries anything but
  PTE_P | PTE_W | PTE_U, so an absent one is `none`.

  A PTE pointer into a page table is named by the page number whose entry it points at; the null
  pointer of `walkpgdir` is `none`. `pteAt` reads the entry of a page number, and an entry whose
  page-table page is missing reads as zero.

  `holds f` counts the places where a page directory uses frame `f`: as the directory, as a
  page-table page, or as the frame of a mapped page below KERNBASE. Every function of vm.c that
  moves frames is described by what it does to this count and to the free list's.
-/
import Xv6Clock.Kalloc
import Xv6Clock.Lib.Count
import Xv6Clock.Lib.Result

namespace Xv6Clock

open Finset

/-! ## 1. Page directories -/

/-- A page-table page. -/
structure PgTab where
  frame : Frame
  pte : Nat → Word

/-- A page directory. -/
structure PgDir where
  frame : Frame
  pde : Nat → Option PgTab

/-- The entry of a page number. -/
def PgDir.pteAt (pd : PgDir) (v : Nat) : Word :=
  match pd.pde (v / 1024) with
  | some t => t.pte (v % 1024)
  | none => 0#32

/-- The page-table page of a page number exists. -/
def PgDir.tabAt (pd : PgDir) (v : Nat) : Bool := (pd.pde (v / 1024)).isSome

/-- Directory entry `d` refers to the page-table page `t`. -/
def PgDir.setTab (pd : PgDir) (d : Nat) (t : PgTab) : PgDir :=
  ⟨pd.frame, Function.update pd.pde d (some t)⟩

/-- `*pte = w`. -/
def PgDir.store (pd : PgDir) (v : Nat) (w : Word) : PgDir :=
  match pd.pde (v / 1024) with
  | some t => pd.setTab (v / 1024) ⟨t.frame, Function.update t.pte (v % 1024) w⟩
  | none => pd

/-- `*pde = V2P(pgtab) | PTE_P | PTE_W | PTE_U` for a zeroed page-table page. -/
def PgDir.addTab (pd : PgDir) (d : Nat) (f : Frame) : PgDir := pd.setTab d ⟨f, fun _ => 0#32⟩

theorem PgDir.setTab_pde (pd : PgDir) (d : Nat) (t : PgTab) (e : Nat) :
    (pd.setTab d t).pde e = if e = d then some t else pd.pde e :=
  Function.update_apply pd.pde d (some t) e

@[simp] theorem PgDir.store_frame (pd : PgDir) (v : Nat) (w : Word) :
    (pd.store v w).frame = pd.frame := by
  unfold PgDir.store
  split <;> rfl

@[simp] theorem PgDir.tabAt_store (pd : PgDir) (v : Nat) (w : Word) (u : Nat) :
    (pd.store v w).tabAt u = pd.tabAt u := by
  unfold PgDir.store PgDir.tabAt
  split
  · rename_i t ht
    rw [PgDir.setTab_pde]
    split
    · rename_i h
      rw [h, ht]
      rfl
    · rfl
  · rfl

variable {pd : PgDir} {v va n : Nat} {pa perm : Word}

/-- **Reading after a store.** -/
theorem PgDir.pteAt_store (w : Word) (u : Nat) (h : pd.tabAt v = true) :
    (pd.store v w).pteAt u = if u = v then w else pd.pteAt u := by
  obtain ⟨t, ht⟩ := Option.isSome_iff_exists.mp h
  unfold PgDir.store PgDir.pteAt
  simp only [ht, PgDir.setTab_pde]
  by_cases hd : u / 1024 = v / 1024
  · simp only [hd, if_true, ht, Function.update_apply]
    by_cases hm : u % 1024 = v % 1024
    · rw [if_pos hm, if_pos (by omega)]
    · rw [if_neg hm, if_neg (fun e => hm (by rw [e]))]
  · rw [if_neg hd, if_neg (fun e => hd (by rw [e]))]

theorem PgDir.pteAt_store_self (w : Word) (h : pd.tabAt v = true) : (pd.store v w).pteAt v = w := by
  rw [PgDir.pteAt_store w v h, if_pos rfl]

theorem PgDir.pteAt_store_ne (pd : PgDir) {u : Nat} (w : Word) (h : u ≠ v) :
    (pd.store v w).pteAt u = pd.pteAt u := by
  cases ht : pd.tabAt v with
  | true => rw [PgDir.pteAt_store w u ht, if_neg h]
  | false =>
    have hn : pd.pde (v / 1024) = none := by
      simpa [PgDir.tabAt] using ht
    simp [PgDir.store, hn]

/-- An entry that is not zero lies in a page-table page. -/
theorem PgDir.tabAt_of_mapped (h : mapped (pd.pteAt v) = true) : pd.tabAt v = true := by
  unfold PgDir.pteAt at h
  unfold PgDir.tabAt
  cases hp : pd.pde (v / 1024) with
  | none => simp [hp] at h
  | some t => rfl

/-- A page without a page-table page has no entry. -/
theorem PgDir.pteAt_of_no_tab (h : pd.tabAt v = false) : pd.pteAt v = 0#32 := by
  have hn : pd.pde (v / 1024) = none := by simpa [PgDir.tabAt] using h
  unfold PgDir.pteAt
  rw [hn]

theorem PgDir.tabAt_addTab (pd : PgDir) (d : Nat) (f : Frame) (u : Nat) :
    (pd.addTab d f).tabAt u = (pd.tabAt u || decide (u / 1024 = d)) := by
  unfold PgDir.addTab PgDir.tabAt
  rw [PgDir.setTab_pde]
  by_cases h : u / 1024 = d <;> simp [h]

/-- A new page-table page is zero, so no entry changes. -/
theorem PgDir.pteAt_addTab {d : Nat} (f : Frame) (h : pd.pde d = none) (u : Nat) :
    (pd.addTab d f).pteAt u = pd.pteAt u := by
  unfold PgDir.addTab PgDir.pteAt
  rw [PgDir.setTab_pde]
  by_cases hu : u / 1024 = d
  · simp [hu, h]
  · simp [hu]

/-! ## 2. Frames a page directory uses -/

/-- The frame of an entry, if it is mapped. -/
def pteHolds (w : Word) (f : Frame) : Nat := if mapped w then one (pteFrame w) f else 0

/-- Page-table page `d`: its own frame, and below KERNBASE the frames of its entries. -/
def tabHolds (f : Frame) (d : Nat) : Option PgTab → Nat
  | none => 0
  | some t => one t.frame f + if d < 512 then ∑ i ∈ range 1024, pteHolds (t.pte i) f else 0

theorem tabHolds_some (f : Frame) (d : Nat) (t : PgTab) : tabHolds f d (some t) =
    one t.frame f + if d < 512 then ∑ i ∈ range 1024, pteHolds (t.pte i) f else 0 := rfl

theorem tabHolds_none (f : Frame) (d : Nat) : tabHolds f d none = 0 := rfl

/-- How often a page directory uses a frame. -/
def PgDir.holds (pd : PgDir) (f : Frame) : Nat :=
  one pd.frame f + ∑ d ∈ range 1024, tabHolds f d (pd.pde d)

/-- What one entry of page number `v` adds. -/
def userHolds (v : Nat) (w : Word) (f : Frame) : Nat := if v < 2 ^ 19 then pteHolds w f else 0

@[simp] theorem pteHolds_unmapped {w : Word} (h : mapped w = false) (f : Frame) :
    pteHolds w f = 0 := by simp [pteHolds, h]

theorem pteHolds_le (w : Word) (f : Frame) : pteHolds w f ≤ 1 := by
  unfold pteHolds
  split
  · exact one_le _ _
  · omega

/-- **A store moves the count by the difference of the two entries.** -/
theorem PgDir.holds_store (w : Word) (h : pd.tabAt v = true) (hv : v < 2 ^ 20) (f : Frame) :
    (pd.store v w).holds f + userHolds v (pd.pteAt v) f = pd.holds f + userHolds v w f := by
  obtain ⟨t, ht⟩ := Option.isSome_iff_exists.mp h
  have hd : v / 1024 < 1024 := by omega
  have hi : v % 1024 < 1024 := Nat.mod_lt _ (by decide)
  have hs := Lib.sum_update_entry (fun d => tabHolds f d) pd.pde hd
    (some ⟨t.frame, Function.update t.pte (v % 1024) w⟩)
  have ht' := Lib.sum_update_entry (fun _ x => pteHolds x f) t.pte hi w
  have hp : pd.pteAt v = t.pte (v % 1024) := by simp [PgDir.pteAt, ht]
  have hst : (pd.store v w).pde = Function.update pd.pde (v / 1024)
      (some ⟨t.frame, Function.update t.pte (v % 1024) w⟩) := by
    simp [PgDir.store, ht, PgDir.setTab]
  unfold PgDir.holds userHolds
  rw [hst, PgDir.store_frame, hp]
  rw [ht] at hs
  simp only [tabHolds_some] at hs
  by_cases hu : v < 2 ^ 19
  · have hd' : v / 1024 < 512 := by omega
    simp only [hd', if_true] at hs
    simp only [hu, if_true]
    omega
  · have hd' : ¬ v / 1024 < 512 := by omega
    simp only [hd', if_false] at hs
    simp only [hu, if_false]
    omega

theorem PgDir.holds_addTab {d : Nat} (g : Frame) (h : pd.pde d = none) (hd : d < 1024) (f : Frame) :
    (pd.addTab d g).holds f = pd.holds f + one g f := by
  have hs := Lib.sum_update_entry (fun d => tabHolds f d) pd.pde hd (some ⟨g, fun _ => 0#32⟩)
  have hz : ∑ i ∈ range 1024, pteHolds ((⟨g, fun _ => 0#32⟩ : PgTab).pte i) f = 0 :=
    sum_eq_zero fun i _ => pteHolds_unmapped mapped_zero f
  rw [h] at hs
  simp only [tabHolds_some, tabHolds_none, hz, ite_self, Nat.add_zero] at hs
  unfold PgDir.holds PgDir.addTab PgDir.setTab
  simp only
  omega

/-- A mapped page below KERNBASE is counted. -/
theorem PgDir.one_le_holds (hm : mapped (pd.pteAt v) = true) (hv : v < 2 ^ 19) :
    1 ≤ pd.holds (pteFrame (pd.pteAt v)) := by
  obtain ⟨t, ht⟩ := Option.isSome_iff_exists.mp (PgDir.tabAt_of_mapped hm)
  have hp : pd.pteAt v = t.pte (v % 1024) := by simp [PgDir.pteAt, ht]
  have hd : v / 1024 < 1024 := by omega
  have hd' : v / 1024 < 512 := by omega
  have h1 := Lib.le_sum (fun d => tabHolds (pteFrame (pd.pteAt v)) d (pd.pde d)) hd
  have h2 := Lib.le_sum (fun i => pteHolds (t.pte i) (pteFrame (pd.pteAt v)))
    (Nat.mod_lt v (show 0 < 1024 by decide))
  simp only [ht, tabHolds_some, hd', if_true] at h1
  have h3 : pteHolds (t.pte (v % 1024)) (pteFrame (pd.pteAt v)) = 1 := by
    rw [← hp]
    simp [pteHolds, hm]
  unfold PgDir.holds
  omega

/-! ## 3. `walkpgdir` -/

/-- The allocator together with the page table a function works on. -/
structure Vm where
  m : Kmem
  pd : PgDir

/-- `walkpgdir(pgdir, va, 0)`. -/
def PgDir.walk (pd : PgDir) (va : Nat) : Option Nat :=
  if pd.tabAt (vpn va) then some (vpn va) else none

/-- `walkpgdir`. -/
def walkpgdir (s : Vm) (va : Nat) (alloc : Bool) : Option Nat × Vm :=
  match s.pd.pde (pdx va) with
  | some _ => (some (vpn va), s)
  | none =>
    if !alloc then (none, s) else
    match kalloc s.m with
    | none => (none, s)
    | some (f, m) => (some (vpn va), ⟨m, s.pd.addTab (pdx va) f⟩)

theorem PgDir.walk_some (h : pd.walk va = some v) : v = vpn va ∧ pd.tabAt v = true := by
  unfold PgDir.walk at h
  split at h
  · rename_i ht
    cases h
    exact ⟨rfl, ht⟩
  · cases h

theorem PgDir.walk_of_no_tab (h : pd.tabAt (vpn va) = false) : pd.walk va = none := by
  unfold PgDir.walk
  rw [h]
  rfl

theorem PgDir.walk_none (h : pd.walk va = none) : pd.tabAt (vpn va) = false := by
  unfold PgDir.walk at h
  split at h
  · cases h
  · rename_i ht
    simpa using ht

theorem PgDir.walk_of_tabAt (h : pd.tabAt (vpn va) = true) :
    pd.walk va = some (vpn va) := if_pos h

/-- What an allocating walk to page `v` leaves behind: no entry changed, and every frame that left
    the free list became the page-table page of `v`. -/
structure Grown (s s' : Vm) (v : Nat) : Prop where
  pte : ∀ u, s'.pd.pteAt u = s.pd.pteAt u
  tab : ∀ u, s.pd.tabAt u = true → s'.pd.tabAt u = true
  only : ∀ u, s'.pd.tabAt u = true → s.pd.tabAt u = true ∨ u / 1024 = v / 1024
  dir : s'.pd.frame = s.pd.frame
  mem : s'.m.mem = s.m.mem
  twice : s'.m.twice = s.m.twice
  count : ∀ f, s'.m.free f + s'.pd.holds f = s.m.free f + s.pd.holds f
  shrink : ∀ f, s'.m.free f ≤ s.m.free f

theorem Grown.refl (s : Vm) (v : Nat) : Grown s s v where
  pte _ := rfl
  tab _ h := h
  only _ h := Or.inl h
  dir := rfl
  mem := rfl
  twice := rfl
  count _ := rfl
  shrink _ := Nat.le_refl _

variable {s s' : Vm}

/-- **The walk that allocates.** -/
theorem walkpgdir_alloc {r : Option Nat} (h : walkpgdir s va true = (r, s')) :
    Grown s s' (vpn va) ∧ (∀ v, r = some v → v = vpn va ∧ s'.pd.tabAt v = true) ∧
      (r = none → s' = s) := by
  unfold walkpgdir at h
  split at h
  · rename_i t ht
    cases h
    refine ⟨Grown.refl s _, fun v hv => ?_, fun hn => rfl⟩
    cases hv
    refine ⟨rfl, ?_⟩
    unfold PgDir.tabAt
    rw [vpn_div, ht]
    rfl
  · rename_i hn
    simp only [Bool.not_true, Bool.false_eq_true, if_false] at h
    split at h
    · cases h
      exact ⟨Grown.refl s _, (fun v hv => by cases hv), fun _ => rfl⟩
    rename_i f m hk
    cases h
    have hkf := kalloc_free hk
    obtain ⟨-, hmem, htw⟩ := kalloc_some hk
    refine ⟨⟨fun u => PgDir.pteAt_addTab f hn u, fun u hu => ?_, fun u hu => ?_, rfl, hmem, htw,
      fun g => ?_, fun g => ?_⟩, fun v hv => ?_, fun hn' => by cases hn'⟩
    · rw [PgDir.tabAt_addTab, hu, Bool.true_or]
    · rw [PgDir.tabAt_addTab, Bool.or_eq_true, decide_eq_true_iff] at hu
      rwa [vpn_div]
    · have h1 := hkf g
      have h2 := PgDir.holds_addTab f hn (pdx_lt va) g
      simp only at h2 ⊢
      omega
    · have h1 := hkf g
      simp only at h1 ⊢
      omega
    · cases hv
      refine ⟨rfl, ?_⟩
      rw [PgDir.tabAt_addTab, vpn_div]
      simp

/-! ## 4. `mappages` -/

/-- The entry `mappages` writes. -/
def mapEntry (pa perm : Word) : Word :=
  if has perm pteE then pa ||| perm ||| pteE else pa ||| perm ||| pteP

/-- One round of the loop of `mappages`; `false` when the walk finds no page-table page. -/
def mapPage (s : Vm) (a : Nat) (pa perm : Word) : Except Err (Bool × Vm) :=
  match walkpgdir s a true with
  | (none, s) => .ok (false, s)
  | (some pte, s) =>
    if mapped (s.pd.pteAt pte) then .error (.panic .remap)
    else .ok (true, ⟨s.m, s.pd.store pte (mapEntry pa perm)⟩)

/-- The loop of `mappages`, with `n` pages after the one at `a`. -/
def mappagesLoop : Nat → Vm → Nat → Word → Word → Except Err (Int × Vm)
  | n, s, a, pa, perm => do
    let (found, s) ← mapPage s a pa perm
    if !found then .ok (-1, s) else
    match n with
    | 0 => .ok (0, s)
    | n + 1 => mappagesLoop n s (addU a pgSize) (pa + 4096#32) perm

/-- `mappages`. The loop ends when `a == last`, so the rounds left are the pages between them. -/
def mappages (s : Vm) (va size : Nat) (pa perm : Word) : Except Err (Int × Vm) :=
  let a := pgRoundDown va
  let last := pgRoundDown ((va + size + (2 ^ 32 - 1)) % 2 ^ 32)
  mappagesLoop ((last + (2 ^ 32 - a)) % 2 ^ 32 / pgSize) s a pa perm

/-- **What mapping `k` pages from page `v` does**: exactly their entries change, from unmapped to
    the entries of consecutive frames; every frame that left the free list is a page-table page
    or the frame of one of the new entries. -/
structure MappedTo (s s' : Vm) (v k : Nat) (pa perm : Word) : Prop where
  pte : ∀ u, s'.pd.pteAt u =
    if v ≤ u ∧ u < v + k then mapEntry (pa + 4096#32 * BitVec.ofNat 32 (u - v)) perm
    else s.pd.pteAt u
  was : ∀ u, v ≤ u → u < v + k → mapped (s.pd.pteAt u) = false
  tab : ∀ u, s.pd.tabAt u = true → s'.pd.tabAt u = true
  new : ∀ u, v ≤ u → u < v + k → s'.pd.tabAt u = true
  only : ∀ u, s'.pd.tabAt u = true →
    s.pd.tabAt u = true ∨ ∃ x, v ≤ x ∧ x < v + k ∧ u / 1024 = x / 1024
  dir : s'.pd.frame = s.pd.frame
  mem : s'.m.mem = s.m.mem
  twice : s'.m.twice = s.m.twice
  shrink : ∀ f, s'.m.free f ≤ s.m.free f
  count : ∀ f, s'.m.free f + s'.pd.holds f = s.m.free f + s.pd.holds f +
    ∑ i ∈ range k, userHolds (v + i) (mapEntry (pa + 4096#32 * BitVec.ofNat 32 i) perm) f

theorem MappedTo.zero (s : Vm) (v : Nat) (pa perm : Word) : MappedTo s s v 0 pa perm where
  pte u := by rw [if_neg (by omega)]
  was u h1 h2 := by omega
  tab _ h := h
  new u h1 h2 := by omega
  only _ h := Or.inl h
  dir := rfl
  mem := rfl
  twice := rfl
  shrink _ := Nat.le_refl _
  count f := by rw [Finset.sum_range_zero, Nat.add_zero]

/-- One round of `mappages`. -/
theorem mapPage_ok {a : Nat} {b : Bool} (h : mapPage s a pa perm = .ok (b, s')) :
    (b = false ∧ s' = s) ∨ (b = true ∧ MappedTo s s' (vpn a) 1 pa perm) := by
  unfold mapPage at h
  split at h
  · rename_i s1 hw
    cases h
    exact Or.inl ⟨rfl, (walkpgdir_alloc hw).2.2 rfl⟩
  rename_i pte s1 hw
  obtain ⟨hg, hsome, -⟩ := walkpgdir_alloc hw
  obtain ⟨rfl, htab⟩ := hsome _ rfl
  split at h
  · cases h
  rename_i hm
  cases h
  have hm' : mapped (s1.pd.pteAt (vpn a)) = false := by simpa using hm
  refine Or.inr ⟨rfl, ⟨fun u => ?_, fun u h1 h2 => ?_, fun u hu => ?_, fun u h1 h2 => ?_,
    fun u hu => ?_, ?_, hg.mem, hg.twice, hg.shrink, fun f => ?_⟩⟩
  · rw [PgDir.pteAt_store _ _ htab, hg.pte]
    by_cases hu : u = vpn a
    · rw [if_pos hu, if_pos (by omega), hu]
      simp
    · rw [if_neg hu, if_neg (by omega)]
  · have hu : u = vpn a := by omega
    rw [hu, ← hg.pte]
    exact hm'
  · rw [PgDir.tabAt_store]
    exact hg.tab u hu
  · have hu : u = vpn a := by omega
    rw [PgDir.tabAt_store, hu]
    exact htab
  · rw [PgDir.tabAt_store] at hu
    exact (hg.only u hu).imp id fun h => ⟨vpn a, Nat.le_refl _, by omega, h⟩
  · rw [PgDir.store_frame]
    exact hg.dir
  · have h1 := PgDir.holds_store (mapEntry pa perm) htab (vpn_lt a) f
    have h2 := hg.count f
    have h3 : userHolds (vpn a) (s1.pd.pteAt (vpn a)) f = 0 := by
      unfold userHolds
      split
      · exact pteHolds_unmapped hm' f
      · rfl
    simp only [Finset.sum_range_one, Nat.add_zero, BitVec.mul_zero,
      BitVec.add_zero] at h1 h2 ⊢
    omega

/-- **Two stretches of mapped pages, one after the other.** -/
theorem MappedTo.append {s'' : Vm} {k : Nat} (h1 : MappedTo s s' v k pa perm)
    (h2 : MappedTo s' s'' (v + k) n (pa + 4096#32 * BitVec.ofNat 32 k) perm) :
    MappedTo s s'' v (k + n) pa perm where
  pte u := by
    rw [h2.pte u, h1.pte u]
    by_cases hu : v + k ≤ u ∧ u < v + k + n
    · rw [if_pos hu, if_pos (by omega)]
      congr 1
      have e : u - v = k + (u - (v + k)) := by omega
      rw [e, BitVec.ofNat_add, BitVec.mul_add, BitVec.add_assoc]
    · rw [if_neg hu]
      by_cases hu' : v ≤ u ∧ u < v + k
      · rw [if_pos hu', if_pos (by omega)]
      · rw [if_neg hu', if_neg (by omega)]
  was u h3 h4 := by
    by_cases hu : u < v + k
    · exact h1.was u h3 hu
    · have h5 := h2.was u (by omega) (by omega)
      rwa [h1.pte u, if_neg (by omega)] at h5
  tab u hu := h2.tab u (h1.tab u hu)
  new u h3 h4 := by
    by_cases hu : u < v + k
    · exact h2.tab u (h1.new u h3 hu)
    · exact h2.new u (by omega) (by omega)
  only u hu := by
    rcases h2.only u hu with h3 | ⟨x, hx1, hx2, hx3⟩
    · rcases h1.only u h3 with h4 | ⟨x, hx1, hx2, hx3⟩
      · exact Or.inl h4
      · exact Or.inr ⟨x, hx1, by omega, hx3⟩
    · exact Or.inr ⟨x, by omega, by omega, hx3⟩
  dir := h2.dir.trans h1.dir
  mem := h2.mem.trans h1.mem
  twice := h2.twice.trans h1.twice
  shrink f := Nat.le_trans (h2.shrink f) (h1.shrink f)
  count f := by
    rw [h2.count f, h1.count f, Nat.add_assoc, Finset.sum_range_add]
    congr 2
    refine sum_congr rfl fun i _ => ?_
    rw [BitVec.ofNat_add, BitVec.mul_add, BitVec.add_assoc, Nat.add_assoc]

theorem vpn_addU (h : v + 1 < 2 ^ 20) : addU (v * 4096) pgSize = (v + 1) * 4096 := by
  unfold addU pgSize
  omega

/-- **The loop of `mappages`**, over pages `v .. v + n`. -/
theorem mappagesLoop_ok : ∀ {s s' : Vm} {v : Nat} {pa perm : Word} {r : Int},
    v + n < 2 ^ 20 → mappagesLoop n s (v * 4096) pa perm = .ok (r, s') →
    (r = 0 ∧ MappedTo s s' v (n + 1) pa perm) ∨
      (r = -1 ∧ ∃ k ≤ n, MappedTo s s' v k pa perm) := by
  -- every round begins with `mapPage`; whether it is the last is asked after that
  induction n using Nat.strongRecOn with
  | ind n ih =>
    intro s s' v pa perm r hv h
    unfold mappagesLoop at h
    obtain ⟨⟨b, s1⟩, h1, h2⟩ := Lib.bind_eq_ok.mp h
    have hv' : vpn (v * 4096) = v := vpn_page (by omega)
    rcases mapPage_ok h1 with ⟨rfl, rfl⟩ | ⟨rfl, hm⟩
    · cases h2
      exact Or.inr ⟨rfl, 0, Nat.zero_le _, MappedTo.zero _ v pa perm⟩
    rw [hv'] at hm
    cases n with
    | zero =>
      cases h2
      exact Or.inl ⟨rfl, hm⟩
    | succ n =>
      simp only [Bool.not_true, Bool.false_eq_true, if_false] at h2
      rw [vpn_addU (by omega)] at h2
      -- the rest of the loop starts one page and one frame further
      have hpa : pa + 4096#32 = pa + 4096#32 * BitVec.ofNat 32 1 := by simp
      rw [hpa] at h2
      rcases ih n (Nat.lt_succ_self n) (by omega) h2 with ⟨rfl, hr⟩ | ⟨rfl, k, hk, hr⟩
      · refine Or.inl ⟨rfl, ?_⟩
        rw [Nat.add_comm (n + 1) 1]
        exact hm.append hr
      · refine Or.inr ⟨rfl, 1 + k, by omega, hm.append hr⟩

/-- The loop fails only where a page of the range is already mapped. -/
theorem mappagesLoop_error : ∀ {s : Vm} {v : Nat} {pa perm : Word} {e : Err},
    v + n < 2 ^ 20 → mappagesLoop n s (v * 4096) pa perm = .error e →
    ∃ u, v ≤ u ∧ u ≤ v + n ∧ mapped (s.pd.pteAt u) = true := by
  have hpage : ∀ {s : Vm} {v : Nat} {pa perm : Word} {e : Err}, v < 2 ^ 20 →
      mapPage s (v * 4096) pa perm = .error e → mapped (s.pd.pteAt v) = true := by
    intro s v pa perm e hv h
    unfold mapPage at h
    split at h
    · cases h
    · rename_i pte s1 hw
      obtain ⟨hg, hsome, -⟩ := walkpgdir_alloc hw
      obtain ⟨rfl, -⟩ := hsome _ rfl
      split at h
      · rename_i hm
        rwa [hg.pte, vpn_page hv] at hm
      · cases h
  induction n using Nat.strongRecOn with
  | ind n ih =>
    intro s v pa perm e hv h
    unfold mappagesLoop at h
    rcases Lib.bind_eq_error.mp h with h1 | ⟨⟨b, s1⟩, h1, h2⟩
    · exact ⟨v, Nat.le_refl v, by omega, hpage (by omega) h1⟩
    rcases mapPage_ok h1 with ⟨rfl, -⟩ | ⟨rfl, hm⟩
    · cases h2
    cases n with
    | zero => cases h2
    | succ n =>
      simp only [Bool.not_true, Bool.false_eq_true, if_false] at h2
      rw [vpn_addU (by omega)] at h2
      obtain ⟨u, hu1, hu2, hu3⟩ := ih n (Nat.lt_succ_self n) (by omega) h2
      rw [vpn_page (show v < 2 ^ 20 by omega)] at hm
      rw [hm.pte u, if_neg (by omega)] at hu3
      exact ⟨u, by omega, by omega, hu3⟩

/-- `mappages` over whole pages is the loop over them. -/
theorem mappages_pages (h : v + n < 2 ^ 20) :
    mappages s (v * 4096) ((n + 1) * 4096) pa perm = mappagesLoop n s (v * 4096) pa perm := by
  have h1 : pgRoundDown (v * 4096) = v * 4096 := by unfold pgRoundDown; omega
  have h2 : pgRoundDown ((v * 4096 + (n + 1) * 4096 + (2 ^ 32 - 1)) % 2 ^ 32) =
      (v + n) * 4096 := by unfold pgRoundDown; omega
  have h3 : ((v + n) * 4096 + (2 ^ 32 - v * 4096)) % 2 ^ 32 / pgSize = n := by
    unfold pgSize; omega
  simp only [mappages, h1, h2, h3]

end Xv6Clock
