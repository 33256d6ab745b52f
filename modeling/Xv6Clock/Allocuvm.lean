/-
  File:      Xv6Clock/Allocuvm.lean
  Subject:   Getting pages (vm.c): `allocuvm`.

  The loop takes a frame, clears it and maps it at the next page; `NewPage` is that round, which
  `copyuvm` makes too. If it runs out of memory it gives everything it mapped back, so the frame
  accounting is the same on every exit.
-/
import Xv6Clock.Setupkvm

namespace Xv6Clock

open Finset

variable (cfg : Config)

/-! ## 1. One new page -/

@[simp] theorem mapped_mapEntry (pa perm : Word) : mapped (mapEntry pa perm) = true := by
  have hp : has pteP pteP = true := by decide
  have he : has pteE pteE = true := by decide
  unfold mapEntry
  split <;> simp [mapped_eq, has_or, hp, he]

variable {perm : Word} {s s' : Vm} {v lo hi oldsz newsz : Nat} {f : Frame}

theorem pteFrame_mapEntry (f : Frame) (h : IsFlags perm) :
    pteFrame (mapEntry (frameAddr f) perm) = f := by
  unfold mapEntry
  split
  · rw [pteFrame_or _ (by decide), pteFrame_or _ h, pteFrame_frameAddr]
  · rw [pteFrame_or _ (by decide), pteFrame_or _ h, pteFrame_frameAddr]

/-- `mappages` on one page. -/
theorem mappages_one {pa : Word} {r : Int} (hv : v < 2 ^ 20)
    (h : mappages s (v * 4096) pgSize pa perm = .ok (r, s')) :
    (r = -1 ∧ s' = s) ∨ (r = 0 ∧ MappedTo s s' v 1 pa perm) := by
  have e : mappages s (v * 4096) pgSize pa perm = mappagesLoop 0 s (v * 4096) pa perm :=
    mappages_pages (n := 0) hv
  rw [e] at h
  unfold mappagesLoop at h
  obtain ⟨⟨b, s1⟩, h1, h2⟩ := Lib.bind_eq_ok.mp h
  rcases mapPage_ok h1 with ⟨rfl, rfl⟩ | ⟨rfl, hm⟩
  · cases h2
    exact Or.inl ⟨rfl, rfl⟩
  · cases h2
    rw [vpn_page hv] at hm
    exact Or.inr ⟨rfl, hm⟩

theorem mappages_one_error {pa : Word} {e : Err} (hv : v < 2 ^ 20)
    (h : mappages s (v * 4096) pgSize pa perm = .error e) : mapped (s.pd.pteAt v) = true := by
  have e : mappages s (v * 4096) pgSize pa perm = mappagesLoop 0 s (v * 4096) pa perm :=
    mappages_pages (n := 0) hv
  rw [e] at h
  obtain ⟨u, h1, h2, h3⟩ := mappagesLoop_error (n := 0) hv h
  rwa [show u = v by omega] at h3

/-- **A frame from the free list, filled with `pg` and mapped at page `v`.** -/
structure NewPage (s s' : Vm) (v : Nat) (f : Frame) (pg : Page) (perm : Word) : Prop where
  pte : ∀ u, s'.pd.pteAt u = if u = v then mapEntry (frameAddr f) perm else s.pd.pteAt u
  was : mapped (s.pd.pteAt v) = false
  tab : ∀ u, s.pd.tabAt u = true → s'.pd.tabAt u = true
  new : s'.pd.tabAt v = true
  only : ∀ u, s'.pd.tabAt u = true → s.pd.tabAt u = true ∨ u / 1024 = v / 1024
  dir : s'.pd.frame = s.pd.frame
  mem : s'.m.mem = Function.update s.m.mem f pg
  twice : s'.m.twice = s.m.twice
  shrink : ∀ g, s'.m.free g ≤ s.m.free g
  took : s'.m.free f + 1 ≤ s.m.free f
  count : ∀ g, s'.m.free g + s'.pd.holds g = s.m.free g + s.pd.holds g

theorem newPage_of_mappages {m : Kmem} {pg : Page} {r : Int} (hk : kalloc s.m = some (f, m))
    (hv : v < 2 ^ 19) (hperm : IsFlags perm)
    (h : mappages ⟨m.setPage f pg, s.pd⟩ (v * 4096) pgSize (frameAddr f) perm = .ok (r, s')) :
    (r = -1 ∧ s' = ⟨m.setPage f pg, s.pd⟩) ∨ (r = 0 ∧ NewPage s s' v f pg perm) := by
  rcases mappages_one (by omega) h with h1 | ⟨h1, hm⟩
  · exact Or.inl h1
  have hkf := kalloc_free hk
  obtain ⟨-, hmem, htw⟩ := kalloc_some hk
  have hsh : ∀ g, s'.m.free g ≤ m.free g := hm.shrink
  refine Or.inr ⟨h1, ⟨fun u => ?_, hm.was v (Nat.le_refl _) (by omega), hm.tab,
    hm.new v (Nat.le_refl _) (by omega), fun u hu => ?_, hm.dir, ?_, ?_, fun g => ?_, ?_,
    fun g => ?_⟩⟩
  · rw [hm.pte u]
    by_cases hu : u = v
    · rw [if_pos (by omega), if_pos hu, hu]
      simp
    · rw [if_neg (by omega), if_neg hu]
  · rcases hm.only u hu with h2 | ⟨x, hx1, hx2, hx3⟩
    · exact Or.inl h2
    · exact Or.inr (by rw [hx3, show x = v by omega])
  · rw [hm.mem, ← hmem]
    rfl
  · rw [hm.twice, ← htw]
    rfl
  · have e1 := hkf g
    have e2 := hsh g
    omega
  · have e1 := hkf f
    have e2 := hsh f
    rw [one_self] at e1
    omega
  · have e1 := hkf g
    have e2 := hm.count g
    simp only [sum_range_one, Nat.add_zero, BitVec.mul_zero, BitVec.add_zero, userHolds, hv,
      if_true, pteHolds, mapped_mapEntry, pteFrame_mapEntry f hperm, Kmem.setPage_free] at e2
    omega

/-! ## 2. `allocuvm` -/

/-- The loop of `allocuvm`, bounded by the number of pages left. -/
def allocuvmLoop : Nat → Vm → Nat → Nat → Nat → Except Err (Nat × Vm)
  | 0, s, _, _, newsz => .ok (newsz, s)
  | n + 1, s, a, oldsz, newsz =>
    if newsz ≤ a then .ok (newsz, s) else
    match kalloc s.m with
    | none => do
      let (_, s) ← deallocuvm cfg s newsz oldsz
      .ok (0, s)
    | some (f, m) => do
      let (r, s) ← mappages ⟨m.setPage f (fill 0), s.pd⟩ a pgSize (frameAddr f) (pteW ||| pteU)
      if r < 0 then do
        let (_, s) ← deallocuvm cfg s newsz oldsz
        let m ← kfree cfg s.m f
        .ok (0, ⟨m, s.pd⟩)
      else allocuvmLoop n s (addU a pgSize) oldsz newsz

/-- `allocuvm`. -/
def allocuvm (s : Vm) (oldsz newsz : Nat) : Except Err (Nat × Vm) :=
  if kernBase ≤ newsz then .ok (0, s) else
  if newsz < oldsz then .ok (oldsz, s) else
  let a := pgRoundUp oldsz
  allocuvmLoop cfg ((newsz - a) / pgSize + 1) s a oldsz newsz

/-- The entry of a page that `allocuvm` got. -/
def allocEntry (f : Frame) : Word := mapEntry (frameAddr f) (pteW ||| pteU)

/-- **What allocating the pages `[lo, hi)` does**: each gets a zeroed frame of its own from the
    free list. -/
structure Allocd (s s' : Vm) (lo hi : Nat) : Prop where
  pte : ∀ u, ¬ (lo ≤ u ∧ u < hi) → s'.pd.pteAt u = s.pd.pteAt u
  new : ∀ u, lo ≤ u → u < hi → ∃ f, s'.pd.pteAt u = allocEntry f ∧ 1 ≤ s.m.free f
  zero : (∀ f, s.m.free f ≤ 1) → ∀ u, lo ≤ u → u < hi →
    s'.m.mem (pteFrame (s'.pd.pteAt u)) = fill 0
  was : ∀ u, lo ≤ u → u < hi → mapped (s.pd.pteAt u) = false
  tab : ∀ u, s.pd.tabAt u = true → s'.pd.tabAt u = true
  only : ∀ u, s'.pd.tabAt u = true →
    s.pd.tabAt u = true ∨ ∃ x, lo ≤ x ∧ x < hi ∧ u / 1024 = x / 1024
  dir : s'.pd.frame = s.pd.frame
  mem : ∀ f, s.m.free f = 0 → s'.m.mem f = s.m.mem f
  twice : s'.m.twice = s.m.twice
  shrink : ∀ f, s'.m.free f ≤ s.m.free f
  count : ∀ f, s'.m.free f + s'.pd.holds f = s.m.free f + s.pd.holds f

/-- What a failed allocation of the pages `[lo, hi)` leaves: nothing mapped there, and possibly
    more page-table pages. -/
structure AllocUndone (s s' : Vm) (lo hi : Nat) : Prop where
  pte : ∀ u, s'.pd.pteAt u = s.pd.pteAt u ∨ lo ≤ u ∧ u < hi ∧ s'.pd.pteAt u = 0#32
  tab : ∀ u, s.pd.tabAt u = true → s'.pd.tabAt u = true
  only : ∀ u, s'.pd.tabAt u = true →
    s.pd.tabAt u = true ∨ ∃ x, lo ≤ x ∧ x < hi ∧ u / 1024 = x / 1024
  dir : s'.pd.frame = s.pd.frame
  mem : ∀ f, s.m.free f = 0 → s'.m.free f = 0 → s'.m.mem f = s.m.mem f
  twice : (∀ f, s.m.free f + s.pd.holds f ≤ 1) → s'.m.twice = s.m.twice
  count : ∀ f, s'.m.free f + s'.pd.holds f = s.m.free f + s.pd.holds f

theorem Allocd.refl (s : Vm) (h : hi ≤ lo) : Allocd s s lo hi where
  pte _ _ := rfl
  new u h1 h2 := by omega
  zero _ u h1 h2 := by omega
  was u h1 h2 := by omega
  tab _ h := h
  only _ h := Or.inl h
  dir := rfl
  mem _ _ := rfl
  twice := rfl
  shrink _ := Nat.le_refl _
  count _ := rfl

theorem isFlags_user : IsFlags (pteW ||| pteU) := by decide

theorem has_allocEntry (f : Frame) {x : Word} (hx : IsFlags x) :
    has (allocEntry f) x = has (pteW ||| pteU ||| pteP) x := by
  have he : has (pteW ||| pteU) pteE = false := by decide
  unfold allocEntry mapEntry
  rw [he, if_neg (by decide), BitVec.or_assoc, has_or, has_frameAddr f hx, Bool.false_or]

@[simp] theorem pteFrame_allocEntry (f : Frame) : pteFrame (allocEntry f) = f :=
  pteFrame_mapEntry f isFlags_user

/-- A new page, then the pages after it. -/
theorem Allocd.cons {s1 : Vm} (hv : v < hi) (h1 : NewPage s s1 v f (fill 0) (pteW ||| pteU))
    (h2 : Allocd s1 s' (v + 1) hi) : Allocd s s' v hi where
  pte u hu := by
    rw [h2.pte u (by omega), h1.pte u, if_neg (by omega)]
  new u hu1 hu2 := by
    by_cases hu : u = v
    · refine ⟨f, ?_, ?_⟩
      · rw [h2.pte u (by omega), h1.pte u, if_pos hu]
        rfl
      · have := h1.took
        omega
    · obtain ⟨g, hg1, hg2⟩ := h2.new u (by omega) hu2
      have := h1.shrink g
      exact ⟨g, hg1, by omega⟩
  zero hs u hu1 hu2 := by
    have hs1 : ∀ f, s1.m.free f ≤ 1 := fun g => Nat.le_trans (h1.shrink g) (hs g)
    by_cases hu : u = v
    · -- the frame left the list, so the later pages do not touch it
      have e : s'.pd.pteAt u = allocEntry f := by
        rw [h2.pte u (by omega), h1.pte u, if_pos hu]
        rfl
      have h0 : s1.m.free f = 0 := by
        have := h1.took
        have := hs f
        omega
      rw [e, pteFrame_allocEntry, h2.mem f h0, h1.mem, Function.update_self]
    · exact h2.zero hs1 u (by omega) hu2
  was u hu1 hu2 := by
    by_cases hu : u = v
    · rw [hu]
      exact h1.was
    · have h3 := h2.was u (by omega) hu2
      rwa [h1.pte u, if_neg hu] at h3
  tab u hu := h2.tab u (h1.tab u hu)
  only u hu := by
    rcases h2.only u hu with h3 | ⟨x, hx1, hx2, hx3⟩
    · exact (h1.only u h3).imp id fun h => ⟨v, Nat.le_refl _, hv, h⟩
    · exact Or.inr ⟨x, by omega, hx2, hx3⟩
  dir := h2.dir.trans h1.dir
  mem g hg := by
    have e1 := h1.shrink g
    have hne : g ≠ f := by
      rintro rfl
      have := h1.took
      omega
    rw [h2.mem g (by omega), h1.mem, Function.update_of_ne hne]
  twice := h2.twice.trans h1.twice
  shrink g := Nat.le_trans (h2.shrink g) (h1.shrink g)
  count g := (h2.count g).trans (h1.count g)

/-- A new page whose range then fails. -/
theorem AllocUndone.cons {s1 : Vm} (hlo : lo ≤ v) (hv : v < hi)
    (h1 : NewPage s s1 v f (fill 0) (pteW ||| pteU)) (h2 : AllocUndone s1 s' lo hi)
    (hz : mapped (s'.pd.pteAt v) = false) : AllocUndone s s' lo hi where
  pte u := by
    rcases h2.pte u with h3 | h3
    · by_cases hu : u = v
      · rw [hu] at h3
        rw [h3, h1.pte v, if_pos rfl, mapped_mapEntry] at hz
        cases hz
      · rw [h3, h1.pte u, if_neg hu]
        exact Or.inl rfl
    · exact Or.inr h3
  tab u hu := h2.tab u (h1.tab u hu)
  only u hu := by
    rcases h2.only u hu with h3 | h3
    · exact (h1.only u h3).imp id fun h => ⟨v, hlo, hv, h⟩
    · exact Or.inr h3
  dir := h2.dir.trans h1.dir
  mem g hg hg' := by
    have e1 := h1.shrink g
    have hne : g ≠ f := by
      rintro rfl
      have := h1.took
      omega
    rw [h2.mem g (by omega) hg', h1.mem, Function.update_of_ne hne]
  twice hs := by
    rw [h2.twice fun g => by rw [h1.count g]; exact hs g, h1.twice]
  count g := (h2.count g).trans (h1.count g)

theorem AllocUndone.refl (s : Vm) (lo hi : Nat) : AllocUndone s s lo hi where
  pte _ := Or.inl rfl
  tab _ h := h
  only _ h := Or.inl h
  dir := rfl
  mem _ _ _ := rfl
  twice _ := rfl
  count _ := rfl

theorem Unmapped.allocUndone (h : Unmapped s s' lo hi) : AllocUndone s s' lo hi where
  pte u := by
    rw [h.pte u]
    split
    · rename_i hu
      exact Or.inr ⟨hu.1, hu.2.1, rfl⟩
    · exact Or.inl rfl
  tab u hu := by rw [h.tab u, hu]
  only u hu := Or.inl (by rw [← h.tab u, hu])
  dir := h.dir
  mem f h0 h1 := h.mem f (h1.trans h0.symm)
  twice := h.twice
  count := h.count

/-- The clean-up call of `allocuvm`. -/
theorem deallocuvm_undone {r : Nat} (hk : newsz < kernBase)
    (h : deallocuvm cfg s newsz oldsz = .ok (r, s')) :
    AllocUndone s s' (pages oldsz) (pages newsz) ∧
      ∀ u, pages oldsz ≤ u → u < pages newsz → mapped (s'.pd.pteAt u) = false := by
  rcases deallocuvm_ok (Nat.le_of_lt hk) h with ⟨hle, -, rfl⟩ | ⟨-, -, hu⟩
  · refine ⟨AllocUndone.refl _ _ _, fun u h1 h2 => ?_⟩
    unfold pages at h1 h2
    omega
  · refine ⟨hu.allocUndone, fun u h1 h2 => ?_⟩
    rw [hu.pte u]
    cases hm : mapped (s.pd.pteAt u) with
    | true => rw [if_pos ⟨h1, h2, rfl⟩, mapped_zero]
    | false =>
      rw [if_neg (fun hc => by cases hc.2.2)]
      exact hm

/-- A frame taken before the clean-up and freed after it. -/
theorem AllocUndone.kfree {s2 : Vm} {m m' : Kmem} {pg : Page} (hk : kalloc s.m = some (f, m))
    (h : AllocUndone ⟨m.setPage f pg, s.pd⟩ s2 lo hi) (hf : kfree cfg s2.m f = .ok m') :
    AllocUndone s ⟨m', s2.pd⟩ lo hi := by
  have hkf := kalloc_free hk
  obtain ⟨-, hmem, htw⟩ := kalloc_some hk
  have hff := kfree_free hf
  obtain ⟨-, -, hfm, -⟩ := kfree_ok hf
  have hcount : ∀ g, s2.m.free g + s2.pd.holds g = m.free g + s.pd.holds g := h.count
  refine ⟨h.pte, h.tab, h.only, h.dir, fun g h0 h1 => ?_, fun hs => ?_, fun g => ?_⟩
  · have e1 := hkf g
    have e2 := hff g
    simp only at h1
    have hne : g ≠ f := by
      rintro rfl
      rw [one_self] at e2
      omega
    have e3 : (m.setPage f pg).free g = 0 := by
      rw [Kmem.setPage_free]
      omega
    simp only
    rw [hfm, Function.update_of_ne hne, h.mem g e3 (by omega)]
    rw [Kmem.setPage_mem_ne m pg hne, hmem]
  · have hle : ∀ g, m.free g + s.pd.holds g ≤ 1 := fun g => by
      have e1 := hkf g
      have e2 := hs g
      omega
    have e1 := hkf f
    have e2 := hs f
    have e3 := hcount f
    rw [one_self] at e1
    rw [kfree_twice hf (by omega), h.twice hle]
    exact htw
  · have e1 := hkf g
    have e2 := hff g
    have e3 := hcount g
    simp only
    omega

/-- **The loop of `allocuvm`.** -/
theorem allocuvmLoop_ok {cfg : Config} {n : Nat} : ∀ {s s' : Vm} {v oldsz newsz r : Nat},
    pages newsz ≤ v + n → pages oldsz ≤ v → newsz < kernBase → v ≤ 2 ^ 19 →
    allocuvmLoop cfg n s (v * 4096) oldsz newsz = .ok (r, s') →
    (r = newsz ∧ Allocd s s' v (pages newsz)) ∨
      (r = 0 ∧ AllocUndone s s' (pages oldsz) (pages newsz) ∧
        ∀ u, pages oldsz ≤ u → u < pages newsz → mapped (s'.pd.pteAt u) = false) := by
  induction n with
  | zero =>
    intro s s' v oldsz newsz r hn _ _ _ h
    cases h
    exact Or.inl ⟨rfl, Allocd.refl s hn⟩
  | succ n ih =>
    intro s s' v oldsz newsz r hn hold hk hv h
    unfold allocuvmLoop at h
    by_cases hle : newsz ≤ v * 4096
    · rw [if_pos hle] at h
      cases h
      exact Or.inl ⟨rfl, Allocd.refl s (by unfold pages; omega)⟩
    rw [if_neg hle] at h
    have hv19 : v < 2 ^ 19 := by unfold kernBase at hk; omega
    have hvp : v < pages newsz := by unfold pages; omega
    split at h
    · -- no frame left
      obtain ⟨⟨r1, s1⟩, h1, h2⟩ := Lib.bind_eq_ok.mp h
      cases h2
      exact Or.inr ⟨rfl, deallocuvm_undone cfg hk h1⟩
    · rename_i f m hkal
      obtain ⟨⟨r1, s1⟩, h1, h2⟩ := Lib.bind_eq_ok.mp h
      rcases newPage_of_mappages hkal hv19 isFlags_user h1 with ⟨rfl, rfl⟩ | ⟨rfl, hp⟩
      · -- no frame left for the page-table page
        obtain ⟨⟨r2, s2⟩, h3, h4⟩ := Lib.bind_eq_ok.mp h2
        obtain ⟨m2, h5, h6⟩ := Lib.bind_eq_ok.mp h4
        cases h6
        obtain ⟨hu, hz⟩ := deallocuvm_undone cfg hk h3
        exact Or.inr ⟨rfl, AllocUndone.kfree cfg hkal hu h5, hz⟩
      · dsimp only at h2
        rw [if_neg (by decide), vpn_addU (by omega)] at h2
        rcases ih (by omega) (by omega) hk (by omega) h2 with ⟨rfl, ha⟩ | ⟨rfl, hu, hz⟩
        · exact Or.inl ⟨rfl, Allocd.cons hvp hp ha⟩
        · exact Or.inr ⟨rfl, AllocUndone.cons hold hvp hp hu (hz v hold hvp), hz⟩

/-- The loop of `allocuvm` fails only on a page that is mapped, or a frame that was never the
    allocator's. -/
theorem allocuvmLoop_error {cfg : Config} {n : Nat} : ∀ {s : Vm} {v oldsz newsz : Nat} {e : Err},
    newsz < kernBase → allocuvmLoop cfg n s (v * 4096) oldsz newsz = .error e →
    (∃ u, v ≤ u ∧ u < pages newsz ∧ mapped (s.pd.pteAt u) = true) ∨
      ∃ f, 1 ≤ s.m.free f + s.pd.holds f ∧ ¬ managed cfg f := by
  induction n with
  | zero =>
    intro s v oldsz newsz e _ h
    cases h
  | succ n ih =>
    intro s v oldsz newsz e hk h
    unfold allocuvmLoop at h
    have hde : ∀ {s : Vm}, deallocuvm cfg s newsz oldsz = .error e →
        ∃ f, 1 ≤ s.pd.holds f ∧ ¬ managed cfg f := by
      intro s h1
      obtain ⟨u, hu, hm, hn⟩ := deallocuvm_error (Nat.le_of_lt hk) h1
      exact ⟨_, PgDir.one_le_holds hm hu, hn⟩
    by_cases hle : newsz ≤ v * 4096
    · rw [if_pos hle] at h
      cases h
    rw [if_neg hle] at h
    have hv19 : v < 2 ^ 19 := by unfold kernBase at hk; omega
    have hvp : v < pages newsz := by unfold pages; omega
    split at h
    · rcases Lib.bind_eq_error.mp h with h1 | ⟨⟨r1, s1⟩, -, h2⟩
      · obtain ⟨f, h3, h4⟩ := hde h1
        exact Or.inr ⟨f, by omega, h4⟩
      · cases h2
    rename_i f m hkal
    have hkf := kalloc_free hkal
    rcases Lib.bind_eq_error.mp h with h1 | ⟨⟨r1, s1⟩, h1, h2⟩
    · have hm := mappages_one_error (show v < 2 ^ 20 by omega) h1
      exact Or.inl ⟨v, Nat.le_refl _, hvp, hm⟩
    rcases newPage_of_mappages hkal hv19 isFlags_user h1 with ⟨rfl, rfl⟩ | ⟨rfl, hp⟩
    · dsimp only at h2
      rw [if_pos (by decide)] at h2
      rcases Lib.bind_eq_error.mp h2 with h3 | ⟨⟨r2, s2⟩, h3, h4⟩
      · obtain ⟨g, h5, h6⟩ := hde h3
        exact Or.inr ⟨g, Nat.le_trans h5 (Nat.le_add_left _ _), h6⟩
      · rcases Lib.bind_eq_error.mp h4 with h5 | ⟨m2, -, h6⟩
        · refine Or.inr ⟨f, ?_, fun hman => ?_⟩
          · have e1 := hkf f
            rw [one_self] at e1
            omega
          · rw [kfree_managed hman] at h5
            cases h5
        · cases h6
    · dsimp only at h2
      rw [if_neg (by decide), vpn_addU (by omega)] at h2
      rcases ih hk h2 with ⟨u, h3, h4, h5⟩ | ⟨g, h3, h4⟩
      · rw [hp.pte u, if_neg (by omega)] at h5
        exact Or.inl ⟨u, by omega, h4, h5⟩
      · rw [hp.count g] at h3
        exact Or.inr ⟨g, h3, h4⟩

/-- **`allocuvm`, when it returns.** -/
theorem allocuvm_ok {cfg : Config} {r : Nat} (hold : oldsz ≤ kernBase)
    (h : allocuvm cfg s oldsz newsz = .ok (r, s')) :
    (newsz < kernBase ∧ oldsz ≤ newsz ∧ r = newsz ∧ Allocd s s' (pages oldsz) (pages newsz)) ∨
    (newsz < kernBase ∧ newsz < oldsz ∧ r = oldsz ∧ s' = s) ∨
    (kernBase ≤ newsz ∧ r = 0 ∧ s' = s) ∨
    (newsz < kernBase ∧ oldsz ≤ newsz ∧ r = 0 ∧
      AllocUndone s s' (pages oldsz) (pages newsz)) := by
  unfold allocuvm at h
  split at h
  · rename_i hk
    cases h
    exact Or.inr (Or.inr (Or.inl ⟨hk, rfl, rfl⟩))
  · rename_i hk
    split at h
    · rename_i hlt
      cases h
      exact Or.inr (Or.inl ⟨by omega, hlt, rfl, rfl⟩)
    · rename_i hle
      have hold' : oldsz ≤ 2 ^ 31 := hold
      simp only [pgRoundUp_pages hold'] at h
      rcases allocuvmLoop_ok (by unfold pages pgSize; omega) (Nat.le_refl _) (by omega)
        (by unfold pages; omega) h with ⟨rfl, ha⟩ | ⟨rfl, hu, -⟩
      · exact Or.inl ⟨by omega, by omega, rfl, ha⟩
      · exact Or.inr (Or.inr (Or.inr ⟨by omega, by omega, rfl, hu⟩))

theorem allocuvm_error {cfg : Config} {e : Err} (hold : oldsz ≤ kernBase)
    (h : allocuvm cfg s oldsz newsz = .error e) :
    newsz < kernBase ∧ ((∃ u, pages oldsz ≤ u ∧ u < pages newsz ∧ mapped (s.pd.pteAt u) = true) ∨
      ∃ f, 1 ≤ s.m.free f + s.pd.holds f ∧ ¬ managed cfg f) := by
  unfold allocuvm at h
  split at h
  · cases h
  · rename_i hk
    split at h
    · cases h
    · have hold' : oldsz ≤ 2 ^ 31 := hold
      simp only [pgRoundUp_pages hold'] at h
      exact ⟨by omega, allocuvmLoop_error (by omega) h⟩

end Xv6Clock
