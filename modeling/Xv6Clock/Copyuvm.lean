/-
  File:      Xv6Clock/Copyuvm.lean
  Subject:   `copyuvm` (vm.c): the page table of a child.

  The copy has a frame of its own for every page below the size, with the parent's flags (an
  encrypted page stays encrypted, a decrypted one decrypted) and the parent's raw bytes.
-/
import Xv6Clock.Allocuvm

namespace Xv6Clock

variable (cfg : Config)

/-! ## 1. The function -/

/-- The loop of `copyuvm`, bounded by the number of pages left. -/
def copyuvmLoop : Nat → Kmem → PgDir → PgDir → Nat → Nat → Except Err (Option PgDir × Kmem)
  | 0, m, _, d, _, _ => .ok (some d, m)
  | n + 1, m, pd, d, i, sz =>
    if sz ≤ i then .ok (some d, m) else
    match pd.walk i with
    | none => .error (.panic .copyuvmPte)
    | some pte =>
      if !mapped (pd.pteAt pte) then .error (.panic .copyuvmPresent) else
      match kalloc m with
      | none => do
        let m ← freevm cfg ⟨m, d⟩
        .ok (none, m)
      | some (f, m) => do
        let (r, s) ← mappages ⟨m.setPage f (m.mem (pteFrame (pd.pteAt pte))), d⟩ i pgSize
          (frameAddr f) (pteFlags (pd.pteAt pte))
        if r < 0 then do
          let m ← kfree cfg s.m f
          let m ← freevm cfg ⟨m, s.pd⟩
          .ok (none, m)
        else copyuvmLoop n s.m pd s.pd (addU i pgSize) sz

/-- `copyuvm`. -/
def copyuvm (m : Kmem) (pd : PgDir) (sz : Nat) : Except Err (Option PgDir × Kmem) := do
  let (d, m) ← setupkvm cfg m
  match d with
  | none => .ok (none, m)
  | some d => copyuvmLoop cfg (sz / pgSize + 1) m pd d 0 sz

/-! ## 2. Copied entries -/

/-- The child's entry for a parent's entry. -/
def copyEntry (f : Frame) (w : Word) : Word := mapEntry (frameAddr f) (pteFlags w)

theorem has_pteFlags (w : Word) {m : Word} (h : IsFlags m) : has (pteFlags w) m = has w m := by
  have e : (0xFFF : Word) &&& m = m := by
    apply BitVec.eq_of_toNat_eq
    have h' : m.toNat < 2 ^ 12 := h
    rw [BitVec.toNat_and]
    have e1 : (0xFFF : Word).toNat = 2 ^ 12 - 1 := by decide
    rw [e1, Nat.and_comm, Nat.and_two_pow_sub_one_eq_mod, Nat.mod_eq_of_lt h']
  unfold has pteFlags
  rw [BitVec.and_assoc, e]

variable {w : Word} {m : Kmem} {d pd : PgDir}

/-- Setting a flag that is set changes nothing. -/
theorem or_of_has {i : Nat} (h : has w (BitVec.twoPow 32 i) = true) :
    w ||| BitVec.twoPow 32 i = w := by
  have hi : w.getLsbD i = true := by
    by_contra hn
    rw [has_eq_true, BitVec.and_twoPow, if_neg hn] at h
    exact h rfl
  apply BitVec.eq_of_getLsbD_eq
  intro j hj
  rw [BitVec.getLsbD_or, BitVec.getLsbD_twoPow]
  by_cases hij : i = j
  · rw [← hij, hi, Bool.true_or]
  · simp [hij]

/-- A copied entry is the new frame with the parent's flags. -/
theorem copyEntry_eq (f : Frame) (hw : mapped w = true) :
    copyEntry f w = frameAddr f ||| pteFlags w := by
  have hP : pteP = BitVec.twoPow 32 0 := by decide
  have hE : pteE = BitVec.twoPow 32 10 := by decide
  unfold copyEntry mapEntry
  split
  · rename_i he
    rw [BitVec.or_assoc, hE, or_of_has (by rw [← hE]; exact he)]
  · rename_i he
    rw [has_pteFlags w (by decide)] at he
    have hp : has w pteP = true := by
      rw [mapped_eq] at hw
      simpa [he] using hw
    rw [BitVec.or_assoc, hP, or_of_has (by rw [← hP, has_pteFlags w (by decide)]; exact hp)]

/-- **A copied entry has the flags of the original.** -/
theorem has_copyEntry (f : Frame) {m : Word} (hw : mapped w = true) (hm : IsFlags m) :
    has (copyEntry f w) m = has w m := by
  rw [copyEntry_eq f hw, has_or, has_frameAddr f hm, has_pteFlags w hm, Bool.false_or]

theorem mapped_copyEntry (f : Frame) (hw : mapped w = true) : mapped (copyEntry f w) = true :=
  (has_copyEntry f hw (by decide)).trans hw

@[simp] theorem pteFrame_copyEntry (f : Frame) (w : Word) : pteFrame (copyEntry f w) = f :=
  pteFrame_mapEntry f (isFlags_pteFlags w)

/-! ## 3. What the loop has copied -/

/-- **The first `n` pages are copied**: page directory `d` was built from `m`'s free frames. -/
structure Copied (m m' : Kmem) (pd d : PgDir) (n : Nat) : Prop where
  pte : ∀ u, u < n → ∃ f, d.pteAt u = copyEntry f (pd.pteAt u) ∧ 1 ≤ m.free f
  src : ∀ u, u < n → mapped (pd.pteAt u) = true
  rest : ∀ u, n ≤ u → u < 2 ^ 19 → d.pteAt u = 0#32
  tab : ∀ u, u < 2 ^ 19 → d.tabAt u = true → ∃ x, x < n ∧ u / 1024 = x / 1024
  high : ∀ u, 2 ^ 19 ≤ u → has (d.pteAt u) pteU = false ∧ has (d.pteAt u) pteE = false
  dev : ∀ u, 0xFE000 ≤ u → u < 2 ^ 20 → d.tabAt u = true
  content : (∀ f, m.free f ≤ 1) → (∀ u, u < n → m.free (pteFrame (pd.pteAt u)) = 0) →
    ∀ u, u < n → m'.mem (pteFrame (d.pteAt u)) = m.mem (pteFrame (pd.pteAt u))
  took : Took m m' d

theorem KernDir.copied {m' : Kmem} (pd : PgDir) (hd : KernDir d) (ht : Took m m' d) :
    Copied m m' pd d 0 where
  pte u hu := by omega
  src u hu := by omega
  rest u _ hu := hd.pte u hu
  tab u hu h := by
    rw [hd.tab u (Or.inl hu)] at h
    cases h
  high := hd.high
  dev := hd.dev
  content _ _ u hu := by omega
  took := ht

/-- One more page. -/
theorem Copied.snoc {m0 m1 : Kmem} {s : Vm} {v : Nat} {f : Frame} (h : Copied m0 m pd d v)
    (hv : v < 2 ^ 19) (hm : mapped (pd.pteAt v) = true) (hk : kalloc m = some (f, m1))
    (hn : NewPage ⟨m, d⟩ s v f (m1.mem (pteFrame (pd.pteAt v))) (pteFlags (pd.pteAt v))) :
    Copied m0 s.m pd s.pd (v + 1) := by
  have hle : ∀ g, m.free g ≤ m0.free g := fun g => by
    have := h.took.count g
    omega
  have hf1 : s.m.free f + 1 ≤ m.free f := hn.took
  have hcount : ∀ g, s.m.free g + s.pd.holds g = m.free g + d.holds g := hn.count
  have hpte : ∀ u, u ≠ v → s.pd.pteAt u = d.pteAt u := fun u hu => by rw [hn.pte u, if_neg hu]
  have hptev : s.pd.pteAt v = copyEntry f (pd.pteAt v) := by
    rw [hn.pte v, if_pos rfl]
    rfl
  have hmem : s.m.mem = Function.update m.mem f (m1.mem (pteFrame (pd.pteAt v))) := hn.mem
  refine ⟨fun u hu => ?_, fun u hu => ?_, fun u h1 h2 => ?_, fun u h1 h2 => ?_, fun u hu => ?_,
    fun u h1 h2 => hn.tab u (h.dev u h1 h2), fun hs hsrc u hu => ?_,
    ⟨fun g => ?_, fun g h0 => ?_, fun hs => ?_⟩⟩
  · by_cases huv : u = v
    · exact ⟨f, by rw [huv, hptev], by have := hle f; omega⟩
    · rw [hpte u huv]
      exact h.pte u (by omega)
  · by_cases huv : u = v
    · rw [huv, hm]
    · exact h.src u (by omega)
  · rw [hpte u (by omega)]
    exact h.rest u (by omega) h2
  · rcases hn.only u h2 with h3 | h3
    · obtain ⟨x, hx1, hx2⟩ := h.tab u h1 h3
      exact ⟨x, by omega, hx2⟩
    · exact ⟨v, by omega, h3⟩
  · rw [hpte u (by omega)]
    exact h.high u hu
  · -- the new frame was free, so it is none of the frames copied before
    have hsv : m.mem (pteFrame (pd.pteAt v)) = m0.mem (pteFrame (pd.pteAt v)) :=
      h.took.mem _ (hsrc v (by omega))
    by_cases huv : u = v
    · rw [huv, hptev, pteFrame_copyEntry, hmem, Function.update_self, (kalloc_some hk).2.1, hsv]
    · have hold := h.content hs (fun x hx => hsrc x (by omega)) u (by omega)
      have hmu : mapped (d.pteAt u) = true := by
        obtain ⟨g, hg, -⟩ := h.pte u (by omega)
        rw [hg]
        exact mapped_mapEntry _ _
      have hne : pteFrame (d.pteAt u) ≠ f := by
        intro he
        have h1 := PgDir.one_le_holds hmu (by omega)
        have h2 := h.took.count f
        have h3 := hs f
        rw [he] at h1
        omega
      rw [hpte u huv, hmem, Function.update_of_ne hne, hold]
  · rw [hcount g, h.took.count g]
  · have hne : g ≠ f := by
      rintro rfl
      have := hle g
      omega
    rw [hmem, Function.update_of_ne hne, h.took.mem g h0]
  · exact hn.twice.trans (h.took.twice hs)

/-- A frame taken and put back leaves the page directory's account as it was. -/
theorem Took.kfree {m0 m1 m2 : Kmem} {f : Frame} {pg : Page} (h : Took m0 m d)
    (hk : kalloc m = some (f, m1)) (hf : kfree cfg (m1.setPage f pg) f = .ok m2) :
    Took m0 m2 d := by
  have hkf := kalloc_free hk
  obtain ⟨-, hmem, htw⟩ := kalloc_some hk
  have hff := kfree_free hf
  obtain ⟨-, -, hfm, -⟩ := kfree_ok hf
  simp only [Kmem.setPage_free] at hff
  refine ⟨fun g => ?_, fun g h0 => ?_, fun hs => ?_⟩
  · rw [hff g, ← hkf g, h.count g]
  · have hne : g ≠ f := by
      rintro rfl
      have e1 := hkf g
      have e2 := h.count g
      rw [one_self] at e1
      omega
    rw [hfm, Function.update_of_ne hne, Kmem.setPage_mem_ne m1 pg hne, hmem, h.mem g h0]
  · have e1 := hkf f
    have e2 := h.count f
    have e3 := hs f
    rw [one_self] at e1
    rw [kfree_twice hf (by rw [Kmem.setPage_free]; omega), ← h.twice hs]
    exact htw

/-- **The loop of `copyuvm`.** -/
theorem copyuvmLoop_ok {cfg : Config} {n : Nat} : ∀ {m0 m m' : Kmem} {pd d : PgDir} {v sz : Nat}
    {r : Option PgDir}, pages sz ≤ v + n → v ≤ pages sz → sz ≤ kernBase → Copied m0 m pd d v →
    copyuvmLoop cfg n m pd d (v * 4096) sz = .ok (r, m') →
    (r = none ∧ Restored m0 m') ∨ ∃ d', r = some d' ∧ Copied m0 m' pd d' (pages sz) := by
  induction n with
  | zero =>
    intro m0 m m' pd d v sz r hn hv _ hc h
    cases h
    exact Or.inr ⟨d, rfl, by rwa [show pages sz = v by omega]⟩
  | succ n ih =>
    intro m0 m m' pd d v sz r hn hv hk hc h
    unfold copyuvmLoop at h
    by_cases hle : sz ≤ v * 4096
    · rw [if_pos hle] at h
      cases h
      refine Or.inr ⟨d, rfl, ?_⟩
      rwa [show pages sz = v by unfold pages at *; omega]
    rw [if_neg hle] at h
    have hv19 : v < 2 ^ 19 := by unfold kernBase at hk; omega
    have hvp : v < pages sz := by unfold pages; omega
    split at h
    · cases h
    rename_i pte hw
    obtain ⟨rfl, -⟩ := PgDir.walk_some hw
    rw [vpn_page (by omega)] at h
    cases hm : mapped (pd.pteAt v) with
    | false =>
      rw [hm] at h
      cases h
    | true =>
      simp only [hm, Bool.not_true, Bool.false_eq_true, if_false] at h
      split at h
      · obtain ⟨m2, h2, h3⟩ := Lib.bind_eq_ok.mp h
        cases h3
        exact Or.inl ⟨rfl, hc.took.undo h2⟩
      · rename_i f m1 hkal
        obtain ⟨⟨r1, s1⟩, h1, h2⟩ := Lib.bind_eq_ok.mp h
        dsimp only at h2
        rcases newPage_of_mappages (s := ⟨m, d⟩) hkal hv19 (isFlags_pteFlags _) h1 with
          ⟨rfl, rfl⟩ | ⟨rfl, hp⟩
        · rw [if_pos (by decide)] at h2
          obtain ⟨m2, h3, h4⟩ := Lib.bind_eq_ok.mp h2
          obtain ⟨m3, h5, h6⟩ := Lib.bind_eq_ok.mp h4
          cases h6
          exact Or.inl ⟨rfl, (Took.kfree cfg hc.took hkal h3).undo h5⟩
        · rw [if_neg (by decide), vpn_addU (by omega)] at h2
          exact ih (by omega) hvp hk (hc.snoc hv19 hm hkal hp) h2

/-- **`copyuvm`, when it returns.** -/
theorem copyuvm_ok {cfg : Config} {m' : Kmem} {sz : Nat} {r : Option PgDir} (hk : sz ≤ kernBase)
    (h : copyuvm cfg m pd sz = .ok (r, m')) :
    (r = none ∧ Restored m m') ∨ ∃ d, r = some d ∧ Copied m m' pd d (pages sz) := by
  unfold copyuvm at h
  obtain ⟨⟨d, m1⟩, h1, h2⟩ := Lib.bind_eq_ok.mp h
  rcases setupkvm_ok cfg h1 with ⟨rfl, hr⟩ | ⟨d, rfl, hd, ht⟩
  · cases h2
    exact Or.inl ⟨rfl, hr⟩
  · exact copyuvmLoop_ok (v := 0) (by unfold pages pgSize; omega) (Nat.zero_le _) hk
      (hd.copied pd ht) h2

/-- The loop of `copyuvm` fails only on a page below the size that is not mapped, or a frame that
    was never the allocator's. -/
theorem copyuvmLoop_error {cfg : Config} {n : Nat} : ∀ {m0 m : Kmem} {pd d : PgDir} {v sz : Nat}
    {e : Err}, sz ≤ kernBase → Copied m0 m pd d v →
    copyuvmLoop cfg n m pd d (v * 4096) sz = .error e →
    (∃ u, u < pages sz ∧ mapped (pd.pteAt u) = false) ∨ ∃ f, 1 ≤ m0.free f ∧ ¬ managed cfg f := by
  induction n with
  | zero =>
    intro m0 m pd d v sz e _ _ h
    cases h
  | succ n ih =>
    intro m0 m pd d v sz e hk hc h
    unfold copyuvmLoop at h
    by_cases hle : sz ≤ v * 4096
    · rw [if_pos hle] at h
      cases h
    rw [if_neg hle] at h
    have hv19 : v < 2 ^ 19 := by unfold kernBase at hk; omega
    have hvp : v < pages sz := by unfold pages; omega
    cases hm : mapped (pd.pteAt v) with
    | false => exact Or.inl ⟨v, hvp, hm⟩
    | true =>
      have hw : pd.walk (v * 4096) = some v := by
        have h1 := PgDir.tabAt_of_mapped hm
        rw [PgDir.walk_of_tabAt (by rw [vpn_page (by omega)]; exact h1), vpn_page (by omega)]
      simp only [hw, hm, Bool.not_true, Bool.false_eq_true, if_false] at h
      split at h
      · rcases Lib.bind_eq_error.mp h with h2 | ⟨m2, -, h3⟩
        · exact Or.inr (hc.took.undo_error h2)
        · cases h3
      rename_i f m1 hkal
      rcases Lib.bind_eq_error.mp h with h1 | ⟨⟨r1, s1⟩, h1, h2⟩
      · -- the child's entry for this page is still zero
        have h3 := mappages_one_error (show v < 2 ^ 20 by omega) h1
        simp only at h3
        rw [hc.rest v (Nat.le_refl _) hv19, mapped_zero] at h3
        cases h3
      · dsimp only at h2
        rcases newPage_of_mappages (s := ⟨m, d⟩) hkal hv19 (isFlags_pteFlags _) h1 with
          ⟨rfl, rfl⟩ | ⟨rfl, hp⟩
        · rw [if_pos (by decide)] at h2
          rcases Lib.bind_eq_error.mp h2 with h3 | ⟨m2, h3, h4⟩
          · refine Or.inr ⟨f, ?_, fun hman => ?_⟩
            · have e1 := kalloc_free hkal f
              have e2 := hc.took.count f
              rw [one_self] at e1
              omega
            · rw [kfree_managed hman] at h3
              cases h3
          · rcases Lib.bind_eq_error.mp h4 with h5 | ⟨m3, -, h6⟩
            · exact Or.inr ((Took.kfree cfg hc.took hkal h3).undo_error h5)
            · cases h6
        · rw [if_neg (by decide), vpn_addU (by omega)] at h2
          exact ih hk (hc.snoc hv19 hm hkal hp) h2

theorem copyuvm_error {cfg : Config} {sz : Nat} {e : Err} (hk : sz ≤ kernBase)
    (h : copyuvm cfg m pd sz = .error e) :
    (∃ u, u < pages sz ∧ mapped (pd.pteAt u) = false) ∨ ∃ f, 1 ≤ m.free f ∧ ¬ managed cfg f := by
  unfold copyuvm at h
  rcases Lib.bind_eq_error.mp h with h1 | ⟨⟨d, m1⟩, h1, h2⟩
  · exact Or.inr (setupkvm_error cfg h1)
  · rcases setupkvm_ok cfg h1 with ⟨rfl, hr⟩ | ⟨d, rfl, hd, ht⟩
    · cases h2
    · exact copyuvmLoop_error (v := 0) hk (hd.copied pd ht) h2

end Xv6Clock
