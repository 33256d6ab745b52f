/-
  File:      Xv6Clock/Uvm.lean
  Subject:   Giving pages back (vm.c): `deallocuvm` and `freevm`.

  Each function gets one lemma about the calls that return: which entries change, that frames are
  only moved between the page table and the free list (`count`), and which frame contents may
  change (`mem`). A second lemma names what must have been wrong before a call that does not
  return: a frame in use that the allocator never handed out.
-/
import Xv6Clock.PageTable

namespace Xv6Clock

open Finset

variable (cfg : Config)

/-! ## 1. `deallocuvm` -/

/-- The loop of `deallocuvm`, bounded by the number of pages left. Where the page-table page is
    missing, `a` goes to the first page of the next one. -/
def deallocuvmLoop : Nat → Vm → Nat → Nat → Except Err Vm
  | 0, s, _, _ => .ok s
  | n + 1, s, a, oldsz =>
    if oldsz ≤ a then .ok s else
    match s.pd.walk a with
    | none => deallocuvmLoop n s (pgAddr (pdx a + 1) 0 0) oldsz
    | some pte =>
      if mapped (s.pd.pteAt pte) then do
        if pteFrame (s.pd.pteAt pte) = 0 then .error (.panic .kfree) else
        let m ← kfree cfg s.m (pteFrame (s.pd.pteAt pte))
        deallocuvmLoop n ⟨m, s.pd.store pte 0#32⟩ (addU a pgSize) oldsz
      else deallocuvmLoop n s (addU a pgSize) oldsz

/-- `deallocuvm`. -/
def deallocuvm (s : Vm) (oldsz newsz : Nat) : Except Err (Nat × Vm) :=
  if oldsz ≤ newsz then .ok (oldsz, s) else do
  let a := pgRoundUp newsz
  let s ← deallocuvmLoop cfg ((oldsz - a) / pgSize + 1) s a oldsz
  .ok (newsz, s)

/-- **What freeing the pages `[lo, hi)` does**: their entries become zero, all others stay, and
    their frames go to the free list. -/
structure Unmapped (s s' : Vm) (lo hi : Nat) : Prop where
  pte : ∀ u, s'.pd.pteAt u =
    if lo ≤ u ∧ u < hi ∧ mapped (s.pd.pteAt u) = true then 0#32 else s.pd.pteAt u
  tab : ∀ u, s'.pd.tabAt u = s.pd.tabAt u
  dir : s'.pd.frame = s.pd.frame
  count : ∀ f, s'.m.free f + s'.pd.holds f = s.m.free f + s.pd.holds f
  grow : ∀ f, s.m.free f ≤ s'.m.free f
  mem : ∀ f, s'.m.free f = s.m.free f → s'.m.mem f = s.m.mem f
  twice : (∀ f, s.m.free f + s.pd.holds f ≤ 1) → s'.m.twice = s.m.twice

variable {lo hi v n r : Nat} {s : Vm} {pd : PgDir}

theorem Unmapped.empty (s : Vm) (h : ∀ u, lo ≤ u → u < hi → mapped (s.pd.pteAt u) = false) :
    Unmapped s s lo hi where
  pte u := by
    split
    · rename_i hu
      rw [h u hu.1 hu.2.1] at hu
      exact absurd hu.2.2 Bool.false_ne_true
    · rfl
  tab _ := rfl
  dir := rfl
  count _ := rfl
  grow _ := Nat.le_refl _
  mem _ _ := rfl
  twice _ := rfl

/-- Freeing one stretch and then the next (which may start beyond the end). -/
theorem Unmapped.append {s' s'' : Vm} {mid : Nat} (h1 : Unmapped s s' lo (min mid hi))
    (h2 : Unmapped s' s'' mid hi) (hlo : lo ≤ mid) : Unmapped s s'' lo hi where
  pte u := by
    rw [h2.pte u, h1.pte u]
    by_cases ha : lo ≤ u ∧ u < min mid hi ∧ mapped (s.pd.pteAt u) = true
    · have hb : lo ≤ u ∧ u < hi ∧ mapped (s.pd.pteAt u) = true := ⟨ha.1, by omega, ha.2.2⟩
      simp only [if_pos ha, if_pos hb, ite_self]
    · rw [if_neg ha]
      by_cases hc : mid ≤ u ∧ u < hi ∧ mapped (s.pd.pteAt u) = true
      · rw [if_pos hc, if_pos ⟨by omega, hc.2⟩]
      · rw [if_neg hc, if_neg]
        rintro ⟨hb1, hb2, hb3⟩
        by_cases hm : u < mid
        · exact ha ⟨hb1, by omega, hb3⟩
        · exact hc ⟨by omega, hb2, hb3⟩
  tab u := (h2.tab u).trans (h1.tab u)
  dir := h2.dir.trans h1.dir
  count f := (h2.count f).trans (h1.count f)
  grow f := Nat.le_trans (h1.grow f) (h2.grow f)
  mem f hf := by
    have g1 := h1.grow f
    have g2 := h2.grow f
    rw [h2.mem f (by omega), h1.mem f (by omega)]
  twice hs := by
    rw [h2.twice fun f => by rw [h1.count f]; exact hs f, h1.twice hs]

/-- One freed page. -/
theorem unmapped_one {m : Kmem} (hv : v < 2 ^ 19) (hm : mapped (s.pd.pteAt v) = true)
    (hk : kfree cfg s.m (pteFrame (s.pd.pteAt v)) = .ok m) :
    Unmapped s ⟨m, s.pd.store v 0#32⟩ v (v + 1) := by
  have htab := PgDir.tabAt_of_mapped hm
  have hfree := kfree_free hk
  obtain ⟨-, -, hmem, -⟩ := kfree_ok hk
  have hcount : ∀ f, (⟨m, s.pd.store v 0#32⟩ : Vm).m.free f + (s.pd.store v 0#32).holds f =
      s.m.free f + s.pd.holds f := by
    intro f
    have h1 := PgDir.holds_store 0#32 htab (show v < 2 ^ 20 by omega) f
    have h2 := hfree f
    simp only [userHolds, hv, if_true, pteHolds, hm, mapped_zero, Bool.false_eq_true,
      if_false] at h1
    simp only
    omega
  refine ⟨fun u => ?_, fun u => PgDir.tabAt_store _ _ _ _, PgDir.store_frame _ _ _, hcount,
    fun f => ?_, fun f hf => ?_, fun hs => ?_⟩
  · rw [PgDir.pteAt_store _ _ htab]
    by_cases hu : u = v
    · subst hu
      rw [if_pos rfl, if_pos ⟨Nat.le_refl u, by omega, hm⟩]
    · rw [if_neg hu, if_neg (by omega)]
  · have h2 := hfree f
    simp only
    omega
  · have h2 := hfree f
    simp only at hf ⊢
    have hne : f ≠ pteFrame (s.pd.pteAt v) := by
      rintro rfl
      rw [one_self] at h2
      omega
    rw [hmem, Function.update_of_ne hne]
  · -- the frame was in use, so it was not on the list
    have h1 := hs (pteFrame (s.pd.pteAt v))
    have h2 := PgDir.one_le_holds hm hv
    exact kfree_twice hk (by omega)

theorem pdx_page (h : v < 2 ^ 20) : pdx (v * 4096) = v / 1024 := by
  rw [← vpn_div, vpn_page h]

/-- The skip of `deallocuvm` goes to the first page of the next page-table page. -/
theorem pgAddr_next (h : v < 2 ^ 19) :
    pgAddr (pdx (v * 4096) + 1) 0 0 = ((v / 1024 + 1) * 1024) * 4096 := by
  rw [pdx_page (by omega)]
  unfold pgAddr
  omega

theorem pteAt_of_noTab {u : Nat} (h : pd.tabAt v = false) (hu : u / 1024 = v / 1024) :
    pd.pteAt u = 0#32 := by
  have hn : pd.pde (v / 1024) = none := by simpa [PgDir.tabAt] using h
  simp [PgDir.pteAt, hu, hn]

/-- **What the loop of `deallocuvm` does from page `v` on**, and how it ends. -/
inductive Freeing (cfg : Config) (oldsz : Nat) : Nat → Vm → Except Err Vm → Prop where
  | done {v : Nat} {s : Vm} (h : pages oldsz ≤ v) : Freeing cfg oldsz v s (.ok s)
  | skip {v w : Nat} {s : Vm} {x : Except Err Vm} (hw : v ≤ w)
      (hz : ∀ u, v ≤ u → u < w → mapped (s.pd.pteAt u) = false)
      (h : Freeing cfg oldsz w s x) : Freeing cfg oldsz v s x
  | panic {v : Nat} {s : Vm} {e : Err} (hv : v < pages oldsz) (hm : mapped (s.pd.pteAt v) = true)
      (hn : ¬ managed cfg (pteFrame (s.pd.pteAt v))) : Freeing cfg oldsz v s (.error e)
  | free {v : Nat} {s : Vm} {m : Kmem} {x : Except Err Vm} (hv : v < pages oldsz)
      (hm : mapped (s.pd.pteAt v) = true) (hk : kfree cfg s.m (pteFrame (s.pd.pteAt v)) = .ok m)
      (h : Freeing cfg oldsz (v + 1) ⟨m, s.pd.store v 0#32⟩ x) : Freeing cfg oldsz v s x

section
variable {cfg : Config} {oldsz : Nat} {s' : Vm} (hk : oldsz ≤ kernBase)
include hk

/-- **The loop of `deallocuvm` comes to its end** in as many rounds as there are pages left. -/
theorem deallocuvmLoop_freeing : ∀ {v : Nat} {s : Vm}, pages oldsz ≤ v + n →
    Freeing cfg oldsz v s (deallocuvmLoop cfg n s (v * 4096) oldsz) := by
  induction n with
  | zero => exact fun hn => .done hn
  | succ n ih =>
    intro v s hn
    unfold deallocuvmLoop
    by_cases hle : oldsz ≤ v * 4096
    · rw [if_pos hle]
      exact .done (by unfold pages; omega)
    rw [if_neg hle]
    have hv19 : v < 2 ^ 19 := by unfold kernBase at hk; omega
    have hvp : v < pages oldsz := by unfold pages; omega
    have hvpn : vpn (v * 4096) = v := vpn_page (by omega)
    cases ht : s.pd.tabAt v with
    | false =>
      -- everything up to the next page-table page is unmapped
      rw [PgDir.walk_of_no_tab (by rw [hvpn]; exact ht), pgAddr_next hv19]
      exact .skip (by omega) (fun u _ _ => by rw [pteAt_of_noTab ht (by omega), mapped_zero])
        (ih (by omega))
    | true =>
      rw [PgDir.walk_of_tabAt (by rw [hvpn]; exact ht), hvpn, vpn_addU (by omega)]
      dsimp only
      split
      · rename_i hm
        split
        · rename_i hz
          exact .panic hvp hm fun hman => managed_ne_zero hman hz
        · cases hkf : kfree cfg s.m (pteFrame (s.pd.pteAt v)) with
          | error e =>
            refine .panic hvp hm fun hman => ?_
            rw [kfree_managed hman] at hkf
            cases hkf
          | ok m => exact .free hvp hm hkf (ih (by omega))
      · rename_i hm
        exact .skip (Nat.le_succ v) (fun u _ _ => by rw [show u = v by omega]; simpa using hm)
          (ih (by omega))

/-- When it returns. -/
theorem Freeing.unmapped (h : Freeing cfg oldsz v s (.ok s')) :
    Unmapped s s' v (pages oldsz) := by
  generalize hx : Except.ok s' = x at h
  induction h with
  | done h =>
    cases hx
    exact Unmapped.empty _ fun u h1 h2 => by omega
  | skip hw hz _ ih =>
    exact (Unmapped.empty _ fun u h1 h2 => hz u h1 (by omega)).append (ih hx) hw
  | panic => cases hx
  | @free v s m x hv hm hkf _ ih =>
    have h0 := unmapped_one cfg (by unfold pages kernBase at *; omega) hm hkf
    rw [← Nat.min_eq_left (show v + 1 ≤ pages oldsz from hv)] at h0
    exact h0.append (ih hx) (Nat.le_succ v)

omit hk in
/-- It fails only on a mapped page whose frame the allocator never had. -/
theorem Freeing.error {e : Err} (h : Freeing cfg oldsz v s (.error e)) :
    ∃ u, v ≤ u ∧ u < pages oldsz ∧ mapped (s.pd.pteAt u) = true ∧
      ¬ managed cfg (pteFrame (s.pd.pteAt u)) := by
  generalize hx : Except.error e = x at h
  induction h with
  | done => cases hx
  | skip hw _ _ ih =>
    obtain ⟨u, hu1, hu⟩ := ih hx
    exact ⟨u, Nat.le_trans hw hu1, hu⟩
  | @panic v s _ hv hm hn => exact ⟨v, Nat.le_refl v, hv, hm, hn⟩
  | @free v s m x hv hm hkf _ ih =>
    obtain ⟨u, hu1, hu2, hmu, hnm⟩ := ih hx
    rw [PgDir.pteAt_store_ne _ _ (by omega)] at hmu hnm
    exact ⟨u, by omega, hu2, hmu, hnm⟩

end

/-- The frames of the mapped pages of `[lo, hi)`, in the order of the pages. -/
def PgDir.framesIn (pd : PgDir) (lo hi : Nat) : List Frame :=
  ((List.range' lo (hi - lo)).filter fun u => mapped (pd.pteAt u)).map fun u =>
    pteFrame (pd.pteAt u)

theorem PgDir.framesIn_nil (pd : PgDir) (h : hi ≤ lo) : pd.framesIn lo hi = [] := by
  simp [PgDir.framesIn, Nat.sub_eq_zero_of_le h]

theorem PgDir.framesIn_cons (pd : PgDir) (h : lo < hi) : pd.framesIn lo hi =
    if mapped (pd.pteAt lo) then pteFrame (pd.pteAt lo) :: pd.framesIn (lo + 1) hi
    else pd.framesIn (lo + 1) hi := by
  have e : hi - lo = hi - (lo + 1) + 1 := by omega
  unfold PgDir.framesIn
  rw [e, List.range'_succ, List.filter_cons]
  split <;> rfl

theorem PgDir.framesIn_congr {pd' : PgDir} (h : ∀ u, lo ≤ u → pd'.pteAt u = pd.pteAt u) :
    pd'.framesIn lo hi = pd.framesIn lo hi := by
  have hmem : ∀ u ∈ List.range' lo (hi - lo), pd'.pteAt u = pd.pteAt u :=
    fun u hu => h u (List.mem_range'_1.mp hu).1
  unfold PgDir.framesIn
  rw [List.filter_congr fun u hu => congrArg mapped (hmem u hu)]
  exact List.map_congr_left fun u hu => congrArg pteFrame (hmem u (List.mem_of_mem_filter hu))

/-- Pages without an entry add nothing. -/
theorem PgDir.framesIn_skip (pd : PgDir) {k : Nat} : ∀ {lo hi : Nat},
    (∀ u, lo ≤ u → u < lo + k → mapped (pd.pteAt u) = false) →
    pd.framesIn lo hi = pd.framesIn (lo + k) hi := by
  induction k with
  | zero => exact fun _ => rfl
  | succ k ih =>
    intro lo hi h
    by_cases hlo : lo < hi
    · have h0 := h lo (Nat.le_refl lo) (by omega)
      rw [pd.framesIn_cons hlo, h0, if_neg (by decide), ih fun u h1 h2 => h u (by omega) (by omega),
        Nat.add_right_comm, Nat.add_assoc]
    · rw [pd.framesIn_nil (by omega), pd.framesIn_nil (by omega)]

/-- **The frames the loop of `deallocuvm` passes to `kfree`**: those of the mapped pages in range,
    each once for each page, in the order of the pages. -/
theorem Freeing.freelist {cfg : Config} {oldsz : Nat} {s' : Vm}
    (h : Freeing cfg oldsz v s (.ok s')) :
    s'.m.freelist = (s.pd.framesIn v (pages oldsz)).reverse ++ s.m.freelist := by
  generalize hx : Except.ok s' = x at h
  induction h with
  | done h =>
    cases hx
    rw [PgDir.framesIn_nil _ h]
    rfl
  | @skip v w s x hw hz _ ih =>
    rw [ih hx, s.pd.framesIn_skip (k := w - v) fun u h1 h2 => hz u h1 (by omega),
      Nat.add_sub_cancel' hw]
  | panic => cases hx
  | @free v s m x hv hm hkf _ ih =>
    have hne : ∀ u, v + 1 ≤ u → (s.pd.store v 0#32).pteAt u = s.pd.pteAt u :=
      fun u hu => PgDir.pteAt_store_ne _ _ (by omega)
    rw [ih hx, PgDir.framesIn_congr hne, (kfree_ok hkf).2.1, s.pd.framesIn_cons hv, if_pos hm,
      List.reverse_cons, List.append_assoc]
    rfl

/-- The rounds of `deallocuvm` are enough. -/
theorem deallocuvm_freeing (cfg : Config) {oldsz : Nat} (hk : oldsz ≤ kernBase) (s : Vm)
    (newsz : Nat) : Freeing cfg oldsz (pages newsz) s (deallocuvmLoop cfg
      ((oldsz - pages newsz * 4096) / pgSize + 1) s (pages newsz * 4096) oldsz) :=
  deallocuvmLoop_freeing hk (by unfold pages pgSize; omega)

/-- **`deallocuvm`, when it returns.** -/
theorem deallocuvm_ok {cfg : Config} {s' : Vm} {oldsz newsz : Nat} (hk : oldsz ≤ kernBase)
    (h : deallocuvm cfg s oldsz newsz = .ok (r, s')) :
    (oldsz ≤ newsz ∧ r = oldsz ∧ s' = s) ∨
      (newsz < oldsz ∧ r = newsz ∧ Unmapped s s' (pages newsz) (pages oldsz)) := by
  unfold deallocuvm at h
  split at h
  · rename_i hle
    cases h
    exact Or.inl ⟨hle, rfl, rfl⟩
  · rename_i hlt
    obtain ⟨s1, h1, h2⟩ := Lib.bind_eq_ok.mp h
    have hk' : oldsz ≤ 2 ^ 31 := hk
    rw [pgRoundUp_pages (by omega)] at h1
    have hf := deallocuvm_freeing cfg hk s newsz
    rw [h1] at hf
    cases h2
    exact Or.inr ⟨by omega, rfl, hf.unmapped hk⟩

theorem deallocuvm_error {cfg : Config} {oldsz newsz : Nat} {e : Err} (hk : oldsz ≤ kernBase)
    (h : deallocuvm cfg s oldsz newsz = .error e) :
    ∃ u, u < 2 ^ 19 ∧ mapped (s.pd.pteAt u) = true ∧ ¬ managed cfg (pteFrame (s.pd.pteAt u)) := by
  unfold deallocuvm at h
  split at h
  · cases h
  · rcases Lib.bind_eq_error.mp h with h1 | ⟨s1, h1, h2⟩
    · have hk' : oldsz ≤ 2 ^ 31 := hk
      rw [pgRoundUp_pages (by omega)] at h1
      have hf := deallocuvm_freeing cfg hk s newsz
      rw [h1] at hf
      obtain ⟨u, -, hu, hm, hn⟩ := hf.error
      exact ⟨u, by unfold pages at hu; omega, hm, hn⟩
    · cases h2

/-! ## 2. `freevm` -/

/-- The loop of `freevm` over the directory entries from `i` on. -/
def freevmLoop : Nat → Kmem → PgDir → Nat → Except Err Kmem
  | 0, m, _, _ => .ok m
  | r + 1, m, pd, i =>
    match pd.pde i with
    | some t => do
      let m ← kfree cfg m t.frame
      freevmLoop r m pd (i + 1)
    | none => freevmLoop r m pd (i + 1)

/-- `freevm`. -/
def freevm (s : Vm) : Except Err Kmem := do
  let (_, s) ← deallocuvm cfg s kernBase 0
  let m ← freevmLoop cfg npdEntries s.m s.pd 0
  kfree cfg m s.pd.frame

/-- The frame of a page-table page. -/
def tabFrame (f : Frame) : Option PgTab → Nat
  | none => 0
  | some t => one t.frame f

theorem freevmLoop_ok {cfg : Config} : ∀ {m m' : Kmem} {pd : PgDir} {i : Nat},
    freevmLoop cfg r m pd i = .ok m' →
    (∀ f, m'.free f = m.free f + ∑ j ∈ range r, tabFrame f (pd.pde (i + j))) ∧
    (∀ f, m'.free f = m.free f → m'.mem f = m.mem f) ∧
    ((∀ f, m'.free f ≤ 1) → m'.twice = m.twice) := by
  induction r with
  | zero =>
    intro m m' pd i h
    cases h
    exact ⟨fun f => by simp, fun _ _ => rfl, fun _ => rfl⟩
  | succ r ih =>
    intro m m' pd i h
    unfold freevmLoop at h
    have hsum : ∀ f, ∑ j ∈ range (r + 1), tabFrame f (pd.pde (i + j)) =
        tabFrame f (pd.pde i) + ∑ j ∈ range r, tabFrame f (pd.pde (i + 1 + j)) := by
      intro f
      rw [Finset.sum_range_succ', Nat.add_comm]
      congr 1
      exact sum_congr rfl fun j _ => by rw [show i + 1 + j = i + (j + 1) by omega]
    cases hp : pd.pde i with
    | none =>
      rw [hp] at h
      obtain ⟨hf, hm, ht⟩ := ih h
      refine ⟨fun f => ?_, hm, ht⟩
      rw [hsum, hp, hf f]
      simp [tabFrame]
    | some t =>
      rw [hp] at h
      obtain ⟨m1, h1, h2⟩ := Lib.bind_eq_ok.mp h
      obtain ⟨hf, hm, ht⟩ := ih h2
      have hk := kfree_free h1
      obtain ⟨-, -, hmem, -⟩ := kfree_ok h1
      refine ⟨fun f => ?_, fun f he => ?_, fun hle => ?_⟩
      · rw [hsum, hp, hf f, hk f]
        simp only [tabFrame]
        omega
      · have h3 := hf f
        have h4 := hk f
        have hne : f ≠ t.frame := by
          rintro rfl
          rw [one_self] at h4
          omega
        rw [hm f (by omega), hmem, Function.update_of_ne hne]
      · rw [ht hle]
        refine kfree_twice h1 ?_
        have h3 := hf t.frame
        have h4 := hk t.frame
        have h5 := hle t.frame
        rw [one_self] at h4
        omega

/-- After the user part is gone, a page directory holds its own frame and its page-table pages. -/
theorem holds_of_unmapped (h : ∀ u, u < 2 ^ 19 → mapped (pd.pteAt u) = false) (f : Frame) :
    pd.holds f = one pd.frame f + ∑ j ∈ range 1024, tabFrame f (pd.pde j) := by
  unfold PgDir.holds
  refine congrArg (one pd.frame f + ·) (sum_congr rfl fun d hd => ?_)
  cases hp : pd.pde d with
  | none => rfl
  | some t =>
    rw [tabHolds_some]
    by_cases h5 : d < 512
    · have hz : ∑ i ∈ range 1024, pteHolds (t.pte i) f = 0 := by
        refine sum_eq_zero fun i hi => pteHolds_unmapped ?_ f
        have hi' := mem_range.mp hi
        have h1 := h (d * 1024 + i) (by omega)
        have e1 : (d * 1024 + i) / 1024 = d := by omega
        have e2 : (d * 1024 + i) % 1024 = i := by omega
        simpa only [PgDir.pteAt, e1, hp, e2] using h1
      rw [if_pos h5, hz]
      rfl
    · rw [if_neg h5]
      rfl

/-- **`freevm` gives back every frame of the page directory**, and changes the contents of no
    other. -/
theorem freevm_ok {cfg : Config} {m' : Kmem} (h : freevm cfg s = .ok m') :
    (∀ f, m'.free f = s.m.free f + s.pd.holds f) ∧
    (∀ f, s.pd.holds f = 0 → m'.mem f = s.m.mem f) ∧
    ((∀ f, s.m.free f + s.pd.holds f ≤ 1) → m'.twice = s.m.twice) := by
  unfold freevm at h
  obtain ⟨⟨r, s1⟩, h1, h2⟩ := Lib.bind_eq_ok.mp h
  obtain ⟨m1, h3, h4⟩ := Lib.bind_eq_ok.mp h2
  have hu : Unmapped s s1 (pages 0) (pages kernBase) := by
    rcases deallocuvm_ok (Nat.le_refl _) h1 with ⟨hle, -⟩ | ⟨-, -, hu⟩
    · exact absurd hle (by decide)
    · exact hu
  have hz : ∀ u, u < 2 ^ 19 → mapped (s1.pd.pteAt u) = false := by
    intro u hu19
    rw [hu.pte u]
    cases hm : mapped (s.pd.pteAt u) with
    | true =>
      rw [if_pos ⟨Nat.zero_le _, hu19, rfl⟩, mapped_zero]
    | false =>
      rw [if_neg (fun hc => by cases hc.2.2)]
      exact hm
  obtain ⟨hf, hm, ht⟩ := freevmLoop_ok h3
  have hk := kfree_free h4
  obtain ⟨-, -, hmem, -⟩ := kfree_ok h4
  have hcount : ∀ f, m'.free f = s.m.free f + s.pd.holds f := by
    intro f
    have e1 := hu.count f
    have e2 := hf f
    have e3 := hk f
    have e4 := holds_of_unmapped hz f
    simp only [Nat.zero_add, npdEntries] at e2 e4 ⊢
    omega
  refine ⟨hcount, fun f h0 => ?_, fun hle => ?_⟩
  · have e0 := hcount f
    have e1 := hu.count f
    have e2 := hu.grow f
    have e3 := hf f
    have e4 := hk f
    have hne : f ≠ s1.pd.frame := by
      rintro rfl
      rw [one_self] at e4
      omega
    rw [hmem, Function.update_of_ne hne, hm f (by omega), hu.mem f (by omega)]
  · have hle1 : ∀ f, m1.free f ≤ 1 := fun f => by
      have e0 := hcount f
      have e1 := hk f
      have e2 := hle f
      omega
    have hlast : m'.twice = m1.twice := by
      refine kfree_twice h4 ?_
      have e0 := hcount s1.pd.frame
      have e1 := hk s1.pd.frame
      have e2 := hle s1.pd.frame
      rw [one_self] at e1
      omega
    rw [hlast, ht hle1, hu.twice hle]

theorem freevmLoop_error {cfg : Config} : ∀ {m : Kmem} {pd : PgDir} {i : Nat} {e : Err},
    freevmLoop cfg r m pd i = .error e →
    ∃ j t, j < i + r ∧ pd.pde j = some t ∧ ¬ managed cfg t.frame := by
  induction r with
  | zero =>
    intro m pd i e h
    cases h
  | succ r ih =>
    intro m pd i e h
    unfold freevmLoop at h
    cases hp : pd.pde i with
    | none =>
      rw [hp] at h
      obtain ⟨j, t, hj, hrest⟩ := ih h
      exact ⟨j, t, by omega, hrest⟩
    | some t =>
      rw [hp] at h
      rcases Lib.bind_eq_error.mp h with h1 | ⟨m1, -, h2⟩
      · refine ⟨i, t, by omega, hp, fun hman => ?_⟩
        rw [kfree_managed hman] at h1
        cases h1
      · obtain ⟨j, t, hj, hrest⟩ := ih h2
        exact ⟨j, t, by omega, hrest⟩

/-- `freevm` fails only on a page directory that holds a frame the allocator never had. -/
theorem freevm_error {cfg : Config} {e : Err} (h : freevm cfg s = .error e) :
    ∃ f, 1 ≤ s.pd.holds f ∧ ¬ managed cfg f := by
  unfold freevm at h
  rcases Lib.bind_eq_error.mp h with h1 | ⟨⟨r, s1⟩, h1, h2⟩
  · obtain ⟨u, hu, hm, hn⟩ := deallocuvm_error (Nat.le_refl _) h1
    exact ⟨_, PgDir.one_le_holds hm hu, hn⟩
  have hle : ∀ f, s1.pd.holds f ≤ s.pd.holds f := by
    intro f
    rcases deallocuvm_ok (Nat.le_refl _) h1 with ⟨-, -, rfl⟩ | ⟨-, -, hu⟩
    · exact Nat.le_refl _
    · have e1 := hu.count f
      have e2 := hu.grow f
      omega
  rcases Lib.bind_eq_error.mp h2 with h3 | ⟨m1, -, h4⟩
  · obtain ⟨j, t, hj, hp, hn⟩ := freevmLoop_error h3
    refine ⟨t.frame, Nat.le_trans ?_ (hle t.frame), hn⟩
    have hj' : j < 1024 := by simpa [npdEntries] using hj
    have h5 := Lib.le_sum (fun d => tabHolds t.frame d (s1.pd.pde d)) hj'
    simp only [hp, tabHolds_some, one_self] at h5
    unfold PgDir.holds
    omega
  · refine ⟨s1.pd.frame, Nat.le_trans ?_ (hle _), fun hman => ?_⟩
    · unfold PgDir.holds
      rw [one_self]
      omega
    · rw [kfree_managed hman] at h4
      cases h4

end Xv6Clock
