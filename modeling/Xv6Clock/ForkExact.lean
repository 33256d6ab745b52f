/-
  File:      Xv6Clock/ForkExact.lean
  Subject:   Does `fork` (proc.c) copy the address space exactly?

  `copyuvm` does. The fix-up after it looks every node of the parent's queue up in both page tables
  and uses the entries without asking whether there are any. A node whose page-table page is
  missing makes it read the word at user address 0, through the parent's own mapping: the access
  marks page 0 as referenced, decrypts it if it is encrypted, and can clear the lowest bit of the
  word. Where no such access happens, or none of this makes a difference, the copy is exact.
-/
import Xv6Clock.Fork
import Xv6Clock.Logical

namespace Xv6Clock

variable (cfg : Config)

/-! ## 1. The page-table pages of the child -/

/-- The child has a page-table page for page `u`: one of its own pages is in it, or it is the
    kernel's. -/
def childTab (sz u : Nat) : Prop := if u < 2 ^ 19 then u / 1024 * 1024 < pages sz else ¬ NoKern u

instance (sz u : Nat) : Decidable (childTab sz u) :=
  if h : u < 2 ^ 19 then
    decidable_of_iff (u / 1024 * 1024 < pages sz) (by rw [childTab, if_pos h])
  else
    decidable_of_iff (¬ (u < 2 ^ 19 ∨ 0x8E000 ≤ u ∧ u < 0xFE000)) (by rw [childTab, if_neg h]; rfl)

variable {pd : PgDir} {u v r : Nat} {w : Word} {p' : Proc} {o : Option Nat}

/-- The kernel's page-table pages in a new page directory. -/
theorem setupkvm_tab {m m' : Kmem} (h : setupkvm cfg m = .ok (some pd, m')) (h19 : 2 ^ 19 ≤ u)
    (hu : u < 2 ^ 20) (hk : ¬ NoKern u) : pd.tabAt u = true := by
  have hpte : ∀ f u, (⟨f, fun _ => none⟩ : PgDir).pteAt u = 0#32 := fun _ _ => rfl
  unfold setupkvm at h
  split at h
  · cases h
  rename_i f m1 hkal
  obtain ⟨b, s, h1, -, hall⟩ := kmapLoop_ok (kmap_rows cfg) (s := ⟨m1, ⟨f, fun _ => none⟩⟩)
    (kmapPages_disjoint cfg) (fun p _ u _ _ => by rw [hpte, mapped_zero])
  rw [if_neg (by decide), h1, Lib.ok_bind] at h
  cases b with
  | false =>
    simp only [Bool.false_eq_true, if_false] at h
    obtain ⟨m2, -, h3⟩ := Lib.bind_eq_ok.mp h
    cases h3
  | true =>
    cases h
    have ht := cfg.textLt
    have hd := cfg.dataLe
    have he := cfg.endLt
    simp only [extMem, pgSize, phystop] at ht he
    unfold NoKern at hk
    -- the row that holds the page
    have hrow : ∃ p ∈ kmapPages cfg, p.1 ≤ u ∧ u ≤ p.1 + p.2 := by
      simp only [kmapPages, List.mem_cons, List.not_mem_nil, or_false, exists_eq_or_imp,
        exists_eq_left]
      omega
    obtain ⟨p, hp, h2, h3⟩ := hrow
    exact hall rfl p hp u h2 h3

/-- The loop of `copyuvm` adds no page-table page above KERNBASE. -/
theorem copyuvmLoop_tab {n : Nat} : ∀ {m m' : Kmem} {pd d d' : PgDir} {v sz : Nat},
    sz ≤ kernBase → copyuvmLoop cfg n m pd d (v * 4096) sz = .ok (some d', m') →
    ∀ u, 2 ^ 19 ≤ u → d'.tabAt u = d.tabAt u := by
  induction n with
  | zero =>
    intro m m' pd d d' v sz _ h u _
    cases h
    rfl
  | succ n ih =>
    intro m m' pd d d' v sz hk h u hu
    unfold copyuvmLoop at h
    split at h
    · cases h
      rfl
    rename_i hlt
    have hv : v < 2 ^ 19 := by
      unfold kernBase at hk
      omega
    split at h
    · cases h
    split at h
    · cases h
    split at h
    · obtain ⟨m2, -, h3⟩ := Lib.bind_eq_ok.mp h
      cases h3
    rename_i f m1 hkal
    obtain ⟨⟨r, s⟩, h1, h2⟩ := Lib.bind_eq_ok.mp h
    dsimp only at h2
    rcases newPage_of_mappages (s := ⟨m, d⟩) hkal hv (isFlags_pteFlags _) h1 with
      ⟨rfl, -⟩ | ⟨rfl, hp⟩
    · rw [if_pos (by decide)] at h2
      obtain ⟨m2, -, h4⟩ := Lib.bind_eq_ok.mp h2
      obtain ⟨m3, -, h6⟩ := Lib.bind_eq_ok.mp h4
      cases h6
    · rw [if_neg (by decide), vpn_addU (by omega)] at h2
      rw [ih hk h2 u hu, Bool.eq_iff_iff]
      refine ⟨fun h3 => ?_, hp.tab u⟩
      rcases hp.only u h3 with h4 | h4
      · exact h4
      · omega

theorem PgDir.tabAt_congr (h : u / 1024 = v / 1024) : pd.tabAt u = pd.tabAt v := by
  unfold PgDir.tabAt
  rw [h]

/-- **The page-table pages of the child.** -/
theorem copyuvm_tab {m m' : Kmem} {d : PgDir} {sz : Nat} (hk : sz ≤ kernBase)
    (h : copyuvm cfg m pd sz = .ok (some d, m')) (hu : u < 2 ^ 20) :
    d.tabAt u = true ↔ childTab sz u := by
  rcases copyuvm_ok hk h with ⟨h1, -⟩ | ⟨d1, h1, hc⟩
  · cases h1
  cases h1
  unfold childTab
  split
  · rename_i h19
    refine ⟨fun ht => ?_, fun ht => ?_⟩
    · obtain ⟨x, hx, he⟩ := hc.tab u h19 ht
      omega
    · obtain ⟨f, hf, -⟩ := hc.pte _ ht
      have hm : mapped (d.pteAt (u / 1024 * 1024)) = true := by
        rw [hf]
        exact mapped_copyEntry f (hc.src _ ht)
      rw [PgDir.tabAt_congr (v := u / 1024 * 1024) (by omega)]
      exact PgDir.tabAt_of_mapped hm
  · rename_i h19
    unfold copyuvm at h
    obtain ⟨⟨d0, m1⟩, h1, h2⟩ := Lib.bind_eq_ok.mp h
    cases d0 with
    | none => cases h2
    | some d0 =>
      rw [copyuvmLoop_tab cfg (v := 0) hk h2 u (by omega)]
      refine ⟨fun ht hn => ?_, setupkvm_tab cfg h1 (by omega) hu⟩
      rcases setupkvm_ok cfg h1 with ⟨h3, -⟩ | ⟨d2, h3, hd, -⟩
      · cases h3
      · cases h3
        rw [hd.tab u hn] at ht
        cases ht

/-! ## 2. The word at address 0 -/

/-- Page 0 is present and marked as referenced, so that reading it changes nothing. -/
def ZeroQuiet (p : Proc) : Prop :=
  has (p.pgdir.pteAt 0) pteP = true ∧ has (p.pgdir.pteAt 0) pteA = true

/-- PTE_P in the word at address 0. -/
def zeroBit (m : Kmem) (p : Proc) : Bool := has (le32 (m.mem (p.frameOf 0)) 0) pteP

/-- Only the first byte matters. -/
theorem has_le32 (pg : Nat → Byte) (o : Nat) : has (le32 pg o) pteP = (pg o).getLsbD 0 := by
  have hP : pteP = BitVec.twoPow 32 0 := by decide
  have hb : (le32 pg o).getLsbD 0 = (pg o).getLsbD 0 := by
    unfold le32
    simp
  have hz : BitVec.twoPow 32 0 ≠ 0#32 := by decide
  rw [← hb, Bool.eq_iff_iff, has_eq_true, hP, BitVec.and_twoPow]
  cases (le32 pg o).getLsbD 0 <;> simp [hz]

theorem PgDir.store_self (h : pd.tabAt v = true) : pd.store v (pd.pteAt v) = pd := by
  obtain ⟨t, ht⟩ := Option.isSome_iff_exists.mp h
  unfold PgDir.store PgDir.pteAt PgDir.setTab
  simp only [ht, Function.update_eq_self]
  have he : (⟨t.frame, t.pte⟩ : PgTab) = t := rfl
  rw [he, ← ht, Function.update_eq_self]

theorem setRef_self (h : has w pteA = true) : setRef w = w := by
  have hA : pteA = BitVec.twoPow 32 5 := by decide
  unfold setRef
  rw [hA] at h ⊢
  exact or_of_has h

theorem ZeroQuiet.touch {p : Proc} (h : ZeroQuiet p) : p.touch 0 = p := by
  unfold Proc.touch
  rw [show vpn 0 = 0 from rfl, setRef_self h.2,
    PgDir.store_self (PgDir.tabAt_of_mapped (mapped_of_P h.1))]

theorem faultNull_of_quiet {fuel : Nat} {m m' : Kmem} {p : Proc} (h : ZeroQuiet p)
    (hf : faultNull cfg fuel m p = .ok (m', p')) : m' = m ∧ p' = p := by
  cases fuel with
  | zero => cases hf
  | succ n =>
    unfold faultNull at hf
    rw [if_pos h.1, h.touch] at hf
    cases hf
    exact ⟨rfl, rfl⟩

/-- Reading a quiet address 0 changes nothing. -/
theorem loadNull_of_quiet {fuel : Nat} {m m' : Kmem} {p : Proc} (h : ZeroQuiet p)
    (hf : loadNull cfg fuel m p = .ok (w, m', p')) :
    m' = m ∧ p' = p ∧ has w pteP = zeroBit m p := by
  unfold loadNull at hf
  obtain ⟨⟨m1, p1⟩, h1, h2⟩ := Lib.bind_eq_ok.mp hf
  obtain ⟨rfl, rfl⟩ := faultNull_of_quiet cfg h h1
  cases h2
  exact ⟨rfl, rfl, rfl⟩

/-- Every access leaves page 0 present and referenced. -/
theorem faultNull_quiet {n : Nat} : ∀ {m m' : Kmem} {p p' : Proc},
    faultNull cfg n m p = .ok (m', p') → ZeroQuiet p' := by
  induction n with
  | zero =>
    intro m m' p p' h
    cases h
  | succ n ih =>
    intro m m' p p' h
    unfold faultNull at h
    split at h
    · rename_i hP
      cases h
      have e : (p.touch 0).pgdir.pteAt 0 = setRef (p.pgdir.pteAt 0) :=
        touch_pteAt (a := 0) (mapped_of_P hP)
      refine ⟨?_, ?_⟩ <;> rw [e]
      · rw [has_setRef_P]
        exact hP
      · exact has_setRef_A _
    · obtain ⟨⟨r, m1, p1⟩, -, h2⟩ := Lib.bind_eq_ok.mp h
      dsimp only at h2
      split at h2
      · cases h2
      · exact ih h2

theorem loadNull_quiet {fuel : Nat} {m m' : Kmem} {p : Proc}
    (h : loadNull cfg fuel m p = .ok (w, m', p')) : ZeroQuiet p' := by
  unfold loadNull at h
  obtain ⟨⟨m1, p1⟩, h1, h2⟩ := Lib.bind_eq_ok.mp h
  cases h2
  exact faultNull_quiet cfg h1

theorem storeNull_quiet {fuel : Nat} {m m' : Kmem} {p : Proc}
    (h : storeNull cfg fuel m p w = .ok (m', p')) : ZeroQuiet p' := by
  unfold storeNull at h
  obtain ⟨⟨m1, p1⟩, h1, h2⟩ := Lib.bind_eq_ok.mp h
  cases h2
  exact faultNull_quiet cfg h1

/-- Storing a word without PTE_P clears the bit. -/
theorem storeNull_of_quiet {fuel : Nat} {m m' : Kmem} {p : Proc} (hp : ZeroQuiet p)
    (h : storeNull cfg fuel m p (w &&& ~~~pteP) = .ok (m', p')) :
    p' = p ∧ zeroBit m' p = false := by
  unfold storeNull at h
  obtain ⟨⟨m1, p1⟩, h1, h2⟩ := Lib.bind_eq_ok.mp h
  obtain ⟨rfl, rfl⟩ := faultNull_of_quiet cfg hp h1
  cases h2
  refine ⟨rfl, ?_⟩
  unfold zeroBit Kmem.setPage
  dsimp only
  rw [Function.update_self, has_le32]
  have hb : byteOf (w &&& ~~~pteP) 0 = (w &&& ~~~pteP).setWidth 8 := by
    unfold byteOf
    simp
  have ho : ∀ (pg : Page) (b0 b1 b2 b3 : Byte), overlay pg 0 [b0, b1, b2, b3] 0 = b0 :=
    fun _ _ _ _ _ => rfl
  rw [ho, hb]
  simp [pteP]

/-! ## 3. One node -/

/-- The page number of node `i`. -/
def nodePage (p : Proc) (i : Nat) : Nat := vpn (p.q.nodes i)

/-- The parent has no entry for node `i`. -/
def NullParent (p : Proc) (i : Nat) : Prop := p.pgdir.tabAt (nodePage p i) = false

/-- The parent has an entry for node `i`, not present, and the child has none. -/
def NullChild (p : Proc) (i : Nat) : Prop :=
  p.pgdir.tabAt (nodePage p i) = true ∧ has (p.pgdir.pteAt (nodePage p i)) pteP = false ∧
    ¬ childTab p.sz (nodePage p i)

/-- **The fix-up has changed nothing that counts**: neither parent nor memory, and in the child at
    most kernel entries. -/
structure Unfixed (m : Kmem) (p : Proc) (d : PgDir) (x : ForkState) : Prop where
  cur : x.cur = p
  mem : x.m = m
  pte : ∀ u, u < 2 ^ 19 → x.d.pteAt u = d.pteAt u
  tab : ∀ u, x.d.tabAt u = d.tabAt u
  holds : ∀ f, x.d.holds f = d.holds f

/-- What the nodes are looked up in: a child whose present pages are the parent's. -/
structure ForkPair (p : Proc) (d : PgDir) : Prop where
  tab : ∀ u, u < 2 ^ 20 → (d.tabAt u = true ↔ childTab p.sz u)
  same : ∀ u, u < 2 ^ 19 → has (d.pteAt u) pteP = true → has (p.pgdir.pteAt u) pteP = true

theorem nodePage_lt (p : Proc) (i : Nat) : nodePage p i < 2 ^ 20 := Nat.mod_lt _ (by decide)

theorem Copied.forkPair {m m' : Kmem} {p : Proc} {d : PgDir} (hk : p.sz ≤ kernBase)
    (h : copyuvm cfg m p.pgdir p.sz = .ok (some d, m')) (hc : Copied m m' p.pgdir d (pages p.sz)) :
    ForkPair p d where
  tab _ hu := copyuvm_tab cfg hk h hu
  same u hu hP := by
    by_cases hlt : u < pages p.sz
    · obtain ⟨f, hf, -⟩ := hc.pte u hlt
      rwa [hf, has_copyEntry f (hc.src u hlt) (by decide)] at hP
    · rw [hc.rest u (by omega) hu, has_zero] at hP
      cases hP

section
variable {m : Kmem} {p : Proc} {d : PgDir} {x x' : ForkState} {fuel i : Nat}

theorem Unfixed.setNodes (h : Unfixed m p d x) (nodes : Nat → Nat) :
    Unfixed m p d { x with nodes := nodes } := ⟨h.cur, h.mem, h.pte, h.tab, h.holds⟩

/-- A kernel entry of the child may be cleared. -/
theorem Unfixed.storeHigh (h : Unfixed m p d x) (hv : v < 2 ^ 20) (h19 : 2 ^ 19 ≤ v)
    (ht : x.d.tabAt v = true) (w : Word) : Unfixed m p d { x with d := x.d.store v w } where
  cur := h.cur
  mem := h.mem
  pte u hu := (PgDir.pteAt_store_ne _ _ (by omega)).trans (h.pte u hu)
  tab u := (PgDir.tabAt_store _ _ _ _).trans (h.tab u)
  holds f := by
    have h1 := PgDir.holds_store w ht hv f
    simp only [userHolds, show ¬ v < 2 ^ 19 by omega, if_false, Nat.add_zero] at h1
    exact h1.trans (h.holds f)

/-- The end of a round, when the parent's word has no PTE_P and the child's entry is there. -/
theorem Unfixed.fix (h : Unfixed m p d x) (hd : ForkPair p d) (hv : v < 2 ^ 20)
    (ht : x.d.tabAt v = true) (hP : v < 2 ^ 19 → has (p.pgdir.pteAt v) pteP = false)
    (hx : (if !has (x.d.pteAt v) pteP then Except.ok x else
      Except.ok { x with d := x.d.store v (x.d.pteAt v &&& ~~~pteP) } : Except Err ForkState) =
        .ok x') : Unfixed m p d x' := by
  cases hc : has (x.d.pteAt v) pteP with
  | false =>
    rw [hc] at hx
    cases hx
    exact h
  | true =>
    rw [hc] at hx
    cases hx
    by_cases h19 : v < 2 ^ 19
    · rw [h.pte v h19] at hc
      have := hd.same v h19 hc
      rw [hP h19] at this
      cases this
    · exact h.storeHigh hv (by omega) ht _

variable {cfg}

/-- The second half of a round: the child's entry is read, and read again and stored without PTE_P
    if it has it. -/
def FixUp (cfg : Config) (fuel : Nat) (x : ForkState) (c : Option Nat) (x' : ForkState) : Prop :=
  ∃ wc x2, x.loadChild cfg fuel c = .ok (wc, x2) ∧
    ((has wc pteP = false ∧ x' = x2) ∨ has wc pteP = true ∧
      ∃ wc' x3, x2.loadChild cfg fuel c = .ok (wc', x3) ∧
        x3.storeChild cfg fuel (wc' &&& ~~~pteP) c = .ok x')

/-- **One round of the deep copy**, when it returns. -/
theorem forkNode_ok (h : forkNode cfg fuel i x = .ok x') :
    ∃ wp x1, ForkState.loadParent cfg fuel
        { x with nodes := Function.update x.nodes i (x.cur.q.nodes i) }
        (x.cur.pgdir.walk (x.cur.q.nodes i)) = .ok (wp, x1) ∧
      ((has wp pteP = true ∧ x' = x1) ∨
        has wp pteP = false ∧ FixUp cfg fuel x1 (x.d.walk (x.cur.q.nodes i)) x') := by
  unfold forkNode at h
  simp only [Function.update_self] at h
  obtain ⟨⟨wp, x1⟩, h1, h2⟩ := Lib.bind_eq_ok.mp h
  refine ⟨wp, x1, h1, ?_⟩
  dsimp only at h2
  split at h2
  · rename_i hP
    cases h2
    exact .inl ⟨hP, rfl⟩
  · rename_i hP
    obtain ⟨⟨wc, x2⟩, h3, h4⟩ := Lib.bind_eq_ok.mp h2
    refine .inr ⟨Bool.eq_false_iff.mpr hP, wc, x2, h3, ?_⟩
    dsimp only at h4
    cases hc : has wc pteP with
    | false =>
      rw [hc] at h4
      cases h4
      exact .inl ⟨rfl, rfl⟩
    | true =>
      rw [hc] at h4
      obtain ⟨⟨wc', x3⟩, h5, h6⟩ := Lib.bind_eq_ok.mp h4
      exact .inr ⟨rfl, wc', x3, h5, h6⟩

/-- A word read through a quiet null pointer. -/
theorem loadNull_quiet_eq (hq : ZeroQuiet x.cur)
    (hl : x.loadParent cfg fuel none = .ok (w, x') ∨ x.loadChild cfg fuel none = .ok (w, x')) :
    x' = x ∧ has w pteP = zeroBit x.m x.cur := by
  have hl' : x.loadParent cfg fuel none = .ok (w, x') := hl.elim id id
  obtain ⟨⟨w1, m1, p1⟩, h1, h2⟩ := Lib.bind_eq_ok.mp hl'
  obtain ⟨rfl, rfl, hb⟩ := loadNull_of_quiet cfg hq h1
  cases h2
  exact ⟨rfl, hb⟩

/-- **A clean node**: no null pointer is used, or using it makes no difference. -/
def CleanNode (m : Kmem) (p : Proc) (i : Nat) : Prop :=
  (¬ NullParent p i ∧ ¬ NullChild p i) ∨
    ZeroQuiet p ∧ (NullChild p i → zeroBit m p = false)

theorem Unfixed.fixUp (h : Unfixed m p d x) (hd : ForkPair p d)
    (hP : nodePage p i < 2 ^ 19 → has (p.pgdir.pteAt (nodePage p i)) pteP = false)
    (hnull : d.tabAt (nodePage p i) = false → ZeroQuiet p ∧ zeroBit m p = false)
    (hx : FixUp cfg fuel x (x.d.walk (p.q.nodes i)) x') : Unfixed m p d x' := by
  obtain ⟨wc, x2, h3, h4⟩ := hx
  cases ht : d.tabAt (nodePage p i) with
  | true =>
    have htx : x.d.tabAt (nodePage p i) = true := (h.tab _).trans ht
    rw [PgDir.walk_of_tabAt htx] at h3 h4
    cases h3
    rcases h4 with ⟨hc, rfl⟩ | ⟨hc, wc', x3, h5, h6⟩
    · exact h
    · cases h5
      cases h6
      have hc' : has (x.d.pteAt (nodePage p i)) pteP = true := hc
      refine h.fix hd (nodePage_lt p i) htx hP ?_
      rw [hc']
      rfl
  | false =>
    obtain ⟨hq, hb⟩ := hnull ht
    rw [PgDir.walk_of_no_tab ((h.tab _).trans ht)] at h3 h4
    obtain ⟨rfl, hbit⟩ := loadNull_quiet_eq (by rw [h.cur]; exact hq) (.inr h3)
    rw [h.mem, h.cur, hb] at hbit
    rcases h4 with ⟨-, rfl⟩ | ⟨hc, -⟩
    · exact h
    · rw [hbit] at hc
      cases hc

/-- **A clean node changes nothing that counts.** -/
theorem Unfixed.node (h : Unfixed m p d x) (hd : ForkPair p d) (hclean : CleanNode m p i)
    (hx : forkNode cfg fuel i x = .ok x') : Unfixed m p d x' := by
  obtain ⟨wp, x1, h1, h2⟩ := forkNode_ok hx
  have hy := h.setNodes (Function.update x.nodes i (p.q.nodes i))
  rw [h.cur] at h1 h2 hy
  cases ht : p.pgdir.tabAt (nodePage p i) with
  | true =>
    rw [PgDir.walk_of_tabAt ht] at h1
    cases h1
    rcases h2 with ⟨-, rfl⟩ | ⟨hP, h3⟩
    · exact hy
    · refine hy.fixUp hd (fun _ => hP) (fun htd => ?_) h3
      have hnc : NullChild p i := ⟨ht, hP, fun hc => by
        rw [(hd.tab _ (nodePage_lt p i)).mpr hc] at htd
        cases htd⟩
      rcases hclean with hc | hc
      · exact absurd hnc hc.2
      · exact ⟨hc.1, hc.2 hnc⟩
  | false =>
    have hq : ZeroQuiet p := by
      rcases hclean with hc | hc
      · exact absurd ht hc.1
      · exact hc.1
    rw [PgDir.walk_of_no_tab ht] at h1
    obtain ⟨rfl, hbit⟩ := loadNull_quiet_eq (by exact hq) (.inl h1)
    rcases h2 with ⟨-, rfl⟩ | ⟨hP, h3⟩
    · exact hy
    · refine hy.fixUp hd (fun _ => ?_) (fun _ => ⟨hq, ?_⟩) h3
      · rw [PgDir.pteAt_of_no_tab ht, has_zero]
      · rw [hP] at hbit
        rw [← h.mem]
        exact hbit.symm

/-! ## 4. A null pointer that makes a difference -/

/-- An access leaves the parent alone, or leaves page 0 quiet. -/
def Touched (x x' : ForkState) : Prop := x'.cur = x.cur ∨ ZeroQuiet x'.cur

theorem Touched.trans {x1 : ForkState} (h1 : Touched x x1) (h2 : Touched x1 x') :
    Touched x x' := by
  rcases h2 with h2 | h2
  · rcases h1 with h1 | h1
    · exact .inl (h2.trans h1)
    · exact .inr (h2 ▸ h1)
  · exact .inr h2

theorem loadNull_touches
    (hl : x.loadParent cfg fuel none = .ok (w, x') ∨ x.loadChild cfg fuel none = .ok (w, x')) :
    ZeroQuiet x'.cur := by
  have hl' : x.loadParent cfg fuel none = .ok (w, x') := hl.elim id id
  obtain ⟨⟨w1, m1, p1⟩, h1, h2⟩ := Lib.bind_eq_ok.mp hl'
  cases h2
  exact loadNull_quiet cfg h1

theorem loadParent_touched (h : x.loadParent cfg fuel o = .ok (w, x')) : Touched x x' := by
  cases o with
  | some v =>
    cases h
    exact .inl rfl
  | none => exact .inr (loadNull_touches (.inl h))

theorem loadChild_touched (h : x.loadChild cfg fuel o = .ok (w, x')) : Touched x x' := by
  cases o with
  | some v =>
    cases h
    exact .inl rfl
  | none => exact .inr (loadNull_touches (.inr h))

theorem storeChild_touched (h : x.storeChild cfg fuel w o = .ok x') : Touched x x' := by
  cases o with
  | some v =>
    cases h
    exact .inl rfl
  | none =>
    obtain ⟨⟨m1, p1⟩, h1, h2⟩ := Lib.bind_eq_ok.mp h
    cases h2
    exact .inr (storeNull_quiet cfg h1)

theorem FixUp.touched {c : Option Nat} (h : FixUp cfg fuel x c x') :
    Touched x x' ∧ (c = none → ZeroQuiet x'.cur) := by
  obtain ⟨wc, x2, h3, ⟨-, rfl⟩ | ⟨-, wc', x3, h5, h6⟩⟩ := h
  · refine ⟨loadChild_touched h3, ?_⟩
    rintro rfl
    exact loadNull_touches (.inr h3)
  · refine ⟨((loadChild_touched h3).trans (loadChild_touched h5)).trans (storeChild_touched h6), ?_⟩
    rintro rfl
    rcases storeChild_touched h6 with h7 | h7
    · exact h7 ▸ loadNull_touches (.inr h5)
    · exact h7

theorem forkNode_touched (h : forkNode cfg fuel i x = .ok x') : Touched x x' := by
  obtain ⟨wp, x1, h1, h2⟩ := forkNode_ok h
  have h3 := loadParent_touched h1
  rcases h2 with ⟨-, rfl⟩ | ⟨-, h2⟩
  · exact h3
  · exact h3.trans h2.touched.1

/-- **A null pointer leaves page 0 quiet.** -/
theorem Unfixed.null (h : Unfixed m p d x) (hd : ForkPair p d)
    (hn : NullParent p i ∨ NullChild p i) (hx : forkNode cfg fuel i x = .ok x') :
    ZeroQuiet x'.cur := by
  obtain ⟨wp, x1, h1, h2⟩ := forkNode_ok hx
  rw [h.cur] at h1 h2
  rcases hn with hn | ⟨ht, hP, hc⟩
  · rw [PgDir.walk_of_no_tab hn] at h1
    have hq := loadNull_touches (.inl h1)
    rcases h2 with ⟨-, rfl⟩ | ⟨-, h3⟩
    · exact hq
    · rcases h3.touched.1 with h4 | h4
      · exact h4 ▸ hq
      · exact h4
  · rw [PgDir.walk_of_tabAt ht] at h1
    cases h1
    have htd : x.d.tabAt (nodePage p i) = false := by
      rw [h.tab, Bool.eq_false_iff]
      exact fun ht' => hc ((hd.tab _ (nodePage_lt p i)).mp ht')
    rcases h2 with ⟨hP', -⟩ | ⟨-, h3⟩
    · have hP'' : has (p.pgdir.pteAt (nodePage p i)) pteP = true := hP'
      rw [hP] at hP''
      cases hP''
    · exact h3.touched.2 (PgDir.walk_of_no_tab htd)

/-- The word at address 0 has lost PTE_P. -/
structure Wiped (p : Proc) (x : ForkState) : Prop where
  cur : x.cur = p
  bit : zeroBit x.m p = false

/-- **A node for which the child has no entry clears the bit**, if the parent's page is not present
    either. -/
theorem Unfixed.wipe (h : Unfixed m p d x) (hd : ForkPair p d) (hq : ZeroQuiet p)
    (hb : zeroBit m p = true) (hn : NullChild p i) (hx : forkNode cfg fuel i x = .ok x') :
    Wiped p x' := by
  obtain ⟨wp, x1, h1, h2⟩ := forkNode_ok hx
  obtain ⟨ht, hP, hc⟩ := hn
  have htd : x.d.tabAt (nodePage p i) = false := by
    rw [h.tab, Bool.eq_false_iff]
    exact fun ht' => hc ((hd.tab _ (nodePage_lt p i)).mp ht')
  rw [h.cur, PgDir.walk_of_tabAt ht] at h1
  rw [h.cur, PgDir.walk_of_no_tab htd] at h2
  cases h1
  rcases h2 with ⟨hP', -⟩ | ⟨-, wc, x2, h3, h4⟩
  · have hP'' : has (p.pgdir.pteAt (nodePage p i)) pteP = true := hP'
    rw [hP] at hP''
    cases hP''
  · obtain ⟨rfl, hbit⟩ := loadNull_quiet_eq (by exact hq) (.inr h3)
    have hbit' : has wc pteP = zeroBit x.m p := hbit
    rw [h.mem, hb] at hbit'
    rcases h4 with ⟨hc', -⟩ | ⟨-, wc', x3, h5, h6⟩
    · rw [hbit'] at hc'
      cases hc'
    · obtain ⟨rfl, -⟩ := loadNull_quiet_eq (by exact hq) (.inr h5)
      obtain ⟨⟨m1, p1⟩, h7, h8⟩ := Lib.bind_eq_ok.mp h6
      obtain ⟨rfl, hz⟩ := storeNull_of_quiet cfg hq h7
      cases h8
      exact ⟨rfl, hz⟩

theorem Wiped.load (h : Wiped p x) (hq : ZeroQuiet p)
    (hl : x.loadParent cfg fuel o = .ok (w, x') ∨ x.loadChild cfg fuel o = .ok (w, x')) :
    x' = x ∧ (o = none → has w pteP = false) := by
  cases o with
  | some v => rcases hl with hl | hl <;> cases hl <;> exact ⟨rfl, nofun⟩
  | none =>
    obtain ⟨rfl, hbit⟩ := loadNull_quiet_eq (by rw [h.cur]; exact hq) hl
    exact ⟨rfl, fun _ => by rw [hbit, h.cur]; exact h.bit⟩

/-- No later node brings it back. -/
theorem Wiped.node (h : Wiped p x) (hq : ZeroQuiet p) (hx : forkNode cfg fuel i x = .ok x') :
    Wiped p x' := by
  obtain ⟨wp, x1, h1, h2⟩ := forkNode_ok hx
  have hy : Wiped p { x with nodes := Function.update x.nodes i (x.cur.q.nodes i) } :=
    ⟨h.cur, h.bit⟩
  obtain ⟨rfl, -⟩ := hy.load hq (.inl h1)
  rcases h2 with ⟨-, rfl⟩ | ⟨-, wc, x2, h3, h4⟩
  · exact hy
  · obtain ⟨rfl, hw⟩ := hy.load hq (.inr h3)
    rcases h4 with ⟨-, rfl⟩ | ⟨hc, wc', x3, h5, h6⟩
    · exact hy
    · obtain ⟨rfl, -⟩ := hy.load hq (.inr h5)
      generalize hwalk : x.d.walk (x.cur.q.nodes i) = o at h6 hw
      cases o with
      | some v =>
        cases h6
        exact ⟨h.cur, h.bit⟩
      | none =>
        rw [hw rfl] at hc
        cases hc

/-! ## 5. The loop -/

theorem Unfixed.nodes (hd : ForkPair p d) : ∀ {i : Nat} {x : ForkState},
    Unfixed m p d x → (∀ j, i ≤ j → j < p.q.inClock → CleanNode m p j) →
    forkNodes cfg fuel r i x = .ok x' → Unfixed m p d x' := by
  induction r with
  | zero =>
    intro i x h _ hx
    unfold forkNodes at hx
    split at hx
    · cases hx
      exact h
    · cases hx
  | succ r ih =>
    intro i x h hclean hx
    unfold forkNodes at hx
    split at hx
    · cases hx
      exact h
    · rename_i hi
      rw [h.cur] at hi
      obtain ⟨x1, h1, h2⟩ := Lib.bind_eq_ok.mp hx
      exact ih (h.node hd (hclean i (Nat.le_refl i) (by omega)) h1)
        (fun j h3 h4 => hclean j (by omega) h4) h2

/-- What every round keeps, the loop keeps. -/
theorem forkNodes_inv {I : ForkState → Prop}
    (hI : ∀ {i x x'}, I x → forkNode cfg fuel i x = .ok x' → I x') :
    ∀ {i : Nat} {x : ForkState}, I x → forkNodes cfg fuel r i x = .ok x' → I x' := by
  induction r with
  | zero =>
    intro i x h hx
    unfold forkNodes at hx
    split at hx
    · cases hx
      exact h
    · cases hx
  | succ r ih =>
    intro i x h hx
    unfold forkNodes at hx
    split at hx
    · cases hx
      exact h
    · obtain ⟨x1, h1, h2⟩ := Lib.bind_eq_ok.mp hx
      exact ih (hI h h1) h2

/-- **The first round that is different decides**: rounds of kind `A` change nothing, one that is
    not establishes `I`, which later rounds keep. -/
theorem forkNodes_first {I : ForkState → Prop} {A : Nat → Prop}
    (hsame : ∀ {i x x'}, Unfixed m p d x → A i → forkNode cfg fuel i x = .ok x' → Unfixed m p d x')
    (hnew : ∀ {i x x'}, Unfixed m p d x → ¬ A i → forkNode cfg fuel i x = .ok x' → I x')
    (hI : ∀ {i x x'}, I x → forkNode cfg fuel i x = .ok x' → I x') :
    ∀ {i : Nat} {x : ForkState}, Unfixed m p d x →
      (∃ j, i ≤ j ∧ j < p.q.inClock ∧ ¬ A j) → forkNodes cfg fuel r i x = .ok x' → I x' := by
  induction r with
  | zero =>
    rintro i x h ⟨j, h1, h2, -⟩ hx
    unfold forkNodes at hx
    rw [h.cur, if_neg (by omega)] at hx
    cases hx
  | succ r ih =>
    rintro i x h ⟨j, h1, h2, h3⟩ hx
    unfold forkNodes at hx
    rw [h.cur, if_neg (by omega)] at hx
    obtain ⟨x1, h4, h5⟩ := Lib.bind_eq_ok.mp hx
    by_cases hA : A i
    · have : j ≠ i := fun e => h3 (e ▸ hA)
      exact ih (hsame h hA h4) ⟨j, by omega, h2, h3⟩ h5
    · exact forkNodes_inv hI (hnew h hA h4) h5

end

/-! ## 6. The theorem -/

/-- **The child is an exact copy**: `m` and `p` are memory and parent before, `x` is what the copy
    and the fix-up leave. -/
structure CopiesExactly (m : Kmem) (p : Proc) (x : ForkState) : Prop where
  flags : ∀ u, u < pages p.sz → pteFlags (x.d.pteAt u) = pteFlags (p.pgdir.pteAt u)
  fresh : ∀ u, u < pages p.sz → 1 ≤ m.free (pteFrame (x.d.pteAt u)) ∧
    p.pgdir.holds (pteFrame (x.d.pteAt u)) = 0 ∧ x.d.holds (pteFrame (x.d.pteAt u)) = 1
  bytes : ∀ u, u < pages p.sz →
    x.m.mem (pteFrame (x.d.pteAt u)) = m.mem (pteFrame (p.pgdir.pteAt u))
  parentPte : ∀ u, x.cur.pgdir.pteAt u = p.pgdir.pteAt u
  parentBytes : ∀ u, u < 2 ^ 19 → mapped (p.pgdir.pteAt u) = true →
    x.m.mem (pteFrame (p.pgdir.pteAt u)) = m.mem (pteFrame (p.pgdir.pteAt u))
  rest : ∀ u, pages p.sz ≤ u → u < 2 ^ 19 → mapped (x.d.pteAt u) = false

theorem pteFlags_copyEntry (f : Frame) (hw : mapped w = true) :
    pteFlags (copyEntry f w) = pteFlags w := by
  have h0 : frameAddr f &&& 0xFFF = 0#32 := by
    have := has_frameAddr f (show IsFlags 0xFFF by decide)
    simpa [has] using this
  rw [copyEntry_eq f hw]
  unfold pteFlags
  rw [BitVec.and_or_distrib_right, h0, BitVec.and_assoc, BitVec.and_self, BitVec.zero_or]

section
variable {m m' : Kmem} {p : Proc} {d : PgDir} {x : ForkState}
  (hk : p.sz ≤ kernBase) (hone : ∀ f, m.free f + p.pgdir.holds f ≤ 1)
  (hc : Copied m m' p.pgdir d (pages p.sz))
include hone

theorem free_of_mapped (hu : u < 2 ^ 19) (hm : mapped (p.pgdir.pteAt u) = true) :
    m.free (pteFrame (p.pgdir.pteAt u)) = 0 := by
  have h1 := hone (pteFrame (p.pgdir.pteAt u))
  have h2 := PgDir.one_le_holds hm hu
  omega

include hc

/-- Copying leaves the word at address 0. -/
theorem Copied.zeroBit (hq : ZeroQuiet p) : zeroBit m' p = zeroBit m p := by
  have hf := free_of_mapped hone (show 0 < 2 ^ 19 by decide) (mapped_of_P hq.1)
  have hm : m'.mem (p.frameOf 0) = m.mem (p.frameOf 0) := hc.took.mem _ hf
  unfold Xv6Clock.zeroBit
  rw [hm]

include hk

/-- If the fix-up changes nothing that counts, the child is an exact copy. -/
theorem Unfixed.exact (h : Unfixed m' p d x) : CopiesExactly m p x := by
  have h19 : pages p.sz ≤ 2 ^ 19 := by
    unfold kernBase at hk
    unfold pages
    omega
  have hpte : ∀ u, u < pages p.sz → x.d.pteAt u = d.pteAt u := fun u hu => h.pte u (by omega)
  refine ⟨fun u hu => ?_, fun u hu => ?_, fun u hu => ?_, fun u => ?_, fun u hu hm => ?_,
    fun u h1 h2 => ?_⟩
  · obtain ⟨f, hf, -⟩ := hc.pte u hu
    rw [hpte u hu, hf, pteFlags_copyEntry f (hc.src u hu)]
  · obtain ⟨f, hf, hfree⟩ := hc.pte u hu
    have hm : mapped (d.pteAt u) = true := by
      rw [hf]
      exact mapped_copyEntry f (hc.src u hu)
    have h1 := PgDir.one_le_holds hm (by omega)
    rw [h.holds, hpte u hu]
    rw [hf, pteFrame_copyEntry] at h1 ⊢
    have h2 := hc.took.count f
    have h3 := hone f
    omega
  · rw [h.mem, hpte u hu]
    refine hc.content (fun f => ?_) (fun v hv => ?_) u hu
    · have := hone f
      omega
    · exact free_of_mapped hone (by omega) (hc.src v hv)
  · rw [h.cur]
  · rw [h.mem]
    exact hc.took.mem _ (free_of_mapped hone hu hm)
  · rw [h.pte u h2, hc.rest u h1 h2, mapped_zero]

end

/-- **When fork copies exactly**, for every parent whose frames are its own: every node of its
    queue has an entry where the fix-up uses one; or the word at address 0 is read instead and
    that makes no difference. -/
theorem copiesExactly_iff {fuel : Nat} {m m' : Kmem} {p : Proc} {d : PgDir} {nodes : Nat → Nat}
    {x : ForkState} (hk : p.sz ≤ kernBase) (hone : ∀ f, m.free f + p.pgdir.holds f ≤ 1)
    (hc : copyuvm cfg m p.pgdir p.sz = .ok (some d, m'))
    (hx : forkNodes cfg fuel cfg.clockSize 0 ⟨m', p, d, nodes⟩ = .ok x) :
    CopiesExactly m p x ↔ ∀ i, i < p.q.inClock → CleanNode m p i := by
  rcases copyuvm_ok hk hc with ⟨h1, -⟩ | ⟨d1, h1, hcop⟩
  · cases h1
  cases h1
  have hpair := hcop.forkPair cfg hk hc
  have h0 : Unfixed m' p d ⟨m', p, d, nodes⟩ :=
    ⟨rfl, rfl, fun _ _ => rfl, fun _ => rfl, fun _ => rfl⟩
  constructor
  · intro hex i hi
    by_cases hq : ZeroQuiet p
    · refine .inr ⟨hq, fun hn => ?_⟩
      by_contra hb
      have hb' : zeroBit m' p = true := by
        rw [hcop.zeroBit hone hq]
        exact Bool.not_eq_false _ ▸ hb
      -- the first node without a child's entry clears a bit of the parent's memory
      have hw : Wiped p x := by
        refine forkNodes_first (A := fun j => ¬ NullChild p j) (I := Wiped p) ?_ ?_ ?_ h0
          ⟨i, Nat.zero_le i, hi, fun h => h hn⟩ hx
        · exact fun hu hA hf => hu.node hpair (.inr ⟨hq, fun h => absurd h hA⟩) hf
        · exact fun hu hA hf => hu.wipe hpair hq hb' (not_not.mp hA) hf
        · exact fun hI hf => hI.node hq hf
      have hbytes := hex.parentBytes 0 (by decide) (mapped_of_P hq.1)
      have hsame : zeroBit x.m p = zeroBit m p := congrArg (fun pg => has (le32 pg 0) pteP) hbytes
      rw [hw.bit] at hsame
      exact hb hsame.symm
    · refine .inl (not_or.mp fun hn => ?_)
      -- the first null pointer leaves its mark on page 0
      have hz : ZeroQuiet x.cur := by
        refine forkNodes_first (A := fun j => ¬ NullParent p j ∧ ¬ NullChild p j)
          (I := fun x => ZeroQuiet x.cur) ?_ ?_ ?_ h0
          ⟨i, Nat.zero_le i, hi, fun h => (not_or.mpr h) hn⟩ hx
        · exact fun hu hA hf => hu.node hpair (.inl hA) hf
        · exact fun hu hA hf => hu.null hpair (not_and_or.mp hA |>.imp not_not.mp not_not.mp) hf
        · exact fun hI hf => (forkNode_touched hf).elim (fun e => e ▸ hI) id
      unfold ZeroQuiet at hz hq
      rw [hex.parentPte 0] at hz
      exact hq hz
  · intro hclean
    refine Unfixed.exact hk hone hcop (h0.nodes hpair (fun j _ hj => ?_) hx)
    rcases hclean j hj with h1 | ⟨hq, h1⟩
    · exact .inl h1
    · refine .inr ⟨hq, fun hn => ?_⟩
      rw [hcop.zeroBit hone hq]
      exact h1 hn

end Xv6Clock
