/-
  File:      Xv6Clock/AddressSpace.lean
  Subject:   The shape of every address space along every run, and the panics it rules out.
-/
import Xv6Clock.FrameOwner
import Xv6Clock.Panics

namespace Xv6Clock

variable (cfg : Config)

/-! ## 1. Calls that change the shape -/

variable {m m' : Kmem} {p p' : Proc} {s : Vm} {sz : Nat}

theorem Allocd.shape (h : Allocd (p.vm m) s (pages p.sz) (pages sz)) (hs : Shape p.pgdir p.sz)
    (hsz : sz < kernBase) (hle : p.sz ≤ sz) : Shape s.pd sz := by
  have hpg := pages_le hsz
  have hpp : pages p.sz ≤ pages sz := by
    unfold pages
    omega
  have hold : ∀ u, ¬ (pages p.sz ≤ u ∧ u < pages sz) → s.pd.pteAt u = p.pgdir.pteAt u := h.pte
  have hnew : ∀ u x, pages p.sz ≤ u → u < pages sz → IsFlags x →
      has (s.pd.pteAt u) x = has (pteW ||| pteU ||| pteP) x := fun u x h1 h2 hx => by
    obtain ⟨f, h3, -⟩ := h.new u h1 h2
    rw [h3, has_allocEntry f hx]
  refine ⟨fun u hu => ?_, fun u h1 h2 => ?_, fun u hu => ?_, fun u hu => ?_,
    fun u h1 h2 => h.tab u (hs.dev u h1 h2)⟩
  · by_cases h1 : u < pages p.sz
    · rw [hold u (by omega)]
      exact hs.low u h1
    · rw [hnew u _ (by omega) hu (by decide), hnew u _ (by omega) hu (by decide),
        hnew u _ (by omega) hu (by decide)]
      decide
  · rw [hold u (by omega)]
    exact hs.rest u (by omega) h2
  · by_cases h1 : pages p.sz ≤ u ∧ u < pages sz
    · rw [hnew u _ h1.1 h1.2 (by decide)]
      decide
    · rw [hold u h1] at hu ⊢
      exact hs.encUser u hu
  · rw [hold u (by omega)]
    exact hs.high u hu

theorem AllocUndone.shape {hi : Nat} (h : AllocUndone (p.vm m) s (pages p.sz) hi)
    (hs : Shape p.pgdir p.sz) : Shape s.pd p.sz := by
  have hpte : ∀ u, s.pd.pteAt u = p.pgdir.pteAt u ∨ pages p.sz ≤ u ∧ s.pd.pteAt u = 0#32 :=
    fun u => (h.pte u).imp id fun h1 => ⟨h1.1, h1.2.2⟩
  refine ⟨fun u hu => ?_, fun u h1 h2 => ?_, fun u hu => ?_, fun u hu => ?_,
    fun u h1 h2 => h.tab u (hs.dev u h1 h2)⟩
  · rcases hpte u with e | ⟨h1, -⟩
    · rw [e]
      exact hs.low u hu
    · omega
  · rcases hpte u with e | ⟨-, e⟩
    · rw [e]
      exact hs.rest u h1 h2
    · exact e
  · rcases hpte u with e | ⟨-, e⟩
    · rw [e] at hu ⊢
      exact hs.encUser u hu
    · rw [e, has_zero] at hu
      cases hu
  · rcases hpte u with e | ⟨-, e⟩
    · rw [e]
      exact hs.high u hu
    · rw [e]
      exact ⟨has_zero _, has_zero _⟩

theorem Unmapped.shape (h : Unmapped (p.vm m) s (pages sz) (pages p.sz)) (hs : Shape p.pgdir p.sz)
    (hle : sz ≤ p.sz) : Shape s.pd sz := by
  have hpp : pages sz ≤ pages p.sz := by
    unfold pages
    omega
  have hpte : ∀ u, s.pd.pteAt u = if pages sz ≤ u ∧ u < pages p.sz ∧
      mapped (p.pgdir.pteAt u) = true then 0#32 else p.pgdir.pteAt u := h.pte
  refine ⟨fun u hu => ?_, fun u h1 h2 => ?_, fun u hu => ?_, fun u hu => ?_,
    fun u h1 h2 => (h.tab u).trans (hs.dev u h1 h2)⟩
  · rw [hpte u, if_neg (by omega)]
    exact hs.low u (by omega)
  · rw [hpte u]
    by_cases h3 : u < pages p.sz
    · rw [if_pos ⟨h1, h3, hs.mapped h3⟩]
    · rw [if_neg (by omega)]
      exact hs.rest u (by omega) h2
  · rw [hpte u] at hu ⊢
    split at hu
    · rw [has_zero] at hu
      cases hu
    · rename_i h1
      rw [if_neg h1]
      exact hs.encUser u hu
  · rw [hpte u]
    split
    · exact ⟨has_zero _, has_zero _⟩
    · exact hs.high u hu

/-- **`growproc` keeps the shape**, unless it shrinks the process to nothing. -/
theorem Growproc.shape {n r : Int} (hs : Shape p.pgdir p.sz) (h0 : n < 0 → toU (p.sz + n) ≠ 0)
    (h : Growproc m p n r m' p') : Shape p'.pgdir p'.sz := by
  cases h with
  | same hn => exact hs
  | @grown s s' x hn hlt ha he =>
    have h1 := ha.shape hs hlt (Nat.le_add_right _ _)
    exact (mencrypt_flips h1.high he).recoded.shape h1
  | @failed s hn hu =>
    rcases hu with rfl | ⟨-, hu⟩
    · exact hs
    · exact hu.shape hs
  | wrapped hn hge => exact hs
  | @shrunk r s hn hlt hu =>
    simp only [if_neg (h0 hn)]
    exact hu.shape hs (Nat.le_of_lt hlt)

/-- The child's address space. -/
theorem Copied.shape {pd d : PgDir} (h : Copied m m' pd d (pages sz)) (hs : Shape pd sz) :
    Shape d sz where
  low u hu := by
    obtain ⟨f, h1, -⟩ := h.pte u hu
    have hm := h.src u hu
    rw [h1, has_copyEntry f hm (by decide), has_copyEntry f hm (by decide),
      has_copyEntry f hm (by decide)]
    exact hs.low u hu
  rest := h.rest
  encUser u hu := by
    by_cases h1 : u < pages sz
    · obtain ⟨f, h2, -⟩ := h.pte u h1
      have hm := h.src u h1
      rw [h2, has_copyEntry f hm (by decide)] at hu ⊢
      exact hs.encUser u hu
    · by_cases h2 : u < 2 ^ 19
      · rw [h.rest u (by omega) h2, has_zero] at hu
        cases hu
      · rw [(h.high u (by omega)).2] at hu
        cases hu
  high := h.high
  dev := h.dev

/-! ## 2. Every process -/

/-- `OwnOk`, and no process shrinks to nothing. -/
def ShapeOk (k : Kernel) (i : Nat) : Op → Prop
  | .mem (.sbrk n) => n.toInt < 0 → toU ((k.proc i).sz + n.toInt) ≠ 0
  | op => OwnOk k i op

theorem ShapeOk.own {k : Kernel} {i : Nat} {op : Op} (h : ShapeOk k i op) : OwnOk k i op := by
  cases op with
  | mem o =>
    cases o with
    | sbrk n => trivial
    | _ => exact h
  | _ => exact h

/-- An address space of the right shape and size. -/
structure Shaped (p : Proc) : Prop extends Sane p where
  shape : Shape p.pgdir p.sz

theorem FaultStep.shaped (h : FaultStep cfg m p m' p') (hp : Shaped p) : Shaped p' :=
  ⟨h.sane, by rw [h.sz]; exact h.pd.shape hp.shape⟩

theorem memStep_shaped {fuel : Nat} {op : MemOp} {o : Out}
    (hok : ∀ n, op = .sbrk n → n.toInt < 0 → toU (p.sz + n.toInt) ≠ 0) (hp : Shaped p)
    (h : memStep cfg fuel m p op = .ok (o, m', p')) : Shaped p' := by
  have hsane := (memStep_step cfg hp.toSane h).sane
  rcases memStep_kind cfg hp.toSane h with h1 | ⟨n, r, rfl, h1⟩ | ⟨ip, path, argv, r, -, h1⟩
  · exact h1.shaped cfg hp
  · exact ⟨hsane, h1.shape hp.shape (hok n rfl)⟩
  · rcases h1.outcome with ⟨-, h3⟩ | ⟨-, h3, h4, -⟩
    · exact ⟨hsane, h3.shape⟩
    · exact ⟨hsane, by rw [h4]; exact h3.shape hp.shape⟩

theorem shapeInv : ImageInv cfg ShapeOk Shaped where
  image h hp := ⟨h.sane hp.toSane, by rw [h.pgdir, h.sz]; exact hp.shape⟩
  mem hok hp h := memStep_shaped cfg (fun n hn => by subst hn; exact hok) hp h
  fork hok hp hc hx hd hz hq := by
    obtain ⟨hcop, rfl⟩ := forkNodes_low cfg hp.size hok hc hx
    have h1 := hcop.shape hp.shape
    exact ⟨hp, ⟨hd ▸ h1.high, hz ▸ hp.size⟩, by rw [hd, hz]; exact h1⟩

/-- The calls of a process of the right shape that build page tables return. -/
theorem Shaped.maps {k : Kernel} {i : Nat} (h : Shaped (k.proc i)) (ha : Accounted cfg k)
    (hi : i < nproc) (hu : (k.proc i).state ≠ .unused) : Maps cfg k i := by
  have hm := ha.managed cfg hi hu
  refine ⟨fun newsz => ?_, fun f m hk => ?_⟩
  · cases hal : allocuvm cfg ((k.proc i).vm k.kmem) (k.proc i).sz newsz with
    | ok x => exact ⟨x, rfl⟩
    | error e =>
      exfalso
      obtain ⟨hlt, ⟨u, h1, h2, h3⟩ | ⟨g, h1, h2⟩⟩ := allocuvm_error (Nat.le_of_lt h.size) hal
      · have hpg := pages_le hlt
        rw [Proc.vm_pd, h.shape.rest u h1 (by omega), mapped_zero] at h3
        cases h3
      · exact h2 (hm g h1)
  · cases hc : copyuvm cfg m (k.proc i).pgdir (k.proc i).sz with
    | ok x => exact ⟨x, rfl⟩
    | error e =>
      exfalso
      rcases copyuvm_error (Nat.le_of_lt h.size) hc with ⟨u, h1, h2⟩ | ⟨g, h1, h2⟩
      · rw [h.shape.mapped h1] at h2
        cases h2
      · have := kalloc_free hk g
        exact h2 (hm g (by omega))

/-- **The shape of address spaces.** In every state of every run from boot whose operations meet
    `ShapeOk`: below KERNBASE a process in use has exactly one of PTE_P and PTE_E for every page
    below its size rounded up, and zero entries above; its size is below KERNBASE; PTE_E occurs
    with PTE_U only. No operation that meets `ShapeOk` then reaches the panic of `mappages` or a
    panic of `copyuvm`. -/
theorem address_space_shape {ncpu : Nat} {code : List Byte} {k0 k : Kernel}
    (hb : boot cfg ncpu code = .ok k0) (h : Run cfg ShapeOk k0 k) :
    (∀ i, (k.proc i).state ≠ .unused →
      (∀ u, u < pages (k.proc i).sz →
        (has ((k.proc i).pgdir.pteAt u) pteP != has ((k.proc i).pgdir.pteAt u) pteE) = true) ∧
      (∀ u, pages (k.proc i).sz ≤ u → u < 2 ^ 19 → (k.proc i).pgdir.pteAt u = 0#32) ∧
      (k.proc i).sz < kernBase ∧
      ∀ u, has ((k.proc i).pgdir.pteAt u) pteE = true →
        has ((k.proc i).pgdir.pteAt u) pteU = true) ∧
    ∀ fuel i op, ShapeOk k i op →
      step cfg fuel k i op ≠ .error (.panic .remap) ∧
      step cfg fuel k i op ≠ .error (.panic .copyuvmPte) ∧
      step cfg fuel k i op ≠ .error (.panic .copyuvmPresent) := by
  obtain ⟨ha0, hb0⟩ := boot_ok cfg hb
  have hacc := run_accounted cfg ha0 (h.mono cfg ShapeOk.own)
  have hshape : EveryProc Shaped k :=
    h.inv cfg (fun i hi => ⟨(hb0 i hi).sane, (hb0 i hi).shape⟩) (fun hok => hok)
      fun hinv hok hs => (shapeInv cfg).step cfg
        (fun hp hm => (memStep_step cfg hp.toSane hm).state) hinv hok hs
  refine ⟨fun i hi => ?_, fun fuel i op hok => ?_⟩
  · have hp := hshape i hi
    exact ⟨fun u hu => (hp.shape.low u hu).1, hp.shape.rest, hp.size, hp.shape.encUser⟩
  · have hcalm : Lib.Errs Calm (step cfg fuel k i op) := by
      by_cases hi : i < nproc
      · exact step_calm cfg (fun hu => (hshape i hu).maps cfg hacc hi hu)
          fun ip path argv hop hu => exec_total (hacc.managed cfg hi hu) (by subst hop; exact hok)
      · unfold step
        rw [if_pos (by omega)]
        exact Lib.errs_error (by decide)
    exact ⟨fun hc => (hcalm _ hc).1 rfl, fun hc => (hcalm _ hc).2.1 rfl,
      fun hc => (hcalm _ hc).2.2 rfl⟩

/-- The first process grows by 32 MB. -/
theorem address_space_shape_grown : ∃ k0 k, boot xv6 0 [] = .ok k0 ∧ Run xv6 ShapeOk k0 k ∧
    2 ^ 25 ≤ (k.proc 0).sz ∧ (k.proc 0).sz < kernBase := by
  obtain ⟨k0, hb, hfirst⟩ := boot_total xv6 0 [] (by decide)
  obtain ⟨o, k1, f, g, hs, hp⟩ := hfirst.grow (boot_ok xv6 hb).1
  have hr : Run xv6 ShapeOk k0 k1 := by
    refine .step .start ?_ hs
    exact fun hc => absurd hc (by decide)
  exact ⟨k0, k1, hb, hr, Nat.le_trans (by decide) hp.size,
    ((address_space_shape xv6 hb hr).1 0 hp.used).2.2.1⟩

/-- **A long argument of exec breaks the shape**: a run from boot after which the first page of a
    process has neither PTE_P nor PTE_E. -/
theorem long_argument_breaks_shape : ∃ k0 k, boot xv6 0 [] = .ok k0 ∧
    Run xv6 (fun _ _ _ => True) k0 k ∧ (k.proc 0).state ≠ .unused ∧ 0 < pages (k.proc 0).sz ∧
    has ((k.proc 0).pgdir.pteAt 0) pteP = false ∧ has ((k.proc 0).pgdir.pteAt 0) pteE = false := by
  obtain ⟨k0, k, f, h1, h2, -, -, h3, h4, h5⟩ := longArgument_run xv6 (by decide)
  rw [mapped_eq, Bool.or_eq_false_iff] at h5
  exact ⟨k0, k, h1, h2, h3, h4, h5.1, h5.2⟩

end Xv6Clock
