/-
  File:      Xv6Clock/Resize.lean
  Subject:   What `growproc` (proc.c) does to a process: are new pages encrypted, and does it do
             either what was asked or nothing?

  Growing maps the pages up to the rounded new size and encrypts `n / PGSIZE` of them, counted from
  the rounded old size. The two numbers agree for whole pages; otherwise the last new page can stay
  in plain text. Shrinking computes the new size in 32 bits and takes 0 for failure: a process
  that gives back everything loses its pages and is told that nothing happened, and one that gives
  back more than it has is told that it did.
-/
import Xv6Clock.Account
import Xv6Clock.Logical
import Xv6Clock.Follow

namespace Xv6Clock

variable (cfg : Config)

/-! ## 1. Growing -/

/-- **Every new page is encrypted and logically zero, every old page is as it was.** -/
structure GrowthSealed (m m' : Kmem) (p p' : Proc) (n : BitVec 32) : Prop where
  new : ∀ u, pages p.sz ≤ u → u < pages (p.sz + n.toInt.toNat) →
    has (p'.pgdir.pteAt u) pteU = true ∧ has (p'.pgdir.pteAt u) pteE = true ∧
    has (p'.pgdir.pteAt u) pteP = false ∧ m'.mem (pteFrame (p'.pgdir.pteAt u)) = fill 0xFF
  old : ∀ u, u < pages p.sz → p'.pgdir.pteAt u = p.pgdir.pteAt u ∧
    (mapped (p.pgdir.pteAt u) = true →
      m'.mem (pteFrame (p.pgdir.pteAt u)) = m.mem (pteFrame (p.pgdir.pteAt u)))

variable {u : Nat} {x : Int}

/-- A range that does not wrap. -/
theorem inRange_iff {k n : Nat} (h : k + n ≤ 2 ^ 20) : InRange k n u ↔ k ≤ u ∧ u < k + n := by
  refine ⟨fun ⟨i, hi, hu⟩ => ?_, fun ⟨h1, h2⟩ => ⟨u - k, by omega, ?_⟩⟩
  · rw [Nat.mod_eq_of_lt (by omega)] at hu
    omega
  · rw [Nat.mod_eq_of_lt (by omega)]
    omega

/-- The pages `growproc` encrypts are among those it maps. -/
theorem pages_add_le (sz n : Nat) : pages sz + n / 4096 ≤ pages (sz + n) := by
  unfold pages
  omega

theorem xorPage_fill_zero : xorPage (fill 0) = fill 0xFF := by
  funext i
  unfold xorPage fill
  decide

section Grown
variable {m : Kmem} {p : Proc} {s s' : Vm} {lo c hi : Nat}

section
variable (ha : Allocd (p.vm m) s lo hi)
include ha

/-- A new page before it is encrypted. -/
theorem Allocd.flags (h1 : lo ≤ u) (h2 : u < hi) :
    has (s.pd.pteAt u) pteU = true ∧ has (s.pd.pteAt u) pteE = false ∧
      mapped (s.pd.pteAt u) = true := by
  obtain ⟨f, hf, -⟩ := ha.new u h1 h2
  rw [hf]
  refine ⟨?_, ?_, mapped_of_P ?_⟩ <;> rw [has_allocEntry f (by decide)] <;> decide

theorem Allocd.kernHigh (hlt : hi ≤ 2 ^ 19) (hk : KernHigh p.pgdir) :
    KernHigh s.pd := fun u hu => by
  rw [ha.pte u (by omega)]
  exact hk u hu

/-- `mencrypt` on new pages succeeds. -/
theorem mencrypt_new {len : Int} (hh : lo + len.toNat ≤ hi) (hlt : hi ≤ 2 ^ 19)
    (he : mencrypt s (lo * 4096) len = .ok (x, s')) : EncRange s s' lo len.toNat := by
  rcases mencrypt_cases s (lo * 4096) len with ⟨-, u, hu, -, hm⟩ | ⟨s1, h1, h2⟩ | ⟨h1, -⟩
  · rw [Nat.mul_div_cancel _ (by decide), inRange_iff (by omega)] at hu
    rw [(ha.flags hu.1 (by omega)).2.2] at hm
    cases hm
  · rw [he] at h1
    cases h1
    rwa [Nat.mul_div_cancel _ (by decide)] at h2
  · rw [he] at h1
    cases h1

end

variable (ha : Allocd (p.vm m) s lo hi) (he : EncRange s s' lo c) (hh : lo + c ≤ hi)
  (hlt : hi ≤ 2 ^ 19)
include ha he hh hlt

/-- A new page that has been encrypted. -/
theorem sealed_new (h1 : lo ≤ u) (h2 : u < lo + c) :
    has (s'.pd.pteAt u) pteU = true ∧ has (s'.pd.pteAt u) pteE = true ∧
      has (s'.pd.pteAt u) pteP = false := by
  obtain ⟨hU, hE, -⟩ := ha.flags h1 (by omega)
  rw [(he.sealed u ((inRange_iff (by omega)).mpr ⟨h1, h2⟩) hU hE).2]
  exact ⟨by simp [sealEntry, hU], has_enc_E _, has_enc_P _⟩

omit ha in
/-- A page outside the range. -/
theorem pte_outside (h : ¬ (lo ≤ u ∧ u < lo + c)) : s'.pd.pteAt u = s.pd.pteAt u :=
  he.same u fun hc => h ((inRange_iff (by omega)).mp hc.1)

variable (hk : KernHigh p.pgdir) (hone : ∀ f, m.free f + p.pgdir.holds f ≤ 1)
include hk hone

omit hh in
/-- Both loops keep what user code reads. -/
theorem grown_logical (hu : u < 2 ^ 19) (hm : mapped (s.pd.pteAt u) = true) :
    s'.logical u = s.logical u := by
  refine (he.flips (ha.kernHigh hlt hk)).logical (fun f => ?_) hu hm
  have h1 := ha.count f
  have h2 := hone f
  simp only [Proc.vm_m, Proc.vm_pd] at h1
  omega

/-- The bytes of an encrypted new page. -/
theorem sealed_new_bytes (h1 : lo ≤ u) (h2 : u < lo + c) :
    s'.m.mem (pteFrame (s'.pd.pteAt u)) = fill 0xFF := by
  obtain ⟨-, hE, hm⟩ := ha.flags h1 (by omega)
  have hfree : ∀ f, (p.vm m).m.free f ≤ 1 := fun f => by
    have := hone f
    rw [Proc.vm_m]
    omega
  have hl := grown_logical ha he hlt hk hone (by omega) hm
  rw [Vm.logical_plain hE, ha.zero hfree u h1 (by omega),
    Vm.logical_enc (sealed_new ha he hh hlt h1 h2).2.1] at hl
  rw [← xorPage_xorPage (s'.m.mem _), hl, xorPage_fill_zero]

/-- An old page. -/
theorem old_bytes (h : u < lo) (hm : mapped (p.pgdir.pteAt u) = true) :
    s'.m.mem (pteFrame (p.pgdir.pteAt u)) = m.mem (pteFrame (p.pgdir.pteAt u)) := by
  have h1 : s.pd.pteAt u = p.pgdir.pteAt u := ha.pte u (by omega)
  have h2 : s'.pd.pteAt u = s.pd.pteAt u := pte_outside he hh hlt (by omega)
  have hfree : (p.vm m).m.free (pteFrame (p.pgdir.pteAt u)) = 0 := by
    have h3 := hone (pteFrame (p.pgdir.pteAt u))
    have h4 := PgDir.one_le_holds hm (by omega)
    rw [Proc.vm_m]
    omega
  have hl := grown_logical ha he hlt hk hone (show u < 2 ^ 19 by omega) (by rw [h1]; exact hm)
  have hs := ha.mem _ hfree
  cases hE : has (s.pd.pteAt u) pteE with
  | true =>
    rw [Vm.logical_enc hE, Vm.logical_enc (by rw [h2]; exact hE), h2, h1] at hl
    rw [← xorPage_xorPage (s'.m.mem _), hl, xorPage_xorPage]
    exact hs
  | false =>
    rw [Vm.logical_plain hE, Vm.logical_plain (by rw [h2]; exact hE), h2, h1] at hl
    rw [hl]
    exact hs

end Grown

/-- **Growing encrypts every new page exactly if the sizes round to as many pages as `n` has**: for
    every process whose frames are its own and every `n > 0` for which `growproc` returns 0. -/
theorem growthSealed_iff {m m' : Kmem} {p p' : Proc} {n : BitVec 32} (hp : Sane p)
    (hone : ∀ f, m.free f + p.pgdir.holds f ≤ 1) (h0 : 0 < n.toInt)
    (h : growproc cfg m p n.toInt = .ok (0, m', p')) :
    GrowthSealed m m' p p' n ↔
      pages (p.sz + n.toInt.toNat) = pages p.sz + n.toInt.toNat / 4096 := by
  have hle := pages_add_le p.sz n.toInt.toNat
  have hlen : (n.toInt / (pgSize : Nat)).toNat = n.toInt.toNat / 4096 := by
    unfold pgSize
    omega
  cases growproc_ok cfg hp BitVec.toInt_lt h with
  | same hn => omega
  | wrapped hn => omega
  | shrunk hn => omega
  | @grown s s' x _ hlt ha hm =>
    have hhi := pages_le hlt
    have he := mencrypt_new ha (by rw [hlen]; exact hle) hhi hm
    rw [hlen] at he
    constructor
    · intro hg
      by_contra hne
      -- the page after those `mencrypt` was asked for
      have hE := (hg.new (pages p.sz + n.toInt.toNat / 4096) (by omega) (by omega)).2.1
      dsimp only at hE
      rw [pte_outside he hle hhi (by omega), (ha.flags (by omega) (by omega)).2.1] at hE
      cases hE
    · intro heq
      refine ⟨fun u h1 h2 => ?_, fun u hu => ⟨?_, old_bytes ha he hle hhi hp.high hone hu⟩⟩
      · obtain ⟨hU, hE, hP⟩ := sealed_new ha he hle hhi h1 (by omega)
        exact ⟨hU, hE, hP, sealed_new_bytes ha he hle hhi hp.high hone h1 (by omega)⟩
      · exact (pte_outside he hle hhi (by omega)).trans (ha.pte u (by omega))

/-- What a growth of the process of two pages returns. -/
theorem growproc_fresh {n : BitVec 32} (h : Lib.okAnd (growproc xv6 (freshKernel 2).kmem
      (freshProc 2) n.toInt) (fun y => y.1 == x) = true) :
    ∃ m' p', growproc xv6 (freshKernel 2).kmem (freshProc 2) n.toInt = .ok (x, m', p') := by
  obtain ⟨⟨r, m', p'⟩, h1, h2⟩ := Lib.okAnd_iff.mp h
  obtain rfl : r = x := beq_iff_eq.mp h2
  exact ⟨m', p', h1⟩

/-- Growing it by two pages. -/
theorem growthSealed_fresh : ∃ m' p',
    growproc xv6 (freshKernel 2).kmem (freshProc 2) (8192#32).toInt = .ok (0, m', p') ∧
    GrowthSealed (freshKernel 2).kmem m' (freshProc 2) p' 8192#32 := by
  obtain ⟨m', p', h⟩ := growproc_fresh (n := 8192#32) (x := 0) (by decide +kernel)
  exact ⟨m', p', h, (growthSealed_iff xv6 (freshProc_fresh 2 (by decide)).sane (freshKernel_one 2)
    (by decide) h).mpr (by decide +kernel)⟩

/-- **A process that grows by one byte gets a page in plain text.** -/
theorem growByte_plain : ∃ m' p', growproc xv6 (freshKernel 1).kmem (freshProc 1) (1#32).toInt =
    .ok (0, m', p') ∧ has (p'.pgdir.pteAt 1) pteP = true ∧ has (p'.pgdir.pteAt 1) pteE = false ∧
    ¬ GrowthSealed (freshKernel 1).kmem m' (freshProc 1) p' 1#32 := by
  have h : Lib.okAnd (growproc xv6 (freshKernel 1).kmem (freshProc 1) (1#32).toInt) (fun x =>
      x.1 == 0 && (has (x.2.2.pgdir.pteAt 1) pteP && !has (x.2.2.pgdir.pteAt 1) pteE)) = true := by
    decide +kernel
  obtain ⟨⟨r, m', p'⟩, h1, h2⟩ := Lib.okAnd_iff.mp h
  simp only [Bool.and_eq_true, Bool.not_eq_true', beq_iff_eq] at h2
  obtain ⟨rfl, hP, hE⟩ := h2
  refine ⟨m', p', h1, hP, hE, fun hg => ?_⟩
  have hE' := (hg.new 1 (by decide) (by decide)).2.1
  rw [hE] at hE'
  cases hE'

/-! ## 2. All or nothing -/

/-- The pages below the size are mapped, and there is nothing between them and KERNBASE. -/
structure ExactPages (p : Proc) : Prop where
  low : ∀ u, u < pages p.sz → mapped (p.pgdir.pteAt u) = true
  rest : ∀ u, pages p.sz ≤ u → u < 2 ^ 19 → p.pgdir.pteAt u = 0#32

/-- What was asked. -/
structure AsAsked (p p' : Proc) (n : BitVec 32) : Prop where
  size : (p'.sz : Int) = p.sz + n.toInt
  pages : ∀ u, u < 2 ^ 19 → (mapped (p'.pgdir.pteAt u) = true ↔ u < pages p'.sz)

/-- Nothing. -/
structure Untouched (m m' : Kmem) (p p' : Proc) : Prop where
  size : p'.sz = p.sz
  pte : ∀ u, u < 2 ^ 19 → p'.pgdir.pteAt u = p.pgdir.pteAt u
  bytes : ∀ u, u < 2 ^ 19 → mapped (p.pgdir.pteAt u) = true →
    m'.mem (pteFrame (p.pgdir.pteAt u)) = m.mem (pteFrame (p.pgdir.pteAt u))
  queue : p'.q = p.q

/-- **`growproc` does what was asked if it returns 0, and nothing if it returns -1.** -/
structure AllOrNothing (m m' : Kmem) (p p' : Proc) (n : BitVec 32) (r : Int) : Prop where
  success : r = 0 → AsAsked p p' n
  failure : r = -1 → Untouched m m' p p'

theorem ExactPages.mapped_iff {p : Proc} (h : ExactPages p) (hu : u < 2 ^ 19) :
    mapped (p.pgdir.pteAt u) = true ↔ u < pages p.sz := by
  refine ⟨fun hm => ?_, h.low u⟩
  by_contra hge
  rw [h.rest u (by omega) hu, mapped_zero] at hm
  cases hm

theorem Untouched.refl (m : Kmem) (p : Proc) : Untouched m m p p :=
  ⟨rfl, fun _ _ => rfl, fun _ _ _ => rfl, rfl⟩

/-- The loop over the queue does nothing if no node has to go. -/
theorem removeFreed_self {n newsz : Nat} {q : ClockQ} (h : ∀ a ∈ q.entries, a < newsz) :
    ∀ i, removeFreed n q newsz i = q := by
  induction n with
  | zero => exact fun _ => rfl
  | succ n ih =>
    intro i
    unfold removeFreed
    split
    · rfl
    · rename_i hi
      have hlt := h _ (Lib.mem_front.mpr ⟨i, by omega, rfl⟩)
      rw [if_neg (by omega)]
      exact ih _

theorem removeFreed_eq_self_iff {q : ClockQ} {newsz : Nat} :
    removeFreed q.inClock q newsz 0 = q ↔ ∀ a ∈ q.entries, a < newsz := by
  refine ⟨fun h => ?_, fun h => removeFreed_self h 0⟩
  have hlen := removeFreed_inClock q newsz
  rw [h] at hlen
  have hfull : (q.entries.filter (· < newsz)).length = q.entries.length :=
    hlen.symm.trans (Lib.length_front _ _).symm
  have hall := List.length_filter_eq_length_iff.mp hfull
  exact fun a ha => of_decide_eq_true (hall a ha)

section
variable {m m' : Kmem} {p p' : Proc} {n r : Int}

/-- What a shrinking `growproc` returns. -/
theorem growproc_result (hk : p.sz ≤ kernBase) (h0 : n < 0)
    (h : growproc cfg m p n = .ok (r, m', p')) :
    r = if min p.sz (toU (p.sz + n)) = 0 then -1 else 0 := by
  unfold growproc at h
  rw [if_neg (by omega), if_pos h0] at h
  obtain ⟨⟨sz, s⟩, h1, h2⟩ := Lib.bind_eq_ok.mp h
  dsimp only at h2
  have hsz : sz = min p.sz (toU (p.sz + n)) := by
    rcases deallocuvm_ok hk h1 with ⟨hle, hr, -⟩ | ⟨hlt, hr, -⟩ <;> omega
  rw [← hsz]
  split at h2
  · rename_i hz
    cases h2
    rw [if_pos hz]
  · rename_i hz
    cases h2
    rw [if_neg hz]

end

/-- A failed allocation. -/
theorem AllocUndone.untouched {m : Kmem} {p : Proc} {s : Vm} {hi : Nat} (hx : ExactPages p)
    (hone : ∀ f, m.free f + p.pgdir.holds f ≤ 1)
    (h : AllocUndone (p.vm m) s (pages p.sz) hi) :
    Untouched m s.m p { p with pgdir := s.pd } := by
  have hpte : ∀ u, u < 2 ^ 19 → s.pd.pteAt u = p.pgdir.pteAt u := fun u hu => by
    rcases h.pte u with h1 | ⟨h1, -, h2⟩
    · exact h1
    · rw [h2, hx.rest u h1 hu]
  refine ⟨rfl, hpte, fun u hu hm => ?_, rfl⟩
  have h1 := hone (pteFrame (p.pgdir.pteAt u))
  have h2 := PgDir.one_le_holds hm hu
  have hm' : mapped (s.pd.pteAt u) = true := by
    rw [hpte u hu]
    exact hm
  have h3 := PgDir.one_le_holds hm' hu
  have h4 := h.count (pteFrame (p.pgdir.pteAt u))
  rw [hpte u hu] at h3
  simp only [Proc.vm_m, Proc.vm_pd] at h4
  exact h.mem _ (by rw [Proc.vm_m]; omega) (by omega)

section
variable {m : Kmem} {p : Proc} {n : BitVec 32} {r : Int}

/-- New pages are mapped, and no others. -/
theorem grown_asAsked {s s' : Vm} (hp : Sane p) (hx : ExactPages p) (hn : 0 < n.toInt)
    (hlt : p.sz + n.toInt.toNat < kernBase)
    (ha : Allocd (p.vm m) s (pages p.sz) (pages (p.sz + n.toInt.toNat)))
    (he : mencrypt s (pages p.sz * 4096) (n.toInt / (pgSize : Nat)) = .ok (x, s')) :
    AsAsked p { p with pgdir := s'.pd, sz := p.sz + n.toInt.toNat } n := by
  have hle := pages_add_le p.sz n.toInt.toNat
  have hrec := (mencrypt_flips (ha.kernHigh (pages_le hlt) hp.high) he).recoded
  refine ⟨?_, fun u hu => ?_⟩ <;> dsimp only
  · omega
  · rw [(hrec.entry u).map]
    by_cases hnew : pages p.sz ≤ u ∧ u < pages (p.sz + n.toInt.toNat)
    · exact iff_of_true (ha.flags hnew.1 hnew.2).2.2 hnew.2
    · rw [ha.pte u hnew, Proc.vm_pd, hx.mapped_iff hu]
      omega

/-- 32 bits have wrapped: the old size is taken for the new one. -/
theorem wrapped_allOrNothing (hn : n.toInt < 0)
    (hr : r = if p.sz = 0 then -1 else 0) :
    AllOrNothing m m p { p with q := removeFreed p.q.inClock p.q (toU (p.sz + n.toInt)) 0 } n r ↔
      p.sz = 0 ∧ ∀ a ∈ p.q.entries, a < toU n.toInt := by
  by_cases h0 : p.sz = 0
  · rw [if_pos h0] at hr
    have hu : toU (p.sz + n.toInt) = toU n.toInt := by rw [h0, Int.natCast_zero, Int.zero_add]
    rw [hu]
    constructor
    · intro hall
      exact ⟨h0, removeFreed_eq_self_iff.mp (hall.failure hr).queue⟩
    · rintro ⟨-, hq⟩
      refine ⟨fun h1 => by omega, fun _ => ?_⟩
      rw [removeFreed_eq_self_iff.mpr hq]
      exact Untouched.refl m p
  · rw [if_neg h0] at hr
    refine ⟨fun hall => ?_, fun hc => absurd hc.1 h0⟩
    have hsize := (hall.success hr).size
    dsimp only at hsize
    omega

/-- Pages are freed: all of them, or those above the new size. -/
theorem shrunk_allOrNothing {s : Vm} (hx : ExactPages p) (hsz : p.sz < 2 ^ 31)
    (hlt : toU (p.sz + n.toInt) < p.sz)
    (hu : Unmapped (p.vm m) s (pages (toU (p.sz + n.toInt))) (pages p.sz))
    (hr : r = if toU (p.sz + n.toInt) = 0 then -1 else 0) :
    AllOrNothing m s.m p { p with
      pgdir := s.pd
      q := removeFreed p.q.inClock p.q (toU (p.sz + n.toInt)) 0
      sz := if toU (p.sz + n.toInt) = 0 then p.sz else toU (p.sz + n.toInt) } n r ↔
    0 < p.sz + n.toInt := by
  have hlow : -2 ^ 31 ≤ n.toInt := BitVec.le_toInt n
  have hhigh : n.toInt < 2 ^ 31 := BitVec.toInt_lt
  have hnew : ((toU (p.sz + n.toInt) : Nat) : Int) = p.sz + n.toInt := by
    unfold toU at hlt ⊢
    omega
  by_cases h0 : toU (p.sz + n.toInt) = 0
  · -- the new size 0 is taken for a failure
    rw [if_pos h0] at hr
    refine ⟨fun hall => ?_, fun hc => by omega⟩
    have h1 : 0 < pages p.sz := by
      unfold pages
      omega
    have h2 := (hall.failure hr).pte 0 (by decide)
    have h3 := hx.low 0 h1
    dsimp only at h2
    rw [hu.pte, if_pos ⟨by rw [h0]; decide, h1, h3⟩] at h2
    rw [← h2, mapped_zero] at h3
    cases h3
  · rw [if_neg h0] at hr
    have hle : pages (toU (p.sz + n.toInt)) ≤ pages p.sz := by
      unfold pages
      omega
    refine ⟨fun _ => by omega, fun _ => ⟨fun _ => ⟨?_, fun u hlt' => ?_⟩, fun h1 => by omega⟩⟩ <;>
      dsimp only <;> rw [if_neg h0]
    · exact hnew
    · rw [hu.pte, Proc.vm_pd]
      split
      · rename_i hc
        rw [mapped_zero]
        exact iff_of_false Bool.false_ne_true (by omega)
      · rename_i hc
        rw [hx.mapped_iff hlt']
        refine ⟨fun h1 => ?_, fun h1 => by omega⟩
        by_contra h2
        exact hc ⟨by omega, h1, hx.low u h1⟩

end

/-- **When `growproc` is all or nothing**, for every process whose frames are its own and every
    32-bit `n`: it is not asked to give back everything the process has, or more. (A process
    without any memory keeps it, if the queue holds nothing from above the size either.) -/
theorem allOrNothing_iff {m m' : Kmem} {p p' : Proc} {n : BitVec 32} {r : Int} (hp : Sane p)
    (hx : ExactPages p) (hone : ∀ f, m.free f + p.pgdir.holds f ≤ 1)
    (h : growproc cfg m p n.toInt = .ok (r, m', p')) :
    AllOrNothing m m' p p' n r ↔ 0 ≤ n.toInt ∨ 0 < p.sz + n.toInt ∨
      p.sz = 0 ∧ ∀ a ∈ p.q.entries, a < toU n.toInt := by
  have hlow : -2 ^ 31 ≤ n.toInt := BitVec.le_toInt n
  have hsz : p.sz < 2 ^ 31 := hp.size
  have hres := fun hn => growproc_result cfg (Nat.le_of_lt hp.size) hn h
  cases growproc_ok cfg hp BitVec.toInt_lt h with
  | same hn =>
    refine ⟨fun _ => .inl (by omega), fun _ => ⟨fun _ => ⟨by omega, fun u hu => ?_⟩, nofun⟩⟩
    exact hx.mapped_iff hu
  | @grown s s' x hn hlt ha he =>
    exact ⟨fun _ => .inl (by omega), fun _ => ⟨fun _ => grown_asAsked hp hx hn hlt ha he, nofun⟩⟩
  | @failed s hn hu =>
    refine ⟨fun _ => .inl (by omega), fun _ => ⟨nofun, fun _ => ?_⟩⟩
    rcases hu with rfl | ⟨-, hu⟩
    · exact Untouched.refl m p
    · exact hu.untouched hx hone
  | wrapped hn hge =>
    have hr := hres hn
    rw [Nat.min_eq_left hge] at hr
    have hneg : p.sz + n.toInt < 0 := by
      by_contra hc
      unfold toU at hge
      omega
    rw [wrapped_allOrNothing hn hr]
    refine ⟨fun h1 => .inr (.inr h1), ?_⟩
    rintro (h1 | h1 | h1)
    · omega
    · omega
    · exact h1
  | @shrunk _ s hn hlt hu =>
    have hr := hres hn
    rw [Nat.min_eq_right (Nat.le_of_lt hlt)] at hr
    rw [shrunk_allOrNothing hx hsz hlt hu hr]
    refine ⟨fun h1 => .inr (.inl h1), ?_⟩
    rintro (h1 | h1 | h1)
    · omega
    · exact h1
    · omega

/-- The process of two pages, grown by two, and by three: two frames are free. -/
theorem allOrNothing_fresh :
    (∃ m' p', growproc xv6 (freshKernel 2).kmem (freshProc 2) (8192#32).toInt = .ok (0, m', p') ∧
      AllOrNothing (freshKernel 2).kmem m' (freshProc 2) p' 8192#32 0) ∧
    ∃ m' p', growproc xv6 (freshKernel 2).kmem (freshProc 2) (12288#32).toInt = .ok (-1, m', p') ∧
      AllOrNothing (freshKernel 2).kmem m' (freshProc 2) p' 12288#32 (-1) := by
  have hf := freshProc_fresh 2 (by decide)
  have hx : ExactPages (freshProc 2) :=
    ⟨fun u hu => hf.shape.mapped hu, hf.shape.rest⟩
  obtain ⟨m1, p1, h1⟩ := growproc_fresh (n := 8192#32) (x := 0) (by decide +kernel)
  obtain ⟨m2, p2, h2⟩ := growproc_fresh (n := 12288#32) (x := -1) (by decide +kernel)
  exact ⟨⟨m1, p1, h1, (allOrNothing_iff xv6 hf.sane hx (freshKernel_one 2) h1).mpr
    (.inl (by decide))⟩, m2, p2, h2, (allOrNothing_iff xv6 hf.sane hx (freshKernel_one 2) h2).mpr
    (.inl (by decide))⟩

/-- **A process that gives back all its memory is told that this failed**, and has none left. -/
theorem giveBackAll_fails : ∃ m' p',
    growproc xv6 (freshKernel 1).kmem (freshProc 1) (-4096#32).toInt = .ok (-1, m', p') ∧
    p'.sz = 4096 ∧ mapped ((freshProc 1).pgdir.pteAt 0) = true ∧ p'.pgdir.pteAt 0 = 0#32 ∧
    ¬ AllOrNothing (freshKernel 1).kmem m' (freshProc 1) p' (-4096#32) (-1) := by
  have h : Lib.okAnd (growproc xv6 (freshKernel 1).kmem (freshProc 1) (-4096#32).toInt) (fun x =>
      x.1 == -1 && (x.2.2.sz == 4096 && x.2.2.pgdir.pteAt 0 == 0#32)) = true := by decide +kernel
  obtain ⟨⟨r, m', p'⟩, h1, h2⟩ := Lib.okAnd_iff.mp h
  simp only [Bool.and_eq_true, beq_iff_eq] at h2
  obtain ⟨rfl, hsz, hpte⟩ := h2
  refine ⟨m', p', h1, hsz, by decide, hpte, fun hall => ?_⟩
  have h3 := (hall.failure rfl).pte 0 (by decide)
  rw [hpte] at h3
  exact absurd h3 (by decide)

end Xv6Clock
