/-
  File:      Xv6Clock/MencryptAlgebra.lean
  Subject:   `mencrypt` (vm.c) as an operation on ranges of pages: what one call does, twice the
             same range, and two ranges in either order.

  A call is a fold of `Vm.sealed` over the pages of its range. Sealing a page passes over a page
  that is encrypted already, so the second time it does nothing; and two pages may be sealed in
  either order, even if they have one frame, since complementing its bytes commutes with itself.
-/
import Xv6Clock.Handled
import Xv6Clock.Lib.Fold
import Xv6Clock.MencryptCall
import Mathlib.Algebra.Group.Nat.Even
import Mathlib.Data.Finset.Card

namespace Xv6Clock

/-! ## 1. What a call does -/

/-- The pages of a range, in the order in which the loop comes to them. -/
def pageList (k n : Nat) : List Nat := (List.range n).map fun i => (k + i) % 2 ^ 20

/-- The pages of a range can be encrypted: they have page-table pages, and those of the user are
    present or encrypted. -/
def Ready (pd : PgDir) (k n : Nat) : Prop :=
  ∀ u, InRange k n u → pd.tabAt u = true ∧
    (has (pd.pteAt u) pteU = true → mapped (pd.pteAt u) = true)

/-- The pages of a list that are sealed and have frame `f`. -/
def sealSet (pd : PgDir) (l : List Nat) (f : Frame) : Finset Nat :=
  l.toFinset.filter fun u => plain (pd.pteAt u) = true ∧ pteFrame (pd.pteAt u) = f

/-- **The effect of a call**: PTE_E set and PTE_P and PTE_A cleared on the user pages of the range
    that are not encrypted, the bytes of each of them complemented, and nothing else. -/
structure SealsRange (s s' : Vm) (k n : Nat) : Prop where
  pte : ∀ u, InRange k n u → has (s.pd.pteAt u) pteU = true → has (s.pd.pteAt u) pteE = false →
    s'.pd.pteAt u = (s.pd.pteAt u ||| pteE) &&& ~~~(pteP ||| pteA)
  rest : ∀ u, ¬ (InRange k n u ∧ has (s.pd.pteAt u) pteU = true ∧
    has (s.pd.pteAt u) pteE = false) → s'.pd.pteAt u = s.pd.pteAt u
  bytes : ∀ f, s'.m.mem f =
    if Odd (sealSet s.pd (pageList k n) f).card then xorPage (s.m.mem f) else s.m.mem f
  tab : ∀ u, s'.pd.tabAt u = s.pd.tabAt u
  list : s'.m.freelist = s.m.freelist

/-! ## 2. Sealing pages -/

theorem PgDir.store_pde (pd : PgDir) (v : Nat) (w : Word) (d : Nat) : (pd.store v w).pde d =
    if d = v / 1024 then (pd.pde d).map fun t => ⟨t.frame, Function.update t.pte (v % 1024) w⟩
    else pd.pde d := by
  unfold PgDir.store
  cases h : pd.pde (v / 1024) with
  | none =>
    dsimp only
    split
    · rename_i hd
      rw [hd, h]
      rfl
    · rfl
  | some t =>
    dsimp only
    rw [PgDir.setTab_pde]
    split
    · rename_i hd
      rw [hd, h]
      rfl
    · rfl

variable {u k n : Nat} {s : Vm} {pd : PgDir}

/-- Two entries replaced in either order. -/
theorem PgDir.store_comm (pd : PgDir) {v : Nat} (h : u ≠ v) (a b : Word) :
    (pd.store u a).store v b = (pd.store v b).store u a := by
  have hframe : ((pd.store u a).store v b).frame = ((pd.store v b).store u a).frame := by
    simp only [PgDir.store_frame]
  have hpde : ((pd.store u a).store v b).pde = ((pd.store v b).store u a).pde := by
    funext d
    simp only [PgDir.store_pde]
    by_cases hu : d = u / 1024
    · by_cases hv : d = v / 1024
      · -- the same page-table page
        have hne : u % 1024 ≠ v % 1024 := by omega
        simp only [if_pos hu, if_pos hv, Option.map_map]
        refine congrArg (Option.map · _) (funext fun t => ?_)
        simp only [Function.comp_apply, Function.update_comm hne]
      · simp only [if_pos hu, if_neg hv]
    · simp only [if_neg hu]
  exact congrArg₂ PgDir.mk hframe hpde

theorem Kmem.flipFrame_comm (m : Kmem) (f g : Frame) :
    (m.flipFrame f).flipFrame g = (m.flipFrame g).flipFrame f := by
  by_cases h : f = g
  · rw [h]
  · unfold Kmem.flipFrame Kmem.setPage
    simp only [Function.update_of_ne (Ne.symm h), Function.update_of_ne h, Function.update_comm h]

theorem sealed_eq {v : Nat} (h : plain (s.pd.pteAt v) = true) :
    s.sealed v =
      ⟨s.m.flipFrame (pteFrame (s.pd.pteAt v)), s.pd.store v (sealEntry (s.pd.pteAt v))⟩ :=
  if_pos h

theorem sealed_pteAt (s : Vm) (v u : Nat) : (s.sealed v).pd.pteAt u =
    if u = v ∧ plain (s.pd.pteAt v) = true then sealEntry (s.pd.pteAt v) else s.pd.pteAt u := by
  cases hp : plain (s.pd.pteAt v) with
  | false => rw [sealed_of_not_plain hp, if_neg fun h => by cases h.2]
  | true =>
    rw [sealed_eq hp]
    have ht := PgDir.tabAt_of_mapped (mapped_of_P (plain_iff.mp hp).2.1)
    by_cases hu : u = v
    · rw [if_pos ⟨hu, rfl⟩, hu]
      exact PgDir.pteAt_store_self _ ht
    · rw [if_neg fun h => hu h.1]
      exact PgDir.pteAt_store_ne _ _ hu

/-- The second time nothing happens. -/
theorem sealed_idem (s : Vm) (v : Nat) : (s.sealed v).sealed v = s.sealed v := by
  refine sealed_of_not_plain ?_
  rw [sealed_pteAt]
  split
  · exact plain_seal _
  · rename_i h
    cases hp : plain (s.pd.pteAt v) with
    | false => rfl
    | true => exact absurd ⟨rfl, hp⟩ h

/-- Two pages in either order. -/
theorem sealed_comm (s : Vm) (u v : Nat) : (s.sealed u).sealed v = (s.sealed v).sealed u := by
  by_cases huv : u = v
  · rw [huv]
  have hu : (s.sealed v).pd.pteAt u = s.pd.pteAt u := Vm.sealed_pteAt_ne s huv
  have hv : (s.sealed u).pd.pteAt v = s.pd.pteAt v := Vm.sealed_pteAt_ne s (Ne.symm huv)
  cases hpu : plain (s.pd.pteAt u) with
  | false =>
    rw [sealed_of_not_plain hpu, sealed_of_not_plain (s := s.sealed v) (by rw [hu, hpu])]
  | true =>
    cases hpv : plain (s.pd.pteAt v) with
    | false =>
      rw [sealed_of_not_plain hpv, sealed_of_not_plain (s := s.sealed u) (by rw [hv, hpv])]
    | true =>
      rw [sealed_eq (s := s.sealed u) (by rw [hv, hpv]),
        sealed_eq (s := s.sealed v) (by rw [hu, hpu]), hu, hv, sealed_eq hpu, sealed_eq hpv]
      dsimp only
      rw [Kmem.flipFrame_comm, PgDir.store_comm _ huv]

instance : RightCommutative Vm.sealed := ⟨sealed_comm⟩

/-! ## 3. Sealing a list of pages -/

/-- The pages of a list sealed one after the other. -/
def Vm.sealedAll (s : Vm) (l : List Nat) : Vm := l.foldl Vm.sealed s

theorem sealedAll_tabAt (s : Vm) (l : List Nat) (u : Nat) :
    (s.sealedAll l).pd.tabAt u = s.pd.tabAt u := by
  induction l generalizing s with
  | nil => rfl
  | cons v l ih => exact (ih (s.sealed v)).trans (Vm.sealed_tabAt s v u)

theorem sealedAll_freelist (s : Vm) (l : List Nat) : (s.sealedAll l).m.freelist = s.m.freelist := by
  induction l generalizing s with
  | nil => rfl
  | cons v l ih =>
    refine (ih (s.sealed v)).trans ?_
    cases hp : plain (s.pd.pteAt v) with
    | false => rw [sealed_of_not_plain hp]
    | true => rw [sealed_eq hp]; rfl

/-- An entry afterwards. -/
theorem sealedAll_pteAt (s : Vm) (l : List Nat) (u : Nat) : (s.sealedAll l).pd.pteAt u =
    if u ∈ l ∧ plain (s.pd.pteAt u) = true then sealEntry (s.pd.pteAt u) else s.pd.pteAt u := by
  induction l generalizing s with
  | nil => exact (if_neg fun h => absurd h.1 List.not_mem_nil).symm
  | cons v l ih =>
    have h : (s.sealedAll (v :: l)).pd.pteAt u = ((s.sealed v).sealedAll l).pd.pteAt u := rfl
    rw [h, ih, sealed_pteAt]
    by_cases hv : u = v ∧ plain (s.pd.pteAt v) = true
    · obtain ⟨rfl, hp⟩ := hv
      simp [hp, plain_seal]
    · rw [if_neg hv]
      refine if_congr ⟨fun hm => ⟨List.mem_cons_of_mem v hm.1, hm.2⟩, fun hm => ⟨?_, hm.2⟩⟩ rfl rfl
      refine (List.mem_cons.mp hm.1).resolve_left fun huv => hv ⟨huv, ?_⟩
      rw [← huv]
      exact hm.2

theorem mem_sealSet {l : List Nat} {f : Frame} : u ∈ sealSet pd l f ↔
    u ∈ l ∧ plain (pd.pteAt u) = true ∧ pteFrame (pd.pteAt u) = f := by
  simp [sealSet]

/-- The pages left to seal after page `v`. -/
theorem sealSet_cons (s : Vm) (v : Nat) (l : List Nat) (f : Frame) :
    sealSet s.pd (v :: l) f = if plain (s.pd.pteAt v) = true ∧ pteFrame (s.pd.pteAt v) = f then
      insert v (sealSet (s.sealed v).pd l f) else sealSet (s.sealed v).pd l f := by
  ext u
  by_cases huv : u = v
  · subst huv
    have hp : plain ((s.sealed u).pd.pteAt u) = false := by
      rw [sealed_pteAt]
      split
      · exact plain_seal _
      · rename_i h
        cases hp : plain (s.pd.pteAt u) with
        | false => rfl
        | true => exact absurd ⟨rfl, hp⟩ h
    split
    · rename_i h
      simp [mem_sealSet, h]
    · rename_i h
      simp [mem_sealSet, h, hp]
  · have he : (s.sealed v).pd.pteAt u = s.pd.pteAt u := Vm.sealed_pteAt_ne s huv
    split <;> simp [mem_sealSet, he, huv]

/-- **The bytes of a frame afterwards**: complemented once for each page that was sealed. -/
theorem sealedAll_mem (s : Vm) (l : List Nat) (f : Frame) : (s.sealedAll l).m.mem f =
    if Odd (sealSet s.pd l f).card then xorPage (s.m.mem f) else s.m.mem f := by
  induction l generalizing s with
  | nil => rfl
  | cons v l ih =>
    have h : (s.sealedAll (v :: l)).m.mem f = ((s.sealed v).sealedAll l).m.mem f := rfl
    rw [h, ih, sealSet_cons]
    by_cases hv : plain (s.pd.pteAt v) = true ∧ pteFrame (s.pd.pteAt v) = f
    · rw [if_pos hv]
      obtain ⟨hp, rfl⟩ := hv
      have hnew : v ∉ sealSet (s.sealed v).pd l (pteFrame (s.pd.pteAt v)) := fun hm => by
        have hpl := (mem_sealSet.mp hm).2.1
        rw [sealed_pteAt, if_pos ⟨rfl, hp⟩, plain_seal] at hpl
        cases hpl
      have hmem : (s.sealed v).m.mem (pteFrame (s.pd.pteAt v)) =
          xorPage (s.m.mem (pteFrame (s.pd.pteAt v))) := by
        rw [sealed_eq hp]
        exact flipFrame_self _ _
      rw [Finset.card_insert_of_notMem hnew, hmem, xorPage_xorPage]
      by_cases hodd : Odd (sealSet (s.sealed v).pd l (pteFrame (s.pd.pteAt v))).card
      · rw [if_pos hodd, if_neg fun hn => Nat.odd_add_one.mp hn hodd]
      · rw [if_neg hodd, if_pos (Nat.odd_add_one.mpr hodd)]
    · rw [if_neg hv]
      have hm : (s.sealed v).m.mem f = s.m.mem f := by
        cases hp : plain (s.pd.pteAt v) with
        | false => rw [sealed_of_not_plain hp]
        | true =>
          rw [sealed_eq hp]
          exact flipFrame_ne _ fun hf => hv ⟨hp, hf.symm⟩
      rw [hm]

/-! ## 4. Calls -/

theorem mem_pageList : u ∈ pageList k n ↔ InRange k n u := by
  unfold pageList InRange
  rw [List.mem_map]
  refine exists_congr fun i => ?_
  rw [List.mem_range]
  exact and_congr_right fun _ => eq_comm

theorem pageList_succ (k n : Nat) :
    pageList k (n + 1) = k % 2 ^ 20 :: pageList ((k + 1) % 2 ^ 20) n := by
  unfold pageList
  rw [List.range_succ_eq_map, List.map_cons, List.map_map, Nat.add_zero]
  refine congrArg _ (List.map_congr_left fun i _ => ?_)
  exact (page_shift k i).symm

theorem Ready.tail (h : Ready pd k (n + 1)) :
    Ready pd ((k + 1) % 2 ^ 20) n := fun u hu => h u ((inRange_succ k n u).mpr (.inr hu))

theorem Ready.sealed (h : Ready s.pd k n) (v : Nat) :
    Ready (s.sealed v).pd k n := fun u hu => by
  obtain ⟨h1, h2⟩ := h u hu
  refine ⟨(Vm.sealed_tabAt s v u).trans h1, fun hU => ?_⟩
  rw [sealed_pteAt] at hU ⊢
  split at hU
  · rename_i hv
    rw [if_pos hv]
    exact mapped_enc _
  · rename_i hv
    rw [if_neg hv]
    exact h2 hU

theorem Ready.sealedAll (h : Ready s.pd k n) (l : List Nat) : Ready (s.sealedAll l).pd k n := by
  induction l generalizing s with
  | nil => exact h
  | cons v l ih => exact ih (h.sealed v)

/-- The second loop of `mencrypt`. -/
theorem mencryptPages_sealedAll : ∀ {s : Vm} {k : Nat}, Ready s.pd k n →
    mencryptPages n s (k * 4096) = .ok (0, s.sealedAll (pageList k n)) := by
  induction n with
  | zero => exact fun _ => rfl
  | succ n ih =>
    intro s k h
    obtain ⟨ht, hmap⟩ := h _ ((inRange_succ k n _).mpr (.inl rfl))
    have hrest := ih (h.tail.sealed (k % 2 ^ 20))
    rw [pageList_succ]
    refine Eq.trans ?_ hrest
    by_cases hue : has (s.pd.pteAt (k % 2 ^ 20)) pteU = true ∧
        has (s.pd.pteAt (k % 2 ^ 20)) pteE = false
    · obtain ⟨hU, hE⟩ := hue
      have hP : has (s.pd.pteAt (k % 2 ^ 20)) pteP = true := by
        have h1 := hmap hU
        rwa [mapped_eq, hE, Bool.or_false] at h1
      rw [mencryptPages_seal ht hU hE hP, Vm.sealed, if_pos (plain_iff.mpr ⟨hU, hP, hE⟩)]
    · rw [mencryptPages_skip ht hue, Vm.sealed,
        if_neg fun hp => hue ⟨(plain_iff.mp hp).1, (plain_iff.mp hp).2.2⟩]

/-- **A call is the fold of its range.** -/
theorem mencrypt_sealedAll {va : Nat} {len : Int} (h : Ready s.pd (va / 4096) len.toNat) :
    mencrypt s va len = .ok (0, s.sealedAll (pageList (va / 4096) len.toNat)) := by
  have hcheck : mencryptCheck len.toNat s.pd (va / 4096 * 4096) = .ok true := by
    rcases @mencryptCheck_cases len.toNat s.pd (va / 4096) with ⟨h1, -⟩ | ⟨-, u, hu, hU, hm⟩ |
      ⟨-, u, hu, ht⟩
    · exact h1
    · rw [(h u hu).2 hU] at hm
      cases hm
    · rw [(h u hu).1] at ht
      cases ht
  unfold mencrypt
  rw [pgRoundDown_eq]
  dsimp only
  rw [hcheck, Lib.ok_bind, if_neg (by decide), mencryptPages_sealedAll h]

theorem sealEntry_flags (w : Word) : sealEntry w = (w ||| pteE) &&& ~~~(pteP ||| pteA) := by
  rw [sealEntry_eq]
  unfold encEntry clearRef
  apply BitVec.eq_of_getLsbD_eq
  intro i hi
  have hAE : (pteA &&& pteE).getLsbD i = false := by
    rw [show pteA &&& pteE = 0#32 by decide, BitVec.getLsbD_zero]
  rw [BitVec.getLsbD_and] at hAE
  simp only [BitVec.getLsbD_and, BitVec.getLsbD_or, BitVec.getLsbD_not, hi, decide_true,
    Bool.true_and, Bool.not_or]
  revert hAE
  cases w.getLsbD i <;> cases pteA.getLsbD i <;> cases pteE.getLsbD i <;> simp

theorem sealedAll_sealsRange (h : Ready s.pd k n) :
    SealsRange s (s.sealedAll (pageList k n)) k n where
  pte u hu hU hE := by
    have hm := (h u hu).2 hU
    rw [mapped_eq, hE, Bool.or_false] at hm
    rw [sealedAll_pteAt, if_pos ⟨mem_pageList.mpr hu, plain_iff.mpr ⟨hU, hm, hE⟩⟩, sealEntry_flags]
  rest u hu := by
    rw [sealedAll_pteAt, if_neg]
    intro hp
    obtain ⟨hU, -, hE⟩ := plain_iff.mp hp.2
    exact hu ⟨mem_pageList.mp hp.1, hU, hE⟩
  bytes f := sealedAll_mem s _ f
  tab u := sealedAll_tabAt s _ u
  list := sealedAll_freelist s _

/-- **`mencrypt` on ranges**, whatever the page table and the bytes: a call returns 0 and encrypts
    its range, the same call again changes nothing, and two calls may be made in either order. -/
theorem mencrypt_ranges (s : Vm) (va va' : Nat) (len len' : Int)
    (h : Ready s.pd (va / 4096) len.toNat) (h' : Ready s.pd (va' / 4096) len'.toNat) :
    ∃ s1 s2 s3, mencrypt s va len = .ok (0, s1) ∧ SealsRange s s1 (va / 4096) len.toNat ∧
      mencrypt s1 va len = .ok (0, s1) ∧
      mencrypt s va' len' = .ok (0, s2) ∧
      mencrypt s1 va' len' = .ok (0, s3) ∧ mencrypt s2 va len = .ok (0, s3) := by
  refine ⟨_, _, _, mencrypt_sealedAll h, sealedAll_sealsRange h, ?_, mencrypt_sealedAll h',
    mencrypt_sealedAll (h'.sealedAll _), ?_⟩
  · rw [mencrypt_sealedAll (h.sealedAll _)]
    exact congrArg (fun x => Except.ok (0, x))
      (Lib.foldl_absorb_list sealed_idem (fun _ ha => ha) s)
  · rw [mencrypt_sealedAll (h.sealedAll _)]
    exact congrArg (fun x => Except.ok (0, x)) (Lib.foldl_swap _ _ s).symm

/-- Three pages of which page 1 is decrypted. -/
def oneOpen : Vm := (Vm.mk (freshKernel 3).kmem (freshDir 3)).opened 1

theorem ready_of_index (h : ∀ i, i < n →
    pd.tabAt ((k + i) % 2 ^ 20) = true ∧ (has (pd.pteAt ((k + i) % 2 ^ 20)) pteU = true →
      mapped (pd.pteAt ((k + i) % 2 ^ 20)) = true)) : Ready pd k n := fun u hu => by
  obtain ⟨i, hi, rfl⟩ := hu
  exact h i hi

/-- Two ranges that overlap in the page that is not encrypted. -/
theorem mencrypt_ranges_overlap : ∃ s1 s2 s3,
    mencrypt oneOpen 0 2 = .ok (0, s1) ∧ SealsRange oneOpen s1 (0 / 4096) (2 : Int).toNat ∧
      mencrypt s1 0 2 = .ok (0, s1) ∧
      mencrypt oneOpen 4100 2 = .ok (0, s2) ∧
      mencrypt s1 4100 2 = .ok (0, s3) ∧ mencrypt s2 0 2 = .ok (0, s3) :=
  mencrypt_ranges oneOpen 0 4100 2 2 (ready_of_index (by decide +kernel))
    (ready_of_index (by decide +kernel))

end Xv6Clock
