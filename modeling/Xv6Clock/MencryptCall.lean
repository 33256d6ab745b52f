/-
  File:      Xv6Clock/MencryptCall.lean
  Subject:   Is the system call `mencrypt` all or nothing?

  The first loop of `mencrypt` (vm.c) is to refuse the whole range if a page of it cannot be
  encrypted. It passes over pages without PTE_U though, as the second loop does, so a range that
  runs over the guard page or the end of the process is encrypted in part and reported as a
  success; and it looks at the entry before it knows that there is one.
-/
import Xv6Clock.Follow

namespace Xv6Clock

/-! ## 1. The check -/

/-- **What the first loop refuses**: a user page that is not mapped, after pages that all have a
    page-table page. -/
def Refused (pd : PgDir) (k n : Nat) : Prop :=
  ∃ i, i < n ∧ (∀ j, j < i → pd.tabAt ((k + j) % 2 ^ 20) = true) ∧
    has (pd.pteAt ((k + i) % 2 ^ 20)) pteU = true ∧
    mapped (pd.pteAt ((k + i) % 2 ^ 20)) = false

theorem page_shift (k j : Nat) : ((k + 1) % 2 ^ 20 + j) % 2 ^ 20 = (k + (j + 1)) % 2 ^ 20 := by
  omega

/-- A page the loop gets past. -/
theorem refused_succ {pd : PgDir} {k n : Nat} (ht : pd.tabAt (k % 2 ^ 20) = true)
    (h : ¬ (has (pd.pteAt (k % 2 ^ 20)) pteU = true ∧ mapped (pd.pteAt (k % 2 ^ 20)) = false)) :
    Refused pd k (n + 1) ↔ Refused pd ((k + 1) % 2 ^ 20) n := by
  constructor
  · rintro ⟨i, hi, htab, hU, hm⟩
    cases i with
    | zero => exact absurd ⟨hU, hm⟩ h
    | succ i =>
      refine ⟨i, by omega, fun j hj => ?_, ?_, ?_⟩ <;> rw [page_shift]
      · exact htab _ (by omega)
      · exact hU
      · exact hm
  · rintro ⟨i, hi, htab, hU, hm⟩
    rw [page_shift] at hU hm
    refine ⟨i + 1, by omega, fun j hj => ?_, hU, hm⟩
    cases j with
    | zero => exact ht
    | succ j =>
      have := htab j (by omega)
      rwa [page_shift] at this

theorem mencryptCheck_refuses {n : Nat} : ∀ {pd : PgDir} {k : Nat},
    mencryptCheck n pd (k * 4096) = .ok false ↔ Refused pd k n := by
  induction n with
  | zero =>
    intro pd k
    refine ⟨nofun, fun h => ?_⟩
    obtain ⟨i, hi, -⟩ := h
    exact absurd hi (Nat.not_lt_zero i)
  | succ n ih =>
    intro pd k
    unfold mencryptCheck
    cases ht : pd.tabAt (k % 2 ^ 20) with
    | false =>
      rw [walk_page_no ht]
      refine ⟨fun h => (by cases h), fun h => ?_⟩
      obtain ⟨i, -, htab, hU, -⟩ := h
      -- page `k` is the first one looked at
      cases i with
      | zero =>
        have h0 : pd.pteAt (k % 2 ^ 20) = 0#32 := PgDir.pteAt_of_no_tab ht
        rw [Nat.add_zero, h0, has_zero] at hU
        cases hU
      | succ i =>
        have h0 := htab 0 (by omega)
        rw [Nat.add_zero, ht] at h0
        cases h0
    | true =>
      rw [walk_page_of ht]
      dsimp only
      cases hU : has (pd.pteAt (k % 2 ^ 20)) pteU with
      | false =>
        simp only [Bool.not_false, if_true, addU_page]
        rw [ih, refused_succ ht fun h => by rw [hU] at h; cases h.1]
      | true =>
        simp only [Bool.not_true, Bool.false_eq_true, if_false, uva2ka_page ht, Lib.ok_bind, hU,
          addU_page]
        cases hm : mapped (pd.pteAt (k % 2 ^ 20)) with
        | false =>
          refine ⟨fun _ => ⟨0, by omega, fun j hj => absurd hj (Nat.not_lt_zero j), hU, hm⟩,
            fun _ => ?_⟩
          simp
        | true =>
          simp only [Bool.and_self, if_true, Option.isNone_some, Bool.false_eq_true, if_false]
          rw [ih, refused_succ ht fun h => by rw [hm] at h; cases h.2]

/-! ## 2. The call -/

/-- **All or nothing**: the call returns 0 and the pages are encrypted user pages, or it returns -1
    and nothing has changed. -/
def EncryptsAllOrNothing (m : Kmem) (p : Proc) (va : Nat) (len : Int) : Prop :=
  (∃ m' p', sysMencrypt m p va len = .ok (0, m', p') ∧ ∀ u, InRange (va / 4096) len.toNat u →
    has (p'.pgdir.pteAt u) pteU = true ∧ has (p'.pgdir.pteAt u) pteE = true) ∨
  sysMencrypt m p va len = .ok (-1, m, p)

section
variable {m : Kmem} {p : Proc} {va : Nat} {len : Int}

/-- The arguments pass the checks. -/
theorem sysMencrypt_eq (hva : va < p.sz) (hlen : 0 < len) (hk : va < kernBase + phystop) :
    sysMencrypt m p va len = (do
      let (r, s) ← mencrypt (p.vm m) va len
      .ok (r, s.m, { p with pgdir := s.pd })) := by
  have h1 : addU va 1 ≤ va + 1 := Nat.mod_le _ _
  unfold sysMencrypt
  rw [if_neg (by omega), if_neg (by omega), if_neg (by omega)]

theorem mencrypt_refuses {s : Vm} :
    (∃ s', mencrypt s va len = .ok (-1, s')) ↔ Refused s.pd (va / 4096) len.toNat := by
  unfold mencrypt
  rw [pgRoundDown_eq, ← mencryptCheck_refuses]
  dsimp only
  constructor
  · rintro ⟨s', h⟩
    obtain ⟨good, h1, h2⟩ := Lib.bind_eq_ok.mp h
    cases good with
    | false => exact h1
    | true =>
      have h3 := (mencryptPages_ok h2).1
      cases h3
  · intro h
    rw [h]
    exact ⟨s, rfl⟩

end

/-- **When the call is all or nothing**, for every address below the size and every length: its
    argument is refused at once, or every page of the range is a mapped user page, or the check
    meets a user page that is not mapped before it meets a missing page-table page. -/
theorem encryptsAllOrNothing_iff (m : Kmem) (p : Proc) (va : Nat) (len : Int) (hva : va < p.sz)
    (hlen : 0 < len) : EncryptsAllOrNothing m p va len ↔
      kernBase + phystop ≤ va ∨
      (∀ u, InRange (va / 4096) len.toNat u →
        has (p.pgdir.pteAt u) pteU = true ∧ mapped (p.pgdir.pteAt u) = true) ∨
      Refused p.pgdir (va / 4096) len.toNat := by
  have h1 : addU va 1 ≤ va + 1 := Nat.mod_le _ _
  by_cases hk : kernBase + phystop ≤ va
  · refine ⟨fun _ => .inl hk, fun _ => .inr ?_⟩
    unfold sysMencrypt
    rw [if_neg (by omega), if_neg (by omega), if_pos hk]
  have heq := sysMencrypt_eq (m := m) hva hlen (by omega)
  unfold EncryptsAllOrNothing
  rw [heq]
  rcases mencrypt_cases (p.vm m) va len with ⟨h2, -⟩ | ⟨s', h2, he⟩ | ⟨h2, u, hu, ht⟩
  · -- refused by the check
    refine ⟨fun _ => .inr (.inr (mencrypt_refuses.mp ⟨_, h2⟩)), fun _ => .inr ?_⟩
    rw [h2]
    rfl
  · have hno : ¬ Refused p.pgdir (va / 4096) len.toNat := fun hr => by
      obtain ⟨s1, h3⟩ := mencrypt_refuses (s := p.vm m).mpr hr
      rw [h2] at h3
      cases h3
    rw [h2, Lib.ok_bind]
    constructor
    · rintro (⟨m', p', h3, hall⟩ | h3)
      · cases h3
        refine .inr (.inl fun u hu => ?_)
        obtain ⟨hU, hE⟩ := hall u hu
        dsimp only at hU hE
        by_cases hc : has (p.pgdir.pteAt u) pteU = true ∧ has (p.pgdir.pteAt u) pteE = false
        · exact ⟨hc.1, mapped_of_P (he.sealed u hu hc.1 hc.2).1⟩
        · rw [he.same u fun h => hc h.2] at hU hE
          exact ⟨hU, mapped_of_E hE⟩
      · cases h3
    · rintro (h3 | h3 | h3)
      · exact absurd h3 hk
      · refine .inl ⟨_, _, rfl, fun u hu => ?_⟩
        dsimp only
        obtain ⟨hU, -⟩ := h3 u hu
        cases hE : has (p.pgdir.pteAt u) pteE with
        | false =>
          rw [(he.sealed u hu hU hE).2]
          exact ⟨by simp [sealEntry, hU], has_enc_E _⟩
        | true =>
          rw [he.same u fun h => by rw [Proc.vm_pd, hE] at h; cases h.2.2]
          exact ⟨hU, hE⟩
      · exact absurd h3 hno
  · -- a page-table page is missing
    have hno : ¬ Refused p.pgdir (va / 4096) len.toNat := fun hr => by
      obtain ⟨s1, h3⟩ := mencrypt_refuses (s := p.vm m).mpr hr
      rw [h2] at h3
      cases h3
    rw [h2]
    refine ⟨?_, ?_⟩
    · rintro (⟨m', p', h3, -⟩ | h3)
      · cases h3
      · cases h3
    · rintro (h3 | h3 | h3)
      · exact absurd h3 hk
      · have hm := PgDir.tabAt_of_mapped (h3 u hu).2
        rw [Proc.vm_pd] at ht
        rw [ht] at hm
        cases hm
      · exact absurd h3 hno

/-- Two pages of a fresh process. -/
theorem encryptsAllOrNothing_fresh :
    EncryptsAllOrNothing (freshKernel 2).kmem (freshProc 2) 5 2 := by
  refine (encryptsAllOrNothing_iff _ _ 5 2 (by decide) (by decide)).mpr
    (.inr (.inl fun u ⟨i, hi, hu⟩ => ?_))
  have hi' : i = 0 ∨ i = 1 := by
    have : i < 2 := hi
    omega
  rcases hi' with rfl | rfl <;> subst hu <;> decide

/-- **A range that ends beyond the process is encrypted in part**, and the call returns 0. -/
theorem pastTheEnd_succeeds : ∃ m' p',
    sysMencrypt (freshKernel 1).kmem (freshProc 1) 0 2 = .ok (0, m', p') ∧
    has (p'.pgdir.pteAt 1) pteE = false ∧
    ¬ EncryptsAllOrNothing (freshKernel 1).kmem (freshProc 1) 0 2 := by
  have h : Lib.okAnd (sysMencrypt (freshKernel 1).kmem (freshProc 1) 0 2) (fun x =>
      x.1 == 0 && !has (x.2.2.pgdir.pteAt 1) pteE) = true := by decide +kernel
  obtain ⟨⟨r, m', p'⟩, h1, h2⟩ := Lib.okAnd_iff.mp h
  simp only [Bool.and_eq_true, Bool.not_eq_true', beq_iff_eq] at h2
  obtain ⟨rfl, hE⟩ := h2
  refine ⟨m', p', h1, hE, ?_⟩
  unfold EncryptsAllOrNothing
  rw [h1]
  rintro (⟨m2, p2, h3, hall⟩ | h3)
  · cases h3
    have h4 := (hall 1 ⟨1, by decide, rfl⟩).2
    rw [hE] at h4
    cases h4
  · cases h3

end Xv6Clock
