/-
  File:      Xv6Clock/Logical.lean
  Subject:   The logical content of a page: its bytes, complemented if PTE_E is set.

  The small steps of `mencrypt` and `mdecrypt` change bytes and PTE_E together, so they keep the
  logical content of the page they work on. They keep that of every other page as well if no two
  pages have one frame.
-/
import Xv6Clock.Crypt

namespace Xv6Clock

/-! ## 1. Frames -/

/-- Two pages of one page table have different frames, if no frame is used twice. -/
theorem PgDir.frame_ne {pd : PgDir} (hone : ∀ f, pd.holds f ≤ 1) {u v : Nat} (hu : u < 2 ^ 19)
    (hv : v < 2 ^ 19) (hmu : mapped (pd.pteAt u) = true) (hmv : mapped (pd.pteAt v) = true)
    (h : u ≠ v) : pteFrame (pd.pteAt u) ≠ pteFrame (pd.pteAt v) := by
  intro he
  -- without page `v` the frame would not be used at all, but page `u` uses it
  have h1 := PgDir.holds_store 0#32 (PgDir.tabAt_of_mapped hmv) (by omega)
    (pteFrame (pd.pteAt v))
  have h2 : mapped ((pd.store v 0#32).pteAt u) = true := by
    rw [PgDir.pteAt_store_ne _ _ h]
    exact hmu
  have h3 := PgDir.one_le_holds h2 hu
  rw [PgDir.pteAt_store_ne _ _ h, he] at h3
  have h4 := hone (pteFrame (pd.pteAt v))
  simp only [userHolds, hv, if_true, pteHolds, hmv, one_self, mapped_zero, Bool.false_eq_true,
    if_false, Nat.add_zero] at h1
  omega

/-! ## 2. Logical content -/

/-- What user code reads in page `u`. -/
def Vm.logical (s : Vm) (u : Nat) : Page :=
  if has (s.pd.pteAt u) pteE then xorPage (s.m.mem (pteFrame (s.pd.pteAt u)))
  else s.m.mem (pteFrame (s.pd.pteAt u))

theorem Vm.logical_enc {s : Vm} {u : Nat} (h : has (s.pd.pteAt u) pteE = true) :
    s.logical u = xorPage (s.m.mem (pteFrame (s.pd.pteAt u))) := if_pos h

theorem Vm.logical_plain {s : Vm} {u : Nat} (h : has (s.pd.pteAt u) pteE = false) :
    s.logical u = s.m.mem (pteFrame (s.pd.pteAt u)) := if_neg (by rw [h]; decide)

/-- An entry with the same frame and PTE_E over the same bytes. -/
theorem Vm.logical_congr {s s' : Vm} {u : Nat}
    (hf : pteFrame (s'.pd.pteAt u) = pteFrame (s.pd.pteAt u))
    (hE : has (s'.pd.pteAt u) pteE = has (s.pd.pteAt u) pteE)
    (hm : s'.m.mem (pteFrame (s.pd.pteAt u)) = s.m.mem (pteFrame (s.pd.pteAt u))) :
    s'.logical u = s.logical u := by
  unfold Vm.logical
  rw [hf, hE, hm]

section Flip
variable {s : Vm} {u v : Nat}

theorem flip_logical_self {w : Word} (ht : s.pd.tabAt v = true)
    (hf : pteFrame w = pteFrame (s.pd.pteAt v)) (hE : has w pteE = !has (s.pd.pteAt v) pteE) :
    (s.flip v w).logical v = s.logical v := by
  have hp : (s.flip v w).pd.pteAt v = w := PgDir.pteAt_store_self w ht
  unfold Vm.logical
  rw [hp, hf, Vm.flip_mem_self, hE]
  cases has (s.pd.pteAt v) pteE with
  | true => rfl
  | false => exact xorPage_xorPage _

theorem flip_logical_ne (w : Word) (h : u ≠ v)
    (hf : pteFrame (s.pd.pteAt u) ≠ pteFrame (s.pd.pteAt v)) :
    (s.flip v w).logical u = s.logical u := by
  have hp : (s.flip v w).pd.pteAt u = s.pd.pteAt u := PgDir.pteAt_store_ne _ w h
  exact Vm.logical_congr (by rw [hp]) (by rw [hp]) (Vm.flip_mem_ne s w hf)

/-- An entry rewritten with its frame and PTE_E. -/
theorem mark_logical {w : Word} (ht : s.pd.tabAt v = true)
    (hf : pteFrame w = pteFrame (s.pd.pteAt v)) (hE : has w pteE = has (s.pd.pteAt v) pteE) :
    (s.mark v w).logical u = s.logical u := by
  have hp : (s.mark v w).pd.pteAt u = if u = v then w else s.pd.pteAt u :=
    PgDir.pteAt_store w u ht
  by_cases h : u = v
  · rw [if_pos h] at hp
    subst h
    exact Vm.logical_congr (by rw [hp, hf]) (by rw [hp, hE]) rfl
  · rw [if_neg h] at hp
    exact Vm.logical_congr (by rw [hp]) (by rw [hp]) rfl

end Flip

/-- **A small step keeps the logical content of every page.** -/
theorem Flip.logical {s s' : Vm} (h : Flip s s') (hone : ∀ f, s.pd.holds f ≤ 1) {u : Nat}
    (hu : u < 2 ^ 19) (hm : mapped (s.pd.pteAt u) = true) : s'.logical u = s.logical u := by
  cases h with
  | ref _ hmv => exact mark_logical (PgDir.tabAt_of_mapped hmv) (pteFrame_setRef _) (has_setRef_E _)
  | unref _ ht => exact mark_logical ht (pteFrame_clearRef _) (has_clearRef_E _)
  | @enc v hv hU hP hE =>
    by_cases huv : u = v
    · subst huv
      exact flip_logical_self (PgDir.tabAt_of_mapped hm) (pteFrame_enc _)
        (by rw [has_enc_E, hE]; rfl)
    · exact flip_logical_ne _ huv (PgDir.frame_ne hone hu hv hm (mapped_of_P hP) huv)
  | @dec v hv hU hE =>
    by_cases huv : u = v
    · subst huv
      exact flip_logical_self (PgDir.tabAt_of_mapped hm) (pteFrame_dec _)
        (by rw [has_dec_E, hE]; rfl)
    · exact flip_logical_ne _ huv (PgDir.frame_ne hone hu hv hm (mapped_of_E hE) huv)

/-- **So does every sequence of them.** -/
theorem Flips.logical {s s' : Vm} (h : Flips s s') (hone : ∀ f, s.pd.holds f ≤ 1) {u : Nat}
    (hu : u < 2 ^ 19) (hm : mapped (s.pd.pteAt u) = true) : s'.logical u = s.logical u := by
  induction h with
  | refl => rfl
  | @tail s1 s2 h1 h2 ih =>
    have hr := Flips.recoded h1
    rw [h2.logical (fun f => by rw [hr.holds]; exact hone f) hu
      (by rw [(hr.entry u).map]; exact hm), ih]

end Xv6Clock
