/-
  File:      Xv6Clock/UmallocSize.lean
  Subject:   Requests of any size (`malloc`, `morecore`, umalloc.c; `sbrk`, sysproc.c).

  Three 32-bit numbers come out of `nbytes`: the units, their bytes, and those bytes as the `int`
  that `sbrk` takes. Each has its own limit. Below 2 GB all three are what they stand for; from
  there on the `int` is negative, then zero, and at last the units wrap to one.
-/
import Xv6Clock.UmallocRuns

namespace Xv6Clock.Umalloc

open Lib (cover Within)

/-! ## 1. What `sbrk` is asked for -/

/-- The argument of `sbrk`, for a request of `nu` units. -/
def sbrkArg (nu : Nat) : Int := toI ((if nu < 4096 then 4096 else nu) * 8 : Nat)

section
variable {os : Nat → Option Nat} {s s' : Heap} {n r : Nat}

theorem sbrkArg_nonneg (h : n * 8 < 2 ^ 31) : 0 ≤ sbrkArg n := by
  unfold sbrkArg
  rw [toI_of_bounds (by split <;> omega) (by split <;> omega)]
  exact Int.natCast_nonneg _

theorem sbrkArg_neg (h1 : 2 ^ 28 ≤ n) (h2 : n < 2 ^ 29) : sbrkArg n < 0 := by
  unfold sbrkArg toI
  rw [if_neg (by omega), Int.bmod_def]
  omega

theorem sbrk_asked (os : Nat → Option Nat) (s : Heap) (m : Int) :
    (sbrk os s m).2.asked = m :: s.asked := by
  unfold sbrk
  split
  · rfl
  · split
    · split <;> rfl
    · rfl

theorem free_asked {fuel ap : Nat} (h : free fuel s ap = some s') : s'.asked = s.asked := by
  obtain ⟨p, -, he⟩ := Option.bind_eq_some_iff.mp h
  cases he
  rfl

theorem morecore_asked {fuel : Nat} (h : morecore os fuel s n = some (r, s')) :
    s'.asked = sbrkArg n :: s.asked := by
  have hasked := sbrk_asked os s (sbrkArg n)
  unfold morecore at h
  dsimp only at h
  rw [← sbrkArg] at h
  generalize sbrk os s (sbrkArg n) = x at h hasked
  obtain ⟨_ | p, s1⟩ := x
  · cases h
    exact hasked
  · obtain ⟨s2, hf, he⟩ := Option.bind_eq_some_iff.mp h
    cases he
    exact (free_asked hf).trans hasked

/-- **One `malloc` asks for the same number of bytes each time.** -/
theorem mallocLoop_asked : ∀ {fuel : Nat} {s : Heap} {prevp p : Nat},
    mallocLoop os fuel s n prevp p = some (r, s') →
    ∃ l, s'.asked = l ++ s.asked ∧ ∀ m ∈ l, m = sbrkArg n := by
  intro fuel
  induction fuel with
  | zero =>
    intro s prevp p h
    cases h
  | succ fuel ih =>
    intro s prevp p h
    unfold mallocLoop at h
    split at h
    · unfold carve at h
      split at h <;> cases h <;> exact ⟨[], rfl, fun m hm => by cases hm⟩
    · split at h
      · obtain ⟨⟨q, s1⟩, h1, h2⟩ := Option.bind_eq_some_iff.mp h
        have hone := morecore_asked h1
        dsimp only at h2
        split at h2
        · cases h2
          exact ⟨[sbrkArg n], hone, fun m hm => List.mem_singleton.mp hm⟩
        · obtain ⟨l, hl, hall⟩ := ih h2
          refine ⟨l ++ [sbrkArg n], by rw [hl, hone, List.append_assoc]; rfl, fun m hm => ?_⟩
          rcases List.mem_append.mp hm with hm | hm
          · exact hall m hm
          · exact List.mem_singleton.mp hm
      · exact ih h

end

/-! ## 2. The size of a block -/

/-- **`malloc` returns 0, or `nbytes` bytes that `sbrk` gave**, and never shrinks the heap. -/
def Enough (im : Image) (os : Nat → Option Nat) (s : Heap) (nbytes : Nat) : Prop :=
  ∃ fuel r s', malloc im os fuel s nbytes = some (r, s') ∧
    (∃ l, s'.asked = l ++ s.asked ∧ ∀ n ∈ l, 0 ≤ n) ∧
    (r = 0 ∨ ∀ x, r ≤ x → x < r + nbytes → 1 ≤ cover 8 s'.regions x)

theorem enough_of_sized {im : Image} {s : Heap} {nbytes : Nat} (hs : Shaped im s)
    (h : Sized nbytes) (os : Nat → Option Nat) : Enough im os s nbytes := by
  obtain ⟨L, hok⟩ := hs.initFree
  obtain ⟨hpos, h31, hbytes⟩ := units_eq h
  obtain ⟨r, s', hloop, hm, -⟩ := hok.loop os hpos h31 (Nat.le_refl _)
  obtain ⟨l, hl, hall⟩ := mallocLoop_asked hloop
  have hasked : (initFree im s).asked = s.asked := by
    unfold initFree
    split <;> rfl
  refine ⟨2 * L.length + 2, r, s', hloop, ⟨l, by rw [hl, hasked], fun m hm => ?_⟩, ?_⟩
  · rw [hall m hm]
    exact sbrkArg_nonneg h31
  rcases hm with ⟨rfl, -⟩ | ⟨a, L', rfl, hok'⟩
  · exact Or.inl rfl
  · refine Or.inr fun x h1 h2 => hok'.tiled.own_used (List.mem_cons_self ..) ⟨?_, ?_⟩
    · dsimp only
      omega
    · dsimp only
      omega

/-! ## 3. From 2 GB on -/

/-- The heap of a small program before the first call of `malloc`. -/
def smallHeap : Heap := Heap.start smallImage fun _ => ⟨0, 0⟩

/-- `sbrk` always succeeds, at the end of the page. -/
def grants : Nat → Option Nat := fun _ => some 8192

theorem smallHeap_shaped : Shaped smallImage smallHeap := Or.inl ⟨rfl, rfl, rfl, rfl⟩

theorem malloc_smallHeap (fuel nbytes : Nat) : malloc smallImage grants fuel smallHeap nbytes =
    mallocLoop grants fuel (initFree smallImage smallHeap) (units nbytes) 4096 4096 := rfl

/-- **The bytes of 2 GB and more are a negative `int`**, and the first call of `malloc` comes to
    `morecore` at once. -/
theorem not_enough_negative {nbytes : Nat} (h1 : 2 ^ 28 ≤ units nbytes)
    (h2 : units nbytes < 2 ^ 29) : ¬ Enough smallImage grants smallHeap nbytes := by
  rintro ⟨fuel, r, s', h, ⟨l, hl, hall⟩, -⟩
  have hasked : s'.asked = l := by rw [hl]; exact List.append_nil l
  have hmem : sbrkArg (units nbytes) ∈ l := by
    rw [malloc_smallHeap] at h
    cases fuel with
    | zero => cases h
    | succ fuel =>
      unfold mallocLoop at h
      have hsize : ((initFree smallImage smallHeap).hdr 4096).size = 0 := rfl
      have hfreep : (initFree smallImage smallHeap).freep = 4096 := rfl
      rw [hsize, hfreep, if_neg (by omega), if_pos rfl] at h
      obtain ⟨⟨p, s1⟩, hm, h⟩ := Option.bind_eq_some_iff.mp h
      have hone := morecore_asked hm
      dsimp only at h
      split at h
      · cases h
        rw [← hasked, hone]
        exact List.mem_cons_self ..
      · obtain ⟨l', hl', -⟩ := mallocLoop_asked h
        rw [← hasked, hl', hone]
        exact List.mem_append_right _ (List.mem_cons_self ..)
  exact absurd (hall _ hmem) (Int.not_le.mpr (sbrkArg_neg h1 h2))

/-- No byte of the block was given by `sbrk`. -/
theorem not_enough_of_run {nbytes n r : Nat} {regions : List Block} (hn : units nbytes = n)
    (h0 : 0 < nbytes) (hr0 : r ≠ 0) (hcover : cover 8 regions r = 0)
    (hrun : ∀ fuel, ∃ s, mallocLoop grants (fuel + 2) (initFree smallImage smallHeap) n
      4096 4096 = some (r, s) ∧ s.regions = regions)
    (hshort : mallocLoop grants 1 (initFree smallImage smallHeap) n 4096 4096 = none) :
    ¬ Enough smallImage grants smallHeap nbytes := by
  rintro ⟨fuel, r', s', hm, -, hr⟩
  rw [malloc_smallHeap, hn] at hm
  rcases fuel with _ | _ | fuel
  · cases hm
  · rw [hshort] at hm
    cases hm
  · obtain ⟨s, h1, h2⟩ := hrun fuel
    rw [h1] at hm
    cases hm
    rcases hr with hr | hr
    · exact hr0 hr
    · have hx := hr r (Nat.le_refl r) (by omega)
      rw [h2, hcover] at hx
      cases hx

/-- **Just below 4 GB the bytes wrap to zero**: the block lies behind the end of the heap. -/
theorem not_enough_zero {nbytes : Nat} (h : units nbytes = 2 ^ 29) (h0 : 0 < nbytes) :
    ¬ Enough smallImage grants smallHeap nbytes :=
  not_enough_of_run h h0 (by decide) (show cover 8 [(8192, 0)] 8200 = 0 by decide)
    (fun _ => ⟨_, rfl, rfl⟩) rfl

/-- **The last seven sizes wrap to one unit**, which is the header. -/
theorem not_enough_one {nbytes : Nat} (h : units nbytes = 1) (h0 : 0 < nbytes) :
    ¬ Enough smallImage grants smallHeap nbytes :=
  not_enough_of_run h h0 (by decide) (show cover 8 [(8192, 4096)] 40960 = 0 by decide)
    (fun _ => ⟨_, rfl, rfl⟩) rfl

theorem units_of_not_sized {nbytes : Nat} (h : nbytes < 2 ^ 32) (hs : ¬ Sized nbytes) :
    (2 ^ 28 ≤ units nbytes ∧ units nbytes < 2 ^ 29) ∨ units nbytes = 2 ^ 29 ∨
      units nbytes = 1 := by
  unfold Sized at hs
  unfold units
  omega

/-- **`malloc` never returns a block that is too small: exactly for the requests below 2 GB.** -/
theorem malloc_enough (nbytes : Nat) (h : nbytes < 2 ^ 32) :
    (∀ (im : Image) (s : Heap), Shaped im s → ∀ os, Enough im os s nbytes) ↔ Sized nbytes := by
  refine ⟨fun hall => ?_, fun hs im s hshape os => enough_of_sized hshape hs os⟩
  have hsmall := hall smallImage smallHeap smallHeap_shaped grants
  by_contra hs
  have hpos : 0 < nbytes := by
    unfold Sized at hs
    omega
  rcases units_of_not_sized h hs with ⟨h1, h2⟩ | h1 | h1
  · exact not_enough_negative h1 h2 hsmall
  · exact not_enough_zero h1 hpos hsmall
  · exact not_enough_one h1 hpos hsmall

theorem malloc_enough_hundred : (100 < 2 ^ 32 ∧ Sized 100) ∧
    ∀ (im : Image) (s : Heap), Shaped im s → ∀ os, Enough im os s 100 :=
  ⟨by decide, (malloc_enough 100 (by decide)).mpr (by decide)⟩

/-- The largest request gets a bare header; one of 2 GB shrinks the heap by 2 GB. -/
theorem malloc_too_small : Shaped smallImage smallHeap ∧
    ¬ Enough smallImage grants smallHeap (2 ^ 32 - 1) ∧
    (malloc smallImage grants 2 smallHeap (2 ^ 32 - 1)).map (fun x => x.1) = some 40960 ∧
    (malloc smallImage grants 2 smallHeap (2 ^ 31)).map (fun x => x.2.asked) =
      some [-2147483640] := by
  refine ⟨smallHeap_shaped, not_enough_one (by decide) (by decide), rfl, rfl⟩

end Xv6Clock.Umalloc
