/-
  File:      Xv6Clock/PageFlat.lean
  Subject:   The page table as a flat map from page numbers to entries (vm.c): what `mappages` adds
             to it and what `deallocuvm` takes away.

  `flat` is what a reader of the page table sees through `walkpgdir`. That it behaves as a map, with
  one cell for each page, rests on the page-table pages being distinct frames; the allocator sees to
  that from `setupkvm` on.
-/
import Xv6Clock.PageWords

namespace Xv6Clock.Ram

/-! ## 1. The flat view -/

/-- **The flat view**: the entry `walkpgdir(pgdir, va, 0)` points at for page `v`, and zero where it
    returns null. -/
def flat (r : Ram) (pgdir : Frame) (v : Nat) : Word :=
  match (r.walkpgdir pgdir (v * pgSize) false).1 with
  | some (f, i) => r.word f i
  | none => 0#32

variable {cfg : Config} {r : Ram} {pgdir : Frame}

/-- The flat view reads the directory's entries. -/
theorem flat_eq {v : Nat} (hv : v < 2 ^ 20) : r.flat pgdir v = (r.dir pgdir).pteAt v := by
  have e : vpn (v * pgSize) = v := vpn_page hv
  have e1 : pdx (v * pgSize) = v / 1024 := by rw [← vpn_div, e]
  have e2 : ptx (v * pgSize) = v % 1024 := by rw [← vpn_mod, e]
  unfold flat PgDir.pteAt
  cases hp : has (r.word pgdir (pdx (v * pgSize))) pteP with
  | true =>
    rw [walkpgdir_present hp, ← e1, dir_present (pdx_lt _) hp, e2]
  | false =>
    rw [walkpgdir_null hp, ← e1, dir_absent hp]

/-- Page `u` meets `[va, va + size)`. -/
def Meets (va size u : Nat) : Prop := u * pgSize < va + size ∧ va < (u + 1) * pgSize

instance (va size u : Nat) : Decidable (Meets va size u) := inferInstanceAs (Decidable (_ ∧ _))

/-- The value `mappages` gives the `i`-th page. -/
def entryOf (pa perm : Word) (i : Nat) : Word :=
  (pa + BitVec.ofNat 32 (i * pgSize)) ||| perm ||| (if has perm pteE then pteE else pteP)

theorem mapEntry_eq (pa perm : Word) (i : Nat) :
    mapEntry (pa + 4096#32 * BitVec.ofNat 32 i) perm = entryOf pa perm i := by
  have e : BitVec.ofNat 32 (i * pgSize) = 4096#32 * BitVec.ofNat 32 i := by
    rw [BitVec.mul_comm, BitVec.ofNat_mul]
    rfl
  unfold mapEntry entryOf
  rw [e]
  split <;> rfl

/-- **The walk is well defined on page numbers**: it changes nothing, depends only on the page
    number, and leads different pages to different words, none of them in the directory. -/
structure WellDefined (r : Ram) (pgdir : Frame) : Prop where
  looks : ∀ va, (r.walkpgdir pgdir va false).2 = r
  page : ∀ va va', vpn va = vpn va' →
    r.walkpgdir pgdir va false = r.walkpgdir pgdir va' false
  apart : ∀ va va' p, (r.walkpgdir pgdir va false).1 = some p →
    (r.walkpgdir pgdir va' false).1 = some p → vpn va = vpn va'
  inside : ∀ va p, (r.walkpgdir pgdir va false).1 = some p → p.1 ≠ pgdir

/-- The abstract state that the words show, with nothing in the user's pages. -/
def toVm (r : Ram) (pgdir : Frame) : Vm := ⟨⟨r.freelist, fun _ => fill 0, false⟩, r.dir pgdir⟩

theorem Own.shows (h : Own r pgdir) : Shows r pgdir (r.toVm pgdir) := ⟨rfl, rfl, h.distinct⟩

theorem Own.wellDefined (h : Own r pgdir) : WellDefined r pgdir where
  looks va := by
    rcases h.shows.walk va with ⟨t, -, hw⟩ | ⟨-, hw⟩ <;> rw [hw]
  page va va' he := by
    have e1 : pdx va = pdx va' := by rw [← vpn_div, he, vpn_div]
    have e2 : ptx va = ptx va' := by rw [← vpn_mod, he, vpn_mod]
    unfold walkpgdir
    rw [e1, e2]
  apart va va' p h1 h2 := by
    rcases h.shows.walk va with ⟨t, ht, hw⟩ | ⟨-, hw⟩
    · rw [hw] at h1
      rcases h.shows.walk va' with ⟨t', ht', hw'⟩ | ⟨-, hw'⟩
      · rw [hw', ← h1] at h2
        simp only [Option.some.injEq, Prod.mk.injEq] at h2
        have hd := h.distinct.tab _ _ t' t ht' ht h2.1
        have hv := Nat.div_add_mod (vpn va) 1024
        have hv' := Nat.div_add_mod (vpn va') 1024
        rw [vpn_div, vpn_mod] at hv hv'
        omega
      · rw [hw'] at h2
        cases h2
    · rw [hw] at h1
      cases h1
  inside va p hp := by
    rcases h.shows.walk va with ⟨t, ht, hw⟩ | ⟨-, hw⟩
    · rw [hw] at hp
      cases hp
      exact h.distinct.dir _ t ht
    · rw [hw] at hp
      cases hp

/-! ## 2. `mappages` -/

/-- The flat view after `mappages` mapped the pages of `[va, va + size)` below page `stop`. -/
def MappedBelow (r r' : Ram) (pgdir : Frame) (va size : Nat) (pa perm : Word) (stop : Nat) : Prop :=
  ∀ u < 2 ^ 20, r'.flat pgdir u =
    if Meets va size u ∧ u < stop then entryOf pa perm (u - va / pgSize) else r.flat pgdir u

theorem mappedBelow {s s' : Vm} {r' : Ram} {va k : Nat} {pa perm : Word} (size : Nat)
    (h : Shows r pgdir s) (h' : Shows r' pgdir s') (hk : (va / 4096 + k - 1) * 4096 < va + size)
    (hm : MappedTo s s' (va / 4096) k pa perm) :
    MappedBelow r r' pgdir va size pa perm (va / 4096 + k) := by
  intro u hu
  rw [flat_eq hu, flat_eq hu, ← h.dir, ← h'.dir, hm.pte u, mapEntry_eq]
  have hiff : va / 4096 ≤ u ∧ u < va / 4096 + k ↔ Meets va size u ∧ u < va / 4096 + k := by
    unfold Meets pgSize
    omega
  simp only [hiff, pgSize]

/-- **`setupkvm` builds a page table that owns its frames.** -/
theorem setupkvm_own {r' : Ram} (hn : r.freelist.Nodup)
    (h : r.setupkvm cfg = .ok (some pgdir, r')) : Own r' pgdir := by
  have ha := setupkvm_agree cfg (m := ⟨r.freelist, fun _ => fill 0, false⟩) hn rfl
  rw [h] at ha
  obtain ⟨y, -, hs⟩ := ha.ok_of
  rcases hs.dir with ⟨hc, -⟩ | ⟨p, pd, hp, -, -, ho⟩
  · cases hc
  · cases hp
    exact ho

/-- With 65 free frames `setupkvm` succeeds, and nothing is mapped below KERNBASE. -/
theorem setupkvm_fresh (cfg : Config) (hn : r.freelist.Nodup) (hlen : 65 ≤ r.freelist.length) :
    ∃ pgdir r', r.setupkvm cfg = .ok (some pgdir, r') ∧
      ∀ u < 2 ^ 19, r'.flat pgdir u = 0#32 := by
  obtain ⟨pd, m', hs, hd, -, -⟩ := setupkvm_room cfg
    (m := ⟨r.freelist, fun _ => fill 0, false⟩) hlen
  have ha := setupkvm_agree cfg (m := ⟨r.freelist, fun _ => fill 0, false⟩) hn rfl
  rw [hs] at ha
  obtain ⟨⟨x, r'⟩, hx, hsame⟩ := ha.of_ok
  rcases hsame.dir with ⟨-, hc⟩ | ⟨pgdir, pd', hp, hpd, hsh, -⟩
  · cases hc
  · cases hp
    cases hpd
    refine ⟨pgdir, r', hx, fun u hu => ?_⟩
    have hdir : pd = r'.dir pgdir := hsh.dir
    rw [flat_eq (by omega), ← hdir]
    exact hd.pte u hu

/-- **The two-level page table refines a flat map.** -/
theorem mappages_flat (cfg : Config) :
    (∀ (r r' : Ram) (pgdir : Frame), r.freelist.Nodup →
      r.setupkvm cfg = .ok (some pgdir, r') → Own r' pgdir) ∧
    ∀ (r : Ram) (pgdir : Frame), Own r pgdir → WellDefined r pgdir ∧
      ∀ (va size : Nat) (pa perm : Word), 0 < size → va + size ≤ 2 ^ 32 →
        (∀ u, Meets va size u → mapped (r.flat pgdir u) = false) →
        ∃ r', Own r' pgdir ∧
          ((r.mappages pgdir va size pa perm = .ok (some 0, r') ∧
              ∀ u < 2 ^ 20, r'.flat pgdir u =
                if Meets va size u then entryOf pa perm (u - va / pgSize) else r.flat pgdir u) ∨
            (r.mappages pgdir va size pa perm = .ok (some (-1), r') ∧
              ∃ stop, Meets va size stop ∧ MappedBelow r r' pgdir va size pa perm stop)) := by
  refine ⟨fun r r' pgdir hn h => setupkvm_own hn h, fun r pgdir ho => ⟨ho.wellDefined, ?_⟩⟩
  intro va size pa perm h0 hs hun
  have hsh := ho.shows
  obtain ⟨h1, h2, h3⟩ := mappages_range h0 hs
  have hag := mappages_agree hsh ho h0 hs pa perm
  have hloop := mappages_eq_loop (r.toVm pgdir) h0 hs pa perm
  rw [hloop] at hag
  cases hl : Xv6Clock.mappagesLoop ((va + size - 1) / 4096 - va / 4096) (r.toVm pgdir)
      (va / 4096 * 4096) pa perm with
  | error e =>
    -- a page of the range would already be mapped
    obtain ⟨u, hu1, hu2, hmu⟩ := mappagesLoop_error h3 hl
    have hz := hun u (by unfold Meets pgSize; omega)
    rw [flat_eq (by omega)] at hz
    exact absurd (hz.symm.trans hmu) (by decide)
  | ok p =>
    obtain ⟨ret, s'⟩ := p
    rw [hl] at hag
    obtain ⟨⟨x, r'⟩, hr', hx, hsh', ho'⟩ := hag.of_ok
    cases hx
    refine ⟨r', ho', ?_⟩
    rcases mappagesLoop_ok h3 hl with ⟨rfl, hm⟩ | ⟨rfl, k, hk, hm⟩
    · have hb := mappedBelow size hsh hsh' (by omega) hm
      refine Or.inl ⟨hr', fun u hu => ?_⟩
      rw [hb u hu]
      have hiff : (Meets va size u ∧
          u < va / 4096 + ((va + size - 1) / 4096 - va / 4096 + 1)) ↔ Meets va size u := by
        unfold Meets pgSize
        omega
      simp only [hiff]
    · refine Or.inr ⟨hr', va / 4096 + k, ?_, mappedBelow _ hsh hsh' ?_ hm⟩
      · unfold Meets pgSize
        omega
      · omega

/-- Memory at boot, with the frames `setupkvm` needs and two more. -/
def bootRam : Ram := ⟨(List.range 67).map fun i => BitVec.ofNat 20 (0x200 + i), fun _ _ => 0#32⟩

theorem bootRam_nodup : bootRam.freelist.Nodup := by decide

/-- Two pages from page 1 on. -/
theorem mappages_flat_bootRam : bootRam.freelist.Nodup ∧ ∃ pgdir r,
    bootRam.setupkvm xv6 = .ok (some pgdir, r) ∧ Own r pgdir ∧
    (∀ u, Meets 4096 8192 u → mapped (r.flat pgdir u) = false) ∧
    ∃ r', Own r' pgdir ∧
      ((r.mappages pgdir 4096 8192 0x300000#32 (pteW ||| pteE) = .ok (some 0, r') ∧
          ∀ u < 2 ^ 20, r'.flat pgdir u = if Meets 4096 8192 u then
            entryOf 0x300000#32 (pteW ||| pteE) (u - 4096 / pgSize) else r.flat pgdir u) ∨
        (r.mappages pgdir 4096 8192 0x300000#32 (pteW ||| pteE) = .ok (some (-1), r') ∧
          ∃ stop, Meets 4096 8192 stop ∧
            MappedBelow r r' pgdir 4096 8192 0x300000#32 (pteW ||| pteE) stop)) := by
  obtain ⟨pgdir, r, h, hz⟩ := setupkvm_fresh xv6 bootRam_nodup (by decide)
  have ho := (mappages_flat xv6).1 bootRam r pgdir bootRam_nodup h
  have hun : ∀ u, Meets 4096 8192 u → mapped (r.flat pgdir u) = false := by
    intro u hu
    rw [hz u (by unfold Meets pgSize at hu; omega), mapped_zero]
  exact ⟨bootRam_nodup, pgdir, r, h, ho, hun, ((mappages_flat xv6).2 r pgdir ho).2 4096 8192
    0x300000#32 (pteW ||| pteE) (by decide) (by decide) hun⟩

/-! ## 3. `deallocuvm` -/

/-- Page `u` starts in `[PGROUNDUP(newsz), oldsz)`. -/
def InRange (newsz oldsz u : Nat) : Prop := pgRoundUp newsz ≤ u * pgSize ∧ u * pgSize < oldsz

instance (newsz oldsz u : Nat) : Decidable (InRange newsz oldsz u) :=
  inferInstanceAs (Decidable (_ ∧ _))

theorem inRange_iff {newsz oldsz u : Nat} (h : newsz ≤ 2 ^ 31) :
    InRange newsz oldsz u ↔ pages newsz ≤ u ∧ u < pages oldsz := by
  unfold InRange
  rw [pgRoundUp_pages h]
  unfold pages pgSize
  omega

/-- The frames of the pages in range that have PTE_P or PTE_E, in the order of the pages. -/
def framesInRange (r : Ram) (pgdir : Frame) (newsz oldsz : Nat) : List Frame :=
  ((List.range (2 ^ 20)).filter fun u => InRange newsz oldsz u && mapped (r.flat pgdir u)).map
    fun u => pteFrame (r.flat pgdir u)

theorem range_filter_window (lo hi n : Nat) (hlo : lo ≤ hi) (hhi : hi ≤ n) (p : Nat → Bool) :
    (List.range n).filter (fun u => decide (lo ≤ u ∧ u < hi) && p u) =
      (List.range' lo (hi - lo)).filter p := by
  have e : List.range n =
      List.range' 0 lo ++ (List.range' lo (hi - lo) ++ List.range' hi (n - hi)) := by
    have e1 := List.range'_append_1 (s := lo) (m := hi - lo) (n := n - hi)
    have e2 := List.range'_append_1 (s := 0) (m := lo) (n := hi - lo + (n - hi))
    rw [Nat.add_sub_cancel' hlo] at e1
    rw [Nat.zero_add] at e2
    rw [e1, e2, List.range_eq_range']
    congr 1
    omega
  rw [e, List.filter_append, List.filter_append]
  have h1 : (List.range' 0 lo).filter (fun u => decide (lo ≤ u ∧ u < hi) && p u) = [] := by
    rw [List.filter_eq_nil_iff]
    intro u hu
    have := List.mem_range'_1.mp hu
    simp
    omega
  have h3 : (List.range' hi (n - hi)).filter (fun u => decide (lo ≤ u ∧ u < hi) && p u) = [] := by
    rw [List.filter_eq_nil_iff]
    intro u hu
    have := List.mem_range'_1.mp hu
    simp
    omega
  rw [h1, h3, List.append_nil, List.nil_append]
  refine List.filter_congr fun u hu => ?_
  have := List.mem_range'_1.mp hu
  rw [decide_eq_true (by omega), Bool.true_and]

theorem framesInRange_eq {newsz oldsz : Nat} (h : newsz < oldsz) (hk : oldsz ≤ kernBase) :
    framesInRange r pgdir newsz oldsz = (r.dir pgdir).framesIn (pages newsz) (pages oldsz) := by
  have hk' : oldsz ≤ 2 ^ 31 := hk
  have hwin := range_filter_window (pages newsz) (pages oldsz) (2 ^ 20)
    (by unfold pages; omega) (by unfold pages; omega) fun u => mapped (r.flat pgdir u)
  have hflat : ∀ u ∈ List.range' (pages newsz) (pages oldsz - pages newsz),
      r.flat pgdir u = (r.dir pgdir).pteAt u := by
    intro u hu
    have hu' := List.mem_range'_1.mp hu
    exact flat_eq (by unfold pages at hu'; omega)
  unfold framesInRange PgDir.framesIn
  simp only [inRange_iff (show newsz ≤ 2 ^ 31 by omega)]
  rw [hwin, List.filter_congr fun u hu => congrArg mapped (hflat u hu)]
  exact List.map_congr_left fun u hu => congrArg pteFrame (hflat u (List.mem_of_mem_filter hu))

/-- **`deallocuvm` frees exactly the pages in range**, when their frames are the allocator's and no
    part of the page table. -/
theorem deallocuvm_exact (cfg : Config) (r : Ram) (pgdir : Frame) {newsz oldsz : Nat}
    (h : newsz < oldsz) (hk : oldsz ≤ kernBase) (hd : (r.dir pgdir).Distinct)
    (hm : ∀ u, InRange newsz oldsz u → mapped (r.flat pgdir u) = true →
      managed cfg (pteFrame (r.flat pgdir u)) ∧ (r.dir pgdir).Loose (pteFrame (r.flat pgdir u))) :
    ∃ r', r.deallocuvm cfg pgdir oldsz newsz = .ok (newsz, r') ∧
      (∀ u, InRange newsz oldsz u → mapped (r'.flat pgdir u) = false) ∧
      (∀ u < 2 ^ 20, r'.flat pgdir u =
        if InRange newsz oldsz u ∧ mapped (r.flat pgdir u) = true then 0#32
        else r.flat pgdir u) ∧
      r'.freelist = (framesInRange r pgdir newsz oldsz).reverse ++ r.freelist := by
  have hk' : oldsz ≤ 2 ^ 31 := hk
  have hin : ∀ u, InRange newsz oldsz u ↔ pages newsz ≤ u ∧ u < pages oldsz :=
    fun u => inRange_iff (by omega)
  have h20 : ∀ u, u < pages oldsz → u < 2 ^ 20 := fun u hu => by unfold pages at hu; omega
  have hsh : Shows r pgdir (r.toVm pgdir) := ⟨rfl, rfl, hd⟩
  have hm' : ∀ u, pages newsz ≤ u → u < pages oldsz → mapped ((r.dir pgdir).pteAt u) = true →
      managed cfg (pteFrame ((r.dir pgdir).pteAt u)) ∧
        (r.dir pgdir).Loose (pteFrame ((r.dir pgdir).pteAt u)) := by
    intro u h1 h2 h3
    rw [← flat_eq (h20 u h2)] at h3 ⊢
    exact hm u ((hin u).mpr ⟨h1, h2⟩) h3
  have hag := deallocuvmLoop_agree cfg hk (n := (oldsz - pages newsz * 4096) / pgSize + 1) hsh
    fun u h1 h2 h3 => (hm' u h1 h2 h3).2
  have hfree := deallocuvm_freeing cfg hk (r.toVm pgdir) newsz
  cases hl : Xv6Clock.deallocuvmLoop cfg ((oldsz - pages newsz * 4096) / pgSize + 1)
      (r.toVm pgdir) (pages newsz * 4096) oldsz with
  | error e =>
    rw [hl] at hfree
    obtain ⟨u, h1, h2, h3, h4⟩ := hfree.error
    exact absurd (hm' u h1 h2 h3).1 h4
  | ok s' =>
    rw [hl] at hag hfree
    obtain ⟨r', hr', hsh', -⟩ := hag.of_ok
    have hun := hfree.unmapped hk
    have hpte : ∀ u < 2 ^ 20, r'.flat pgdir u =
        if InRange newsz oldsz u ∧ mapped (r.flat pgdir u) = true then 0#32
        else r.flat pgdir u := by
      intro u hu
      rw [flat_eq hu, flat_eq hu, ← hsh'.dir, hun.pte u]
      simp only [hin u, and_assoc]
      rfl
    refine ⟨r', ?_, fun u hu => ?_, hpte, ?_⟩
    · unfold deallocuvm
      rw [if_neg (by omega), pgRoundUp_pages (by omega)]
      simp only [hr', Lib.ok_bind]
    · rw [hpte u (h20 u ((hin u).mp hu).2)]
      split
      · exact mapped_zero
      · rename_i hc
        simpa [hu] using hc
    · rw [← hsh'.free, hfree.freelist, framesInRange_eq h hk]
      rfl

/-- Page directory 0x200 with one page-table page 0x201, whose first two entries are `a` and `b`. -/
def twoPages (a b : Word) : Ram where
  freelist := []
  word f i :=
    if f = 0x200#20 ∧ i = 0 then 0x201007#32
    else if f = 0x201#20 ∧ i = 0 then a
    else if f = 0x201#20 ∧ i = 1 then b
    else 0#32

theorem twoPages_tab {a b : Word} {d : Nat} {t : PgTab}
    (h : ((twoPages a b).dir 0x200#20).pde d = some t) : d = 0 ∧ t.frame = 0x201#20 := by
  obtain ⟨-, h1, h2, -⟩ := dir_some h
  by_cases hd : d = 0
  · subst hd
    have hw : (twoPages a b).word 0x200#20 0 = 0x201007#32 := by simp [twoPages]
    rw [hw] at h2
    exact ⟨rfl, h2.trans (by decide)⟩
  · have hz : (twoPages a b).word 0x200#20 d = 0#32 := by simp [twoPages, hd]
    rw [hz, has_zero] at h1
    cases h1

theorem twoPages_distinct (a b : Word) : ((twoPages a b).dir 0x200#20).Distinct where
  dir d t ht := by
    rw [(twoPages_tab ht).2]
    exact (by decide : (0x201#20 : Frame) ≠ 0x200#20)
  tab d e t u ht hu _ := (twoPages_tab ht).1.trans (twoPages_tab hu).1.symm

theorem deallocuvm_exact_twoPages : ∃ r',
    (twoPages 0x202007#32 0x203404#32).deallocuvm xv6 0x200#20 8192 0 = .ok (0, r') ∧
    (∀ u, InRange 0 8192 u → mapped (r'.flat 0x200#20 u) = false) ∧
    (∀ u < 2 ^ 20, r'.flat 0x200#20 u =
      if InRange 0 8192 u ∧
        mapped ((twoPages 0x202007#32 0x203404#32).flat 0x200#20 u) = true then 0#32
      else (twoPages 0x202007#32 0x203404#32).flat 0x200#20 u) ∧
    r'.freelist = (framesInRange (twoPages 0x202007#32 0x203404#32) 0x200#20 0 8192).reverse ++
      (twoPages 0x202007#32 0x203404#32).freelist := by
  refine deallocuvm_exact xv6 _ _ (by decide) (by decide) (twoPages_distinct _ _) fun u hu _ => ?_
  have hloose : ∀ f : Frame, f ≠ 0x200#20 → f ≠ 0x201#20 →
      ((twoPages 0x202007#32 0x203404#32).dir 0x200#20).Loose f :=
    fun f h1 h2 => ⟨h1, fun d t ht hc => h2 (hc ▸ (twoPages_tab ht).2)⟩
  rw [inRange_iff (by decide)] at hu
  have hu2 : u < 2 := hu.2
  rcases (by omega : u = 0 ∨ u = 1) with rfl | rfl
  · exact ⟨by decide, hloose _ (by decide) (by decide)⟩
  · exact ⟨by decide, hloose _ (by decide) (by decide)⟩

/-- A frame address that is not zero is not yet the allocator's: `kfree` panics on a frame below
    `end`. -/
theorem deallocuvm_below_end : (twoPages 0x1007#32 0#32).flat 0x200#20 0 = 0x1007#32 ∧
    pteFrame 0x1007#32 ≠ 0 ∧
    ((twoPages 0x1007#32 0#32).dir 0x200#20).Distinct ∧
    (twoPages 0x1007#32 0#32).deallocuvm xv6 0x200#20 4096 0 = .error (.panic .kfree) :=
  ⟨by decide, by decide, twoPages_distinct _ _, rfl⟩

/-- The first two directory entries with one page-table page, whose first entry is a page. -/
def sharedTab : Ram where
  freelist := []
  word f i :=
    if f = 0x200#20 ∧ i < 2 then 0x201007#32
    else if f = 0x201#20 ∧ i = 0 then 0x202007#32
    else 0#32

/-- A page-table page that serves twice: page 1024 is not in range and loses its entry with
    page 0. -/
theorem deallocuvm_sharedTab : ¬ (sharedTab.dir 0x200#20).Distinct ∧
    managed xv6 (pteFrame (sharedTab.flat 0x200#20 0)) ∧
    sharedTab.flat 0x200#20 1024 = 0x202007#32 ∧ ¬ InRange 0 4096 1024 ∧
    ∃ r', sharedTab.deallocuvm xv6 0x200#20 4096 0 = .ok (0, r') ∧
      r'.flat 0x200#20 1024 = 0#32 :=
  ⟨fun h => absurd (h.tab 0 1 _ _ rfl rfl rfl) (by decide), by decide, by decide, by decide, _, rfl,
    by decide⟩

/-- A page whose frame is the page-table page: freeing it fills the table with junk, and page 1
    frees the frame the junk names. -/
theorem deallocuvm_ownTab :
    ¬ ((twoPages 0x201007#32 0x203007#32).dir 0x200#20).Loose 0x201#20 ∧
    ((twoPages 0x201007#32 0x203007#32).dir 0x200#20).Distinct ∧
    (twoPages 0x201007#32 0x203007#32).flat 0x200#20 1 = 0x203007#32 ∧
    ∃ r', (twoPages 0x201007#32 0x203007#32).deallocuvm xv6 0x200#20 8192 0 = .ok (0, r') ∧
      r'.freelist = [0x1010#20, 0x201#20] :=
  ⟨fun h => h.tab 0 _ rfl rfl, twoPages_distinct _ _, by decide, _, rfl, rfl⟩

end Xv6Clock.Ram
