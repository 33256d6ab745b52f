/-
  File:      Xv6Clock/PageWords.lean
  Subject:   The page table as the processor sees it: words in frames (vm.c).

  PageTable.lean gives every directory entry a page-table page of its own. Here the same functions
  work on physical memory: a page directory is the frame its address names, a page-table page is
  whatever frame the directory word points at, and nothing but the allocator keeps two of them
  apart.

  * `Ram.dir` -- the page directory that the words of a frame spell out;
  * `PgDir.Distinct` -- no page-table page serves twice, and none is the directory;
  * `Ram.Own` -- and none of them is on the free list;
  * `setupkvm_agree`, `mappages_agree`, `deallocuvm_agree`, `freevm_agree` -- the functions on words
    refine those of PageTable.lean, Uvm.lean and Setupkvm.lean.

  The list of free frames is kept beside the memory, not threaded through the frames themselves:
  nothing reads a free frame.
-/
import Xv6Clock.Room
import Xv6Clock.Lib.Refine

namespace Xv6Clock

/-- Physical memory by frames of 1024 words, and the free frames. -/
structure Ram where
  freelist : List Frame
  word : Frame → Nat → Word

namespace Ram

variable (cfg : Config)

/-! ## 1. The functions on words -/

/-- `*p = w`, for word `i` of frame `f`. -/
def store (r : Ram) (f : Frame) (i : Nat) (w : Word) : Ram :=
  { r with word := Function.update r.word f (Function.update (r.word f) i w) }

/-- `memset(v, c, PGSIZE)`, with `w` four times the byte `c`. -/
def memset (r : Ram) (f : Frame) (w : Word) : Ram :=
  { r with word := Function.update r.word f fun _ => w }

/-- `kalloc`. -/
def kalloc (r : Ram) : Option (Frame × Ram) :=
  match r.freelist with
  | [] => none
  | f :: fl => some (f, { r with freelist := fl })

/-- `kfree`: the address check, the junk fill, the push. -/
def kfree (r : Ram) (f : Frame) : Except Err Ram :=
  if f.toNat < cfg.endPage ∨ phystop / pgSize ≤ f.toNat then .error (.panic .kfree)
  else .ok { r.memset f 0x01010101#32 with freelist := f :: r.freelist }

/-- `walkpgdir`: a pointer to an entry is a frame and an index into it. -/
def walkpgdir (r : Ram) (pgdir : Frame) (va : Nat) (alloc : Bool) : Option (Frame × Nat) × Ram :=
  let pde := r.word pgdir (pdx va)
  if has pde pteP then (some (pteFrame pde, ptx va), r)
  else if !alloc then (none, r) else
    match r.kalloc with
    | none => (none, r)
    | some (pgtab, r) =>
      let r := r.memset pgtab 0#32
      let r := r.store pgdir (pdx va) (frameAddr pgtab ||| pteP ||| pteW ||| pteU)
      (some (pgtab, ptx va), r)

/-- One round of the loop of `mappages`; `false` when the walk finds no page-table page. -/
def mapPage (r : Ram) (pgdir : Frame) (a : Nat) (pa perm : Word) : Except Err (Bool × Ram) :=
  match r.walkpgdir pgdir a true with
  | (none, r) => .ok (false, r)
  | (some (f, i), r) =>
    if mapped (r.word f i) then .error (.panic .remap)
    else .ok (true, r.store f i (mapEntry pa perm))

/-- The loop of `mappages`, followed for at most `n` rounds: `none` when it has not ended then. -/
def mappagesLoop : Nat → Ram → Frame → Nat → Nat → Word → Word → Except Err (Option Int × Ram)
  | 0, r, _, _, _, _, _ => .ok (none, r)
  | n + 1, r, pgdir, a, last, pa, perm => do
    let (found, r) ← r.mapPage pgdir a pa perm
    if !found then .ok (some (-1), r) else
    if a = last then .ok (some 0, r)
    else mappagesLoop n r pgdir (addU a pgSize) last (pa + 4096#32) perm

/-- `mappages`. After 2^20 rounds `a` has been at every page of the address space. -/
def mappages (r : Ram) (pgdir : Frame) (va size : Nat) (pa perm : Word) :
    Except Err (Option Int × Ram) :=
  mappagesLoop (2 ^ 20) r pgdir (pgRoundDown va)
    (pgRoundDown ((va + size + (2 ^ 32 - 1)) % 2 ^ 32)) pa perm

/-- The loop of `deallocuvm`, bounded by the number of pages left. -/
def deallocuvmLoop : Nat → Ram → Frame → Nat → Nat → Except Err Ram
  | 0, r, _, _, _ => .ok r
  | n + 1, r, pgdir, a, oldsz =>
    if oldsz ≤ a then .ok r else
    match r.walkpgdir pgdir a false with
    | (none, r) =>
      let a := (pgAddr (pdx a + 1) 0 0 + (2 ^ 32 - pgSize)) % 2 ^ 32
      deallocuvmLoop n r pgdir (addU a pgSize) oldsz
    | (some (f, i), r) =>
      if mapped (r.word f i) then do
        let pa := pteFrame (r.word f i)
        if pa = 0 then .error (.panic .kfree) else
        let r ← r.kfree cfg pa
        deallocuvmLoop n (r.store f i 0#32) pgdir (addU a pgSize) oldsz
      else deallocuvmLoop n r pgdir (addU a pgSize) oldsz

/-- `deallocuvm`. -/
def deallocuvm (r : Ram) (pgdir : Frame) (oldsz newsz : Nat) : Except Err (Nat × Ram) :=
  if oldsz ≤ newsz then .ok (oldsz, r) else do
  let a := pgRoundUp newsz
  let r ← deallocuvmLoop cfg ((oldsz - a) / pgSize + 1) r pgdir a oldsz
  .ok (newsz, r)

/-- The loop of `freevm` over the directory entries from `i` on. -/
def freevmLoop : Nat → Ram → Frame → Nat → Except Err Ram
  | 0, r, _, _ => .ok r
  | n + 1, r, pgdir, i =>
    if mapped (r.word pgdir i) then do
      let r ← r.kfree cfg (pteFrame (r.word pgdir i))
      freevmLoop n r pgdir (i + 1)
    else freevmLoop n r pgdir (i + 1)

/-- `freevm`. -/
def freevm (r : Ram) (pgdir : Frame) : Except Err Ram := do
  let (_, r) ← r.deallocuvm cfg pgdir kernBase 0
  let r ← freevmLoop cfg npdEntries r pgdir 0
  r.kfree cfg pgdir

/-- The loop of `setupkvm`; `false` when a `mappages` fails. -/
def kmapLoop : List Kmap → Ram → Frame → Except Err (Bool × Ram)
  | [], r, _ => .ok (true, r)
  | k :: ks, r, pgdir => do
    let (ret, r) ← r.mappages pgdir k.virt ((k.physEnd + (2 ^ 32 - k.physStart)) % 2 ^ 32)
      (BitVec.ofNat 32 k.physStart) k.perm
    if ret.getD (-1) < 0 then .ok (false, r) else kmapLoop ks r pgdir

/-- `setupkvm`. -/
def setupkvm (r : Ram) : Except Err (Option Frame × Ram) :=
  match r.kalloc with
  | none => .ok (none, r)
  | some (pgdir, r) =>
    let r := r.memset pgdir 0#32
    if devSpace < kernBase + phystop then .error (.panic .phystopTooHigh) else do
    let (done, r) ← kmapLoop (kmap cfg) r pgdir
    if done then .ok (some pgdir, r) else do
    let r ← r.freevm cfg pgdir
    .ok (none, r)

/-! ## 2. The page directory in the words -/

/-- The page directory that frame `pgdir` spells out. -/
def dir (r : Ram) (pgdir : Frame) : PgDir where
  frame := pgdir
  pde d :=
    if d < npdEntries ∧ has (r.word pgdir d) pteP = true then
      some ⟨pteFrame (r.word pgdir d), r.word (pteFrame (r.word pgdir d))⟩
    else none

end Ram

/-- **No page-table page serves twice**, and none is the directory. -/
structure PgDir.Distinct (pd : PgDir) : Prop where
  dir : ∀ d t, pd.pde d = some t → t.frame ≠ pd.frame
  tab : ∀ d e t u, pd.pde d = some t → pd.pde e = some u → t.frame = u.frame → d = e

/-- The frame is neither the directory nor one of its page-table pages. -/
structure PgDir.Loose (pd : PgDir) (f : Frame) : Prop where
  dir : f ≠ pd.frame
  tab : ∀ d t, pd.pde d = some t → t.frame ≠ f

variable {pd : PgDir} {v d va n size : Nat} {t : PgTab} {f : Frame}

theorem PgDir.store_some (h : pd.pde (v / 1024) = some t) (w : Word) : pd.store v w =
      pd.setTab (v / 1024) ⟨t.frame, Function.update t.pte (v % 1024) w⟩ := by
  unfold PgDir.store
  rw [h]

/-- A store leaves the frames of the page-table pages alone. -/
theorem PgDir.store_tab {w : Word} (h : (pd.store v w).pde d = some t) :
    ∃ t', pd.pde d = some t' ∧ t'.frame = t.frame := by
  cases hv : pd.pde (v / 1024) with
  | none =>
    have e : pd.store v w = pd := by simp [PgDir.store, hv]
    rw [e] at h
    exact ⟨t, h, rfl⟩
  | some u =>
    rw [PgDir.store_some hv, PgDir.setTab_pde] at h
    split at h
    · rename_i hd
      cases h
      exact ⟨u, hd ▸ hv, rfl⟩
    · exact ⟨t, h, rfl⟩

theorem PgDir.Distinct.store (h : pd.Distinct) (v : Nat) (w : Word) : (pd.store v w).Distinct where
  dir d t ht := by
    obtain ⟨t', ht', hf⟩ := PgDir.store_tab ht
    rw [PgDir.store_frame, ← hf]
    exact h.dir d t' ht'
  tab d e t u ht hu hf := by
    obtain ⟨t', ht', hft⟩ := PgDir.store_tab ht
    obtain ⟨u', hu', hfu⟩ := PgDir.store_tab hu
    exact h.tab d e t' u' ht' hu' (by rw [hft, hfu, hf])

theorem PgDir.Loose.store (h : pd.Loose f) (v : Nat) (w : Word) : (pd.store v w).Loose f where
  dir := by
    rw [PgDir.store_frame]
    exact h.dir
  tab d t ht := by
    obtain ⟨t', ht', hf⟩ := PgDir.store_tab ht
    rw [← hf]
    exact h.tab d t' ht'

theorem PgDir.addTab_pde (pd : PgDir) (d : Nat) (f : Frame) (e : Nat) :
    (pd.addTab d f).pde e = if e = d then some ⟨f, fun _ => 0#32⟩ else pd.pde e :=
  PgDir.setTab_pde pd d _ e

/-- A frame from outside the page table makes a page-table page of its own. -/
theorem PgDir.Distinct.addTab (h : pd.Distinct) (hf : pd.Loose f) (d : Nat) :
    (pd.addTab d f).Distinct where
  dir e t ht := by
    rw [PgDir.addTab_pde] at ht
    split at ht
    · cases ht
      exact hf.dir
    · exact h.dir e t ht
  tab e e' t u ht hu heq := by
    rw [PgDir.addTab_pde] at ht hu
    split at ht
    · cases ht
      split at hu
      · rename_i h1 h2
        exact h1.trans h2.symm
      · exact absurd heq.symm (hf.tab e' u hu)
    · split at hu
      · cases hu
        exact absurd heq (hf.tab e t ht)
      · exact h.tab e e' t u ht hu heq

namespace Ram

variable (cfg : Config) {r : Ram} {pgdir : Frame}

theorem dir_some (h : (r.dir pgdir).pde d = some t) :
    d < 1024 ∧ has (r.word pgdir d) pteP = true ∧ t.frame = pteFrame (r.word pgdir d) ∧
      t.pte = r.word t.frame := by
  simp only [dir] at h
  split at h
  · rename_i hd
    cases h
    exact ⟨hd.1, hd.2, rfl, rfl⟩
  · cases h

theorem dir_present (hd : d < 1024) (h : has (r.word pgdir d) pteP = true) :
    (r.dir pgdir).pde d =
      some ⟨pteFrame (r.word pgdir d), r.word (pteFrame (r.word pgdir d))⟩ := if_pos ⟨hd, h⟩

theorem dir_absent (h : has (r.word pgdir d) pteP = false) :
    (r.dir pgdir).pde d = none := if_neg fun hc => by rw [h] at hc; cases hc.2

/-- The directory is read from its own frame and its page-table pages only. -/
theorem dir_congr {r' : Ram} (h : r'.word pgdir = r.word pgdir)
    (ht : ∀ d t, (r.dir pgdir).pde d = some t → r'.word t.frame = r.word t.frame) :
    r'.dir pgdir = r.dir pgdir := by
  refine congrArg (PgDir.mk pgdir) (funext fun d => ?_)
  rw [h]
  by_cases hd : d < npdEntries ∧ has (r.word pgdir d) pteP = true
  · rw [if_pos hd, if_pos hd, ht d _ (dir_present hd.1 hd.2)]
  · rw [if_neg hd, if_neg hd]

/-- **Storing into a page-table page** stores one entry: no other page-table page is that frame. -/
theorem dir_store (hd : (r.dir pgdir).Distinct) (ht : (r.dir pgdir).pde (v / 1024) = some t)
    (w : Word) : (r.store t.frame (v % 1024) w).dir pgdir = (r.dir pgdir).store v w := by
  have hne : pgdir ≠ t.frame := (hd.dir _ t ht).symm
  have hword : (r.store t.frame (v % 1024) w).word pgdir = r.word pgdir :=
    Function.update_of_ne hne _ _
  rw [PgDir.store_some ht]
  refine congrArg (PgDir.mk pgdir) (funext fun e => ?_)
  rw [hword]
  by_cases he : e < npdEntries ∧ has (r.word pgdir e) pteP = true
  · rw [if_pos he]
    have hu := dir_present he.1 he.2
    obtain ⟨-, -, hf, hp⟩ := dir_some ht
    by_cases hev : e = v / 1024
    · rw [hev, Function.update_self, ← hf, hp]
      congr 2
      exact Function.update_self ..
    · rw [Function.update_of_ne hev, hu]
      congr 2
      exact Function.update_of_ne (fun hc => hev (hd.tab _ _ _ t hu ht hc)) _ _
  · rw [if_neg he]
    have hn : (r.dir pgdir).pde e = none := if_neg he
    rw [Function.update_of_ne (fun hc => by rw [hc, ht] at hn; cases hn), hn]

/-- **A fresh page-table page**: the directory word now names a zeroed frame. -/
theorem dir_addTab (hdist : (r.dir pgdir).Distinct) (hf : (r.dir pgdir).Loose f) (hd : d < 1024) :
    ((r.memset f 0#32).store pgdir d (frameAddr f ||| pteP ||| pteW ||| pteU)).dir pgdir =
      (r.dir pgdir).addTab d f := by
  have hne : pgdir ≠ f := fun h => hf.dir h.symm
  have hz : ((r.memset f 0#32).store pgdir d (frameAddr f ||| pteP ||| pteW ||| pteU)).word f =
      fun _ => 0#32 := by
    simp [memset, store, hne.symm]
  have hw : ((r.memset f 0#32).store pgdir d (frameAddr f ||| pteP ||| pteW ||| pteU)).word pgdir =
      Function.update (r.word pgdir) d (frameAddr f ||| pteP ||| pteW ||| pteU) := by
    simp [memset, store, hne]
  have hother : ∀ g, g ≠ f → g ≠ pgdir →
      ((r.memset f 0#32).store pgdir d (frameAddr f ||| pteP ||| pteW ||| pteU)).word g =
        r.word g := by
    intro g h1 h2
    simp [memset, store, h1, h2]
  have hfr : pteFrame (frameAddr f ||| pteP ||| pteW ||| pteU) = f := by
    rw [pteFrame_or _ (by decide), pteFrame_or _ (by decide), pteFrame_or _ (by decide),
      pteFrame_frameAddr]
  have hP : has (frameAddr f ||| pteP ||| pteW ||| pteU) pteP = true := by
    rw [has_or, has_or, has_or]
    simp [show has pteP pteP = true by decide]
  refine congrArg (PgDir.mk pgdir) (funext fun e => ?_)
  rw [hw]
  by_cases he : e = d
  · rw [he, Function.update_self, Function.update_self, if_pos ⟨hd, hP⟩, hfr, hz]
  · rw [Function.update_of_ne he, Function.update_of_ne he]
    by_cases hp : e < npdEntries ∧ has (r.word pgdir e) pteP = true
    · have hu := dir_present hp.1 hp.2
      rw [if_pos hp, hu]
      congr 2
      exact hother _ (hf.tab e _ hu) (hdist.dir e _ hu)
    · rw [if_neg hp]
      exact (if_neg hp).symm

/-! ## 3. Two levels -/

/-- **The words of `r` show the state `s`.** -/
structure Shows (r : Ram) (pgdir : Frame) (s : Vm) : Prop where
  free : s.m.freelist = r.freelist
  dir : s.pd = r.dir pgdir
  distinct : s.pd.Distinct

/-- **The page table owns its frames**: they are distinct, and no free frame is one of them. The
    last field says that a directory word has no flag without PTE_P. -/
structure Own (r : Ram) (pgdir : Frame) : Prop where
  distinct : (r.dir pgdir).Distinct
  nodup : r.freelist.Nodup
  loose : ∀ f ∈ r.freelist, (r.dir pgdir).Loose f
  flags : ∀ d, mapped (r.word pgdir d) = true → has (r.word pgdir d) pteP = true

variable {s : Vm}

/-- The entry of a page is the word its pointer points at. -/
theorem Shows.word (h : Shows r pgdir s) (ht : s.pd.pde (v / 1024) = some t) :
    r.word t.frame (v % 1024) = s.pd.pteAt v := by
  unfold PgDir.pteAt
  rw [ht]
  rw [h.dir] at ht
  exact (congrFun (dir_some ht).2.2.2 _).symm

theorem Shows.store (h : Shows r pgdir s) (ht : s.pd.pde (v / 1024) = some t) (w : Word) :
    Shows (r.store t.frame (v % 1024) w) pgdir ⟨s.m, s.pd.store v w⟩ where
  free := h.free
  dir := by
    have hd := h.distinct
    rw [h.dir] at ht hd
    rw [dir_store hd ht w, h.dir]
  distinct := h.distinct.store v w

theorem Own.store (h : Own r pgdir) (ht : (r.dir pgdir).pde (v / 1024) = some t) (w : Word) :
    Own (r.store t.frame (v % 1024) w) pgdir where
  distinct := by
    rw [dir_store h.distinct ht w]
    exact h.distinct.store v w
  nodup := h.nodup
  loose f hf := by
    rw [dir_store h.distinct ht w]
    exact (h.loose f hf).store v w
  flags d hd := by
    have hword : (r.store t.frame (v % 1024) w).word pgdir = r.word pgdir :=
      Function.update_of_ne (h.distinct.dir _ t ht).symm _ _
    rw [hword] at hd ⊢
    exact h.flags d hd

theorem walkpgdir_present (h : has (r.word pgdir (pdx va)) pteP = true)
    (alloc : Bool) :
    r.walkpgdir pgdir va alloc = (some (pteFrame (r.word pgdir (pdx va)), ptx va), r) := if_pos h

theorem walkpgdir_null (h : has (r.word pgdir (pdx va)) pteP = false) :
    r.walkpgdir pgdir va false = (none, r) := by
  simp [walkpgdir, h]

theorem walkpgdir_full (h : has (r.word pgdir (pdx va)) pteP = false) (hl : r.freelist = []) :
    r.walkpgdir pgdir va true = (none, r) := by
  simp [walkpgdir, h, kalloc, hl]

/-- Memory after page table page `f`, the head of the free list, was added for entry `d`. -/
def grow (r : Ram) (pgdir : Frame) (d : Nat) (f : Frame) (fl : List Frame) : Ram :=
  { (r.memset f 0#32).store pgdir d (frameAddr f ||| pteP ||| pteW ||| pteU) with freelist := fl }

theorem walkpgdir_grow (h : has (r.word pgdir (pdx va)) pteP = false) {fl : List Frame}
    (hl : r.freelist = f :: fl) :
    r.walkpgdir pgdir va true = (some (f, ptx va), r.grow pgdir (pdx va) f fl) := by
  simp [walkpgdir, h, kalloc, hl, grow, memset, store]

theorem dir_grow (hdist : (r.dir pgdir).Distinct) (hf : (r.dir pgdir).Loose f)
    (hd : d < 1024) (fl : List Frame) :
    (r.grow pgdir d f fl).dir pgdir = (r.dir pgdir).addTab d f := dir_addTab hdist hf hd

/-- The head of the free list becomes a page-table page. -/
theorem Own.grow (h : Own r pgdir) (hd : d < 1024) {fl : List Frame} (hl : r.freelist = f :: fl) :
    Own (r.grow pgdir d f fl) pgdir := by
  have hf : (r.dir pgdir).Loose f := h.loose f (by rw [hl]; exact List.mem_cons_self ..)
  have hnd := h.nodup
  rw [hl, List.nodup_cons] at hnd
  have hdir := dir_grow h.distinct hf hd fl
  refine ⟨?_, hnd.2, fun g hg => ?_, fun e he => ?_⟩
  · rw [hdir]
    exact h.distinct.addTab hf d
  · have hgl := h.loose g (by rw [hl]; exact List.mem_cons_of_mem f hg)
    rw [hdir]
    refine ⟨hgl.dir, fun e t ht => ?_⟩
    rw [PgDir.addTab_pde] at ht
    split at ht
    · cases ht
      rintro rfl
      exact hnd.1 hg
    · exact hgl.tab e t ht
  · have hne : pgdir ≠ f := fun hc => hf.dir hc.symm
    have hw : (r.grow pgdir d f fl).word pgdir =
        Function.update (r.word pgdir) d (frameAddr f ||| pteP ||| pteW ||| pteU) := by
      simp [Ram.grow, memset, Ram.store, hne]
    rw [hw] at he ⊢
    by_cases hed : e = d
    · rw [hed, Function.update_self, has_or, has_or, has_or]
      simp [show has pteP pteP = true by decide]
    · rw [Function.update_of_ne hed] at he ⊢
      exact h.flags e he

/-- **Looking up a page** gives the entry of its page-table page, and changes nothing. -/
theorem Shows.walk (h : Shows r pgdir s) (va : Nat) :
    (∃ t, s.pd.pde (pdx va) = some t ∧
      r.walkpgdir pgdir va false = (some (t.frame, ptx va), r)) ∨
    (s.pd.pde (pdx va) = none ∧ r.walkpgdir pgdir va false = (none, r)) := by
  cases hp : has (r.word pgdir (pdx va)) pteP with
  | true =>
    have ht := dir_present (pdx_lt va) hp
    rw [← h.dir] at ht
    exact Or.inl ⟨_, ht, walkpgdir_present hp false⟩
  | false =>
    refine Or.inr ⟨?_, walkpgdir_null hp⟩
    rw [h.dir]
    exact dir_absent hp

/-- **The walk that allocates**, on both levels. -/
theorem walkpgdir_alloc_agree (h : Shows r pgdir s) (ho : Own r pgdir) (va : Nat) :
    (r.walkpgdir pgdir va true = (none, r) ∧ Xv6Clock.walkpgdir s va true = (none, s)) ∨
    ∃ r' s' t, r.walkpgdir pgdir va true = (some (t.frame, ptx va), r') ∧
      Xv6Clock.walkpgdir s va true = (some (vpn va), s') ∧ s'.pd.pde (pdx va) = some t ∧
      Shows r' pgdir s' ∧ Own r' pgdir := by
  cases hp : has (r.word pgdir (pdx va)) pteP with
  | true =>
    have ht := dir_present (pdx_lt va) hp
    rw [← h.dir] at ht
    refine Or.inr ⟨r, s, _, walkpgdir_present hp true, ?_, ht, h, ho⟩
    simp [Xv6Clock.walkpgdir, ht]
  | false =>
    have hn := dir_absent hp
    rw [← h.dir] at hn
    have hfree := h.free
    cases hl : r.freelist with
    | nil =>
      rw [hl] at hfree
      refine Or.inl ⟨walkpgdir_full hp hl, ?_⟩
      simp [Xv6Clock.walkpgdir, hn, Xv6Clock.kalloc, hfree]
    | cons f fl =>
      rw [hl] at hfree
      have hf : (r.dir pgdir).Loose f := ho.loose f (by rw [hl]; exact List.mem_cons_self ..)
      have ho' := ho.grow (pdx_lt va) hl
      refine Or.inr ⟨_, ⟨{ s.m with freelist := fl }, s.pd.addTab (pdx va) f⟩,
        ⟨f, fun _ => 0#32⟩, walkpgdir_grow hp hl, ?_, ?_, ⟨rfl, ?_, ?_⟩, ho'⟩
      · simp [Xv6Clock.walkpgdir, hn, Xv6Clock.kalloc, hfree]
      · rw [PgDir.addTab_pde, if_pos rfl]
      · rw [h.dir]
        exact (dir_grow ho.distinct hf (pdx_lt va) fl).symm
      · exact h.distinct.addTab (h.dir ▸ hf) _

/-! ## 4. `mappages` and `setupkvm` -/

/-- Results of a function that returns a value `R` relates, with the state it leaves. -/
def Same {α β : Type} (R : α → β → Prop) (pgdir : Frame) (x : α × Ram) (y : β × Vm) : Prop :=
  R x.1 y.1 ∧ Shows x.2 pgdir y.2 ∧ Own x.2 pgdir

/-- **One round of `mappages`**, on both levels. -/
theorem mapPage_agree (h : Shows r pgdir s) (ho : Own r pgdir) (a : Nat) (pa perm : Word) :
    Lib.Agree (Same Eq pgdir) (r.mapPage pgdir a pa perm) (Xv6Clock.mapPage s a pa perm) := by
  unfold mapPage Xv6Clock.mapPage
  rcases walkpgdir_alloc_agree h ho a with ⟨h1, h2⟩ | ⟨r', s', t, h1, h2, ht, h', ho'⟩
  · rw [h1, h2]
    exact Lib.agree_ok ⟨rfl, h, ho⟩
  · rw [h1, h2]
    rw [← vpn_div] at ht
    have hw := h'.word ht
    rw [vpn_mod] at hw
    simp only [hw]
    split
    · exact Lib.agree_error _
    · have hs := h'.store ht (mapEntry pa perm)
      have hos := ho'.store (h'.dir ▸ ht) (mapEntry pa perm)
      rw [vpn_mod] at hs hos
      exact Lib.agree_ok ⟨rfl, hs, hos⟩

/-- **The loop of `mappages`**: ending on `a == last` is counting the pages up to `last`. -/
theorem mappagesLoop_agree : ∀ {fuel v : Nat} {r : Ram} {s : Vm} {pa perm : Word},
    n < fuel → v + n < 2 ^ 20 → Shows r pgdir s → Own r pgdir →
    Lib.Agree (Same (fun x y => x = some y) pgdir)
      (mappagesLoop fuel r pgdir (v * 4096) ((v + n) * 4096) pa perm)
      (Xv6Clock.mappagesLoop n s (v * 4096) pa perm) := by
  induction n using Nat.strongRecOn with
  | ind n ih =>
    intro fuel v r s pa perm hf hv h ho
    obtain ⟨m, rfl⟩ : ∃ m, fuel = m + 1 := ⟨fuel - 1, by omega⟩
    unfold mappagesLoop Xv6Clock.mappagesLoop
    refine (mapPage_agree h ho _ pa perm).bind ?_
    rintro ⟨b, r1⟩ ⟨b', s1⟩ ⟨hb, h1, ho1⟩
    cases hb
    cases b with
    | false => exact Lib.agree_ok ⟨rfl, h1, ho1⟩
    | true =>
      cases n with
      | zero =>
        simp only [Bool.not_true, Bool.false_eq_true, if_false, Nat.add_zero, if_true]
        exact Lib.agree_ok ⟨rfl, h1, ho1⟩
      | succ n =>
        have hne : v * 4096 ≠ (v + (n + 1)) * 4096 := by omega
        simp only [Bool.not_true, Bool.false_eq_true, if_false, if_neg hne]
        rw [vpn_addU (by omega), show v + (n + 1) = v + 1 + n by omega]
        exact ih n (Nat.lt_succ_self n) (by omega) (by omega) h1 ho1

/-- The first page of `[va, va + size)`, and how many pages follow it. -/
theorem mappages_range (h0 : 0 < size) (h : va + size ≤ 2 ^ 32) :
    pgRoundDown va = va / 4096 * 4096 ∧
    pgRoundDown ((va + size + (2 ^ 32 - 1)) % 2 ^ 32) =
      (va / 4096 + ((va + size - 1) / 4096 - va / 4096)) * 4096 ∧
    va / 4096 + ((va + size - 1) / 4096 - va / 4096) < 2 ^ 20 := by
  unfold pgRoundDown
  omega

/-- `mappages` over any range is the loop over the pages that meet it. -/
theorem mappages_eq_loop (s : Vm) (h0 : 0 < size) (hs : va + size ≤ 2 ^ 32)
    (pa perm : Word) : Xv6Clock.mappages s va size pa perm =
      Xv6Clock.mappagesLoop ((va + size - 1) / 4096 - va / 4096) s (va / 4096 * 4096) pa perm := by
  obtain ⟨h1, h2, -⟩ := mappages_range h0 hs
  have hn : ((va / 4096 + ((va + size - 1) / 4096 - va / 4096)) * 4096 +
      (2 ^ 32 - va / 4096 * 4096)) % 2 ^ 32 / pgSize = (va + size - 1) / 4096 - va / 4096 := by
    unfold pgSize
    omega
  unfold Xv6Clock.mappages
  simp only [h1, h2, hn]

/-- **`mappages`**, on both levels. -/
theorem mappages_agree (h : Shows r pgdir s) (ho : Own r pgdir) (h0 : 0 < size)
    (hs : va + size ≤ 2 ^ 32) (pa perm : Word) :
    Lib.Agree (Same (fun x y => x = some y) pgdir) (r.mappages pgdir va size pa perm)
      (Xv6Clock.mappages s va size pa perm) := by
  obtain ⟨h1, h2, h3⟩ := mappages_range h0 hs
  unfold mappages
  rw [mappages_eq_loop s h0 hs, h1, h2]
  exact mappagesLoop_agree (by omega) h3 h ho

/-! ## 5. Giving pages back -/

/-- A frame outside the page table is freed without touching the page table. -/
theorem kfree_agree (h : Shows r pgdir s) (hf : s.pd.Loose f) :
    Lib.Agree (fun r' m' => Shows r' pgdir ⟨m', s.pd⟩ ∧ r'.word pgdir = r.word pgdir)
      (r.kfree cfg f) (Xv6Clock.kfree cfg s.m f) := by
  unfold kfree Xv6Clock.kfree
  split
  · exact Lib.agree_error _
  · have hdir := h.dir
    rw [hdir] at hf
    have hw : ∀ g, g ≠ f → ({ r.memset f 0x01010101#32 with
        freelist := f :: r.freelist } : Ram).word g = r.word g :=
      fun g hg => Function.update_of_ne hg _ _
    have hp := hw pgdir hf.dir.symm
    refine Lib.agree_ok ⟨⟨congrArg (f :: ·) h.free, ?_, h.distinct⟩, hp⟩
    rw [hdir]
    exact (dir_congr hp fun d t ht => hw t.frame (hf.tab d t ht)).symm

/-- Setting `a` one page short of the next page-table page and adding a page is going there. -/
theorem pgAddr_back {v : Nat} (hv : v < 2 ^ 19) :
    addU ((pgAddr (pdx (v * 4096) + 1) 0 0 + (2 ^ 32 - pgSize)) % 2 ^ 32) pgSize =
      (v / 1024 + 1) * 1024 * 4096 := by
  rw [pgAddr_next hv]
  unfold addU pgSize
  omega

/-- **The loop of `deallocuvm` is never out of rounds**: one more changes nothing. -/
theorem deallocuvmLoop_rounds {oldsz : Nat} (hk : oldsz ≤ kernBase) : ∀ {v : Nat} {r : Ram},
    pages oldsz ≤ v + n → deallocuvmLoop cfg (n + 1) r pgdir (v * 4096) oldsz =
      deallocuvmLoop cfg n r pgdir (v * 4096) oldsz := by
  induction n with
  | zero => exact fun hn => if_pos (by unfold pages at hn; omega)
  | succ n ih =>
    intro v r hn
    by_cases hle : oldsz ≤ v * 4096
    · exact (if_pos hle).trans (if_pos hle).symm
    have hv : v < 2 ^ 19 := by unfold kernBase at hk; omega
    refine (if_neg hle).trans (.trans ?_ (if_neg hle).symm)
    simp only [pgAddr_back hv, vpn_addU (show v + 1 < 2 ^ 20 by omega)]
    rcases r.walkpgdir pgdir (v * 4096) false with ⟨_ | ⟨f, i⟩, r1⟩
    · exact ih (by omega)
    · dsimp only
      split
      · split
        · rfl
        · exact congrArg (r1.kfree cfg _ >>= ·) (funext fun r2 => ih (by omega))
      · exact ih (by omega)

/-- **The loop of `deallocuvm`**, on both levels. -/
theorem deallocuvmLoop_agree {oldsz : Nat} (hk : oldsz ≤ kernBase) :
    ∀ {v : Nat} {r : Ram} {s : Vm}, Shows r pgdir s →
    (∀ u, v ≤ u → u < pages oldsz → mapped (s.pd.pteAt u) = true →
      s.pd.Loose (pteFrame (s.pd.pteAt u))) →
    Lib.Agree (fun r' s' => Shows r' pgdir s' ∧ r'.word pgdir = r.word pgdir)
      (deallocuvmLoop cfg n r pgdir (v * 4096) oldsz)
      (Xv6Clock.deallocuvmLoop cfg n s (v * 4096) oldsz) := by
  induction n with
  | zero => exact fun h _ => Lib.agree_ok ⟨h, rfl⟩
  | succ n ih =>
    intro v r s h hl
    unfold deallocuvmLoop Xv6Clock.deallocuvmLoop
    by_cases hle : oldsz ≤ v * 4096
    · rw [if_pos hle, if_pos hle]
      exact Lib.agree_ok ⟨h, rfl⟩
    rw [if_neg hle, if_neg hle]
    have hv : v < 2 ^ 19 := by unfold kernBase at hk; omega
    have hvp : v < pages oldsz := by unfold pages; omega
    have hvpn : vpn (v * 4096) = v := vpn_page (by omega)
    rcases h.walk (v * 4096) with ⟨t, ht, hw⟩ | ⟨hn, hw⟩
    · have htab : s.pd.tabAt (vpn (v * 4096)) = true := by
        rw [PgDir.tabAt, vpn_div, ht]
        rfl
      rw [hw, PgDir.walk_of_tabAt htab, hvpn]
      rw [← vpn_div, hvpn] at ht
      have hword := h.word ht
      rw [← vpn_mod, hvpn]
      simp only [hword, vpn_addU (show v + 1 < 2 ^ 20 by omega)]
      split
      · rename_i hm
        split
        · exact Lib.agree_error _
        · refine (kfree_agree cfg h (hl v (Nat.le_refl v) hvp hm)).bind ?_
          rintro r1 m1 ⟨h1, hp1⟩
          have hne : t.frame ≠ pgdir := by
            have := h.distinct.dir _ t ht
            rwa [h.dir] at this
          have h2 := h1.store ht 0#32
          have hp2 : (r1.store t.frame (v % 1024) 0#32).word pgdir = r.word pgdir := by
            rw [← hp1]
            exact Function.update_of_ne hne.symm _ _
          have hrest := ih (v := v + 1) h2 fun u hu1 hu2 hmu => by
            have huv : u ≠ v := by omega
            rw [PgDir.pteAt_store_ne _ _ huv] at hmu ⊢
            exact (hl u (by omega) hu2 hmu).store v 0#32
          rwa [hp2] at hrest
      · exact ih (v := v + 1) h fun u hu1 hu2 hmu => hl u (by omega) hu2 hmu
    · have hnt : s.pd.tabAt (vpn (v * 4096)) = false := by
        rw [PgDir.tabAt, vpn_div, hn]
        rfl
      rw [hw, PgDir.walk_of_no_tab hnt]
      dsimp only
      rw [pgAddr_back hv, pgAddr_next hv]
      exact ih (v := (v / 1024 + 1) * 1024) h fun u hu1 hu2 hmu => hl u (by omega) hu2 hmu

/-- **`deallocuvm`**, on both levels. -/
theorem deallocuvm_agree (h : Shows r pgdir s) {oldsz newsz : Nat} (hk : oldsz ≤ kernBase)
    (hl : ∀ u, pages newsz ≤ u → u < pages oldsz → mapped (s.pd.pteAt u) = true →
      s.pd.Loose (pteFrame (s.pd.pteAt u))) :
    Lib.Agree (fun x y => x.1 = y.1 ∧ Shows x.2 pgdir y.2 ∧ x.2.word pgdir = r.word pgdir)
      (r.deallocuvm cfg pgdir oldsz newsz) (Xv6Clock.deallocuvm cfg s oldsz newsz) := by
  unfold deallocuvm Xv6Clock.deallocuvm
  split
  · exact Lib.agree_ok ⟨rfl, h, rfl⟩
  · have hk' : oldsz ≤ 2 ^ 31 := hk
    rw [pgRoundUp_pages (by omega)]
    refine (deallocuvmLoop_agree cfg hk h hl).bind ?_
    intro r' s' ⟨h1, hp⟩
    exact Lib.agree_ok ⟨rfl, h1, hp⟩

/-- **The loop of `freevm`**, on both levels: the directory is read while its page-table pages are
    filled with junk, and it is not one of them. -/
theorem freevmLoop_agree {w : Nat → Word} (hd : pd.Distinct) (hpd : pd.frame = pgdir)
    (hs : ∀ d t, pd.pde d = some t → mapped (w d) = true ∧ pteFrame (w d) = t.frame)
    : ∀ {i : Nat} {r : Ram} {m : Kmem},
    (∀ d, d < i + n → pd.pde d = none → mapped (w d) = false) →
    r.word pgdir = w → m.freelist = r.freelist →
    Lib.Agree (fun r' m' => m'.freelist = r'.freelist)
      (freevmLoop cfg n r pgdir i) (Xv6Clock.freevmLoop cfg n m pd i) := by
  induction n with
  | zero => exact fun _ _ hm => Lib.agree_ok hm
  | succ n ih =>
    intro i r m hn hw hm
    unfold freevmLoop Xv6Clock.freevmLoop
    cases hp : pd.pde i with
    | none =>
      have hz := hn i (by omega) hp
      rw [← hw] at hz
      rw [hz]
      exact ih (fun d hdi => hn d (by omega)) hw hm
    | some t =>
      obtain ⟨h1, h2⟩ := hs i t hp
      rw [← hw] at h1 h2
      rw [h1, h2]
      simp only [if_true]
      unfold kfree Xv6Clock.kfree
      split
      · exact Lib.agree_error _
      · refine ih (fun d hdi => hn d (by omega)) ?_ (congrArg (t.frame :: ·) hm)
        rw [← hw]
        exact Function.update_of_ne (hpd ▸ (hd.dir i t hp).symm) _ _

/-- **`freevm`**, on both levels. -/
theorem freevm_agree (h : Shows r pgdir s)
    (hflags : ∀ d, mapped (r.word pgdir d) = true → has (r.word pgdir d) pteP = true)
    (hl : ∀ u, u < 2 ^ 19 → mapped (s.pd.pteAt u) = true →
      s.pd.Loose (pteFrame (s.pd.pteAt u))) :
    Lib.Agree (fun r' m' => m'.freelist = r'.freelist) (r.freevm cfg pgdir)
      (Xv6Clock.freevm cfg s) := by
  unfold freevm Xv6Clock.freevm
  refine (deallocuvm_agree cfg h (Nat.le_refl kernBase) fun u _ hu => hl u hu).bind ?_
  rintro ⟨n, r1⟩ ⟨n', s1⟩ ⟨_, h1, hp⟩
  have hpd : s1.pd.frame = pgdir := by rw [h1.dir]; rfl
  refine Lib.Agree.bind (R := fun r' m' => m'.freelist = r'.freelist)
    (freevmLoop_agree cfg h1.distinct hpd (fun d t ht => ?_) (fun d hd hn => ?_) rfl h1.free) ?_
  · rw [h1.dir] at ht
    obtain ⟨-, h2, h3, -⟩ := dir_some ht
    exact ⟨by rw [mapped_eq, h2, Bool.true_or], h3.symm⟩
  · cases hm : mapped (r1.word pgdir d) with
    | false => rfl
    | true =>
      have h2 : has (r1.word pgdir d) pteP = true := by
        rw [hp] at hm ⊢
        exact hflags d hm
      rw [h1.dir, dir_present (by simpa [npdEntries] using hd) h2] at hn
      cases hn
  · intro r2 m2 h2
    rw [hpd]
    unfold kfree Xv6Clock.kfree
    split
    · exact Lib.agree_error _
    · exact Lib.agree_ok (congrArg (pgdir :: ·) h2)

/-- The rows of `kmap`, on both levels. -/
theorem kmapLoop_agree {ks : List Kmap} {ps : List (Nat × Nat)}
    (hrows : List.Forall₂ (fun k p => RowPages k p.1 p.2) ks ps) :
    ∀ {r : Ram} {s : Vm}, Shows r pgdir s → Own r pgdir →
      Lib.Agree (Same Eq pgdir) (kmapLoop ks r pgdir) (Xv6Clock.kmapLoop ks s) := by
  induction hrows with
  | nil => exact fun h ho => Lib.agree_ok ⟨rfl, h, ho⟩
  | @cons k p ks ps hr _ ih =>
    intro r s h ho
    have hsize := hr.size
    have hvirt := hr.virt
    have hfits := hr.fits
    unfold kmapLoop Xv6Clock.kmapLoop
    refine (mappages_agree h ho (by omega) (by omega) _ _).bind ?_
    rintro ⟨ret, r1⟩ ⟨n, s1⟩ ⟨he, h1, ho1⟩
    cases he
    simp only [Option.getD_some]
    split
    · exact Lib.agree_ok ⟨rfl, h1, ho1⟩
    · exact ih h1 ho1

/-- What `setupkvm` returns on the two levels: no page directory, or one and the same. -/
structure SameDir (x : Option Frame × Ram) (y : Option PgDir × Kmem) : Prop where
  free : y.2.freelist = x.2.freelist
  dir : x.1 = none ∧ y.1 = none ∨ ∃ pgdir pd, x.1 = some pgdir ∧ y.1 = some pd ∧
    Shows x.2 pgdir ⟨y.2, pd⟩ ∧ Own x.2 pgdir

/-- A zeroed frame is an empty page directory. -/
theorem dir_memset (r : Ram) (f : Frame) : (r.memset f 0#32).dir f = ⟨f, fun _ => none⟩ := by
  refine congrArg (PgDir.mk f) (funext fun d => if_neg ?_)
  simp [memset]

/-- **`setupkvm`**, on both levels. -/
theorem setupkvm_agree {m : Kmem} (hn : r.freelist.Nodup) (hm : m.freelist = r.freelist) :
    Lib.Agree SameDir (r.setupkvm cfg) (Xv6Clock.setupkvm cfg m) := by
  cases hl : r.freelist with
  | nil =>
    rw [hl] at hm
    simp only [setupkvm, kalloc, hl, Xv6Clock.setupkvm, Xv6Clock.kalloc, hm]
    exact Lib.agree_ok ⟨by rw [hm, hl], Or.inl ⟨rfl, rfl⟩⟩
  | cons f fl =>
    rw [hl] at hm
    rw [hl, List.nodup_cons] at hn
    simp only [setupkvm, kalloc, hl, Xv6Clock.setupkvm, Xv6Clock.kalloc, hm]
    rw [if_neg (by decide), if_neg (by decide)]
    have hz := dir_memset { r with freelist := fl } f
    have hd : (⟨f, fun _ => none⟩ : PgDir).Distinct :=
      ⟨(fun d t ht => by cases ht), fun d e t u ht => by cases ht⟩
    have h0 : Shows (memset { r with freelist := fl } f 0#32) f
        ⟨{ m with freelist := fl }, ⟨f, fun _ => none⟩⟩ := ⟨rfl, hz.symm, hd⟩
    have ho0 : Own (memset { r with freelist := fl } f 0#32) f := by
      refine ⟨hz ▸ hd, hn.2, fun g hg => ?_, fun d hd => ?_⟩
      · rw [hz]
        refine ⟨?_, fun d t ht => by cases ht⟩
        rintro rfl
        exact hn.1 hg
      · simp [memset] at hd
    obtain ⟨b, s1, hk1, hrows, -⟩ := kmapLoop_ok (kmap_rows cfg)
      (s := ⟨{ m with freelist := fl }, ⟨f, fun _ => none⟩⟩) (kmapPages_disjoint cfg)
      (fun p _ u _ _ => mapped_zero)
    have hk := kmapLoop_agree (kmap_rows cfg) h0 ho0
    rw [hk1] at hk ⊢
    obtain ⟨⟨b', r1⟩, hr1, hb, h1, ho1⟩ := hk.of_ok
    cases hb
    rw [hr1, Lib.ok_bind, Lib.ok_bind]
    cases b with
    | true => exact Lib.agree_ok ⟨h1.free, Or.inr ⟨f, s1.pd, rfl, rfl, h1, ho1⟩⟩
    | false =>
      refine (freevm_agree cfg h1 ho1.flags fun u hu hmu => ?_).bind
        fun r2 m2 h2 => Lib.agree_ok ⟨h2, Or.inl ⟨rfl, rfl⟩⟩
      rcases hrows.pte u with he | he
      · rw [he] at hmu
        exact absurd (mapped_zero.symm.trans hmu) (by decide)
      · omega

end Ram

end Xv6Clock
