/-
  File:      Xv6Clock/ExecContent.lean
  Subject:   The bytes of the image that exec loads (exec.c, `loaduvm` and `allocuvm` of vm.c).

  A loadable segment of the file is `Seg`. If no page belongs to two of them, then after the loop
  over the program headers each segment has its bytes of the file and zeros up to its size, and
  every page of no segment is zero (`execLoad_loaded`).
-/
import Xv6Clock.ExecTotal
import Xv6Clock.Copyout
import Mathlib.Data.List.GetD

namespace Xv6Clock

/-! ## 1. Segments -/

/-- A program header of type ELF_PROG_LOAD. -/
structure Seg where
  vaddr : Nat
  off : Nat
  filesz : Nat
  memsz : Nat
  deriving DecidableEq

/-- `struct proghdr` at offset `off` of the file. -/
def progHdr (data : Nat → Byte) (off : Nat) : List Byte :=
  (List.range proghdrSize).map fun i => data (off + i)

def Seg.ofHdr (ph : List Byte) : Seg where
  vaddr := field32 ph 8
  off := field32 ph 4
  filesz := field32 ph 16
  memsz := field32 ph 20

/-- The loadable segments of `n` program headers from `off` on. -/
def segments (data : Nat → Byte) : Nat → Nat → List Seg
  | 0, _ => []
  | n + 1, off =>
    if field32 (progHdr data off) 0 = 1 then
      Seg.ofHdr (progHdr data off) :: segments data n (addU off proghdrSize)
    else segments data n (addU off proghdrSize)

/-- Page `u` belongs to the segment. -/
def Seg.onPage (g : Seg) (u : Nat) : Prop := g.vaddr / 4096 ≤ u ∧ u < pages (g.vaddr + g.memsz)

/-- No page belongs to both. -/
def Seg.Apart (g h : Seg) : Prop := ∀ u, ¬(g.onPage u ∧ h.onPage u)

/-- Byte `i` of the segment in memory. -/
def Seg.byte (g : Seg) (data : Nat → Byte) (i : Nat) : Byte :=
  if i < g.filesz then data (g.off + i) else 0

/-! ## 2. Reading -/

variable {size k off n sz sz' : Nat} {cfg : Config}

/-- `readi` that returns all it was asked for. -/
theorem readi_full {data : Nat → Byte} {bs : List Byte} (hoff : off < 2 ^ 32) (hn : n < 2 ^ 32)
    (h : readi (.file size data) k off n = some bs) (hlen : bs.length = n) :
    off + n < 2 ^ 32 ∧ bs = (List.range n).map fun i => data (off + i) := by
  unfold readi at h
  dsimp only at h
  split at h
  · cases h
  · rename_i hok
    have hwrap : addU off n = (off + n) % 2 ^ 32 := rfl
    have hno : off + n < 2 ^ 32 := by omega
    rw [hwrap, Nat.mod_eq_of_lt hno] at h
    cases h
    rw [List.length_map, List.length_range] at hlen
    rw [hlen]
    exact ⟨hno, rfl⟩

section
variable {s s' : Vm} {m m' : Kmem} {data : Nat → Byte}

/-- No frame of the image is in two places. -/
theorem Image.holds_le (h : Image m s sz) (hfree : ∀ f, m.free f ≤ 1) (f : Frame) :
    s.pd.holds f ≤ 1 := by
  have h1 := h.took.count f
  have h2 := hfree f
  omega

theorem Image.mapped {u : Nat} (h : Image m s sz) (hu : u < pages sz) :
    Xv6Clock.mapped (s.pd.pteAt u) = true := mapped_of_P (h.low u hu).1

theorem Image.vpn_lt {c : Nat} (h : Image m s sz) (hc : c < pages sz * 4096) :
    c < kernBase ∧ vpn c = c / 4096 ∧ vpn c < pages sz := by
  have hk := pages_le h.size
  have hb : kernBase = 2 ^ 31 := rfl
  unfold vpn
  omega

/-- A page of a segment and the pages after it. -/
theorem page_window {a i f c : Nat} (hi : i < f) (hn : n = f - i ∨ n = 4096 ∧ n ≤ f - i) :
    (a + i ≤ c ∧ c < a + f) ↔
      (a + (i + 4096) ≤ c ∧ c < a + f) ∨ (a + i ≤ c ∧ c < a + i + n) := by
  omega

/-- **The loop of `loaduvm`** stores the bytes of the file from page `v` on, and nothing else. -/
theorem loaduvmLoop_bytes {v fsz : Nat} (hfree : ∀ f, m.free f ≤ 1) (hsz : v * 4096 + fsz ≤ sz) :
    ∀ {k k' i : Nat} {s : Vm}, Image m s sz → i % 4096 = 0 → fsz ≤ i + n * 4096 →
    (i < fsz → off + i < 2 ^ 32) →
    loaduvmLoop (.file size data) (v * 4096) off fsz n k s i = .ok (true, k', m') →
    ∀ c, c < pages sz * 4096 → Vm.rbyte ⟨m', s.pd⟩ c =
      if v * 4096 + i ≤ c ∧ c < v * 4096 + fsz then data (off + (c - v * 4096)) else s.rbyte c := by
  induction n with
  | zero =>
    intro k k' i s h hi hn hoff hl c hc
    cases hl
    rw [if_neg (by omega)]
  | succ n ih =>
    intro k k' i s h hi hn hoff hl c hc
    unfold loaduvmLoop at hl
    split at hl
    · cases hl
      rw [if_neg (by omega)]
    rename_i hlt
    have hk := h.size
    unfold kernBase at hk
    have hoff := hoff (by omega)
    have hv : vpn (addU (v * 4096) i) = v + i / 4096 := by
      unfold vpn addU
      omega
    have hoff' : addU off i = off + i := by
      unfold addU
      omega
    split at hl
    · cases hl
    rename_i pte hw
    obtain ⟨rfl, -⟩ := PgDir.walk_some hw
    rw [hv, hoff'] at hl
    have hpg : v + i / 4096 < pages sz := by
      unfold pages
      omega
    dsimp only at hl
    generalize hcount : (if fsz - i < pgSize then fsz - i else pgSize) = count at hl
    have hc1 : count ≤ fsz - i ∧ count ≤ 4096 ∧ (count = fsz - i ∨ count = 4096) := by
      unfold pgSize at hcount
      split at hcount <;> omega
    clear hcount
    split at hl
    · cases hl
    rename_i bs hbs
    split at hl
    · cases hl
    rename_i hlen
    obtain ⟨hno, hbytes⟩ := readi_full hoff (by omega) hbs (by omega)
    have hlen' : bs.length = count := by omega
    -- the page at `v * 4096 + i`, from its first byte on
    have hva : vpn (v * 4096 + i) = v + i / 4096 := by
      unfold vpn
      omega
    have hmod : (v * 4096 + i) % pgSize = 0 := by
      unfold pgSize
      omega
    have hnext := ih (h.setPage (h.holds hpg) _) (by unfold pgSize; omega) (by
      unfold pgSize
      omega) (by unfold pgSize; omega) hl c hc
    obtain ⟨hcb, -, hcv⟩ := h.vpn_lt hc
    have hchunk := rbyte_chunk (s := s) (c := c) (h.holds_le hfree)
      (v * 4096 + i) bs (by unfold kernBase; omega) (by rw [hva]; exact h.mapped hpg)
      (by rw [hmod, hlen']; unfold pgSize; omega) hcb (h.mapped hcv)
    rw [hva, hmod] at hchunk
    rw [hnext]
    rw [hchunk, hlen']
    -- the pages after this one, this one, and what is left alone
    have hwin := page_window (a := v * 4096) (c := c) (n := count) (Nat.not_le.mp hlt)
      (by omega)
    change (if v * 4096 + (i + 4096) ≤ c ∧ c < v * 4096 + fsz then _ else _) = _
    by_cases h1 : v * 4096 + (i + 4096) ≤ c ∧ c < v * 4096 + fsz
    · rw [if_pos h1, if_pos (hwin.mpr (.inl h1))]
    · rw [if_neg h1]
      by_cases h2 : v * 4096 + i ≤ c ∧ c < v * 4096 + i + count
      · have hget : bs.getD (c - (v * 4096 + i)) 0 = data (off + (c - v * 4096)) := by
          rw [hbytes, List.getD_eq_getElem _ _ (by simp; omega), List.getElem_map,
            List.getElem_range]
          congr 1
          omega
        rw [if_pos h2, if_pos (hwin.mpr (.inr h2)), hget]
      · rw [if_neg h2, if_neg fun hc => (hwin.mp hc).elim h1 h2]

/-- **`loaduvm`.** -/
theorem loaduvm_bytes {k' addr fsz : Nat} (hfree : ∀ f, m.free f ≤ 1) (h : Image m s sz)
    (hsz : addr + fsz ≤ sz) (hoff : off < 2 ^ 32)
    (hl : loaduvm (.file size data) k s addr off fsz = .ok (true, k', m')) :
    ∀ c, c < pages sz * 4096 → Vm.rbyte ⟨m', s.pd⟩ c =
      if addr ≤ c ∧ c < addr + fsz then data (off + (c - addr)) else s.rbyte c := by
  unfold loaduvm at hl
  split at hl
  · cases hl
  · rename_i ha
    have halign : addr % 4096 = 0 := by simpa [pgSize] using ha
    obtain ⟨v, rfl⟩ : ∃ v, addr = v * 4096 := ⟨addr / 4096, by omega⟩
    have hfuel : fsz ≤ 0 + (fsz / pgSize + 1) * 4096 := by
      unfold pgSize
      omega
    intro c hc
    have hb := loaduvmLoop_bytes (i := 0) hfree hsz h rfl hfuel (fun _ => hoff) hl c hc
    rw [Nat.add_zero] at hb
    exact hb

/-- **`allocuvm` on the image**: old pages keep their entries and bytes, new pages are zero and
    the user's. -/
structure Grew (s s' : Vm) (sz sz' : Nat) : Prop where
  le : sz ≤ sz'
  pte : ∀ u, u < pages sz → s'.pd.pteAt u = s.pd.pteAt u
  user : ∀ u, pages sz ≤ u → u < pages sz' → has (s'.pd.pteAt u) pteU = true
  old : ∀ c, c < pages sz * 4096 → s'.rbyte c = s.rbyte c
  zero : ∀ c, pages sz * 4096 ≤ c → c < pages sz' * 4096 → s'.rbyte c = 0

theorem Grew.refl (s : Vm) (sz : Nat) : Grew s s sz sz where
  le := Nat.le_refl _
  pte _ _ := rfl
  user u h1 h2 := by omega
  old _ _ := rfl
  zero c h1 h2 := by omega

theorem Image.grew (h : Image m s sz) (hfree : ∀ f, m.free f ≤ 1) (hle : sz ≤ sz')
    (h' : Image m s' sz') (ha : Allocd s s' (pages sz) (pages sz')) : Grew s s' sz sz' where
  le := hle
  pte u hu := ha.pte u (by omega)
  user u h1 h2 := by
    obtain ⟨f, hf, -⟩ := ha.new u h1 h2
    rw [hf, has_allocEntry f (by decide)]
    decide
  old c hc := by
    obtain ⟨-, -, hv⟩ := h.vpn_lt hc
    unfold Vm.rbyte
    rw [ha.pte (vpn c) (by omega), ha.mem]
    -- the frame is in the image, so it is not free
    have h1 := h.holds hv
    have h2 := h.took.count (pteFrame (s.pd.pteAt (vpn c)))
    have h3 := hfree (pteFrame (s.pd.pteAt (vpn c)))
    omega
  zero c h1 h2 := by
    obtain ⟨-, e, hv⟩ := h'.vpn_lt h2
    have hle1 : ∀ f, s.m.free f ≤ 1 := fun f => by
      have := h.took.count f
      have := hfree f
      omega
    unfold Vm.rbyte
    rw [ha.zero hle1 (vpn c) (by omega) hv]
    rfl

/-! ## 3. The loop over the program headers -/

/-- **What is loaded**: the segments `gs` have their bytes, and the rest is zero. -/
structure Loaded (data : Nat → Byte) (gs : List Seg) (s : Vm) (sz : Nat) : Prop where
  fits : ∀ g ∈ gs, g.vaddr % 4096 = 0 ∧ g.filesz ≤ g.memsz ∧ g.vaddr + g.memsz ≤ sz
  bytes : ∀ g ∈ gs, ∀ i, i < g.memsz → s.rbyte (g.vaddr + i) = g.byte data i
  zero : ∀ c, c < pages sz * 4096 → (∀ g ∈ gs, ¬g.onPage (c / 4096)) → s.rbyte c = 0

theorem Seg.onPage_byte (g : Seg) {i : Nat} (hi : i < g.memsz) :
    g.onPage ((g.vaddr + i) / 4096) := by
  unfold Seg.onPage pages
  omega

theorem Loaded.grew {gs : List Seg} (h : Loaded data gs s sz) (hg : Grew s s' sz sz') :
    Loaded data gs s' sz' where
  fits g hm := by
    have := hg.le
    obtain ⟨h1, h2, h3⟩ := h.fits g hm
    exact ⟨h1, h2, by omega⟩
  bytes g hm i hi := by
    obtain ⟨-, -, h3⟩ := h.fits g hm
    rw [hg.old _ (by unfold pages; omega)]
    exact h.bytes g hm i hi
  zero c hc hno := by
    by_cases hlt : c < pages sz * 4096
    · rw [hg.old c hlt]
      exact h.zero c hlt hno
    · exact hg.zero c (by omega) hc

/-- One more segment, on pages of its own. -/
theorem Loaded.segment {gs : List Seg} {g : Seg} (h : Loaded data gs s sz)
    (halign : g.vaddr % 4096 = 0) (hfile : g.filesz ≤ g.memsz) (hsz : g.vaddr + g.memsz ≤ sz)
    (hapart : ∀ g' ∈ gs, g'.Apart g)
    (hb : ∀ c, c < pages sz * 4096 → Vm.rbyte s' c =
      if g.vaddr ≤ c ∧ c < g.vaddr + g.filesz then data (g.off + (c - g.vaddr)) else s.rbyte c) :
    Loaded data (gs ++ [g]) s' sz := by
  -- bytes of the segment are on pages of no other one
  have hnot : ∀ g' ∈ gs, ∀ c, g'.onPage (c / 4096) → ¬(g.vaddr ≤ c ∧ c < g.vaddr + g.filesz) :=
    fun g' hg' c hon hin => by
      refine hapart g' hg' (c / 4096) ⟨hon, ?_⟩
      unfold Seg.onPage pages
      omega
  refine ⟨fun g' hg' => ?_, fun g' hg' i hi => ?_, fun c hc hno => ?_⟩
  · rcases List.mem_append.mp hg' with hm | hm
    · exact h.fits g' hm
    · obtain rfl := List.mem_singleton.mp hm
      exact ⟨halign, hfile, hsz⟩
  · rcases List.mem_append.mp hg' with hm | hm
    · obtain ⟨-, -, h3⟩ := h.fits g' hm
      rw [hb _ (by unfold pages; omega), if_neg (hnot g' hm _ (g'.onPage_byte hi))]
      exact h.bytes g' hm i hi
    · obtain rfl := List.mem_singleton.mp hm
      rw [hb _ (by unfold pages; omega), Nat.add_sub_cancel_left]
      unfold Seg.byte
      by_cases hlt : i < g'.filesz
      · rw [if_pos hlt, if_pos (by omega)]
      · rw [if_neg hlt, if_neg (by omega)]
        refine h.zero _ (by unfold pages; omega) fun g2 hg2 hon => ?_
        exact hapart g2 hg2 _ ⟨hon, g'.onPage_byte hi⟩
  · have hg := hno g (List.mem_append_right gs (List.mem_singleton_self g))
    have hout : ¬(g.vaddr ≤ c ∧ c < g.vaddr + g.filesz) := fun hin => hg (by
      unfold Seg.onPage pages
      omega)
    rw [hb c hc, if_neg hout]
    exact h.zero c hc fun g' hm => hno g' (List.mem_append_left [g] hm)

/-- A round that does not end in `goto bad`. -/
theorem execLoad_round {ip : Inode} (h : execLoad cfg ip (n + 1) s sz off k = .ok (true, s', sz')) :
    ∃ ph, readi ip k off proghdrSize = some ph ∧ ph.length = proghdrSize ∧
      (field32 ph 0 ≠ 1 ∧
        execLoad cfg ip n s sz (addU off proghdrSize) (k + 1) = .ok (true, s', sz') ∨
      field32 ph 0 = 1 ∧ (Seg.ofHdr ph).filesz ≤ (Seg.ofHdr ph).memsz ∧
        (Seg.ofHdr ph).vaddr % 4096 = 0 ∧ ∃ sz1 s1 k1 m1,
          allocuvm cfg s sz ((Seg.ofHdr ph).vaddr + (Seg.ofHdr ph).memsz) = .ok (sz1, s1) ∧
          sz1 ≠ 0 ∧ loaduvm ip (k + 1) s1 (Seg.ofHdr ph).vaddr (Seg.ofHdr ph).off
            (Seg.ofHdr ph).filesz = .ok (true, k1, m1) ∧
          execLoad cfg ip n ⟨m1, s1.pd⟩ sz1 (addU off proghdrSize) k1 = .ok (true, s', sz')) := by
  unfold execLoad at h
  split at h
  · cases h
  rename_i ph hph
  split at h
  · cases h
  rename_i hlen
  refine ⟨ph, hph, by omega, ?_⟩
  split at h
  · rename_i htype
    exact .inl ⟨htype, h⟩
  rename_i htype
  split at h
  · cases h
  rename_i hmf
  split at h
  · cases h
  rename_i hwrap
  have hsum : addU (field32 ph 8) (field32 ph 20) = field32 ph 8 + field32 ph 20 := by
    have l1 : field32 ph 8 < 2 ^ 32 := BitVec.isLt _
    have l2 : field32 ph 20 < 2 ^ 32 := BitVec.isLt _
    unfold addU at hwrap ⊢
    omega
  rw [hsum] at h
  obtain ⟨⟨sz1, s1⟩, h1, h2⟩ := Lib.bind_eq_ok.mp h
  dsimp only at h2
  split at h2
  · cases h2
  · rename_i h0
    split at h2
    · cases h2
    · rename_i halign
      obtain ⟨⟨b, k1, m1⟩, h3, h4⟩ := Lib.bind_eq_ok.mp h2
      dsimp only at h4
      cases b with
      | false => cases h4
      | true =>
        have halign' : field32 ph 8 % 4096 = 0 := by simpa [pgSize] using halign
        exact .inr ⟨by omega, Nat.not_lt.mp hmf, halign', sz1, s1, k1, m1, h1, h0, h3, h4⟩

/-- `allocuvm` that succeeds, from a size that covers the same pages. -/
theorem Image.allocuvm_grew {old newsz r : Nat} (h : Image m s sz) (hfree : ∀ f, m.free f ≤ 1)
    (hold : old ≤ kernBase) (hle : sz ≤ old) (hpages : pages old = pages sz)
    (hcase : old = sz ∨ old ≤ newsz) (ha : Xv6Clock.allocuvm cfg s old newsz = .ok (r, s'))
    (hr : r ≠ 0) : old ≤ r ∧ newsz ≤ r ∧ Image m s' r ∧ Grew s s' sz r := by
  rcases allocuvm_ok hold ha with ⟨hk, hlt, rfl, hal⟩ | ⟨-, hlt, rfl, rfl⟩ | ⟨-, rfl, -⟩ |
    ⟨-, -, rfl, -⟩
  · rw [hpages] at hal
    have him := h.alloc (Nat.le_trans hle hlt) hk hal
    exact ⟨hlt, Nat.le_refl _, him, h.grew hfree (Nat.le_trans hle hlt) him hal⟩
  · obtain rfl : r = sz := hcase.resolve_right (by omega)
    exact ⟨Nat.le_refl _, Nat.le_of_lt hlt, h, Grew.refl _ _⟩
  · exact absurd rfl hr
  · exact absurd rfl hr

/-- **The image after the program headers**, if no page belongs to two segments. -/
theorem execLoad_loaded (hfree : ∀ f, m.free f ≤ 1) :
    ∀ {s : Vm} {sz off k : Nat} {gs : List Seg}, Image m s sz →
    (∀ u, u < pages sz → has (s.pd.pteAt u) pteU = true) → Loaded data gs s sz → off < 2 ^ 32 →
    (gs ++ segments data n off).Pairwise Seg.Apart →
    execLoad cfg (.file size data) n s sz off k = .ok (true, s', sz') →
    Image m s' sz' ∧ (∀ u, u < pages sz' → has (s'.pd.pteAt u) pteU = true) ∧
      Loaded data (gs ++ segments data n off) s' sz' := by
  induction n with
  | zero =>
    intro s sz off k gs him hU hld hoff hap hl
    cases hl
    unfold segments
    rw [List.append_nil]
    exact ⟨him, hU, hld⟩
  | succ n ih =>
    intro s sz off k gs him hU hld hoff hap hl
    have hnext : addU off proghdrSize < 2 ^ 32 := Nat.mod_lt _ (by decide)
    obtain ⟨ph, hph, hlen, hrest⟩ := execLoad_round hl
    have hhdr : ph = progHdr data off := (readi_full hoff (by decide) hph hlen).2
    rw [hhdr] at hrest
    unfold segments at hap ⊢
    rcases hrest with ⟨htype, hl⟩ | ⟨htype, hfile, halign, sz1, s1, k1, m1, ha, h0, hload, hl⟩
    · rw [if_neg htype] at hap ⊢
      exact ih him hU hld hnext hap hl
    rw [if_pos htype] at hap ⊢
    have hoffset : (Seg.ofHdr (progHdr data off)).off < 2 ^ 32 := BitVec.isLt _
    generalize Seg.ofHdr (progHdr data off) = g at *
    obtain ⟨-, hnew, him1, hg⟩ :=
      him.allocuvm_grew hfree (Nat.le_of_lt him.size) (Nat.le_refl _) rfl (.inl rfl) ha h0
    have hbytes := loaduvm_bytes hfree him1 (by omega) hoffset hload
    have happ : gs ++ g :: segments data n (addU off proghdrSize) =
        gs ++ [g] ++ segments data n (addU off proghdrSize) := by simp
    have hld1 : Loaded data (gs ++ [g]) ⟨m1, s1.pd⟩ sz1 := by
      refine (hld.grew hg).segment halign hfile hnew (fun g' hg' => ?_) hbytes
      exact (List.pairwise_append.mp hap).2.2 g' hg' g (List.mem_cons_self ..)
    rw [happ] at hap ⊢
    refine ih (loaduvm_image him1 (by omega) hload) (fun u hu => ?_) hld1 hnext hap hl
    by_cases hlt : u < pages sz
    · exact (hg.pte u hlt).symm ▸ hU u hlt
    · exact hg.user u (by omega) hu

end

end Xv6Clock
