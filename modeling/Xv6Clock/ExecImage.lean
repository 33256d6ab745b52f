/-
  File:      Xv6Clock/ExecImage.lean
  Subject:   The image that exec builds, and exec as a step of its process.

  While exec builds, the new page table is a list of present, plain pages up to the size and
  nothing above, made of frames that were free when it started (`Image`). Every exit either frees
  all of it or commits it.
-/
import Xv6Clock.Account

namespace Xv6Clock

variable (cfg : Config)

/-! ## 1. The image -/

/-- **A page table under construction**, of size `sz`, from the allocator state `m`. -/
structure Image (m : Kmem) (s : Vm) (sz : Nat) : Prop where
  size : sz < kernBase
  took : Took m s.m s.pd
  low : ∀ u, u < pages sz → has (s.pd.pteAt u) pteP = true ∧ has (s.pd.pteAt u) pteE = false ∧
    has (s.pd.pteAt u) pteW = true
  rest : ∀ u, pages sz ≤ u → u < 2 ^ 19 → s.pd.pteAt u = 0#32
  high : KernHigh s.pd
  dev : ∀ u, 0xFE000 ≤ u → u < 2 ^ 20 → s.pd.tabAt u = true
  gap : ∀ u, 0x8E000 ≤ u → u < 0xFE000 → s.pd.tabAt u = false

variable {m m' m0 : Kmem} {s s' : Vm} {sz n fuel : Nat} {ip : Inode} {p p' p0 : Proc} {r : Int}
  {path : List Byte}

theorem KernDir.image {pd : PgDir} (hd : KernDir pd) (ht : Took m m' pd) : Image m ⟨m', pd⟩ 0 where
  size := by decide
  took := ht
  low u hu := by
    unfold pages at hu
    omega
  rest u _ hu := hd.pte u hu
  high := hd.high
  dev := hd.dev
  gap u h1 h2 := hd.tab u (Or.inr ⟨h1, h2⟩)

section
variable (h : Image m s sz)
include h

/-- Bytes stored into a page of the image. -/
theorem Image.setPage {f : Frame} (hf : 1 ≤ s.pd.holds f) (pg : Page) :
    Image m ⟨s.m.setPage f pg, s.pd⟩ sz where
  size := h.size
  took := by
    refine ⟨h.took.count, fun g hg => ?_, h.took.twice⟩
    have hne : g ≠ f := by
      rintro rfl
      have := h.took.count g
      omega
    exact (Kmem.setPage_mem_ne _ _ hne).trans (h.took.mem g hg)
  low := h.low
  rest := h.rest
  high := h.high
  dev := h.dev
  gap := h.gap

/-- More pages. -/
theorem Image.alloc {sz' : Nat} (hle : sz ≤ sz') (hk : sz' < kernBase)
    (ha : Allocd s s' (pages sz) (pages sz')) : Image m s' sz' where
  size := hk
  took := by
    refine ⟨fun f => ?_, fun f hf => ?_, fun hs => ?_⟩
    · rw [ha.count f, h.took.count f]
    · have := h.took.count f
      rw [ha.mem f (by omega), h.took.mem f hf]
    · rw [ha.twice, h.took.twice hs]
  low u hu := by
    by_cases hlo : u < pages sz
    · rw [ha.pte u (by omega)]
      exact h.low u hlo
    · obtain ⟨f, hf, -⟩ := ha.new u (by omega) hu
      rw [hf, has_allocEntry f (by decide), has_allocEntry f (by decide),
        has_allocEntry f (by decide)]
      decide
  rest u hu1 hu2 := by
    have hpp : pages sz ≤ pages sz' := by unfold pages; omega
    rw [ha.pte u (by omega)]
    exact h.rest u (by omega) hu2
  high u hu := by
    have := pages_le hk
    rw [ha.pte u (by omega)]
    exact h.high u hu
  dev u h1 h2 := ha.tab u (h.dev u h1 h2)
  gap u h1 h2 := by
    cases ht : s'.pd.tabAt u with
    | false => rfl
    | true =>
      have := pages_le hk
      rcases ha.only u ht with h3 | ⟨x, -, h3, h4⟩
      · rw [h.gap u h1 h2] at h3
        cases h3
      · omega

/-- A failed allocation leaves the image as it was. -/
theorem Image.undone {hi : Nat} (hhi : hi ≤ 2 ^ 19) (hu : AllocUndone s s' (pages sz) hi) :
    Image m s' sz where
  size := h.size
  took := by
    refine ⟨fun f => ?_, fun f hf => ?_, fun hs => ?_⟩
    · rw [hu.count f, h.took.count f]
    · have e1 := h.took.count f
      have e2 := hu.count f
      rw [hu.mem f (by omega) (by omega), h.took.mem f hf]
    · rw [hu.twice fun f => by rw [h.took.count f]; exact hs f, h.took.twice hs]
  low u hlt := by
    rcases hu.pte u with e | ⟨h1, -⟩
    · rw [e]
      exact h.low u hlt
    · omega
  rest u h1 h2 := by
    rcases hu.pte u with e | ⟨-, -, e⟩
    · rw [e]
      exact h.rest u h1 h2
    · exact e
  high u hlt := by
    rcases hu.pte u with e | ⟨-, -, e⟩
    · rw [e]
      exact h.high u hlt
    · rw [e]
      exact ⟨has_zero _, has_zero _⟩
  dev u h1 h2 := hu.tab u (h.dev u h1 h2)
  gap u h1 h2 := by
    cases ht : s'.pd.tabAt u with
    | false => rfl
    | true =>
      rcases hu.only u ht with h3 | ⟨x, -, h3, h4⟩
      · rw [h.gap u h1 h2] at h3
        cases h3
      · omega

/-- `allocuvm` on the image: it grows, or stays when the call fails or asks for less. -/
theorem Image.allocuvm {newsz r : Nat} (ha : allocuvm cfg s sz newsz = .ok (r, s')) :
    (r = 0 ∧ ∃ z, Image m s' z) ∨ (sz ≤ r ∧ newsz ≤ r ∧ Image m s' r) := by
  rcases allocuvm_ok (Nat.le_of_lt h.size) ha with ⟨hk, hle, rfl, hal⟩ | ⟨-, hlt, rfl, rfl⟩ |
    ⟨-, rfl, rfl⟩ | ⟨hk, -, rfl, hu⟩
  · exact Or.inr ⟨hle, Nat.le_refl _, h.alloc hle hk hal⟩
  · exact Or.inr ⟨Nat.le_refl _, Nat.le_of_lt hlt, h⟩
  · exact Or.inl ⟨rfl, sz, h⟩
  · exact Or.inl ⟨rfl, sz, h.undone (pages_le hk) hu⟩

/-- The image's pages are counted. -/
theorem Image.holds {u : Nat} (hu : u < pages sz) : 1 ≤ s.pd.holds (pteFrame (s.pd.pteAt u)) := by
  have := pages_le h.size
  exact PgDir.one_le_holds (mapped_of_P (h.low u hu).1) (by omega)

end

/-! ## 2. Filling it -/

theorem loaduvmLoop_image {v off fsz : Nat} :
    ∀ {k k' i : Nat} {s : Vm} {m' : Kmem} {b : Bool}, Image m s sz → v * 4096 + fsz ≤ sz →
    i % 4096 = 0 → loaduvmLoop ip (v * 4096) off fsz n k s i = .ok (b, k', m') →
    Image m ⟨m', s.pd⟩ sz := by
  induction n with
  | zero =>
    intro k k' i s m' b h _ _ hl
    cases hl
    exact h
  | succ n ih =>
    intro k k' i s m' b h hsz hi hl
    unfold loaduvmLoop at hl
    split at hl
    · cases hl
      exact h
    rename_i hlt
    have hk := h.size
    unfold kernBase at hk
    have hv : vpn (addU (v * 4096) i) = v + i / 4096 := by
      unfold vpn addU
      omega
    split at hl
    · cases hl
    rename_i pte hw
    obtain ⟨rfl, -⟩ := PgDir.walk_some hw
    rw [hv] at hl
    have hf := h.holds (u := v + i / 4096) (by unfold pages; omega)
    simp only at hl
    generalize (if fsz - i < pgSize then fsz - i else pgSize) = count at hl
    split at hl
    · cases hl
      exact h
    · rename_i bs hbs
      have h1 := h.setPage hf (overlay (s.m.mem (pteFrame (s.pd.pteAt (v + i / 4096)))) 0 bs)
      split at hl
      · cases hl
        exact h1
      · have hi' : (i + pgSize) % 4096 = 0 := by
          unfold pgSize
          omega
        have h2 := ih h1 hsz hi' hl
        exact h2

theorem loaduvm_image {k k' addr off fsz : Nat} {b : Bool} (h : Image m s sz)
    (hsz : addr + fsz ≤ sz) (hl : loaduvm ip k s addr off fsz = .ok (b, k', m')) :
    Image m ⟨m', s.pd⟩ sz := by
  unfold loaduvm at hl
  split at hl
  · cases hl
  · rename_i ha
    have ha' : addr % 4096 = 0 := by simpa [pgSize] using ha
    have e : addr = addr / 4096 * 4096 := by omega
    rw [e] at hl hsz
    exact loaduvmLoop_image h hsz rfl hl

/-- **The loop over the program headers** builds an image, whatever the file holds. -/
theorem execLoad_image : ∀ {s s' : Vm} {sz sz' off k : Nat}
    {b : Bool}, Image m s sz → execLoad cfg ip n s sz off k = .ok (b, s', sz') →
    (b = false ∧ ∃ z, Image m s' z) ∨ (b = true ∧ Image m s' sz') := by
  induction n with
  | zero =>
    intro s s' sz sz' off k b h hl
    cases hl
    exact Or.inr ⟨rfl, h⟩
  | succ n ih =>
    intro s s' sz sz' off k b h hl
    unfold execLoad at hl
    split at hl
    · cases hl
      exact Or.inl ⟨rfl, _, h⟩
    rename_i ph hph
    split at hl
    · cases hl
      exact Or.inl ⟨rfl, _, h⟩
    split at hl
    · exact ih h hl
    split at hl
    · cases hl
      exact Or.inl ⟨rfl, _, h⟩
    rename_i hmf
    split at hl
    · cases hl
      exact Or.inl ⟨rfl, _, h⟩
    rename_i hwrap
    obtain ⟨⟨sz1, s1⟩, h1, h2⟩ := Lib.bind_eq_ok.mp hl
    have hal := h.allocuvm cfg h1
    dsimp only at h2
    split at h2
    · cases h2
      rcases hal with ⟨-, hz⟩ | ⟨-, -, hz⟩
      · exact Or.inl ⟨rfl, hz⟩
      · exact Or.inl ⟨rfl, _, hz⟩
    rename_i h0
    obtain ⟨-, hnew, him⟩ := hal.resolve_left fun hc => h0 hc.1
    split at h2
    · cases h2
      exact Or.inl ⟨rfl, _, him⟩
    · obtain ⟨⟨b1, k1, m1⟩, h3, h4⟩ := Lib.bind_eq_ok.mp h2
      -- the segment's bytes lie inside the pages just allocated
      have hfit : field32 ph 8 + field32 ph 16 ≤ sz1 := by
        have l1 : field32 ph 8 < 2 ^ 32 := BitVec.isLt _
        have l2 : field32 ph 20 < 2 ^ 32 := BitVec.isLt _
        unfold addU at hwrap hnew
        omega
      have him1 := loaduvm_image him hfit h3
      dsimp only at h4
      cases b1 with
      | false =>
        cases h4
        exact Or.inl ⟨rfl, _, him1⟩
      | true => exact ih him1 h4

/-- `copyout` stores into user pages of the image only. -/
theorem copyoutLoop_image : ∀ {s s' : Vm} {va : Nat} {buf : List Byte}
    {r : Int}, Image m s sz → copyoutLoop n s va buf = .ok (r, s') →
    Image m s' sz ∧ s'.pd = s.pd := by
  induction n with
  | zero =>
    intro s s' va buf r h hc
    cases hc
    exact ⟨h, rfl⟩
  | succ n ih =>
    intro s s' va buf r h hc
    unfold copyoutLoop at hc
    split at hc
    · cases hc
      exact ⟨h, rfl⟩
    obtain ⟨o, h1, h2⟩ := Lib.bind_eq_ok.mp hc
    cases o with
    | none =>
      cases h2
      exact ⟨h, rfl⟩
    | some f =>
      unfold uva2ka at h1
      split at h1
      · cases h1
      · rename_i pte hw
        split at h1
        · cases h1
        · rename_i hm
          split at h1
          · cases h1
          · rename_i hU
            cases h1
            have hm' : mapped (s.pd.pteAt pte) = true := by simpa using hm
            have hU' : has (s.pd.pteAt pte) pteU = true := by simpa using hU
            have hf := PgDir.one_le_holds hm' (h.high.lt hU')
            obtain ⟨h3, h4⟩ := ih (h.setPage hf _) h2
            exact ⟨h3, h4⟩

/-- The guard page below the stack loses PTE_U. -/
theorem clearpteu_image {uva : Nat} (h : Image m s sz) (hv : vpn uva < pages sz)
    (hc : clearpteu s uva = .ok s') : Image m s' sz := by
  unfold clearpteu at hc
  split at hc
  · cases hc
  rename_i pte hw
  obtain ⟨rfl, ht⟩ := PgDir.walk_some hw
  cases hc
  have hlt := pages_le h.size
  have e1 : ∀ x, x &&& pteU = 0#32 →
      has (s.pd.pteAt (vpn uva) &&& ~~~pteU) x = has (s.pd.pteAt (vpn uva)) x :=
    fun x hx => has_clear_of hx
  have e2 : pteFrame (s.pd.pteAt (vpn uva) &&& ~~~pteU) = pteFrame (s.pd.pteAt (vpn uva)) :=
    pteFrame_clear _ (by decide)
  have hpte : ∀ u, (s.mark (vpn uva) (s.pd.pteAt (vpn uva) &&& ~~~pteU)).pd.pteAt u =
      if u = vpn uva then s.pd.pteAt (vpn uva) &&& ~~~pteU else s.pd.pteAt u :=
    fun u => PgDir.pteAt_store _ _ ht
  have hholds : ∀ f, (s.mark (vpn uva) (s.pd.pteAt (vpn uva) &&& ~~~pteU)).pd.holds f =
      s.pd.holds f := by
    refine PgDir.holds_store_same ?_ e2 (vpn_lt uva)
    rw [mapped_eq, mapped_eq, e1 _ (by decide), e1 _ (by decide)]
  refine ⟨h.size, ⟨fun f => ?_, h.took.mem, h.took.twice⟩, fun u hu => ?_, fun u h1 h2 => ?_,
    fun u hu => ?_, fun u h1 h2 => ?_, fun u h1 h2 => ?_⟩
  · rw [hholds f]
    exact h.took.count f
  · rw [hpte u]
    split
    · rename_i he
      rw [e1 _ (by decide), e1 _ (by decide), e1 _ (by decide), ← he]
      exact h.low u hu
    · exact h.low u hu
  · rw [hpte u, if_neg (by omega)]
    exact h.rest u h1 h2
  · rw [hpte u, if_neg (by omega)]
    exact h.high u hu
  · exact (PgDir.tabAt_store _ _ _ _).trans (h.dev u h1 h2)
  · exact (PgDir.tabAt_store _ _ _ _).trans (h.gap u h1 h2)

/-! ## 3. exec as a step of its process -/

/-- The image and the process that builds it. Where the process faults on address 0 meanwhile,
    `m1` is the allocator as it would be with the faults alone. -/
def Building (m0 : Kmem) (p0 : Proc) (s : Vm) (p : Proc) (sz : Nat) : Prop :=
  ∃ m1, FaultStep cfg m0 p0 m1 p ∧ Image m1 s sz

theorem FaultStep.free (h : FaultStep cfg m p m' p') (f : Frame) :
    m'.free f = m.free f := congrArg (List.count f) h.list

/-- A fault of the running process while the image is built. -/
theorem Building.fault (h : Building cfg m0 p0 s p sz) (hf : FaultStep cfg s.m p m' p') :
    Building cfg m0 p0 ⟨m', s.pd⟩ p' sz := by
  obtain ⟨m1, h1, h2⟩ := h
  have hfree := hf.free cfg
  have hle : ∀ f, s.m.free f ≤ m1.free f := fun f => by
    have := h2.took.count f
    omega
  have hstep : FaultStep cfg m1 p ⟨m1.freelist, m'.mem, m1.twice⟩ p' := by
    refine ⟨⟨fun f => ?_, fun f h3 h4 => ?_, fun _ => rfl, hf.kstack, hf.state, hf.parent,
      hf.ofile, hf.sane⟩, hf.pd, hf.sz, hf.queue, rfl, rfl, hf.holds⟩
    · rw [hf.holds f]
      rfl
    · have := hle f
      exact (hf.mem f (by omega) h4).trans (h2.took.mem f h3)
  refine ⟨_, h1.trans cfg hstep, ⟨h2.size, ⟨fun f => ?_, fun f _ => rfl, fun hs => ?_⟩, h2.low,
    h2.rest, h2.high, h2.dev, h2.gap⟩⟩
  · have e := h2.took.count f
    have e1 := hfree f
    change m'.free f + s.pd.holds f = m1.free f
    omega
  · exact hf.once.trans (h2.took.twice hs)

theorem copyoutUser_building {va : Nat} {buf : List Byte} (h : Building cfg m0 p0 s p sz)
    (hc : copyoutUser cfg fuel s p va buf = .ok (r, s', p')) : Building cfg m0 p0 s' p' sz := by
  unfold copyoutUser at hc
  split at hc
  · rename_i r1 s1 h1
    cases hc
    obtain ⟨m1, h2, h3⟩ := h
    exact ⟨m1, h2, (copyoutLoop_image h3 h1).1⟩
  · obtain ⟨⟨w, m1, p1⟩, h1, h2⟩ := Lib.bind_eq_ok.mp hc
    dsimp only at h2
    split at h2
    · cases h2
      obtain ⟨m2, h3, h4⟩ := h
      exact Building.fault cfg ⟨m2, h3, h4⟩ (loadNull_step cfg h3.sane h1)
    · cases h2
  · cases hc

theorem pushArgs_building
    {args : List (List Byte)} : ∀ {s s' : Vm} {p p' : Proc} {sp : Nat} {us : List Nat}
    {r : Option (Nat × List Nat)}, Building cfg m0 p0 s p sz →
    pushArgs cfg fuel args s p sp us = .ok (r, s', p') → Building cfg m0 p0 s' p' sz := by
  induction args with
  | nil =>
    intro s s' p p' sp us r h hp
    cases hp
    exact h
  | cons arg args ih =>
    intro s s' p p' sp us r h hp
    unfold pushArgs at hp
    split at hp
    · cases hp
      exact h
    · obtain ⟨⟨r1, s1, p1⟩, h1, h2⟩ := Lib.bind_eq_ok.mp hp
      have hb := copyoutUser_building cfg h h1
      dsimp only at h2
      split at h2
      · cases h2
        exact hb
      · exact ih hb h2

/-- exec that fails gives the image back. -/
theorem Building.bad (h : Building cfg m0 p0 s p sz) (hb : execBad cfg s p = .ok (r, m', p')) :
    r = -1 ∧ ProcStep m0 p0 m' p' ∧ PdRecoded p0.pgdir p'.pgdir ∧ p'.sz = p0.sz ∧
      (QueueOk cfg p0 → QueueOk cfg p') := by
  unfold execBad at hb
  obtain ⟨m2, h1, h2⟩ := Lib.bind_eq_ok.mp hb
  cases h2
  obtain ⟨m1, h3, h4⟩ := h
  have hr := h4.took.undo h1
  refine ⟨rfl, h3.toProcStep.trans ⟨fun f => ?_, fun f h5 _ => hr.mem f h5, fun hs => ?_, rfl, rfl,
    rfl, rfl, h3.sane⟩, h3.pd, h3.sz, h3.queue⟩
  · rw [hr.free f]
  · exact hr.twice fun f => Nat.le_trans (Nat.le_add_right _ _) (hs f)

/-- `mencrypt` over the committed image leaves nothing of the user's in plain text. -/
theorem Image.sealed (h : Image m s sz) (he : mencrypt s 0 (pages sz : Nat) = .ok (r, s')) :
    Recoded s s' ∧ Shape s'.pd sz ∧ ∀ u, plain (s'.pd.pteAt u) = false := by
  have hrec := (mencrypt_flips h.high he).recoded
  have hle := pages_le h.size
  have hin : ∀ u, u < pages sz → InRange (0 / 4096) ((pages sz : Nat) : Int).toNat u :=
    fun u hu => ⟨u, by omega, by omega⟩
  -- nothing in the image is encrypted yet, and what is the user's lies below the size
  have hE : ∀ u, has (s.pd.pteAt u) pteE = false := by
    intro u
    by_cases h1 : u < pages sz
    · exact (h.low u h1).2.1
    · by_cases h2 : u < 2 ^ 19
      · rw [h.rest u (by omega) h2, has_zero]
      · exact (h.high u (by omega)).2
  have hU : ∀ u, has (s.pd.pteAt u) pteU = true → u < pages sz := by
    intro u hu
    by_contra hc
    rw [h.rest u (by omega) (h.high.lt hu), has_zero] at hu
    cases hu
  rcases mencrypt_ok he with ⟨-, -, u, hr, hu, hn⟩ | ⟨-, henc⟩
  · rw [mapped_of_P (h.low u (hU u hu)).1] at hn
    cases hn
  · refine ⟨hrec, ⟨fun u hu => ?_, fun u h1 h2 => ?_, fun u hu => ?_, hrec.kernHigh h.high,
      fun u h1 h2 => (hrec.tab u).trans (h.dev u h1 h2)⟩, fun u => ?_⟩
    · obtain ⟨h1, h2, h3⟩ := h.low u hu
      exact ⟨(hrec.entry u).one (by rw [h1, h2]; rfl), (hrec.entry u).write.trans h3⟩
    · exact (hrec.entry u).zero (h.rest u h1 h2)
    · rw [(hrec.entry u).user]
      by_contra hn
      rw [henc.same u (fun hc => hn hc.2.1), hE u] at hu
      cases hu
    · by_cases hu : has (s.pd.pteAt u) pteU = true
      · rw [(henc.sealed u (hin u (hU u hu)) hu (hE u)).2, plain_seal]
      · rw [henc.same u (fun hc => hu hc.2.1)]
        have hu' : has (s.pd.pteAt u) pteU = false := by simpa using hu
        simp [plain, hu']

/-- exec that commits. -/
theorem Building.commit {entry sp : Nat} (h : Building cfg m0 p0 s p sz)
    (hc : execCommit cfg s p path sz entry sp = .ok (r, m', p')) :
    r = 0 ∧ ProcStep m0 p0 m' p' ∧ ExecFresh p' := by
  unfold execCommit at hc
  obtain ⟨⟨x, s2⟩, h1, h2⟩ := Lib.bind_eq_ok.mp hc
  obtain ⟨m2, h3, h4⟩ := Lib.bind_eq_ok.mp h2
  cases h4
  obtain ⟨m1, h5, h6⟩ := h
  have hlen : (if sz % pgSize = 0 then sz / pgSize else sz / pgSize + 1) = pages sz := by
    unfold pages pgSize
    split <;> omega
  rw [hlen] at h1
  obtain ⟨hrec, hshape, hplain⟩ := h6.sealed h1
  obtain ⟨hf1, hf2, hf3⟩ := freevm_ok h3
  have hfree : ∀ f, s2.m.free f = s.m.free f := fun f => congrArg (List.count f) hrec.list
  -- the old image goes back, the new one was taken from the list
  refine ⟨rfl, h5.toProcStep.trans ⟨fun f => ?_, fun f h7 h8 => ?_, fun hs => ?_, rfl, rfl, rfl,
    rfl, ⟨hshape.high, h6.size⟩⟩, ⟨⟨hshape.high, h6.size⟩, hshape, hplain, rfl, rfl⟩⟩
  · have e1 := hf1 f
    have e2 := h6.took.count f
    have e3 := hfree f
    have e4 := hrec.holds f
    simp only at e1 ⊢
    omega
  · have e2 := h6.took.count f
    have e3 : s.pd.holds f = 0 := by omega
    rw [hf2 f h8]
    exact (hrec.mem f e3).trans (h6.took.mem f h7)
  · have hs1 : ∀ f, m1.free f ≤ 1 := fun f => Nat.le_trans (Nat.le_add_right _ _) (hs f)
    rw [hf3 fun f => ?_]
    · exact hrec.twice.trans (h6.took.twice hs1)
    · have e1 := hs f
      have e2 := h6.took.count f
      have e3 := hfree f
      simp only
      omega

/-- What exec does to its process when it returns: on failure the process has at most faulted; on
    success it has a fresh image. -/
structure Execd (m : Kmem) (p : Proc) (r : Int) (m' : Kmem) (p' : Proc) : Prop where
  step : ProcStep m p m' p'
  outcome : r = 0 ∧ ExecFresh p' ∨ r = -1 ∧ PdRecoded p.pgdir p'.pgdir ∧ p'.sz = p.sz ∧
    (QueueOk cfg p → QueueOk cfg p')

theorem Building.execBad_ok
    (h : Building cfg m0 p0 s p sz) (hb : execBad cfg s p = .ok (r, m', p')) :
    Execd cfg m0 p0 r m' p' := by
  obtain ⟨h1, h2, h3⟩ := h.bad cfg hb
  exact ⟨h2, Or.inr ⟨h1, h3⟩⟩

/-- The two stack pages: failure leaves some image, success one of the new size. -/
theorem stack_image {s1 : Vm} {sz1 : Nat} (him : Image m0 s sz)
    (h : allocuvm cfg s (pgRoundUp sz) (addU (pgRoundUp sz) (2 * pgSize)) = .ok (sz1, s1)) :
    (sz1 = 0 ∧ ∃ z, Image m0 s1 z) ∨ (8192 ≤ sz1 ∧ Image m0 s1 sz1) := by
  have hk := him.size
  have hr : pgRoundUp sz = pages sz * 4096 := pgRoundUp_pages (Nat.le_of_lt hk)
  have hpp : pages (pgRoundUp sz) = pages sz := by
    rw [hr]
    unfold pages
    omega
  have hle := pages_le hk
  have hnew : addU (pgRoundUp sz) (2 * pgSize) = pages sz * 4096 + 8192 := by
    unfold addU pgSize
    rw [hr]
    omega
  have hold : pgRoundUp sz ≤ kernBase := by
    rw [hr]
    simp only [kernBase]
    omega
  rw [hnew] at h
  rcases allocuvm_ok hold h with ⟨hlt, -, rfl, ha⟩ | ⟨-, hlt, -, -⟩ | ⟨-, rfl, rfl⟩ |
    ⟨hlt, -, rfl, hu⟩
  · rw [hpp] at ha
    refine Or.inr ⟨by omega, him.alloc ?_ hlt ha⟩
    unfold pages
    omega
  · omega
  · exact Or.inl ⟨rfl, sz, him⟩
  · rw [hpp] at hu
    exact Or.inl ⟨rfl, sz, him.undone (pages_le hlt) hu⟩

/-- The guard page lies in the image. -/
theorem guard_lt (h : Image m0 s sz) (h8k : 8192 ≤ sz) : vpn (subU sz (2 * pgSize)) < pages sz := by
  have hk := h.size
  unfold kernBase at hk
  unfold vpn subU pages pgSize
  omega

theorem execStack_ok {argv : List (List Byte)} {entry : Nat} (hp : Sane p0) (him : Image m0 s sz)
    (h : execStack cfg fuel s p0 path argv sz entry = .ok (r, m', p')) :
    Execd cfg m0 p0 r m' p' := by
  unfold execStack at h
  obtain ⟨⟨sz1, s1⟩, h1, h2⟩ := Lib.bind_eq_ok.mp h
  have hal := stack_image cfg him h1
  have hstart : ∀ {s : Vm} {z : Nat}, Image m0 s z → Building cfg m0 p0 s p0 z :=
    fun hz => ⟨m0, FaultStep.refl cfg hp, hz⟩
  dsimp only at h2
  split at h2
  · rcases hal with ⟨-, z, hz⟩ | ⟨hz, him1⟩
    · exact (hstart hz).execBad_ok cfg h2
    · exact (hstart him1).execBad_ok cfg h2
  rename_i h0
  obtain ⟨h8k, him1⟩ := hal.resolve_left fun hc => h0 hc.1
  obtain ⟨s2, h3, h4⟩ := Lib.bind_eq_ok.mp h2
  have him2 := clearpteu_image him1 (guard_lt him1 h8k) h3
  obtain ⟨⟨o, s3, p3⟩, h5, h6⟩ := Lib.bind_eq_ok.mp h4
  have hb3 := pushArgs_building cfg (hstart him2) h5
  dsimp only at h6
  cases o with
  | none => exact hb3.execBad_ok cfg h6
  | some x =>
    obtain ⟨sp, us⟩ := x
    dsimp only at h6
    obtain ⟨⟨r4, s4, p4⟩, h7, h8⟩ := Lib.bind_eq_ok.mp h6
    have hb4 := copyoutUser_building cfg hb3 h7
    dsimp only at h8
    split at h8
    · exact hb4.execBad_ok cfg h8
    · obtain ⟨h9, h10, h11⟩ := hb4.commit cfg h8
      exact ⟨h10, Or.inl ⟨h9, h11⟩⟩

/-- **How exec ends**: before it has an image, with one that is given back, or from the stack
    on. -/
theorem exec_cases {ip : Option Inode} {argv : List (List Byte)}
    (h : exec cfg fuel m p ip path argv = .ok (r, m', p')) :
    (r = -1 ∧ p' = p ∧ Restored m m') ∨
      (∃ s z, Image m s z ∧ execBad cfg s p = .ok (r, m', p')) ∨
        ∃ s sz entry, Image m s sz ∧
          execStack cfg fuel s p path argv sz entry = .ok (r, m', p') := by
  unfold exec at h
  split at h
  · cases h
    exact .inl ⟨rfl, rfl, Restored.refl m⟩
  split at h
  · cases h
    exact .inl ⟨rfl, rfl, Restored.refl m⟩
  split at h
  · cases h
    exact .inl ⟨rfl, rfl, Restored.refl m⟩
  · split at h
    · cases h
      exact .inl ⟨rfl, rfl, Restored.refl m⟩
    · obtain ⟨⟨o, m1⟩, h1, h2⟩ := Lib.bind_eq_ok.mp h
      dsimp only at h2
      rcases setupkvm_ok cfg h1 with ⟨rfl, hr⟩ | ⟨pd, rfl, hd, ht⟩
      · cases h2
        exact .inl ⟨rfl, rfl, hr⟩
      · dsimp only at h2
        obtain ⟨⟨b, s, sz⟩, h3, h4⟩ := Lib.bind_eq_ok.mp h2
        dsimp only at h4
        rcases execLoad_image cfg (hd.image ht) h3 with ⟨rfl, z, hz⟩ | ⟨rfl, hz⟩
        · exact .inr (.inl ⟨s, z, hz, h4⟩)
        · exact .inr (.inr ⟨s, sz, _, hz, h4⟩)

/-- **exec as a step of its process.** -/
theorem exec_ok {ip : Option Inode} {argv : List (List Byte)} (hp : Sane p)
    (h : exec cfg fuel m p ip path argv = .ok (r, m', p')) : Execd cfg m p r m' p' := by
  rcases exec_cases cfg h with ⟨rfl, rfl, hr⟩ | ⟨s, z, hz, hb⟩ | ⟨s, sz, entry, hz, hs⟩
  · refine ⟨⟨fun f => ?_, fun f h3 _ => hr.mem f h3, fun hs => ?_, rfl, rfl, rfl, rfl, hp⟩,
      Or.inr ⟨rfl, PdRecoded.refl _, rfl, fun h => h⟩⟩
    · rw [hr.free f]
    · exact hr.twice fun f => Nat.le_trans (Nat.le_add_right _ _) (hs f)
  · have hb' : Building cfg m p s p z := ⟨m, FaultStep.refl cfg hp, hz⟩
    exact hb'.execBad_ok cfg hb
  · exact execStack_ok cfg hp hz hs

end Xv6Clock
