/-
  File:      Xv6Clock/ExecTotal.lean
  Subject:   exec returns: with arguments below 32 MB it reaches no panic and no missing page-table
             page.

  The stack pointer of the new image starts at its size and is lowered by each argument. Lowered
  below 0 it wraps to the top of the address space, where the devices are mapped: the copy is
  refused there. An argument of more than 32 MB takes it below the devices, where the image has no
  page-table pages.
-/
import Xv6Clock.ExecImage

namespace Xv6Clock

variable (cfg : Config)

/-- Every argument is shorter than the device space. -/
def ArgsShort (argv : List (List Byte)) : Prop := ∀ a, a ∈ argv → a.length + 4 ≤ 2 ^ 25

instance (argv : List (List Byte)) : Decidable (ArgsShort argv) :=
  inferInstanceAs (Decidable (∀ a, a ∈ argv → a.length + 4 ≤ 2 ^ 25))

/-- The allocator handed out whatever is free or in the page table. -/
def AllManaged (m : Kmem) (pd : PgDir) : Prop := ∀ f, 1 ≤ m.free f + pd.holds f → managed cfg f

variable {cfg}

/-! ## 1. Loading -/

variable {m : Kmem} {s : Vm} {sz n : Nat} {pd : PgDir} {p : Proc}

section
variable (h : Image m s sz)
include h

theorem Image.frames (hm : AllManaged cfg m pd) (f : Frame) (hf : 1 ≤ s.m.free f + s.pd.holds f) :
    managed cfg f := by
  have e := h.took.count f
  exact hm f (by omega)

theorem Image.freevm_total (hm : AllManaged cfg m pd) : ∃ m', freevm cfg s = .ok m' := by
  cases hf : freevm cfg s with
  | ok m' => exact ⟨m', rfl⟩
  | error e =>
    obtain ⟨f, h1, h2⟩ := freevm_error hf
    exact absurd (h.frames hm f (by omega)) h2

theorem Image.execBad_total (hm : AllManaged cfg m pd) (p : Proc) :
    ∃ x, execBad cfg s p = .ok x := by
  obtain ⟨m', h1⟩ := h.freevm_total hm
  exact ⟨_, by rw [execBad, h1]; rfl⟩

theorem Image.allocuvm_total {oldsz : Nat} (hm : AllManaged cfg m pd) (hold : oldsz ≤ kernBase)
    (hp : pages sz ≤ pages oldsz) (newsz : Nat) :
    ∃ x, Xv6Clock.allocuvm cfg s oldsz newsz = .ok x := by
  cases ha : Xv6Clock.allocuvm cfg s oldsz newsz with
  | ok x => exact ⟨x, rfl⟩
  | error e =>
    exfalso
    obtain ⟨hk, ⟨u, h1, h2, h3⟩ | ⟨f, h1, h2⟩⟩ := allocuvm_error hold ha
    · have := pages_le hk
      rw [h.rest u (by omega) (by omega), mapped_zero] at h3
      cases h3
    · exact h2 (h.frames hm f h1)

end

theorem loaduvmLoop_total {ip : Inode} {v off fsz : Nat} :
    ∀ {k i : Nat} {s : Vm}, Image m s sz → v * 4096 + fsz ≤ sz → i % 4096 = 0 →
    ∃ x, loaduvmLoop ip (v * 4096) off fsz n k s i = .ok x := by
  induction n with
  | zero => exact fun {k i s} _ _ _ => ⟨_, rfl⟩
  | succ n ih =>
    intro k i s h hsz hi
    unfold loaduvmLoop
    split
    · exact ⟨_, rfl⟩
    rename_i hlt
    have hk := h.size
    unfold kernBase at hk
    have hv : vpn (addU (v * 4096) i) = v + i / 4096 := by
      unfold vpn addU
      omega
    have hu : v + i / 4096 < pages sz := by
      unfold pages
      omega
    have ht : s.pd.tabAt (vpn (addU (v * 4096) i)) = true := by
      rw [hv]
      exact PgDir.tabAt_of_mapped (mapped_of_P (h.low _ hu).1)
    rw [PgDir.walk_of_tabAt ht, hv]
    simp only
    generalize (if fsz - i < pgSize then fsz - i else pgSize) = count
    split
    · exact ⟨_, rfl⟩
    · rename_i bs hbs
      split
      · exact ⟨_, rfl⟩
      · exact ih (h.setPage (h.holds hu) _) hsz (by unfold pgSize; omega)

theorem loaduvm_total (ip : Inode) (k off : Nat) {addr fsz : Nat} (h : Image m s sz)
    (hsz : addr + fsz ≤ sz) (ha : ¬ addr % pgSize ≠ 0) :
    ∃ x, loaduvm ip k s addr off fsz = .ok x := by
  have ha' : addr % 4096 = 0 := by simpa [pgSize] using ha
  unfold loaduvm
  rw [if_neg ha, show addr = addr / 4096 * 4096 by omega]
  exact loaduvmLoop_total h (by omega) rfl

theorem execLoad_total {ip : Inode} (hm : AllManaged cfg m pd) :
    ∀ {s : Vm} {sz off k : Nat}, Image m s sz → ∃ x, execLoad cfg ip n s sz off k = .ok x := by
  induction n with
  | zero => exact fun {s sz off k} _ => ⟨_, rfl⟩
  | succ n ih =>
    intro s sz off k h
    unfold execLoad
    split
    · exact ⟨_, rfl⟩
    rename_i ph hph
    split
    · exact ⟨_, rfl⟩
    split
    · exact ih h
    split
    · exact ⟨_, rfl⟩
    rename_i hmf
    split
    · exact ⟨_, rfl⟩
    rename_i hwrap
    obtain ⟨⟨sz1, s1⟩, h1⟩ := h.allocuvm_total hm (Nat.le_of_lt h.size)
      (Nat.le_refl _) (addU (field32 ph 8) (field32 ph 20))
    have hal := h.allocuvm cfg h1
    rw [h1, Lib.ok_bind]
    simp only
    split
    · exact ⟨_, rfl⟩
    rename_i h0
    obtain ⟨-, hnew, him⟩ := hal.resolve_left fun hc => h0 hc.1
    split
    · exact ⟨_, rfl⟩
    · rename_i halign
      have hfit : field32 ph 8 + field32 ph 16 ≤ sz1 := by
        have l1 : field32 ph 8 < 2 ^ 32 := BitVec.isLt _
        have l2 : field32 ph 20 < 2 ^ 32 := BitVec.isLt _
        unfold addU at hwrap hnew
        omega
      obtain ⟨⟨b, k1, m1⟩, h3⟩ := loaduvm_total ip (k + 1)
        (field32 ph 4) him hfit halign
      have him1 := loaduvm_image him hfit h3
      rw [h3, Lib.ok_bind]
      cases b with
      | false => exact ⟨_, rfl⟩
      | true => exact ih him1

/-! ## 2. Arguments -/

/-- Where a copy of `n` bytes to `va` meets no missing page-table page: inside the image, or in
    the device space (where it is refused). -/
def CopyOk (sz va n : Nat) : Prop := n = 0 ∨ va + n ≤ sz ∨ devSpace ≤ va ∧ va < 2 ^ 32

theorem copyoutLoop_total : ∀ {s : Vm} {va : Nat} {buf : List Byte},
    Image m s sz → CopyOk sz va buf.length → ∃ r s', copyoutLoop n s va buf = .ok (r, s') := by
  induction n with
  | zero => exact fun {s va buf} _ _ => ⟨_, _, rfl⟩
  | succ n ih =>
    intro s va buf h hok
    unfold copyoutLoop
    split
    · exact ⟨_, _, rfl⟩
    rename_i hlen
    have hk := h.size
    unfold kernBase at hk
    rcases hok with h0 | hin | hdev
    · exact absurd h0 hlen
    · have hv : vpn va < pages sz := by
        unfold vpn pages
        omega
      have ht : s.pd.tabAt (vpn (pgRoundDown va)) = true := by
        rw [vpn_pgRoundDown]
        exact PgDir.tabAt_of_mapped (mapped_of_P (h.low _ hv).1)
      simp only [uva2ka_tab ht, Lib.ok_bind, vpn_pgRoundDown]
      split
      · exact ⟨_, _, rfl⟩
      · rename_i f hf
        have hf' : f = pteFrame (s.pd.pteAt (vpn va)) := by
          split at hf
          · cases hf
            rfl
          · cases hf
        rw [hf']
        refine ih (h.setPage (h.holds hv) _) ?_
        rw [List.length_drop]
        unfold CopyOk addU pgRoundDown pgSize
        omega
    · have hd : devSpace = 0xFE000000 := rfl
      have hv : 0xFE000 ≤ vpn va ∧ vpn va < 2 ^ 20 := by
        unfold vpn
        omega
      have ht : s.pd.tabAt (vpn (pgRoundDown va)) = true := by
        rw [vpn_pgRoundDown]
        exact h.dev _ hv.1 hv.2
      simp only [uva2ka_tab ht, Lib.ok_bind, vpn_pgRoundDown, (h.high (vpn va) (by omega)).1,
        Bool.and_false]
      exact ⟨_, _, rfl⟩

/-- In the device space the copy is refused. -/
theorem copyout_dev {va : Nat} {buf : List Byte} (h : Image m s sz) (hva : devSpace ≤ va)
    (hlt : va < 2 ^ 32) (hb : 0 < buf.length) : copyout s va buf = .ok (-1, s) := by
  have hd : devSpace = 0xFE000000 := rfl
  have hv : 0xFE000 ≤ vpn va ∧ vpn va < 2 ^ 20 := by
    unfold vpn
    omega
  have ht : s.pd.tabAt (vpn (pgRoundDown va)) = true := by
    rw [vpn_pgRoundDown]
    exact h.dev _ hv.1 hv.2
  unfold copyout
  obtain ⟨n, hn⟩ : ∃ n, buf.length = n + 1 := ⟨buf.length - 1, by omega⟩
  rw [hn, copyoutLoop, if_neg (by omega)]
  simp only [uva2ka_tab ht, Lib.ok_bind, vpn_pgRoundDown, (h.high (vpn va) (by omega)).1,
    Bool.and_false]
  rfl

/-- The stack pointer lowered by `n` bytes. -/
theorem subU_cases {sp : Nat} (hsp : sp < kernBase) (hn : n < 2 ^ 31) :
    subU sp n = if n ≤ sp then sp - n else 2 ^ 32 + sp - n := by
  unfold kernBase at hsp
  unfold subU
  split <;> omega

/-- Pushing `n` bytes, aligned or not, from a stack pointer inside the image. -/
theorem copyUser_total (cfg : Config) {sp va : Nat} {buf : List Byte} (fuel : Nat) (p : Proc)
    (h : Image m s sz) (hsp : sp ≤ sz) (hb : 0 < buf.length) (hlen : buf.length + 3 ≤ 2 ^ 25)
    (hva : va = subU sp buf.length ∨ va = subU sp buf.length / 4 * 4) :
    ∃ r s', copyoutUser cfg fuel s p va buf = .ok (r, s', p) ∧ Image m s' sz ∧
      (¬ r < 0 → va ≤ sz) := by
  have hk := h.size
  have hsub := subU_cases (n := buf.length) (Nat.lt_of_le_of_lt hsp hk) (by omega)
  have hd : devSpace = 0xFE000000 := rfl
  by_cases hle : buf.length ≤ sp
  · rw [if_pos hle] at hsub
    obtain ⟨r, s', hc⟩ := copyoutLoop_total (n := buf.length) h
      (show CopyOk sz va buf.length from Or.inr (Or.inl (by omega)))
    refine ⟨r, s', ?_, (copyoutLoop_image h hc).1, fun _ => by omega⟩
    unfold copyoutUser copyout
    rw [hc]
  · rw [if_neg hle] at hsub
    have hc : copyout s va buf = .ok (-1, s) := copyout_dev h (by omega) (by omega) hb
    refine ⟨-1, s, ?_, h, fun hn => absurd (by decide) hn⟩
    unfold copyoutUser
    rw [hc]

theorem pushArgs_total (cfg : Config) (fuel : Nat) (p : Proc) {args : List (List Byte)} :
    ∀ {s : Vm} {sp : Nat} {us : List Nat}, ArgsShort args → Image m s sz → sp ≤ sz →
    us.length ≤ maxArg →
    ∃ r s', pushArgs cfg fuel args s p sp us = .ok (r, s', p) ∧ Image m s' sz ∧
      ∀ sp' us', r = some (sp', us') → sp' ≤ sz ∧ us'.length ≤ maxArg := by
  induction args with
  | nil =>
    intro s sp us _ h hsp hus
    exact ⟨_, s, rfl, h, fun sp' us' e => by cases e; exact ⟨hsp, hus⟩⟩
  | cons arg args ih =>
    intro s sp us hs h hsp hus
    unfold pushArgs
    split
    · exact ⟨none, s, rfl, h, fun sp' us' e => by cases e⟩
    · rename_i hmax
      have harg := hs arg (List.mem_cons_self ..)
      have hlen : (arg ++ [0]).length = arg.length + 1 := List.length_append
      obtain ⟨r, s1, h1, him, hle⟩ := copyUser_total cfg fuel p h hsp
        (show 0 < (arg ++ [0]).length by omega) (by omega) (Or.inr rfl)
      rw [hlen] at h1 hle
      simp only [h1, Lib.ok_bind]
      split
      · exact ⟨none, s1, rfl, him, fun sp' us' e => by cases e⟩
      · rename_i hr
        refine ih (fun a ha => hs a (List.mem_cons_of_mem arg ha)) him (hle hr) ?_
        rw [List.length_append, List.length_singleton]
        omega

theorem ustackBytes_length (sp : Nat) (us : List Nat) :
    (ustackBytes sp us).length = 4 * (us.length + 4) := by
  have e : ∀ l : List Nat, (l.flatMap fun w =>
      (List.range 4).map (byteOf (BitVec.ofNat 32 w))).length = 4 * l.length := by
    intro l
    induction l with
    | nil => rfl
    | cons w l ih =>
      rw [List.flatMap_cons, List.length_append, ih, List.length_map, List.length_range,
        List.length_cons]
      omega
  unfold ustackBytes
  rw [e]
  simp only [List.length_append, List.length_cons, List.length_nil]
  omega

/-! ## 3. `exec` -/

theorem execCommit_total (path : List Byte) (entry sp : Nat) (h : Image m s sz)
    (hm : AllManaged cfg m p.pgdir) : ∃ x, execCommit cfg s p path sz entry sp = .ok x := by
  unfold execCommit
  have hlen : (if sz % pgSize = 0 then sz / pgSize else sz / pgSize + 1) = pages sz := by
    unfold pages pgSize
    split <;> omega
  have hle := pages_le h.size
  rw [hlen]
  have hin : ∀ u, InRange (0 / 4096) ((pages sz : Nat) : Int).toNat u → u < pages sz := by
    rintro u ⟨i, h1, h2⟩
    omega
  have henc : ∃ x s', mencrypt s 0 (pages sz : Nat) = .ok (x, s') := by
    rcases mencrypt_cases s 0 (pages sz : Nat) with ⟨h1, -⟩ | ⟨s', h1, -⟩ | ⟨-, u, h1, h2⟩
    · exact ⟨_, _, h1⟩
    · exact ⟨_, _, h1⟩
    · rw [PgDir.tabAt_of_mapped (mapped_of_P (h.low u (hin u h1)).1)] at h2
      cases h2
  obtain ⟨x, s', h1⟩ := henc
  rw [h1, Lib.ok_bind]
  simp only
  cases hf : freevm cfg ⟨s'.m, p.pgdir⟩ with
  | ok m' => exact ⟨_, rfl⟩
  | error e =>
    obtain ⟨f, h2, h3⟩ := freevm_error hf
    refine absurd (hm f ?_) h3
    simp only at h2
    omega

theorem execStack_total {path : List Byte} {argv : List (List Byte)} {fuel entry : Nat}
    (hm : AllManaged cfg m p.pgdir) (ha : ArgsShort argv) (h : Image m s sz) :
    ∃ x, execStack cfg fuel s p path argv sz entry = .ok x := by
  have hk := h.size
  have hr : pgRoundUp sz = pages sz * 4096 := pgRoundUp_pages (Nat.le_of_lt hk)
  have hle := pages_le hk
  have hold : pgRoundUp sz ≤ kernBase := by
    rw [hr]
    simp only [kernBase]
    omega
  have hpp : pages (pgRoundUp sz) = pages sz := by
    rw [hr]
    unfold pages
    omega
  obtain ⟨⟨sz1, s1⟩, h1⟩ := h.allocuvm_total hm hold hpp.ge
    (addU (pgRoundUp sz) (2 * pgSize))
  unfold execStack
  rw [h1, Lib.ok_bind]
  rcases stack_image cfg h h1 with ⟨rfl, z, hz⟩ | ⟨h8k, him⟩
  · exact hz.execBad_total hm p
  have hg := guard_lt him h8k
  simp only
  rw [if_neg (by omega)]
  have hcl : ∃ s2, clearpteu s1 (subU sz1 (2 * pgSize)) = .ok s2 := by
    unfold clearpteu
    rw [PgDir.walk_of_tabAt (PgDir.tabAt_of_mapped (mapped_of_P (him.low _ hg).1))]
    exact ⟨_, rfl⟩
  obtain ⟨s2, h2⟩ := hcl
  have him2 := clearpteu_image him hg h2
  rw [h2, Lib.ok_bind]
  obtain ⟨r, s3, h3, him3, hsp⟩ := pushArgs_total cfg fuel p
    ha him2 (Nat.le_refl sz1) (show ([] : List Nat).length ≤ maxArg from Nat.zero_le _)
  rw [h3, Lib.ok_bind]
  cases r with
  | none => exact him3.execBad_total hm p
  | some x =>
    obtain ⟨sp, us⟩ := x
    obtain ⟨hsp1, hus⟩ := hsp sp us rfl
    have hlen := ustackBytes_length sp us
    unfold maxArg at hus
    obtain ⟨r, s4, h4, him4, -⟩ := copyUser_total cfg fuel p him3 hsp1
      (show 0 < (ustackBytes sp us).length by omega) (by omega) (Or.inl rfl)
    simp only
    rw [h4, Lib.ok_bind]
    simp only
    split
    · exact him4.execBad_total hm p
    · exact execCommit_total _ _ _ him4 hm

/-- **exec returns** when its arguments are short and every frame concerned is the allocator's. -/
theorem exec_total {fuel : Nat} {ip : Option Inode} {path : List Byte} {argv : List (List Byte)}
    (hm : AllManaged cfg m p.pgdir) (ha : ArgsShort argv) :
    ∃ x, exec cfg fuel m p ip path argv = .ok x := by
  unfold exec
  split
  · exact ⟨_, rfl⟩
  split
  · exact ⟨_, rfl⟩
  split
  · exact ⟨_, rfl⟩
  split
  · exact ⟨_, rfl⟩
  cases hs : setupkvm cfg m with
  | error e =>
    obtain ⟨f, h1, h2⟩ := setupkvm_error cfg hs
    exact absurd (hm f (by omega)) h2
  | ok x =>
    obtain ⟨o, m1⟩ := x
    rw [Lib.ok_bind]
    rcases setupkvm_ok cfg hs with ⟨rfl, -⟩ | ⟨pd, rfl, hd, ht⟩
    · exact ⟨_, rfl⟩
    · have him := hd.image ht
      obtain ⟨⟨b, s, sz⟩, h1⟩ := execLoad_total hm him
      simp only
      rw [h1, Lib.ok_bind]
      rcases execLoad_image cfg him h1 with ⟨rfl, z, hz⟩ | ⟨rfl, hz⟩
      · exact hz.execBad_total hm p
      · exact execStack_total hm ha hz

end Xv6Clock
