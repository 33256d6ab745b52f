/-
  File:      Xv6Clock/LongArgument.lean
  Subject:   A run from boot that ends in an overrun: the first process grows by 32 MB, names its
             own page-table page at address 0, and calls exec with a long argument.

  Its first page-table page then holds the bytes of the argument. All the pages it mapped are lost.
-/
import Xv6Clock.Room

namespace Xv6Clock

open Finset

variable (cfg : Config)

/-! ## 1. The states on the way -/

/-- The first process runs; its page 0 is plain and writable, in frame `f`; its first page-table
    page is frame `g`; there are frames for an image. -/
structure Poised (k : Kernel) (f g : Frame) : Prop where
  acc : Accounted cfg k
  run : (k.proc 0).state = .runnable
  present : has ((k.proc 0).pgdir.pteAt 0) pteP = true
  user : has ((k.proc 0).pgdir.pteAt 0) pteU = true
  write : has ((k.proc 0).pgdir.pteAt 0) pteW = true
  frame : pteFrame ((k.proc 0).pgdir.pteAt 0) = f
  tab : ∃ t, (k.proc 0).pgdir.pde 0 = some t ∧ t.frame = g
  size : 2 ^ 25 + 12288 ≤ (k.proc 0).sz
  room : 70 ≤ k.kmem.freelist.length

variable {cfg}

variable {k : Kernel} {f g : Frame} {pd : PgDir} {bs : List Byte}

section
variable (h : Poised cfg k f g)
include h

theorem Poised.used : (k.proc 0).state ≠ .unused := by
  rw [h.run]
  decide

theorem Poised.holds : 1 ≤ (k.proc 0).pgdir.holds f := by
  rw [← h.frame]
  exact PgDir.one_le_holds (mapped_of_P h.present) (by decide)

theorem Poised.isTab : (k.proc 0).pgdir.IsTab g := by
  obtain ⟨t, h1, h2⟩ := h.tab
  exact ⟨0, t, by decide, h1, h2⟩

/-- The page after it is touched. -/
theorem Poised.touch (va : Nat) (hva : vpn va = 0) :
    ((k.proc 0).touch va).pgdir.pteAt 0 = setRef ((k.proc 0).pgdir.pteAt 0) ∧
      ((k.proc 0).touch va).pgdir.IsTab g ∧
      ∃ t, ((k.proc 0).touch va).pgdir.pde 0 = some t ∧ t.frame = g := by
  obtain ⟨t, h1, h2⟩ := h.tab
  have e : ((k.proc 0).touch va).pgdir.pde 0 = some ⟨t.frame, Function.update t.pte 0
      (setRef ((k.proc 0).pgdir.pteAt 0))⟩ := by
    unfold Proc.touch PgDir.store
    simp only [hva, Nat.zero_div, h1, PgDir.setTab_pde, if_true, Nat.zero_mod]
  refine ⟨?_, ⟨0, _, by decide, e, h2⟩, _, e, h2⟩
  have hm := mapped_of_P h.present
  rw [← hva] at hm ⊢
  exact touch_pteAt hm

/-- The process stores a byte in its page 0. -/
theorem Poised.store (va : Nat) (hva : va < 4096) (b : Byte) :
    ∃ k', step cfg 0 k 0 (.mem (.write (BitVec.ofNat 32 va) b)) = .ok (.done, k') ∧
      Poised cfg k' f g ∧ k'.kmem.mem f = Function.update (k.kmem.mem f) va b := by
  have hv : vpn va = 0 := by
    unfold vpn
    omega
  have hto : (BitVec.ofNat 32 va).toNat = va := by
    rw [BitVec.toNat_ofNat]
    exact Nat.mod_eq_of_lt (by omega)
  have hfr : (k.proc 0).frameOf va = f := by
    unfold Proc.frameOf
    rw [hv]
    exact h.frame
  have hs : step cfg 0 k 0 (.mem (.write (BitVec.ofNat 32 va) b)) = .ok (.done,
      (k.setKmem (k.kmem.setPage f (Function.update (k.kmem.mem f) va b))).setProc 0
        ((k.proc 0).touch va)) := by
    rw [step_write cfg k 0 0 _ b (by decide) h.run]
    · simp only [hto, hfr, pgSize, Nat.mod_eq_of_lt hva]
    · unfold Proc.reaches
      rw [hto, hv, h.present, h.user]
      rfl
    · rw [hto, hv, h.write]
  obtain ⟨h1, -, h2⟩ := h.touch va hv
  refine ⟨_, hs, ⟨h.acc.step cfg (fun hc => by cases hc) hs, ?_, ?_, ?_, ?_, ?_, ?_, ?_, ?_⟩, ?_⟩
  · rw [Kernel.setProc_self]
    exact h.run
  · rw [Kernel.setProc_self, h1, has_setRef_P]
    exact h.present
  · rw [Kernel.setProc_self, h1, has_setRef_U]
    exact h.user
  · rw [Kernel.setProc_self, h1, has_setRef _ (by decide)]
    exact h.write
  · rw [Kernel.setProc_self, h1]
    exact (pteFrame_setRef _).trans h.frame
  · rw [Kernel.setProc_self]
    exact h2
  · rw [Kernel.setProc_self]
    exact h.size
  · exact h.room
  · exact Kmem.setPage_mem_self _ _ _

end

/-- The process stores a word at address 0. -/
theorem Poised.storeWord {k0 : Kernel} {Ok : Kernel → Nat → Op → Prop}
    (hok : ∀ k va b, Ok k 0 (.mem (.write va b))) (h : Poised cfg k f g) (hr : Run cfg Ok k0 k)
    (w : Word) : ∃ k', Run cfg Ok k0 k' ∧ Poised cfg k' f g ∧ le32 (k'.kmem.mem f) 0 = w := by
  obtain ⟨k1, s1, p1, e1⟩ := h.store 0 (by decide) (byteOf w 0)
  obtain ⟨k2, s2, p2, e2⟩ := p1.store 1 (by decide) (byteOf w 1)
  obtain ⟨k3, s3, p3, e3⟩ := p2.store 2 (by decide) (byteOf w 2)
  obtain ⟨k4, s4, p4, e4⟩ := p3.store 3 (by decide) (byteOf w 3)
  refine ⟨k4, .step (.step (.step (.step hr (hok _ _ _) s1) (hok _ _ _) s2) (hok _ _ _) s3)
    (hok _ _ _) s4, p4, le32_byteOf fun i hi => ?_⟩
  rw [e4, e3, e2, e1]
  have hc : i = 0 ∨ i = 1 ∨ i = 2 ∨ i = 3 := by omega
  rcases hc with rfl | rfl | rfl | rfl <;> simp [Function.update]

/-! ## 2. Growing -/

/-- What the process grows by. -/
def growBy : Word := 0x2004000

theorem growBy_pages : (growBy.toInt / (pgSize : Nat)).toNat = 0x2004 := by decide

/-- There are frames for the new pages, and for the nine page-table pages they may need. -/
theorem FirstProc.allocated (h : FirstProc k 0xDB00) (ha : Accounted cfg k) :
    ∃ s, allocuvm cfg ((k.proc 0).vm k.kmem) (k.proc 0).sz 0x2005000 = .ok (0x2005000, s) ∧
      Allocd ((k.proc 0).vm k.kmem) s 1 0x2005 ∧ 70 ≤ s.m.freelist.length := by
  have hu : (k.proc 0).state ≠ .unused := by
    rw [h.run]
    decide
  have hsz : (k.proc 0).sz = 4096 := h.size
  have hp1 : pages (k.proc 0).sz = 1 := by
    rw [hsz]
    decide
  have hp2 : pages 0x2005000 = 0x2005 := by decide
  have hab := absent_le 9 (k.proc 0).pgdir
  have hroom := h.room
  have hfit : pages 0x2005000 - pages (k.proc 0).sz +
      absent (fun d => decide (d < 9)) ((k.proc 0).vm k.kmem).pd ≤
      ((k.proc 0).vm k.kmem).m.freelist.length := by
    rw [hp1, hp2]
    simp only [Proc.vm_pd, Proc.vm_m]
    omega
  obtain ⟨s, h1, h2⟩ := allocuvm_room cfg (D := fun d => decide (d < 9)) (s := (k.proc 0).vm k.kmem)
    (k.proc 0).sz 0x2005000 (by decide) (by omega)
    (ha.managed cfg (by decide) hu)
    (fun u h3 h4 => by
      rw [hp1] at h3
      rw [hp2] at h4
      rw [Proc.vm_pd, h.rest u h3 (by omega), mapped_zero])
    (fun u h3 h4 => by
      rw [hp2] at h4
      exact decide_eq_true (by omega)) hfit
  have hleft : 70 ≤ s.m.freelist.length := by
    rw [hp1, hp2] at h2
    simp only [Proc.vm_pd, Proc.vm_m] at h2
    omega
  obtain ⟨-, -, -, hal⟩ | ⟨-, -, hc, -⟩ | ⟨hc, -⟩ | ⟨-, -, hc, -⟩ :=
    allocuvm_ok (Nat.le_of_lt (ha.sane 0 hu).size) h1
  · rw [hp1, hp2] at hal
    exact ⟨s, h1, hal, hleft⟩
  · omega
  · exact absurd hc (by decide)
  · cases hc

/-- The new pages are mapped, so every lookup of `mencrypt` succeeds; page 0 is not among them. -/
theorem encrypted_new {s0 s : Vm} (hk : KernHigh s0.pd) (hal : Allocd s0 s 1 0x2005) :
    ∃ x s', mencrypt s 4096 (growBy.toInt / (pgSize : Nat)) = .ok (x, s') ∧
      s'.pd.pteAt 0 = s0.pd.pteAt 0 ∧ s'.m.freelist = s.m.freelist := by
  have htab : ∀ u, InRange (4096 / 4096) (growBy.toInt / (pgSize : Nat)).toNat u →
      s.pd.tabAt u = true := by
    rintro u ⟨i, h3, rfl⟩
    rw [growBy_pages] at h3
    obtain ⟨f, h4, -⟩ := hal.new ((4096 / 4096 + i) % 2 ^ 20) (by omega) (by omega)
    refine PgDir.tabAt_of_mapped ?_
    rw [h4]
    exact mapped_mapEntry _ _
  obtain ⟨x, s', h3⟩ : ∃ x s', mencrypt s 4096 (growBy.toInt / (pgSize : Nat)) = .ok (x, s') := by
    rcases mencrypt_cases s 4096 (growBy.toInt / (pgSize : Nat)) with
      ⟨h3, -⟩ | ⟨s', h3, -⟩ | ⟨-, u, h3, h4⟩
    · exact ⟨_, _, h3⟩
    · exact ⟨_, _, h3⟩
    · rw [htab u h3] at h4
      cases h4
  have hk' : KernHigh s.pd := fun u hu => by
    rw [hal.pte u (by omega)]
    exact hk u hu
  refine ⟨x, s', h3, ?_, (mencrypt_flips hk' h3).recoded.list⟩
  rw [← hal.pte 0 (by omega)]
  rcases mencrypt_ok h3 with ⟨-, rfl, -⟩ | ⟨-, he⟩
  · rfl
  · refine he.same 0 ?_
    rintro ⟨⟨i, h4, h5⟩, -⟩
    rw [growBy_pages] at h4
    omega

/-- **The first process grows**: sbrk succeeds, with its first page as it was. -/
theorem FirstProc.grow (h : FirstProc k 0xDB00) (ha : Accounted cfg k) :
    ∃ o k' f g, step cfg 0 k 0 (.mem (.sbrk growBy)) = .ok (o, k') ∧ Poised cfg k' f g := by
  have hu : (k.proc 0).state ≠ .unused := by
    rw [h.run]
    decide
  have hsz : (k.proc 0).sz = 4096 := h.size
  have hn : growBy.toInt = 0x2004000 := by decide
  have hnew : toU (((k.proc 0).sz : Int) + growBy.toInt) = 0x2005000 := by
    rw [hsz, hn]
    decide
  obtain ⟨s, h1, hal, hroom⟩ := h.allocated ha
  obtain ⟨x, s', h3, h0, hlist⟩ := encrypted_new (ha.sane 0 hu).high hal
  obtain ⟨f, hf⟩ := h.page
  have hflag : ∀ {b : Word}, IsFlags b →
      has (s'.pd.pteAt 0) b = has (pteW ||| pteU ||| pteP) b := by
    intro b hb
    rw [h0, Proc.vm_pd, hf, has_allocEntry f hb]
  obtain ⟨t, ht⟩ := Option.isSome_iff_exists.mp
    (PgDir.tabAt_of_mapped (mapped_of_P (show has (s'.pd.pteAt 0) pteP = true by
      rw [hflag (by decide)]; decide)))
  have hg : growproc cfg k.kmem (k.proc 0) growBy.toInt =
      .ok (0, s'.m, { k.proc 0 with pgdir := s'.pd, sz := 0x2005000 }) := by
    have e : (k.proc 0).sz % pgSize = 0 := by
      rw [hsz]
      decide
    unfold growproc
    rw [if_pos (by rw [hn]; decide), hnew, h1]
    simp only [Lib.ok_bind, e, if_true, OfNat.ofNat_ne_zero, if_false]
    rw [hsz, h3]
    rfl
  have hs : step cfg 0 k 0 (.mem (.sbrk growBy)) = .ok (.ret (toI (k.proc 0).sz),
      (k.setKmem s'.m).setProc 0 { k.proc 0 with pgdir := s'.pd, sz := 0x2005000 }) := by
    unfold step memStep sysSbrk
    rw [if_neg (by rw [h.run]; decide)]
    simp only [hg, Lib.ok_bind, Int.lt_irrefl, if_false, reduceCtorEq]
  refine ⟨_, _, f, t.frame, hs, ⟨ha.step cfg (fun hc => by cases hc) hs, ?_, ?_, ?_, ?_, ?_, ?_,
    ?_, ?_⟩⟩
  · rw [Kernel.setProc_self]
    exact h.run
  · rw [Kernel.setProc_self, hflag (by decide)]
    decide
  · rw [Kernel.setProc_self, hflag (by decide)]
    decide
  · rw [Kernel.setProc_self, hflag (by decide)]
    decide
  · rw [Kernel.setProc_self]
    simp only
    rw [h0, Proc.vm_pd, hf, pteFrame_allocEntry]
  · rw [Kernel.setProc_self]
    exact ⟨t, ht, rfl⟩
  · rw [Kernel.setProc_self]
    simp only
    omega
  · change 70 ≤ s'.m.freelist.length
    rw [hlist]
    exact hroom

/-! ## 3. The overrun -/

/-- An ELF header without program headers. -/
def elfFile : Inode := .file 52 fun
  | 0 => 0x7F
  | 1 => 0x45
  | 2 => 0x4C
  | 3 => 0x46
  | _ => 0

/-- An argument that takes the stack pointer to one page below the device space. -/
def longArg : List Byte := List.replicate (2 ^ 25 + 12287) 2

/-- **There is room for the stack** above a small image. -/
theorem built_room {m m1 : Kmem} {pd0 : PgDir} {ip : Inode} {elf : List Byte} {s1 : Vm}
    {sz n off : Nat} (hm : AllManaged cfg m pd0) (hr : readi ip 0 0 elfhdrSize = some elf)
    (hlen : elf.length = elfhdrSize) (hmagic : field32 elf 0 = elfMagic)
    (hk : setupkvm cfg m = .ok (some pd, m1)) (hn : field16 elf 44 = n) (ho : field32 elf 28 = off)
    (hl : execLoad cfg ip n ⟨m1, pd⟩ 0 off 1 = .ok (true, s1, sz)) (hsz : sz ≤ 4096)
    (hroom : 3 ≤ s1.m.freelist.length) : ∃ s, Built cfg m ip s (pages sz * 4096 + 8192) := by
  subst hn ho
  have him : Image m s1 sz := by
    rcases setupkvm_ok cfg hk with ⟨e, -⟩ | ⟨d, e, hd, ht⟩ <;> cases e
    exact ((execLoad_image cfg (hd.image ht) hl).resolve_left fun hc => by cases hc.1).2
  have hpg : pages sz ≤ 1 := by
    unfold pages
    omega
  have hup : pgRoundUp sz = pages sz * 4096 := pgRoundUp_pages (Nat.le_of_lt him.size)
  have hadd : addU (pgRoundUp sz) (2 * pgSize) = pages sz * 4096 + 8192 := by
    rw [hup]
    unfold addU pgSize
    omega
  have hnew : pages (pages sz * 4096 + 8192) = pages sz + 2 := by
    unfold pages
    omega
  have hold : pages (pgRoundUp sz) = pages sz := by
    rw [hup]
    unfold pages
    omega
  have hab := absent_le 1 s1.pd
  obtain ⟨s2, ha, -⟩ := allocuvm_room cfg (D := fun x => decide (x < 1)) (s := s1) (pgRoundUp sz)
    (pages sz * 4096 + 8192) (by unfold kernBase; omega) (by omega) (him.frames hm)
    (fun u h1 h2 => by rw [him.rest u (by omega) (by omega), mapped_zero])
    (fun u h1 h2 => decide_eq_true (by omega)) (by omega)
  rw [← hadd] at ha
  have h0 : addU (pgRoundUp sz) (2 * pgSize) ≠ 0 := by omega
  obtain ⟨h8k, him2⟩ := (stack_image cfg him ha).resolve_left fun hc => h0 hc.1
  obtain ⟨s3, hc⟩ : ∃ s3, clearpteu s2 (subU (addU (pgRoundUp sz) (2 * pgSize)) (2 * pgSize)) =
      .ok s3 := by
    unfold clearpteu
    rw [PgDir.walk_of_tabAt (PgDir.tabAt_of_mapped (mapped_of_P
      (him2.low _ (guard_lt him2 h8k)).1))]
    exact ⟨_, rfl⟩
  rw [← hadd]
  exact ⟨s3, .intro hr hlen hmagic hk hl ha h0 hc⟩

theorem built_elfFile {m : Kmem} (hm : AllManaged cfg m pd) (h : 70 ≤ m.freelist.length) :
    ∃ s, Built cfg m elfFile s 8192 := by
  obtain ⟨d, m1, h1, -, -, h2⟩ := setupkvm_room cfg (m := m) (by omega)
  have hr : readi elfFile 0 0 elfhdrSize = some ((List.range 52).map fun i => match 0 + i with
      | 0 => 0x7F
      | 1 => 0x45
      | 2 => 0x4C
      | 3 => 0x46
      | _ => 0) := rfl
  have hl : execLoad cfg elfFile 0 ⟨m1, d⟩ 0 0 1 = .ok (true, ⟨m1, d⟩, 0) := rfl
  exact built_room hm hr rfl (by decide +kernel) h1 (by decide +kernel) (by decide +kernel) hl
    (by decide) (by dsimp only; omega)

/-- A page of twos. -/
structure Twos (bs : List Byte) : Prop where
  length : bs.length = 4096
  getD : ∀ j, j < 4096 → bs.getD j 0 = 2

theorem twos_take {n : Nat} (hn : 4096 ≤ n) :
    Twos ((List.replicate n (2 : Byte) ++ [0]).take 4096) where
  length := by
    rw [List.length_take, List.length_append, List.length_replicate]
    omega
  getD j hj := by
    rw [List.getD_eq_getElem?_getD, List.getElem?_take_of_lt hj,
      List.getElem?_append_left (by rw [List.length_replicate]; omega), List.getElem?_replicate,
      if_pos (by omega)]
    rfl

/-- Every entry of the page-table page is then the word `0x02020202`. -/
theorem overwrite_pte (hb : Twos bs) (t : PgTab) {i : Nat} (hi : i < 1024) :
    (t.overwrite 0 bs).pte i = 0x02020202 := by
  have e : ∀ j, j < 4096 → overlay t.bytes 0 bs j = 2 := by
    intro j hj
    unfold overlay
    rw [if_pos ⟨Nat.zero_le _, by rw [hb.length]; omega⟩]
    exact hb.getD j hj
  unfold PgTab.overwrite le32
  simp only
  rw [e _ (by omega), e _ (by omega), e _ (by omega), e _ (by omega)]
  decide

/-- The page table of the process is lost. -/
theorem holds_overwrite (hb : Twos bs) {t : PgTab} (ht : pd.pde 0 = some t) (hg : t.frame = g)
    (hle : ∀ x, pd.holds x ≤ 1) (hm : mapped (pd.pteAt 0) = true) (hf : pteFrame (pd.pteAt 0) = f) :
    (pd.overwrite g 0 bs).holds f = 0 := by
  have hp : pd.pteAt 0 = t.pte 0 := by simp [PgDir.pteAt, ht]
  -- no other page-table page is in frame `g`
  have hover : pd.tabOver g 0 bs =
      Function.update pd.pde 0 (some (t.overwrite 0 bs)) := by
    funext d
    unfold PgDir.tabOver
    by_cases hd : d = 0
    · simp only [hd, ht, Function.update_self]
      rw [if_pos ⟨by decide, hg⟩]
    · rw [Function.update_of_ne hd]
      cases hq : pd.pde d with
      | none => rfl
      | some t' =>
        have hne : ¬ (d < 1024 ∧ t'.frame = g) := by
          rintro ⟨h1, h2⟩
          have h3 := Lib.add_le_sum (fun d => tabHolds g d (pd.pde d)) (show 0 < 1024 by decide) h1
            (Ne.symm hd)
          have h4 := hle g
          simp only [ht, hq, tabHolds_some, hg, h2, one_self] at h3
          unfold PgDir.holds at h4
          omega
        simp only [if_neg hne]
  have hold : 1 ≤ ∑ i ∈ range 1024, pteHolds (t.pte i) f := by
    refine Nat.le_trans ?_ (Lib.le_sum (fun i => pteHolds (t.pte i) f) (show 0 < 1024 by decide))
    simp only [← hp, pteHolds, hm, hf, if_true, one_self, Nat.le_refl]
  have hnew : ∑ i ∈ range 1024, pteHolds ((t.overwrite 0 bs).pte i) f = 0 :=
    sum_eq_zero fun i hi => by
      rw [overwrite_pte hb t (mem_range.mp hi)]
      exact pteHolds_unmapped (by decide) f
  have hsum := Lib.sum_update_entry (fun d => tabHolds f d) pd.pde (show 0 < 1024 by decide)
    (some (t.overwrite 0 bs))
  have hone := hle f
  unfold PgDir.holds at hone ⊢
  simp only [PgDir.overwrite, hover]
  simp only [ht, tabHolds_some, show (t.overwrite 0 bs).frame = t.frame from rfl,
    hnew, show (0 : Nat) < 512 by decide, if_true] at hsum
  have h0 := Lib.le_sum (fun d => tabHolds f d (pd.pde d)) (show 0 < 1024 by decide)
  simp only [ht, tabHolds_some, show (0 : Nat) < 512 by decide, if_true] at h0
  omega

/-- What the free list, the processes and the kernel's page table hold of a frame that one process
    has. -/
theorem Poised.alone (h : Poised cfg k f g) {x : Frame}
    (hx : 1 ≤ (k.proc 0).pgdir.holds x) : k.kmem.free x = 0 ∧ one (k.proc 0).kstack x = 0 ∧
      (∀ j, j < nproc → j ≠ 0 → procHolds x (k.proc j) = 0) ∧ k.kpgdir.holds x = 0 ∧
      k.cpuStacks.count x = 0 ∧ k.files.holds x = 0 ∧ (k.proc 0).pgdir.holds x ≤ 1 := by
  have h1 := h.acc.le_one cfg x
  have h2 := Lib.le_sum (fun j => procHolds x (k.proc j)) (show 0 < nproc by decide)
  have h3 := procHolds_used h.used x
  unfold places tableHolds at h1
  refine ⟨by omega, by omega, fun j hj hj0 => ?_, by omega, by omega, by omega, by omega⟩
  have h4 := Lib.add_le_sum (fun j => procHolds x (k.proc j)) (show 0 < nproc by decide) hj
    (Ne.symm hj0)
  omega

/-- **What twos over the page-table page do**: page 0 of the process loses its entry, and no place
    holds its frame any more. -/
theorem Poised.lost (h : Poised cfg k f g) (hb : Twos bs) : places (k.overwrite g 0 bs) f = 0 ∧
      mapped (((k.overwrite g 0 bs).proc 0).pgdir.pteAt 0) = false := by
  obtain ⟨hfree, hstack, hothers, hkern, hcpu, hfiles, -⟩ := h.alone h.holds
  obtain ⟨-, -, gothers, gkern, -⟩ := h.alone h.isTab.holds
  obtain ⟨t, ht, hg⟩ := h.tab
  have hlost : ((k.proc 0).pgdir.overwrite g 0 bs).holds f = 0 := by
    refine holds_overwrite hb ht hg (fun x => ?_) (mapped_of_P h.present) h.frame
    by_cases hx : 1 ≤ (k.proc 0).pgdir.holds x
    · exact (h.alone hx).2.2.2.2.2.2
    · omega
  refine ⟨?_, ?_⟩
  · have htab : tableHolds (k.overwrite g 0 bs).proc f = 0 := by
      refine sum_eq_zero fun j hj => ?_
      have hj' := mem_range.mp hj
      by_cases hj0 : j = 0
      · rw [hj0]
        refine (procHolds_used (p := (k.proc 0).overwrite g 0 bs) h.used f).trans ?_
        change ((k.proc 0).pgdir.overwrite g 0 bs).holds f + one (k.proc 0).kstack f = 0
        omega
      · by_cases hu : (k.proc j).state = .unused
        · exact procHolds_unused (p := (k.proc j).overwrite g 0 bs) hu f
        · have e := gothers j hj' hj0
          rw [procHolds_used hu] at e
          have e1 : (k.overwrite g 0 bs).proc j = k.proc j := by
            change { k.proc j with pgdir := (k.proc j).pgdir.overwrite g 0 bs } = k.proc j
            rw [PgDir.overwrite_other (by omega)]
          rw [e1]
          exact hothers j hj' hj0
    have hkp : (k.overwrite g 0 bs).kpgdir.holds f = 0 := by
      change (k.kpgdir.overwrite g 0 bs).holds f = 0
      rw [PgDir.overwrite_other gkern]
      exact hkern
    unfold places
    rw [htab, hkp]
    change k.kmem.free f + 0 + 0 + k.cpuStacks.count f + k.files.holds f = 0
    omega
  · change mapped (((k.proc 0).pgdir.overwrite g 0 bs).pteAt 0) = false
    unfold PgDir.pteAt PgDir.overwrite PgDir.tabOver
    simp only [Nat.zero_div, ht, hg, and_true, show (0 : Nat) < 1024 by decide, if_true,
      Nat.zero_mod, overwrite_pte hb t (show 0 < 1024 by decide)]
    decide

/-- A process that has touched its page 0, and an allocator that has everything back. -/
theorem Poised.restored {m' : Kmem} (h : Poised cfg k f g) (hr : Restored k.kmem m') :
    Poised cfg ((k.setKmem m').setProc 0 ((k.proc 0).touch 0)) f g := by
  obtain ⟨h1, -, h2⟩ := h.touch 0 rfl
  have hsane := h.acc.sane 0 h.used
  have hstep : FaultStep cfg k.kmem (k.proc 0) k.kmem ((k.proc 0).touch 0) :=
    touch_step cfg hsane (mapped_of_P h.present)
  have hback : ProcStep k.kmem ((k.proc 0).touch 0) m' ((k.proc 0).touch 0) :=
    ⟨fun x => by rw [hr.free x], fun x hx _ => hr.mem x hx,
      fun hs => hr.twice fun x => Nat.le_trans (Nat.le_add_right _ _) (hs x), rfl, rfl, rfl, rfl,
      hstep.sane⟩
  refine ⟨h.acc.own cfg (by decide) h.used (hstep.toProcStep.trans hback), ?_, ?_, ?_, ?_, ?_, ?_,
    ?_, ?_⟩
  · rw [Kernel.setProc_self]
    exact h.run
  · rw [Kernel.setProc_self, h1, has_setRef_P]
    exact h.present
  · rw [Kernel.setProc_self, h1, has_setRef_U]
    exact h.user
  · rw [Kernel.setProc_self, h1, has_setRef _ (by decide)]
    exact h.write
  · rw [Kernel.setProc_self, h1, pteFrame_setRef]
    exact h.frame
  · rw [Kernel.setProc_self]
    exact h2
  · rw [Kernel.setProc_self]
    exact h.size
  · have hp : m'.freelist.Perm k.kmem.freelist := List.perm_iff_count.mpr hr.free
    change 70 ≤ m'.freelist.length
    rw [hp.length_eq]
    exact h.room

/-- **The long argument overruns.** -/
theorem Poised.overrun {k : Kernel} {f g : Frame} (h : Poised cfg k f g)
    (hw : le32 (k.kmem.mem f) 0 = mapEntry (frameAddr g) pteU) :
    ∃ k', Overrun cfg k 0 elfFile longArg k' ∧ managed cfg f ∧ places k' f = 0 ∧
      (k'.proc 0).state ≠ .unused ∧ (k'.proc 0).sz = (k.proc 0).sz ∧
      mapped ((k'.proc 0).pgdir.pteAt 0) = false := by
  have hm := h.acc.managed cfg (by decide) h.used
  obtain ⟨s, hb⟩ := built_elfFile hm h.room
  obtain ⟨him, -⟩ := hb.image cfg
  obtain ⟨ht1, ht2, -⟩ := h.touch 0 rfl
  have hlen : longArg.length = 2 ^ 25 + 12287 := List.length_replicate
  have hva : subU 8192 (longArg.length + 1) / 4 * 4 = 0xFDFFF000 := by
    rw [hlen]
    decide
  have hnull : s.pd.walk (pgRoundDown 0xFDFFF000) = none := by
    refine PgDir.walk_of_no_tab ?_
    rw [show vpn (pgRoundDown 0xFDFFF000) = 0xFDFFF by decide, him.gap _ (by decide) (by decide)]
  -- the frames of the image were free, those of the process were not
  have himg : ∀ x, 1 ≤ (k.proc 0).pgdir.holds x → s.pd.holds x = 0 := fun x hx => by
    have e1 := him.took.count x
    have e2 := (h.alone hx).1
    omega
  have hload : loadNull cfg 1 s.m (k.proc 0) =
      .ok (mapEntry (frameAddr g) pteU, s.m, (k.proc 0).touch 0) := by
    have hfr : ((k.proc 0).touch 0).frameOf 0 = f := by
      unfold Proc.frameOf
      rw [show vpn 0 = 0 from rfl, ht1, pteFrame_setRef]
      exact h.frame
    unfold loadNull faultNull
    rw [if_pos h.present, Lib.ok_bind]
    simp only
    rw [hfr, him.took.mem f (h.alone h.holds).1, hw]
  have hU : has (mapEntry (frameAddr g) pteU) pteU = true := by
    have he : has pteU pteE = false := by decide
    unfold mapEntry
    rw [he, if_neg (by decide), has_or, has_or, show has pteU pteU = true by decide, Bool.or_true,
      Bool.true_or]
  have hg : pteFrame (mapEntry (frameAddr g) pteU) = g := pteFrame_mapEntry g (by decide)
  have htwos : Twos ((longArg ++ [0]).take (pgSize - 0xFDFFF000 % pgSize)) := by
    have e : pgSize - 0xFDFFF000 % pgSize = 4096 := by decide
    rw [e]
    exact twos_take (by decide)
  generalize hbs : (longArg ++ [0]).take (pgSize - 0xFDFFF000 % pgSize) = bs at htwos
  have hsame : s.pd.overwrite g (0xFDFFF000 % pgSize) bs = s.pd :=
    PgDir.overwrite_other (himg g h.isTab.holds) _ _
  have hstop : uva2ka s.pd (addU (pgRoundDown 0xFDFFF000) pgSize) = .ok none := by
    have e : vpn (addU (pgRoundDown 0xFDFFF000) pgSize) = 0xFE000 := by decide
    rw [uva2ka_tab (by rw [e]; exact him.dev _ (by decide) (by decide)), e,
      (him.high 0xFE000 (by decide)).1, Bool.and_false]
    rfl
  obtain ⟨m', hf⟩ := him.freevm_total hm
  obtain ⟨hplaces, hpage⟩ := (h.restored (him.took.undo hf)).lost htwos
  have hoff : 0xFDFFF000 % pgSize = 0 := by decide
  refine ⟨_, .intro hb hva.symm hnull hload (mapped_mapEntry _ _) hU (by rw [hg]; exact ht2)
    hbs.symm (by rw [htwos.length, hlen]; decide) (by rw [hg, hsame]; exact hstop)
    (by rw [hg, hsame]; exact hf), hm f (by have := h.holds; omega), ?_⟩
  rw [hg, hoff]
  have hproc : (((k.setKmem m').setProc 0 ((k.proc 0).touch 0)).overwrite g 0 bs).proc 0 =
      ((k.proc 0).touch 0).overwrite g 0 bs := by
    unfold Kernel.overwrite
    simp only [Kernel.setProc_self]
  refine ⟨hplaces, ?_, ?_, hpage⟩
  · rw [hproc]
    exact h.used
  · rw [hproc]
    rfl

/-- **A run from boot that ends in the overrun.** -/
theorem longArgument_run (cfg : Config) (he : cfg.endPage + 65 ≤ kinitSplit) :
    ∃ k0 k f, boot cfg 0 [] = .ok k0 ∧
    Run cfg (fun _ _ _ => True) k0 k ∧ managed cfg f ∧ places k f = 0 ∧
    (k.proc 0).state ≠ .unused ∧ 0 < pages (k.proc 0).sz ∧
    mapped ((k.proc 0).pgdir.pteAt 0) = false := by
  obtain ⟨k0, hboot, hfirst⟩ := boot_total cfg 0 [] (by omega)
  obtain ⟨o, k1, f, g, hs, hp⟩ := hfirst.grow (boot_ok cfg hboot).1
  have hr : Run cfg (fun _ _ _ => True) k0 k1 := .step .start trivial hs
  obtain ⟨k2, hr2, hp2, hw⟩ := hp.storeWord (fun _ _ _ => trivial) hr
    (mapEntry (frameAddr g) pteU)
  obtain ⟨k3, ho, hf, hpl, hu, hsz, hpage⟩ := hp2.overrun hw
  refine ⟨k0, k3, f, hboot, @Run.overrun _ _ _ _ _ _ _ [] _ [] hr2 (by decide) hp2.run trivial ho,
    hf, hpl, hu, ?_, hpage⟩
  have h1 := hp2.size
  rw [hsz]
  unfold pages
  omega

end Xv6Clock
