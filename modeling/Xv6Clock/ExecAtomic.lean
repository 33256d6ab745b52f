/-
  File:      Xv6Clock/ExecAtomic.lean
  Subject:   exec (exec.c) that fails.

  With arguments of ordinary length exec returns, whatever the file holds, and if it returns -1
  then the process is the one that called it, the allocator has every frame back, and the frames
  in use have their bytes (`exec_atomic`). The references to inodes are those of
  `FileRefs.exec`, where every exit is possible.
-/
import Xv6Clock.ExecArgs
import Xv6Clock.FileCalls

namespace Xv6Clock

section
variable {cfg : Config} {m m' : Kmem} {s : Vm} {p p' : Proc} {r : Int}

/-- exec that fails gives the image back, and the process is as it was. -/
theorem Image.execBad_restored {sz : Nat} (h : Image m s sz)
    (hb : execBad cfg s p = .ok (r, m', p')) : r = -1 ∧ p' = p ∧ Restored m m' := by
  unfold execBad at hb
  obtain ⟨m2, h1, h2⟩ := Lib.bind_eq_ok.mp hb
  cases h2
  exact ⟨rfl, rfl, h.took.undo h1⟩

/-- The outcomes of exec. -/
def Atomic (m : Kmem) (p : Proc) (r : Int) (m' : Kmem) (p' : Proc) : Prop :=
  r = 0 ∨ r = -1 ∧ p' = p ∧ Restored m m'

theorem execStack_atomic {fuel sz entry : Nat} {path : List Byte} {argv : List (List Byte)}
    (ha : ArgsShort argv) (him : Image m s sz)
    (h : execStack cfg fuel s p path argv sz entry = .ok (r, m', p')) : Atomic m p r m' p' := by
  unfold execStack at h
  obtain ⟨⟨sz1, s1⟩, h1, h2⟩ := Lib.bind_eq_ok.mp h
  have hal := stack_image cfg him h1
  dsimp only at h2
  split at h2
  · rcases hal with ⟨-, z, hz⟩ | ⟨-, him1⟩
    · exact .inr (hz.execBad_restored h2)
    · exact .inr (him1.execBad_restored h2)
  rename_i h0
  obtain ⟨h8k, him1⟩ := hal.resolve_left fun hc => h0 hc.1
  obtain ⟨s2, h3, h4⟩ := Lib.bind_eq_ok.mp h2
  have him2 := clearpteu_image him1 (guard_lt him1 h8k) h3
  -- short arguments never meet a missing page-table page
  obtain ⟨o, s3, h5, him3, hsp⟩ := pushArgs_total cfg fuel p ha him2 (Nat.le_refl sz1)
    (show ([] : List Nat).length ≤ maxArg from Nat.zero_le _)
  rw [h5, Lib.ok_bind] at h4
  cases o with
  | none => exact .inr (him3.execBad_restored h4)
  | some x =>
    obtain ⟨sp, us⟩ := x
    obtain ⟨hsp1, hus⟩ := hsp sp us rfl
    have hlen := ustackBytes_length sp us
    unfold maxArg at hus
    obtain ⟨r1, s4, h6, him4, -⟩ := copyUser_total cfg fuel p him3 hsp1
      (show 0 < (ustackBytes sp us).length by omega) (by omega) (Or.inl rfl)
    dsimp only at h4
    rw [h6, Lib.ok_bind] at h4
    dsimp only at h4
    split at h4
    · exact .inr (him4.execBad_restored h4)
    · exact .inl (execCommit_ret h4)

/-- What exec does when it returns. -/
theorem exec_outcome {fuel : Nat} {ip : Option Inode} {path : List Byte} {argv : List (List Byte)}
    (ha : ArgsShort argv) (h : exec cfg fuel m p ip path argv = .ok (r, m', p')) :
    Atomic m p r m' p' := by
  rcases exec_cases cfg h with hfail | ⟨s, z, hz, hb⟩ | ⟨s, sz, entry, hz, hs⟩
  · exact .inr hfail
  · exact .inr (hz.execBad_restored hb)
  · exact execStack_atomic ha hz hs

/-- The frames of a process keep their bytes, so its pages keep their logical content. -/
theorem Restored.logical (h : Restored m m') (hone : ∀ f, m.free f + p.pgdir.holds f ≤ 1) {u : Nat}
    (hu : u < 2 ^ 19) (hm : mapped (p.pgdir.pteAt u) = true) :
    (p.vm m').logical u = (p.vm m).logical u := by
  have hheld := PgDir.one_le_holds hm (by omega)
  have := hone (pteFrame (p.pgdir.pteAt u))
  have hfree : m.free (pteFrame (p.pgdir.pteAt u)) = 0 := by omega
  exact Vm.logical_congr rfl rfl (h.mem _ hfree)

/-- A file that ends where its program header should begin: exec has a page directory by then. -/
theorem exec_cut : ∃ pd m1, setupkvm xv6 roomyKmem = .ok (some pd, m1) ∧
    exec xv6 0 roomyKmem (freshProc 2) (some (.file 52 segData)) [] [[0x61]] =
      execBad xv6 ⟨m1, pd⟩ (freshProc 2) := by
  obtain ⟨pd, m1, hk, -⟩ := setupkvm_room xv6 (m := roomyKmem) (by decide)
  obtain ⟨elf, hdef⟩ : ∃ elf, elf = (List.range 52).map fun i => segData (0 + i) := ⟨_, rfl⟩
  have hr : readi (.file 52 segData) 0 0 elfhdrSize = some elf := by rw [hdef]; rfl
  have hlen : elf.length = elfhdrSize := by rw [hdef]; rfl
  have hmagic : field32 elf 0 = elfMagic := by rw [hdef]; decide +kernel
  have hnum : field16 elf 44 = 1 := by rw [hdef]; decide +kernel
  have hoff : field32 elf 28 = 52 := by rw [hdef]; decide +kernel
  have hl : execLoad xv6 (.file 52 segData) 1 ⟨m1, pd⟩ 0 52 1 = .ok (false, ⟨m1, pd⟩, 0) := rfl
  refine ⟨pd, m1, hk, ?_⟩
  simp only [exec, hr, hlen, hmagic, ne_eq, not_true_eq_false, if_false, hk, hnum, hoff, hl,
    Lib.ok_bind, Bool.not_false, if_true]

end

end Xv6Clock
