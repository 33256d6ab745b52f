/-
  File:      Xv6Clock/Overrun.lean
  Subject:   exec with an argument of more than 32 MB: `copyout` (vm.c) writes the argument over a
             page that the caller chooses.

  The stack pointer, lowered by the argument's length, wraps around and stops below the device
  space, where the new image has no page-table page. `uva2ka` then takes the word at the caller's
  address 0 for the page-table entry, and `copyout` copies a page of the argument to the frame
  this word names. At the device space the copy is refused and exec fails; the overwritten frame
  stays. The effect is stated for a frame that is a page-table page of the caller.
-/
import Xv6Clock.ExecTotal
import Xv6Clock.Kernel

namespace Xv6Clock

variable (cfg : Config)

/-! ## 1. Bytes over a page-table page -/

/-- A page-table page as bytes. -/
def PgTab.bytes (t : PgTab) : Page := fun j => byteOf (t.pte (j / 4)) (j % 4)

/-- The page-table page after bytes are copied over it. -/
def PgTab.overwrite (t : PgTab) (o : Nat) (bs : List Byte) : PgTab :=
  ⟨t.frame, fun i => le32 (overlay t.bytes o bs) (4 * i)⟩

/-- Page directory entry `d` after bytes are copied over frame `f`. -/
def PgDir.tabOver (pd : PgDir) (f : Frame) (o : Nat) (bs : List Byte) (d : Nat) : Option PgTab :=
  match pd.pde d with
  | some t => some (if d < 1024 ∧ t.frame = f then t.overwrite o bs else t)
  | none => none

/-- The page directory after bytes are copied over frame `f`. -/
def PgDir.overwrite (pd : PgDir) (f : Frame) (o : Nat) (bs : List Byte) : PgDir :=
  ⟨pd.frame, pd.tabOver f o bs⟩

def Proc.overwrite (p : Proc) (f : Frame) (o : Nat) (bs : List Byte) : Proc :=
  { p with pgdir := p.pgdir.overwrite f o bs }

/-- Every page table after bytes are copied over frame `f`. -/
def Kernel.overwrite (k : Kernel) (f : Frame) (o : Nat) (bs : List Byte) : Kernel :=
  { k with
    proc := fun j => (k.proc j).overwrite f o bs
    kpgdir := k.kpgdir.overwrite f o bs }

/-- Frame `f` is a page-table page. -/
def PgDir.IsTab (pd : PgDir) (f : Frame) : Prop :=
  ∃ d t, d < 1024 ∧ pd.pde d = some t ∧ t.frame = f

theorem PgDir.IsTab.holds {pd : PgDir} {f : Frame} (h : pd.IsTab f) : 1 ≤ pd.holds f := by
  obtain ⟨d, t, hd, ht, rfl⟩ := h
  have h1 := Lib.le_sum (fun d => tabHolds t.frame d (pd.pde d)) hd
  simp only [ht, tabHolds_some, one_self] at h1
  unfold PgDir.holds
  omega

/-- A page directory that does not use the frame is not changed. -/
theorem PgDir.overwrite_other {pd : PgDir} {f : Frame} (h : pd.holds f = 0) (o : Nat)
    (bs : List Byte) : pd.overwrite f o bs = pd := by
  have e : pd.tabOver f o bs = pd.pde := by
    funext d
    unfold PgDir.tabOver
    split
    · rename_i t ht
      have hne : ¬ (d < 1024 ∧ t.frame = f) := fun hc => by
        have := PgDir.IsTab.holds ⟨d, t, hc.1, ht, hc.2⟩
        omega
      rw [if_neg hne, ht]
    · rename_i hn
      rw [hn]
  unfold PgDir.overwrite
  rw [e]

/-! ## 2. The overrun -/

/-- The image when exec comes to the arguments: loaded from `ip`, with stack and guard page, of
    size `sz`. -/
inductive Built (m : Kmem) (ip : Inode) : Vm → Nat → Prop where
  | intro {elf : List Byte} {pd : PgDir} {m1 : Kmem} {s1 s2 s3 : Vm} {sz sz' : Nat}
      (hr : readi ip 0 0 elfhdrSize = some elf) (hlen : elf.length = elfhdrSize)
      (hmagic : field32 elf 0 = elfMagic) (hk : setupkvm cfg m = .ok (some pd, m1))
      (hl : execLoad cfg ip (field16 elf 44) ⟨m1, pd⟩ 0 (field32 elf 28) 1 = .ok (true, s1, sz))
      (ha : allocuvm cfg s1 (pgRoundUp sz) (addU (pgRoundUp sz) (2 * pgSize)) = .ok (sz', s2))
      (h0 : sz' ≠ 0) (hc : clearpteu s2 (subU sz' (2 * pgSize)) = .ok s3) : Built m ip s3 sz'

/-- **exec by process `i`, overrunning**: the copy of the first argument starts where the image has
    no page-table page, the word at address 0 names a page-table page of the caller, and the page
    after the first is not the user's. exec frees the image and returns -1. -/
inductive Overrun (k : Kernel) (i : Nat) (ip : Inode) (arg : List Byte) : Kernel → Prop where
  | intro {s : Vm} {sz fuel va : Nat} {w : Word} {m m' : Kmem} {p : Proc} {bs : List Byte}
      (hb : Built cfg k.kmem ip s sz) (hva : va = subU sz (arg.length + 1) / 4 * 4)
      (hnull : s.pd.walk (pgRoundDown va) = none)
      (hw : loadNull cfg fuel s.m (k.proc i) = .ok (w, m, p)) (hm : mapped w = true)
      (hU : has w pteU = true) (ht : p.pgdir.IsTab (pteFrame w))
      (hbs : bs = (arg ++ [0]).take (pgSize - va % pgSize)) (hlen : bs.length < arg.length + 1)
      (hstop : uva2ka (s.pd.overwrite (pteFrame w) (va % pgSize) bs)
        (addU (pgRoundDown va) pgSize) = .ok none)
      (hf : freevm cfg ⟨m, s.pd.overwrite (pteFrame w) (va % pgSize) bs⟩ = .ok m') :
      Overrun k i ip arg (((k.setKmem m').setProc i p).overwrite (pteFrame w) (va % pgSize) bs)

theorem copyout_null {s : Vm} {va : Nat} {arg : List Byte}
    (h : s.pd.walk (pgRoundDown va) = none) : copyout s va (arg ++ [0]) = .error .nullPte := by
  unfold copyout
  rw [List.length_append, List.length_singleton, copyoutLoop, if_neg (by simp)]
  unfold uva2ka
  simp only [h, Lib.error_bind]

theorem Built.image {m : Kmem} {ip : Inode} {s : Vm} {sz : Nat} (h : Built cfg m ip s sz) :
    Image m s sz ∧ 8192 ≤ sz := by
  obtain ⟨hr, hlen, hmagic, hk, hl, ha, h0, hc⟩ := h
  rcases setupkvm_ok cfg hk with ⟨h1, -⟩ | ⟨pd, h1, hd, ht⟩
  · cases h1
  · cases h1
    rcases execLoad_image cfg (hd.image ht) hl with ⟨h1, -⟩ | ⟨-, him⟩
    · cases h1
    · obtain ⟨h8k, him2⟩ := (stack_image cfg him ha).resolve_left fun hc => h0 hc.1
      exact ⟨clearpteu_image him2 (guard_lt him2 h8k) hc, h8k⟩

/-- **Only a long argument overruns.** -/
theorem Overrun.long {k k' : Kernel} {i : Nat} {ip : Inode} {arg : List Byte}
    (h : Overrun cfg k i ip arg k') (args : List (List Byte)) : ¬ ArgsShort (arg :: args) := by
  intro hs
  obtain ⟨hb, rfl, hnull, -⟩ := h
  have harg := hs arg (List.mem_cons_self ..)
  obtain ⟨him, -⟩ := hb.image cfg
  have hlen : (arg ++ [0]).length = arg.length + 1 := List.length_append
  obtain ⟨r, s', h1, -⟩ := copyUser_total cfg 0 (k.proc i) him (Nat.le_refl _)
    (show 0 < (arg ++ [0]).length by omega) (by omega) (Or.inr rfl)
  unfold copyoutUser at h1
  rw [hlen, copyout_null hnull] at h1
  cases h1

end Xv6Clock
