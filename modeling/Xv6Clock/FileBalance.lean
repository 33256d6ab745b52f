/-
  File:      Xv6Clock/FileBalance.lean
  Subject:   What each command owes: references are moved, not made or lost.

  A command changes a count in the tables by as much as the private state of its process gains or
  loses. Needs are what this rests on: a reference is dropped only by a process that has it.
-/
import Xv6Clock.FileRefs
import Xv6Clock.Lib.Count
import Mathlib.Data.List.Count

namespace Xv6Clock.FileRefs

open Finset (range)

/-! ## 1. Weights -/

/-- One where the numbers are equal. -/
def ind (a b : Nat) : Nat := if a = b then 1 else 0

theorem ind_self (a : Nat) : ind a a = 1 := if_pos rfl

theorem ind_ne {a b : Nat} (h : a ≠ b) : ind a b = 0 := if_neg h

/-- One where a pointer is `some k`. -/
def refsTo (x : Option Nat) (k : Nat) : Nat := if x = some k then 1 else 0

theorem refsTo_none (k : Nat) : refsTo none k = 0 := if_neg nofun

theorem refsTo_some (j k : Nat) : refsTo (some j) k = ind k j := by
  unfold refsTo
  by_cases h : k = j
  · rw [h, ind_self, if_pos rfl]
  · rw [ind_ne h, if_neg fun e => h (Option.some.inj e).symm]

/-- How many descriptors refer to file `f`. -/
def slots (o : Nat → Option Nat) (f : Nat) : Nat := ∑ fd ∈ range nofile, refsTo (o fd) f

/-- The references to file `f` that a process has. -/
def Priv.fileWeight (l : Priv) (f : Nat) : Nat :=
  slots l.ofile f + l.files.count f + l.child.elim 0 fun c => slots c.ofile f

/-- The references to the cached inode `i` that a process has. -/
def Priv.inodeWeight (l : Priv) (i : Nat) : Nat :=
  refsTo l.cwd i + l.inodes.count i + l.child.elim 0 fun c => refsTo c.cwd i

/-- How many files refer to the cached inode `i`. -/
def Global.typed (g : Global) (i : Nat) : Nat :=
  ∑ f ∈ range nfile, if (g.file f).type = .inode i then 1 else 0

/-- The process refers to file `f`. -/
def Priv.Holds (l : Priv) (f : Nat) : Prop := 0 < l.fileWeight f

variable {fd k f : Nat} {o : Nat → Option Nat}

theorem slots_update (o : Nat → Option Nat) (hfd : fd < nofile) (x : Option Nat) (f : Nat) :
    slots (Function.update o fd x) f + refsTo (o fd) f = slots o f + refsTo x f :=
  Lib.sum_update_entry (fun _ y => refsTo y f) o hfd x

@[simp] theorem slots_none (f : Nat) : slots (fun _ => none) f = 0 := by
  simp [slots, refsTo_none]

theorem slots_clear (hfd : fd < nofile) (h : o fd = some k) (f : Nat) :
    slots (Function.update o fd none) f + ind f k = slots o f := by
  have hu := slots_update o hfd none f
  rw [h, refsTo_some, refsTo_none, Nat.add_zero] at hu
  exact hu

theorem slots_fill (hfd : fd < nofile) (h : o fd = none) (k f : Nat) :
    slots (Function.update o fd (some k)) f = slots o f + ind f k := by
  have hu := slots_update o hfd (some k) f
  rw [h, refsTo_some, refsTo_none, Nat.add_zero] at hu
  exact hu

@[simp] theorem setFile_self (g : Global) (f : Nat) (x : File) : (g.setFile f x).file f = x :=
  Function.update_self ..

theorem setFile_ne {g : Global} {j : Nat} {x : File} (h : j ≠ f) :
    (g.setFile f x).file j = g.file j :=
  Function.update_of_ne h ..

theorem inode_setInode (g : Global) (ip : Nat) (x : Inode) (j : Nat) :
    (g.setInode ip x).inode j = if j = ip then x else g.inode j := Function.update_apply _ _ _ _

theorem count_erase_add {xs : List Nat} {a : Nat} (h : a ∈ xs) (b : Nat) :
    (xs.erase a).count b + ind b a = xs.count b := by
  by_cases hb : b = a
  · subst hb
    have := List.count_pos_iff.mpr h
    rw [ind_self, List.count_erase_self]
    omega
  · rw [ind_ne hb, List.count_erase_of_ne hb]
    rfl

theorem count_cons_add (xs : List Nat) (a b : Nat) :
    (a :: xs).count b = xs.count b + ind b a := by
  by_cases hb : b = a
  · rw [hb, ind_self, List.count_cons_self]
  · rw [ind_ne hb, List.count_cons_of_ne (Ne.symm hb)]
    rfl

/-! ## 2. Needs -/

/-- **What a command needs.** -/
def need : Cmd → Priv → Prop
  | .iput ip, l => ip ∈ l.inodes
  | .filedup f, l => f ∈ l.owed
  | .fileclose f, l => f ∈ l.files ∧ l.owed = []
  | .takeFd fd, _ => fd < nofile
  | .fdalloc f, l => f ∈ l.files ∨ ∃ fd, fd < nofile ∧ l.ofile fd = some f
  | .setInode f ip, l => f ∈ l.fresh ∧ ip ∈ l.inodes
  | .setPipe f, l => f ∈ l.fresh
  | .setCwd ip, l => ip ∈ l.inodes ∧ l.cwd = none
  | .allocproc, l => l.child = none
  | .freeproc, l => ∃ p, l.child = some ⟨p, fun _ => none, none⟩
  | .dupFd fd, l => fd < nofile ∧ ∃ c, l.child = some c ∧ c.ofile fd = none
  | .dupCwd, l => ∃ c, l.child = some c ∧ c.cwd = none
  | .start, l => l.fresh = [] ∧ l.owed = [] ∧ ∃ c, l.child = some c ∧ c.cwd.isSome
  | .exited, l => (∀ f, l.fileWeight f = 0) ∧ l.owed = [] ∧ (∀ i, l.inodeWeight i = 0) ∧
      l.child = none
  | .ask, _ | .panic, _ | .dev _, _ | .iget _ _, _ | .idupCwd, _ | .filealloc, _ | .getFd _, _
  | .takeCwd, _ => True

/-- The answers that the private state determines. -/
def ok : (c : Cmd) → Priv → c.Ans → Prop
  | .idupCwd, l, i | .takeCwd, l, i => l.cwd = some i
  | .getFd fd, l, r => r = if fd < nofile then l.ofile fd else none
  | .fdalloc _, l, r => r = l.freeFd
  | .dupCwd, l, _ => l.cwd.isSome
  | .filealloc, l, r => ∀ f, r = some f → f ∉ l.fresh
  | .exited, _, _ => False
  | .ask, _, _ | .panic, _, _ | .dev _, _, _ | .iget _ _, _, _ | .iput _, _, _
  | .filedup _, _, _ | .fileclose _, _, _ | .takeFd _, _, _ | .setInode _ _, _, _
  | .setPipe _, _, _ | .setCwd _, _, _ | .allocproc, _, _ | .freeproc, _, _ | .dupFd _, _, _
  | .start, _, _ => True

/-- **The rules of ownership.** -/
def rules : Lib.Rules Cmd Cmd.Ans Priv := ⟨need, fun c l r l' => ok c l r ∧ l' = l.after c r⟩

variable {p n : Nat} {g g' : Global} {l l' : Priv}

/-! ## 3. Sections -/

theorem freeFd_spec (h : l.freeFd = some fd) : fd < nofile ∧ l.ofile fd = none := by
  unfold Priv.freeFd at h
  refine ⟨List.mem_range.mp (List.mem_of_find?_eq_some h), ?_⟩
  exact Option.isNone_iff_eq_none.mp (List.find?_some (p := fun fd => (l.ofile fd).isNone) h)

theorem filealloc_spec {r : Option Nat} (h : filealloc g = (r, g')) :
    (r = none ∧ g' = g) ∨ ∃ f, r = some f ∧ f < nfile ∧ (g.file f).ref = 0 ∧
      g' = g.setFile f ⟨1, (g.file f).type⟩ := by
  unfold filealloc at h
  split at h
  · cases h
    exact .inl ⟨rfl, rfl⟩
  · rename_i f hf
    cases h
    refine .inr ⟨f, rfl, List.mem_range.mp (List.mem_of_find?_eq_some hf), ?_, rfl⟩
    exact beq_iff_eq.mp (List.find?_some (p := fun f => (g.file f).ref == 0) hf)

theorem filedup_spec (h : filedup g f = some g') :
    1 ≤ (g.file f).ref ∧ g' = g.setFile f ⟨(g.file f).ref + 1, (g.file f).type⟩ := by
  unfold filedup at h
  split at h
  · cases h
  · rename_i hr
    cases h
    exact ⟨by omega, rfl⟩

/-- A descriptor copied to the child: an unused one is left, an open file gets a reference. -/
theorem dupFd_spec {r : Unit} (h : act p n g l (.dupFd fd) = some (r, g')) :
    (l.ofile fd = none ∧ g' = g) ∨ ∃ f, l.ofile fd = some f ∧ filedup g f = some g' := by
  unfold act at h
  dsimp only at h
  cases ho : l.ofile fd with
  | none =>
    rw [ho] at h
    cases h
    exact .inl ⟨rfl, rfl⟩
  | some f =>
    rw [ho] at h
    obtain ⟨g1, hg1, he⟩ := Option.map_eq_some_iff.mp h
    cases he
    exact .inr ⟨f, rfl, hg1⟩

theorem fileclose_spec {r : Option FType} (h : fileclose g f = some (r, g')) :
    (1 < (g.file f).ref ∧ r = none ∧
      g' = g.setFile f ⟨(g.file f).ref - 1, (g.file f).type⟩) ∨
    (g.file f).ref = 1 ∧ r = some (g.file f).type ∧ g' = g.setFile f ⟨0, .none⟩ := by
  unfold fileclose at h
  split at h
  · cases h
  · rename_i hr
    split at h
    · cases h
      exact .inl ⟨by omega, rfl, rfl⟩
    · cases h
      exact .inr ⟨by omega, rfl, rfl⟩

theorem act_ok {c : Cmd} {r : c.Ans} (h : act p n g l c = some (r, g')) (hc : c ≠ .exited)
    (hfresh : ∀ f ∈ l.fresh, 0 < (g.file f).ref) : ok c l r := by
  cases c with
  | idupCwd | takeCwd =>
    obtain ⟨i, hi, he⟩ := Option.map_eq_some_iff.mp h
    cases he
    exact hi
  | dupCwd =>
    obtain ⟨i, hi, -⟩ := Option.map_eq_some_iff.mp h
    exact Option.isSome_iff_exists.mpr ⟨i, hi⟩
  | getFd | fdalloc =>
    cases h
    rfl
  | filealloc =>
    rcases filealloc_spec (Option.some.inj h) with ⟨rfl, -⟩ | ⟨k, rfl, -, h0, -⟩
    · exact fun f hf => nomatch hf
    · intro f hf hm
      have := hfresh f hm
      rw [← Option.some.inj hf, h0] at this
      exact absurd this (Nat.lt_irrefl 0)
  | exited => exact absurd rfl hc
  | _ => trivial

/-- What `fileclose` does to the weights of files does not depend on what is left to close. -/
theorem after_fileclose (f : Nat) (r : Option FType) :
    (l.after (.fileclose f) r).files = l.files.erase f ∧
    (l.after (.fileclose f) r).ofile = l.ofile ∧ (l.after (.fileclose f) r).child = l.child ∧
    (l.after (.fileclose f) r).owed = l.owed ∧ (l.after (.fileclose f) r).cwd = l.cwd ∧
    (l.after (.fileclose f) r).fresh = l.fresh.filter (· ≠ f) ∧
    (l.after (.fileclose f) r).inodes =
      (match r with | some (.inode ip) => ip :: l.inodes | _ => l.inodes) := by
  unfold Priv.after
  rcases r with - | (- | - | ip) <;> exact ⟨rfl, rfl, rfl, rfl, rfl, rfl, rfl⟩

theorem iget_spec {dev inum i : Nat} (h : iget g dev inum = some (i, g')) : i < ninode ∧
    ((0 < (g.inode i).ref ∧ (g.inode i).dev = dev ∧ (g.inode i).inum = inum ∧
      g' = g.setInode i { g.inode i with ref := (g.inode i).ref + 1 }) ∨
    (g.inode i).ref = 0 ∧ (∀ j, j < ninode → 0 < (g.inode j).ref →
      ¬ ((g.inode j).dev = dev ∧ (g.inode j).inum = inum)) ∧
      g' = g.setInode i ⟨dev, inum, 1⟩) := by
  unfold iget at h
  split at h
  · rename_i j hj
    cases h
    have hp := List.find?_some (p := fun i =>
      0 < (g.inode i).ref && (g.inode i).dev == dev && (g.inode i).inum == inum) hj
    rw [Bool.and_eq_true, Bool.and_eq_true, decide_eq_true_eq, beq_iff_eq, beq_iff_eq] at hp
    exact ⟨List.mem_range.mp (List.mem_of_find?_eq_some hj), .inl ⟨hp.1.1, hp.1.2, hp.2, rfl⟩⟩
  · rename_i hnone
    split at h
    · rename_i j hj
      cases h
      have hp := List.find?_some (p := fun i => (g.inode i).ref == 0) hj
      refine ⟨List.mem_range.mp (List.mem_of_find?_eq_some hj), .inr ⟨beq_iff_eq.mp hp,
        fun k hk hr he => ?_, rfl⟩⟩
      refine List.find?_eq_none.mp hnone k (List.mem_range.mpr hk) ?_
      rw [Bool.and_eq_true, Bool.and_eq_true, decide_eq_true_eq, beq_iff_eq, beq_iff_eq]
      exact ⟨⟨hr, he.1⟩, he.2⟩
    · cases h

theorem iget_file {dev inum i : Nat} (h : iget g dev inum = some (i, g')) : g'.file = g.file := by
  rcases (iget_spec h).2 with ⟨-, -, -, rfl⟩ | ⟨-, -, rfl⟩ <;> rfl

theorem allocproc_spec {r : Option Nat} (h : allocproc g = (r, g')) :
    (r = none ∧ g' = g) ∨ ∃ p, r = some p ∧ p < nproc ∧ g.state p = .unused ∧
      g' = g.setState p .embryo := by
  unfold allocproc at h
  split at h
  · cases h
    exact .inl ⟨rfl, rfl⟩
  · rename_i p hp
    cases h
    refine .inr ⟨p, rfl, List.mem_range.mp (List.mem_of_find?_eq_some hp), ?_, rfl⟩
    exact of_decide_eq_true (List.find?_some (p := fun p => decide (g.state p = .unused)) hp)

/-! ## 4. Files -/

/-- **What a command does to file `f`**, and to what its process has and owes of it. -/
inductive FileStep (g g' : Global) (l l' : Priv) (f : Nat) : Prop where
  | same (file : g'.file f = g.file f) (has : l'.fileWeight f = l.fileWeight f)
      (owes : l'.owed.count f = l.owed.count f) (fresh : f ∈ l'.fresh ↔ f ∈ l.fresh)
  /-- A slot is filled before its `filedup`. -/
  | borrow (file : g'.file f = g.file f) (held : l.Holds f)
      (has : l'.fileWeight f = l.fileWeight f + 1)
      (owes : l'.owed.count f = l.owed.count f + 1) (fresh : f ∈ l'.fresh ↔ f ∈ l.fresh)
  | alloc (lt : f < nfile) (free : (g.file f).ref = 0)
      (file : g'.file f = ⟨1, (g.file f).type⟩) (has : l'.fileWeight f = l.fileWeight f + 1)
      (owes : l'.owed.count f = l.owed.count f)
  /-- A fork gives its child a reference. -/
  | dup (held : l.Holds f) (file : g'.file f = ⟨(g.file f).ref + 1, (g.file f).type⟩)
      (has : l'.fileWeight f = l.fileWeight f + 1) (owes : l'.owed.count f = l.owed.count f)
      (fresh : f ∈ l'.fresh ↔ f ∈ l.fresh)
  /-- The `filedup` of a slot that is filled. -/
  | pay (file : g'.file f = ⟨(g.file f).ref + 1, (g.file f).type⟩)
      (has : l'.fileWeight f = l.fileWeight f) (owes : l'.owed.count f + 1 = l.owed.count f)
      (fresh : f ∈ l'.fresh ↔ f ∈ l.fresh)
  | close (pos : 0 < (g.file f).ref) (ref : (g'.file f).ref = (g.file f).ref - 1)
      (type : (g'.file f).type = (g.file f).type ∧ (g.file f).ref ≠ 1 ∨ (g'.file f).type = .none)
      (has : l'.fileWeight f + 1 = l.fileWeight f) (owed : l.owed.count f = 0)
      (owes : l'.owed.count f = 0) (fresh : f ∉ l'.fresh)
  | typed (type : FType) (mem : f ∈ l.fresh) (file : g'.file f = ⟨(g.file f).ref, type⟩)
      (has : l'.fileWeight f = l.fileWeight f) (owes : l'.owed.count f = l.owed.count f)
      (fresh : f ∉ l'.fresh)

/-- The part of the weight that a fork has for its child. -/
def Priv.childWeight (l : Priv) (f : Nat) : Nat := l.child.elim 0 fun c => slots c.ofile f

theorem fileWeight_eq (l : Priv) (f : Nat) :
    l.fileWeight f = slots l.ofile f + l.files.count f + l.childWeight f := rfl

theorem Priv.childWeight_some {c : Child} (h : l.child = some c) (f : Nat) :
    l.childWeight f = slots c.ofile f := by
  unfold childWeight
  rw [h]
  rfl

theorem Priv.childWeight_none (h : l.child = none) (f : Nat) : l.childWeight f = 0 := by
  unfold childWeight
  rw [h]
  rfl

/-- A command that leaves the files alone, and the slots. -/
theorem FileStep.still (file : g'.file = g.file) (ho : l'.ofile = l.ofile) (hf : l'.files = l.files)
    (hc : ∀ f, l'.childWeight f = l.childWeight f) (hfresh : l'.fresh = l.fresh)
    (howed : l'.owed = l.owed) : FileStep g g' l l' f := by
  refine .same (by rw [file]) ?_ (by rw [howed]) (by rw [hfresh])
  rw [fileWeight_eq, fileWeight_eq, ho, hf, hc]

theorem filealloc_file {r : Option Nat} (h : filealloc g = (r, g')) (f : Nat) :
    FileStep g g' l (l.after .filealloc r) f := by
  rcases filealloc_spec h with ⟨rfl, rfl⟩ | ⟨k, rfl, hlt, h0, rfl⟩
  · exact .still rfl rfl rfl (fun _ => rfl) rfl rfl
  · have hcnt := count_cons_add l.files k f
    have has : (l.after .filealloc (some k)).fileWeight f = l.fileWeight f + ind f k := by
      change slots l.ofile f + (k :: l.files).count f + l.childWeight f = _
      rw [fileWeight_eq]
      omega
    by_cases hf : f = k
    · subst hf
      rw [ind_self] at has
      exact .alloc hlt h0 (setFile_self ..) has rfl
    · rw [ind_ne hf, Nat.add_zero] at has
      exact .same (setFile_ne hf) has rfl (List.mem_cons.trans (or_iff_right hf))

theorem filedup_file (h : filedup g k = some g') (hk : k ∈ l.owed) (f : Nat) :
    FileStep g g' l (l.after (.filedup k) ()) f := by
  obtain ⟨-, rfl⟩ := filedup_spec h
  have howes : (l.after (.filedup k) ()).owed.count f + ind f k = l.owed.count f :=
    count_erase_add hk f
  by_cases hf : f = k
  · subst hf
    rw [ind_self] at howes
    exact .pay (setFile_self ..) rfl howes Iff.rfl
  · rw [ind_ne hf, Nat.add_zero] at howes
    exact .same (setFile_ne hf) rfl howes Iff.rfl

theorem fileclose_file {r : Option FType} (h : fileclose g k = some (r, g')) (hk : k ∈ l.files)
    (howed : l.owed = []) (f : Nat) : FileStep g g' l (l.after (.fileclose k) r) f := by
  obtain ⟨hfiles, hofile, hchild, howes, -, hfresh, -⟩ := after_fileclose (l := l) k r
  have hcnt := count_erase_add hk f
  have has : (l.after (.fileclose k) r).fileWeight f + ind f k = l.fileWeight f := by
    rw [fileWeight_eq, fileWeight_eq, hfiles, hofile]
    unfold Priv.childWeight
    rw [hchild]
    omega
  by_cases hf : f = k
  · subst hf
    rw [ind_self] at has
    have hnil : l.owed.count f = 0 := by
      rw [howed]
      rfl
    have hnot : f ∉ (l.after (.fileclose f) r).fresh := by simp [hfresh]
    rcases fileclose_spec h with ⟨h1, -, rfl⟩ | ⟨h1, -, rfl⟩
    · have hx := setFile_self g f ⟨(g.file f).ref - 1, (g.file f).type⟩
      exact .close (by omega) (by rw [hx]) (.inl ⟨by rw [hx], by omega⟩) has hnil
        (howes ▸ hnil) hnot
    · have hx := setFile_self g f ⟨0, .none⟩
      exact .close (by omega) (by rw [hx, h1]) (.inr (by rw [hx])) has hnil (howes ▸ hnil) hnot
  · rw [ind_ne hf, Nat.add_zero] at has
    have hsame : g'.file f = g.file f := by
      rcases fileclose_spec h with ⟨-, -, rfl⟩ | ⟨-, -, rfl⟩ <;> exact setFile_ne hf
    exact .same hsame has (by rw [howes]) (by simp [hfresh, hf])

theorem takeFd_file (hfd : fd < nofile) (f : Nat) : FileStep g g l (l.takeFd fd) f := by
  unfold Priv.takeFd
  split
  · exact .still rfl rfl rfl (fun _ => rfl) rfl rfl
  · rename_i k hk
    have hslot := slots_clear hfd hk f
    have hcnt := count_cons_add l.files k f
    refine .same rfl ?_ rfl Iff.rfl
    change slots (Function.update l.ofile fd none) f + (k :: l.files).count f +
      l.childWeight f = _
    rw [fileWeight_eq]
    omega

theorem slots_pos (hfd : fd < nofile) (h : o fd = some f) : 0 < slots o f := by
  have hle := Lib.le_sum (fun fd => refsTo (o fd) f) hfd
  rw [h, refsTo_some, ind_self] at hle
  exact hle

theorem Priv.holds_slot (hfd : fd < nofile) (h : l.ofile fd = some f) : l.Holds f := by
  have := slots_pos hfd h
  unfold Holds
  rw [fileWeight_eq]
  omega

/-- `fdalloc` of a file to which the caller has a reference. -/
theorem fdalloc_own (hf : f ∈ l.files) : l.fdalloc f (some fd) =
    { l with ofile := Function.update l.ofile fd (some f), files := l.files.erase f } := if_pos hf

/-- `fdalloc` of a file to which it has none. -/
theorem fdalloc_owed (hf : f ∉ l.files) : l.fdalloc f (some fd) =
    { l with ofile := Function.update l.ofile fd (some f), owed := f :: l.owed } := if_neg hf

theorem fdalloc_file {r : Option Nat} (hr : r = l.freeFd)
    (hk : k ∈ l.files ∨ ∃ fd, fd < nofile ∧ l.ofile fd = some k) (f : Nat) :
    FileStep g g l (l.fdalloc k r) f := by
  cases r with
  | none => exact .still rfl rfl rfl (fun _ => rfl) rfl rfl
  | some fd =>
    obtain ⟨hlt, hnone⟩ := freeFd_spec hr.symm
    have hslot := slots_fill hlt hnone k f
    by_cases hm : k ∈ l.files
    · have hcnt := count_erase_add hm f
      rw [fdalloc_own hm]
      refine .same rfl ?_ rfl Iff.rfl
      change slots (Function.update l.ofile fd (some k)) f + (l.files.erase k).count f +
        l.childWeight f = _
      rw [fileWeight_eq]
      omega
    · have hcnt := count_cons_add l.owed k f
      rw [fdalloc_owed hm]
      have has : ({ l with ofile := Function.update l.ofile fd (some k),
                           owed := k :: l.owed } : Priv).fileWeight f =
          l.fileWeight f + ind f k := by
        change slots (Function.update l.ofile fd (some k)) f + l.files.count f +
          l.childWeight f = _
        rw [fileWeight_eq]
        omega
      by_cases hf : f = k
      · subst hf
        rw [ind_self] at has hcnt
        obtain ⟨d, hd, he⟩ := hk.resolve_left hm
        exact .borrow rfl (Priv.holds_slot hd he) has hcnt Iff.rfl
      · rw [ind_ne hf, Nat.add_zero] at has hcnt
        exact .same rfl has hcnt Iff.rfl

theorem dupFd_file {r : Unit} (h : act p n g l (.dupFd fd) = some (r, g')) (hfd : fd < nofile)
    {c : Child} (hc : l.child = some c) (hnone : c.ofile fd = none) (f : Nat) :
    FileStep g g' l (l.after (.dupFd fd) r) f := by
  have hchild : (l.after (.dupFd fd) r).child =
      some { c with ofile := Function.update c.ofile fd (l.ofile fd) } := by
    change l.child.map _ = _
    rw [hc]
    rfl
  have has : (l.after (.dupFd fd) r).fileWeight f = l.fileWeight f + refsTo (l.ofile fd) f := by
    have hu := slots_update c.ofile hfd (l.ofile fd) f
    rw [hnone, refsTo_none] at hu
    rw [fileWeight_eq, fileWeight_eq, Priv.childWeight_some hchild, Priv.childWeight_some hc]
    change slots l.ofile f + l.files.count f + slots (Function.update _ _ _) f = _
    omega
  rcases dupFd_spec h with ⟨ho, rfl⟩ | ⟨k, ho, hg⟩
  · rw [ho, refsTo_none, Nat.add_zero] at has
    exact .same rfl has rfl Iff.rfl
  · obtain ⟨-, rfl⟩ := filedup_spec hg
    rw [ho, refsTo_some] at has
    by_cases hf : f = k
    · subst hf
      rw [ind_self] at has
      exact .dup (Priv.holds_slot hfd ho) (setFile_self ..) has rfl Iff.rfl
    · rw [ind_ne hf, Nat.add_zero] at has
      exact .same (setFile_ne hf) has rfl Iff.rfl

/-- A type is given to a file that has none. -/
theorem setType_file (type : FType) (hk : k ∈ l.fresh) (hw : ∀ f, l'.fileWeight f = l.fileWeight f)
    (howed : l'.owed = l.owed) (hfresh : l'.fresh = l.fresh.filter (· ≠ k)) :
    FileStep g (g.setFile k { g.file k with type := type }) l l' f := by
  by_cases hf : f = k
  · subst hf
    exact .typed type hk (setFile_self ..) (hw f) (by rw [howed]) (by simp [hfresh])
  · exact .same (setFile_ne hf) (hw f) (by rw [howed]) (by simp [hfresh, hf])

theorem act_file {c : Cmd} {r : c.Ans} (h : act p n g l c = some (r, g')) (hn : need c l)
    (hs : c ≠ .start) (f : Nat) : FileStep g g' l (l.after c r) f := by
  cases c with
  | ask | dev | getFd | iput | setCwd | exited =>
    cases h
    exact .still rfl rfl rfl (fun _ => rfl) rfl rfl
  | panic => cases h
  | iget dev inum => exact .still (iget_file h) rfl rfl (fun _ => rfl) rfl rfl
  | idupCwd | takeCwd =>
    obtain ⟨i, -, he⟩ := Option.map_eq_some_iff.mp h
    cases he
    exact .still rfl rfl rfl (fun _ => rfl) rfl rfl
  | filealloc => exact filealloc_file (Option.some.inj h) f
  | filedup k =>
    obtain ⟨g1, hg1, he⟩ := Option.map_eq_some_iff.mp h
    cases he
    exact filedup_file hg1 hn f
  | fileclose k => exact fileclose_file h hn.1 hn.2 f
  | takeFd fd =>
    cases h
    exact takeFd_file hn f
  | fdalloc k =>
    obtain ⟨hr, rfl⟩ := Prod.mk.inj (Option.some.inj h)
    exact fdalloc_file hr.symm hn f
  | setInode k ip =>
    cases h
    exact setType_file _ hn.1 (fun _ => rfl) rfl rfl
  | setPipe k =>
    cases h
    exact setType_file _ hn (fun _ => rfl) rfl rfl
  | allocproc =>
    rcases allocproc_spec (Option.some.inj h) with ⟨rfl, rfl⟩ | ⟨q, rfl, -, -, rfl⟩
    · exact .still rfl rfl rfl (fun _ => rfl) rfl rfl
    · refine .still rfl rfl rfl (fun f => ?_) rfl rfl
      rw [Priv.childWeight_none hn]
      exact slots_none f
  | freeproc =>
    obtain ⟨c, -, he⟩ := Option.map_eq_some_iff.mp h
    obtain ⟨q, hq⟩ := hn
    cases he
    refine .still rfl rfl rfl (fun f => ?_) rfl rfl
    rw [Priv.childWeight_some hq, slots_none]
    rfl
  | dupFd fd =>
    obtain ⟨hlt, ch, hch, hnone⟩ := hn
    exact dupFd_file h hlt hch hnone f
  | dupCwd =>
    obtain ⟨i, -, he⟩ := Option.map_eq_some_iff.mp h
    cases he
    refine .still rfl rfl rfl (fun f => ?_) rfl rfl
    change (l.child.map _).elim 0 _ = l.child.elim 0 _
    cases l.child <;> rfl
  | start => exact absurd rfl hs

/-- **Files balance.** -/
theorem FileStep.balance (h : FileStep g g' l l' f) :
    (g'.file f).ref + l'.owed.count f + l.fileWeight f =
      (g.file f).ref + l.owed.count f + l'.fileWeight f := by
  cases h with
  | same file has owes | borrow file _ has owes | typed _ _ file has owes =>
    simp only [file]
    omega
  | alloc _ _ file has owes | dup _ file has owes | pay file has owes =>
    simp only [file]
    omega
  | close => omega

/-! ## 5. Inodes -/

/-- **What a command does to the inode cache**, and to the references to its entries. -/
inductive InodeEffect (g g' : Global) (l l' : Priv) : Prop where
  /-- References move between the process and the files. -/
  | move (inode : g'.inode = g.inode)
      (has : ∀ i, g'.typed i + l'.inodeWeight i = g.typed i + l.inodeWeight i)
  | dup (k : Nat) (pos : 0 < (g.inode k).ref)
      (table : g' = g.setInode k { g.inode k with ref := (g.inode k).ref + 1 })
      (has : ∀ i, l'.inodeWeight i = l.inodeWeight i + ind i k)
  /-- An unused entry, for an inode that has none. -/
  | fill (k dev inum : Nat) (free : (g.inode k).ref = 0)
      (new : ∀ j, j < ninode → 0 < (g.inode j).ref →
        ¬ ((g.inode j).dev = dev ∧ (g.inode j).inum = inum))
      (table : g' = g.setInode k ⟨dev, inum, 1⟩)
      (has : ∀ i, l'.inodeWeight i = l.inodeWeight i + ind i k)
  | put (k : Nat) (pos : 0 < (g.inode k).ref)
      (table : g' = g.setInode k { g.inode k with ref := (g.inode k).ref - 1 })
      (has : ∀ i, l'.inodeWeight i + ind i k = l.inodeWeight i)

/-- The part of the weight that a fork has for its child. -/
def Priv.childCwd (l : Priv) (i : Nat) : Nat := l.child.elim 0 fun c => refsTo c.cwd i

theorem inodeWeight_eq (l : Priv) (i : Nat) :
    l.inodeWeight i = refsTo l.cwd i + l.inodes.count i + l.childCwd i := rfl

theorem Priv.childCwd_some {c : Child} (h : l.child = some c) (i : Nat) :
    l.childCwd i = refsTo c.cwd i := by
  unfold childCwd
  rw [h]
  rfl

theorem Priv.childCwd_none (h : l.child = none) (i : Nat) : l.childCwd i = 0 := by
  unfold childCwd
  rw [h]
  rfl

/-- A command that leaves the inodes alone, and the types of the files. -/
theorem InodeEffect.still (inode : g'.inode = g.inode) (typed : ∀ i, g'.typed i = g.typed i)
    (hcwd : l'.cwd = l.cwd) (hinodes : l'.inodes = l.inodes)
    (hc : ∀ i, l'.childCwd i = l.childCwd i) : InodeEffect g g' l l' :=
  .move inode fun i => by rw [typed, inodeWeight_eq, inodeWeight_eq, hcwd, hinodes, hc]

/-- What the last close moves to the caller. -/
def FType.weight (t : FType) (i : Nat) : Nat := if t = .inode i then 1 else 0

theorem FType.weight_inode (ip i : Nat) : (FType.inode ip).weight i = ind i ip := by
  unfold FType.weight
  by_cases h : i = ip
  · rw [h, ind_self, if_pos rfl]
  · rw [ind_ne h, if_neg fun e => h (FType.inode.inj e).symm]

theorem FType.weight_none (i : Nat) : FType.none.weight i = 0 := if_neg nofun

theorem FType.weight_pipe (i : Nat) : FType.pipe.weight i = 0 := if_neg nofun

theorem typed_setFile (g : Global) (hf : f < nfile) (x : File) (i : Nat) :
    (g.setFile f x).typed i + (g.file f).type.weight i = g.typed i + x.type.weight i :=
  Lib.sum_update_entry (fun _ (y : File) => y.type.weight i) g.file hf x

/-- An entry that keeps its type, or one outside the table. -/
theorem typed_same (g : Global) {ref : Nat} {type : FType} (h : type = (g.file f).type) (i : Nat) :
    (g.setFile f ⟨ref, type⟩).typed i = g.typed i := by
  refine Finset.sum_congr rfl fun k _ => ?_
  by_cases hk : k = f
  · rw [hk, setFile_self, h]
  · rw [setFile_ne hk]

theorem fileclose_inode {r : Option FType} (h : fileclose g f = some (r, g'))
    (hout : nfile ≤ f → (g.file f).type = .none) :
    InodeEffect g g' l (l.after (.fileclose f) r) := by
  obtain ⟨-, -, hchild, -, hcwd, -, hinodes⟩ := after_fileclose (l := l) f r
  have hc : ∀ i, (l.after (.fileclose f) r).childCwd i = l.childCwd i := fun i => by
    unfold Priv.childCwd
    rw [hchild]
  rcases fileclose_spec h with ⟨-, rfl, rfl⟩ | ⟨-, rfl, rfl⟩
  · exact .still rfl (typed_same g rfl) hcwd hinodes hc
  have has : ∀ i, (l.after (.fileclose f) (some (g.file f).type)).inodeWeight i =
      l.inodeWeight i + (g.file f).type.weight i := fun i => by
    rw [inodeWeight_eq, inodeWeight_eq, hcwd, hinodes, hc]
    cases (g.file f).type with
    | none => rw [FType.weight_none]; rfl
    | pipe => rw [FType.weight_pipe]; rfl
    | inode ip =>
      dsimp only
      rw [FType.weight_inode, count_cons_add]
      omega
  refine .move rfl fun i => ?_
  rw [has i]
  by_cases hf : f < nfile
  · have hu := typed_setFile g hf ⟨0, .none⟩ i
    rw [FType.weight_none] at hu
    omega
  · have hnone := hout (Nat.le_of_not_lt hf)
    rw [typed_same g hnone.symm i, hnone, FType.weight_none]
    omega

theorem setInode_inode {ip : Nat} (hlt : k < nfile) (hnone : (g.file k).type = .none)
    (hip : ip ∈ l.inodes) : InodeEffect g (g.setFile k { g.file k with type := .inode ip }) l
      (l.after (.setInode k ip) ()) := by
  refine .move rfl fun i => ?_
  have hu := typed_setFile g hlt { g.file k with type := .inode ip } i
  rw [hnone, FType.weight_none, FType.weight_inode] at hu
  have hcnt := count_erase_add hip i
  change _ + (refsTo l.cwd i + (l.inodes.erase ip).count i + l.childCwd i) = _
  rw [inodeWeight_eq]
  omega

/-- One reference more in a local variable. -/
theorem inodeWeight_cons (l : Priv) (k i : Nat) :
    ({ l with inodes := k :: l.inodes } : Priv).inodeWeight i = l.inodeWeight i + ind i k := by
  have hcnt := count_cons_add l.inodes k i
  change refsTo l.cwd i + (k :: l.inodes).count i + l.childCwd i = _
  rw [inodeWeight_eq]
  omega

theorem dupCwd_inode {ip : Nat} {c : Child} (hip : l.cwd = some ip) (hc : l.child = some c)
    (hnone : c.cwd = none) (hpos : 0 < (g.inode ip).ref) :
    InodeEffect g (idup g ip) l (l.after .dupCwd ()) := by
  refine .dup ip hpos rfl fun i => ?_
  have hchild : (l.after .dupCwd ()).child = some { c with cwd := l.cwd } := by
    change l.child.map _ = _
    rw [hc]
    rfl
  rw [inodeWeight_eq, inodeWeight_eq, Priv.childCwd_some hchild, Priv.childCwd_some hc, hnone,
    refsTo_none]
  change refsTo l.cwd i + l.inodes.count i + refsTo l.cwd i = _
  rw [hip, refsTo_some, Nat.add_zero]

section Inode

variable {c : Cmd} {r : c.Ans} (hpos : ∀ ip, ip ∈ l.inodes ∨ l.cwd = some ip → 0 < (g.inode ip).ref)
  (hout : ∀ f, nfile ≤ f → (g.file f).type = .none)
  (hfresh : ∀ f ∈ l.fresh, f < nfile ∧ (g.file f).type = .none)

include hpos hout hfresh

theorem act_inode (h : act p n g l c = some (r, g')) (hn : need c l) (hs : c ≠ .start) :
    InodeEffect g g' l (l.after c r) := by
  cases c with
  | ask | dev | getFd | exited =>
    cases h
    exact .still rfl (fun _ => rfl) rfl rfl fun _ => rfl
  | panic => cases h
  | iget dev inum =>
    rcases (iget_spec h).2 with ⟨h1, -, -, hg⟩ | ⟨h0, hnew, hg⟩
    · exact .dup r h1 hg (inodeWeight_cons l r)
    · exact .fill r dev inum h0 hnew hg (inodeWeight_cons l r)
  | idupCwd =>
    obtain ⟨ip, hip, he⟩ := Option.map_eq_some_iff.mp h
    cases he
    exact .dup r (hpos r (.inr hip)) rfl (inodeWeight_cons l r)
  | iput ip =>
    cases h
    refine .put ip (hpos ip (.inl hn)) rfl fun i => ?_
    have hcnt := count_erase_add hn i
    change refsTo l.cwd i + (l.inodes.erase ip).count i + l.childCwd i + _ = _
    rw [inodeWeight_eq]
    omega
  | filealloc =>
    rcases filealloc_spec (Option.some.inj h) with ⟨rfl, rfl⟩ | ⟨k, rfl, -, -, rfl⟩
    · exact .still rfl (fun _ => rfl) rfl rfl fun _ => rfl
    · exact .still rfl (typed_same g rfl) rfl rfl fun _ => rfl
  | filedup k =>
    obtain ⟨g1, hg1, he⟩ := Option.map_eq_some_iff.mp h
    cases he
    obtain ⟨-, rfl⟩ := filedup_spec hg1
    exact .still rfl (typed_same g rfl) rfl rfl fun _ => rfl
  | fileclose k => exact fileclose_inode h (hout k)
  | takeFd fd =>
    cases h
    change InodeEffect g g l (l.takeFd fd)
    unfold Priv.takeFd
    split <;> exact .still rfl (fun _ => rfl) rfl rfl fun _ => rfl
  | fdalloc k =>
    obtain ⟨-, rfl⟩ := Prod.mk.inj (Option.some.inj h)
    change InodeEffect g g l (l.fdalloc k r)
    unfold Priv.fdalloc
    cases r with
    | none => exact .still rfl (fun _ => rfl) rfl rfl fun _ => rfl
    | some fd =>
      dsimp only
      split <;> exact .still rfl (fun _ => rfl) rfl rfl fun _ => rfl
  | setInode k ip =>
    cases h
    obtain ⟨hlt, hnone⟩ := hfresh k hn.1
    exact setInode_inode hlt hnone hn.2
  | setPipe k =>
    cases h
    obtain ⟨hlt, hnone⟩ := hfresh k hn
    refine .still rfl (fun i => ?_) rfl rfl fun _ => rfl
    have hu := typed_setFile g hlt { g.file k with type := .pipe } i
    rw [hnone, FType.weight_none, FType.weight_pipe, Nat.add_zero, Nat.add_zero] at hu
    exact hu
  | takeCwd =>
    obtain ⟨ip, hip, he⟩ := Option.map_eq_some_iff.mp h
    cases he
    refine .move rfl fun i => ?_
    have hcnt := count_cons_add l.inodes r i
    change _ + (refsTo none i + (r :: l.inodes).count i + l.childCwd i) = _
    rw [inodeWeight_eq, hip, refsTo_some, refsTo_none]
    omega
  | setCwd ip =>
    cases h
    refine .move rfl fun i => ?_
    have hcnt := count_erase_add hn.1 i
    change _ + (refsTo (some ip) i + (l.inodes.erase ip).count i + l.childCwd i) = _
    rw [inodeWeight_eq, hn.2, refsTo_some, refsTo_none]
    omega
  | allocproc =>
    rcases allocproc_spec (Option.some.inj h) with ⟨rfl, rfl⟩ | ⟨q, rfl, -, -, rfl⟩
    · exact .still rfl (fun _ => rfl) rfl rfl fun _ => rfl
    · refine .still rfl (fun _ => rfl) rfl rfl fun i => ?_
      rw [Priv.childCwd_none hn]
      exact refsTo_none i
  | freeproc =>
    obtain ⟨c, -, he⟩ := Option.map_eq_some_iff.mp h
    obtain ⟨q, hq⟩ := hn
    cases he
    refine .still rfl (fun _ => rfl) rfl rfl fun i => ?_
    rw [Priv.childCwd_some hq, refsTo_none]
    rfl
  | dupFd fd =>
    have hc : ∀ i, (l.after (.dupFd fd) r).childCwd i = l.childCwd i := fun i => by
      change (l.child.map _).elim 0 _ = l.child.elim 0 _
      cases l.child <;> rfl
    rcases dupFd_spec h with ⟨-, rfl⟩ | ⟨k, -, hd⟩
    · exact .still rfl (fun _ => rfl) rfl rfl hc
    · obtain ⟨-, rfl⟩ := filedup_spec hd
      exact .still rfl (typed_same g rfl) rfl rfl hc
  | dupCwd =>
    obtain ⟨ip, hip, he⟩ := Option.map_eq_some_iff.mp h
    obtain ⟨ch, hch, hnone⟩ := hn
    cases he
    exact dupCwd_inode hip hch hnone (hpos ip (.inr hip))
  | start => exact absurd rfl hs

end Inode

/-- **Inodes balance.** -/
theorem InodeEffect.balance (h : InodeEffect g g' l l') (i : Nat) :
    (g'.inode i).ref + g.typed i + l.inodeWeight i =
      (g.inode i).ref + g'.typed i + l'.inodeWeight i := by
  cases h with
  | move inode has =>
    have := has i
    rw [inode]
    omega
  | dup k _ table has | fill k _ _ free _ table has | put k pos table has =>
    have hi := has i
    have ht : g'.typed i = g.typed i := by rw [table]; rfl
    rw [ht, table, inode_setInode]
    by_cases hik : i = k
    · subst hik
      rw [ind_self] at hi
      rw [if_pos rfl]
      dsimp only
      omega
    · rw [ind_ne hik] at hi
      rw [if_neg hik]
      omega

end Xv6Clock.FileRefs
