/-
  File:      Xv6Clock/FileCalls.lean
  Subject:   Every system call gives back what it takes.

  Between calls a process has no reference in a local variable. Each function is described by what
  it leaves in the private state, whatever its answers are: a failure at any step takes the same
  care as success.
-/
import Xv6Clock.FileBalance

namespace Xv6Clock.FileRefs

open Lib (wp wp_bind wp_seq)

/-! ## 1. Between calls -/

/-- **A process between calls.** -/
structure Idle (l : Priv) : Prop where
  files : l.files = []
  inodes : l.inodes = []
  owed : l.owed = []
  fresh : l.fresh = []
  child : l.child = none
  cwd : l.cwd.isSome

/-- The private state with these references to inodes in local variables. -/
def Priv.hold (l : Priv) (xs : List Nat) : Priv := { l with inodes := xs }

theorem erase_second (a b : Nat) (xs : List Nat) : (a :: b :: xs).erase b = a :: xs := by
  by_cases h : a = b
  · rw [h, List.erase_cons_head]
  · rw [List.erase_cons_tail (by rw [beq_iff_eq]; exact h), List.erase_cons_head]

variable {α : Type} {l : Priv} {xs : List Nat} {ip : Nat}

/-- A file that came and went. -/
theorem Idle.erase (hl : Idle l) (f : Nat) :
    (f :: l.files).erase f = [] ∧ (f :: l.fresh).filter (· ≠ f) = [] := by
  rw [List.erase_cons_head, hl.files, hl.fresh]
  simp

/-! ## 2. Inodes -/

/-- A command: what it needs is there, and with every answer what is left holds. -/
theorem wp_cmd {c : Cmd} {Q : c.Ans → Priv → Prop} (hn : need c l)
    (h : ∀ r, ok c l r → Q r (l.after c r)) : wp rules Q (op c) l :=
  ⟨hn, fun r _ he => he.2 ▸ h r he.1⟩

theorem wp_ask {Q : Nat → Priv → Prop} (h : ∀ n, Q n l) : wp rules Q (op .ask) l :=
  ⟨trivial, fun r _ he => he.2 ▸ h r⟩

theorem wp_dev {Q : Nat → Priv → Prop} (h : ∀ n, Q n l) : wp rules Q (op (.dev ip)) l :=
  ⟨trivial, fun r _ he => he.2 ▸ h r⟩

theorem wp_iget {Q : Nat → Priv → Prop} {dev inum : Nat} (h : ∀ i, Q i (l.hold (i :: xs))) :
    wp rules Q (op (.iget dev inum)) (l.hold xs) :=
  ⟨trivial, fun r _ he => he.2 ▸ h r⟩

theorem wp_panic {Q : α → Priv → Prop} : wp rules Q panic l := ⟨trivial, fun r => r.elim⟩

variable {Q : Unit → Priv → Prop} {dp f fd : Nat} {name : List Nat}

theorem wp_iput {k : List Nat} (h : Q () (l.hold k)) : wp rules Q (iput ip) (l.hold (ip :: k)) := by
  refine wp_cmd (List.mem_cons_self ..) fun r _ => ?_
  change Q () (l.hold ((ip :: k).erase ip))
  rw [List.erase_cons_head]
  exact h

/-- The reference put is the second one. -/
theorem wp_iput_second {jp : Nat} (h : Q () (l.hold (jp :: xs))) :
    wp rules Q (iput ip) (l.hold (jp :: ip :: xs)) := by
  refine wp_cmd (List.mem_cons_of_mem _ (List.mem_cons_self ..)) fun r _ => ?_
  change Q () (l.hold ((jp :: ip :: xs).erase ip))
  rw [erase_second]
  exact h

theorem wp_dirlookup {Q : Option Nat → Priv → Prop} (hnone : Q none (l.hold xs))
    (hsome : ∀ i, Q (some i) (l.hold (i :: xs))) : wp rules Q (dirlookup dp name) (l.hold xs) := by
  unfold dirlookup
  refine wp_seq (wp_ask fun n => ?_)
  split
  · exact hnone
  · refine wp_seq (wp_dev fun dev => ?_)
    exact wp_seq (wp_iget hsome)

/-- **`namex` has one reference more where it finds something**, and none where it does not. -/
theorem wp_namexLoop {Q : Option Nat → Priv → Prop} {parent : Bool} {path : List (List Nat)}
    (hnone : Q none (l.hold xs)) (hsome : ∀ i, Q (some i) (l.hold (i :: xs))) :
    wp rules Q (namexLoop parent path ip) (l.hold (ip :: xs)) := by
  induction path generalizing ip with
  | nil =>
    unfold namexLoop
    split
    · exact wp_seq (wp_iput hnone)
    · exact hsome ip
  | cons name path ih =>
    unfold namexLoop
    refine wp_seq (wp_ask fun type => ?_)
    split
    · exact wp_seq (wp_iput hnone)
    · split
      · exact hsome ip
      · refine wp_seq (wp_dirlookup ?_ fun next => ?_)
        · exact wp_seq (wp_iput hnone)
        · exact wp_seq (wp_iput_second ih)

theorem wp_namex {Q : Option Nat → Priv → Prop} {parent : Bool} {path : Path}
    (hnone : Q none (l.hold xs)) (hsome : ∀ i, Q (some i) (l.hold (i :: xs))) :
    wp rules Q (namex path parent) (l.hold xs) := by
  unfold namex
  dsimp only
  split
  · exact wp_seq (wp_iget fun i => wp_namexLoop hnone hsome)
  · refine wp_seq (wp_cmd trivial fun i _ => ?_)
    exact wp_namexLoop hnone hsome

theorem wp_dirlink {Q : Bool → Priv → Prop} (h : ∀ b, Q b (l.hold xs)) :
    wp rules Q (dirlink dp name) (l.hold xs) := by
  unfold dirlink
  refine wp_seq (wp_dirlookup (h true) fun i => ?_)
  exact wp_seq (wp_iput (h false))

theorem wp_mustDirlink (h : Q () (l.hold xs)) : wp rules Q (mustDirlink dp name) (l.hold xs) := by
  unfold mustDirlink
  refine wp_seq (wp_dirlink fun b => ?_)
  split
  · exact h
  · exact wp_panic

theorem wp_createDots {type : Nat} (h : Q () (l.hold xs)) :
    wp rules Q (createDots ip type) (l.hold xs) := by
  unfold createDots
  split
  · exact wp_seq (wp_mustDirlink (wp_mustDirlink h))
  · exact h

theorem wp_create {Q : Option Nat → Priv → Prop} {path : Path} {type : Nat}
    (hnone : Q none (l.hold xs)) (hsome : ∀ i, Q (some i) (l.hold (i :: xs))) :
    wp rules Q (create path type) (l.hold xs) := by
  unfold create
  refine wp_seq (wp_namex hnone fun dp => ?_)
  refine wp_seq (wp_dirlookup ?_ fun i => ?_)
  · refine wp_seq (wp_dev fun dev => ?_)
    rw [wp_bind]
    unfold ialloc
    refine wp_seq (wp_ask fun inum => ?_)
    split
    · exact wp_panic
    · refine wp_iget fun i => ?_
      refine wp_seq (wp_createDots ?_)
      refine wp_seq (wp_mustDirlink ?_)
      exact wp_seq (wp_iput_second (hsome i))
  · refine wp_seq (wp_iput_second ?_)
    refine wp_seq (wp_ask fun t => ?_)
    split
    · exact hsome i
    · exact wp_seq (wp_iput hnone)

/-! ## 3. Files -/

theorem wp_close (hf : f ∈ l.files) (ho : l.owed = [])
    (h : Q () { l with files := l.files.erase f, fresh := l.fresh.filter (· ≠ f) }) :
    wp rules Q (close f) l := by
  unfold close
  refine wp_seq (wp_cmd ⟨hf, ho⟩ fun r _ => ?_)
  rcases r with - | (- | - | ip)
  · exact h
  · exact h
  · exact h
  · exact wp_iput (l := { l with files := l.files.erase f, fresh := l.fresh.filter (· ≠ f) }) h

theorem wp_fdalloc {Q : Option Nat → Priv → Prop}
    (hf : f ∈ l.files ∨ ∃ fd, fd < nofile ∧ l.ofile fd = some f) (hnone : Q none l)
    (hsome : ∀ fd, fd < nofile → l.ofile fd = none → Q (some fd) (l.fdalloc f (some fd))) :
    wp rules Q (op (.fdalloc f)) l := by
  refine wp_cmd hf fun r hr => ?_
  cases r with
  | none => exact hnone
  | some fd =>
    obtain ⟨hlt, hfree⟩ := freeFd_spec hr.symm
    exact hsome fd hlt hfree

theorem wp_getFd {Q : Option Nat → Priv → Prop}
    (hnone : (fd < nofile → l.ofile fd = none) → Q none l)
    (hsome : ∀ f, fd < nofile → l.ofile fd = some f → Q (some f) l) :
    wp rules Q (op (.getFd fd)) l := by
  refine wp_cmd trivial fun r hr => ?_
  have hr' : r = if fd < nofile then l.ofile fd else none := hr
  change Q r l
  cases r with
  | none => exact hnone fun hlt => by rw [hr', if_pos hlt]
  | some f =>
    split at hr'
    · rename_i hlt
      exact hsome f hlt hr'.symm
    · cases hr'

theorem wp_takeFd (hfd : fd < nofile) (hf : l.ofile fd = some f)
    (h : Q () { l with ofile := Function.update l.ofile fd none, files := f :: l.files }) :
    wp rules Q (op (.takeFd fd)) l := by
  refine ⟨hfd, fun r l' he => ?_⟩
  obtain ⟨-, rfl⟩ := he
  change Q () (l.takeFd fd)
  unfold Priv.takeFd
  rw [hf]
  exact h

/-- A descriptor is cleared, and its file closed. -/
theorem wp_takeClose {k : P Unit} (hfd : fd < nofile) (hf : l.ofile fd = some f)
    (hfresh : l.fresh = []) (ho : l.owed = [])
    (h : wp rules Q k { l with ofile := Function.update l.ofile fd none }) :
    wp rules Q (op (.takeFd fd) >>= fun _ => close f >>= fun _ => k) l := by
  refine wp_seq (wp_takeFd hfd hf ?_)
  refine wp_seq (wp_close (List.mem_cons_self ..) ho ?_)
  dsimp only
  rw [List.erase_cons_head, hfresh]
  rw [hfresh] at h
  exact h

theorem wp_filealloc {Q : Option Nat → Priv → Prop} (hnone : Q none l)
    (hsome : ∀ f, f ∉ l.fresh →
      Q (some f) { l with files := f :: l.files, fresh := f :: l.fresh }) :
    wp rules Q (op .filealloc) l := by
  refine wp_cmd trivial fun r hr => ?_
  cases r with
  | none => exact hnone
  | some f => exact hsome f (hr f rfl)

theorem wp_openInode (hl : Idle l) (h : ∀ l', Idle l' → Q () l') :
    wp rules Q (openInode ip) (l.hold [ip]) := by
  unfold openInode
  rw [wp_bind]
  refine wp_filealloc (wp_iput (h _ ⟨hl.files, rfl, hl.owed, hl.fresh, hl.child, hl.cwd⟩))
    fun f _ => ?_
  dsimp only
  rw [wp_bind]
  have hf : f ∈ f :: l.files := List.mem_cons_self ..
  refine wp_fdalloc (.inl hf) ?_ fun fd _ _ => ?_
  · refine wp_seq (wp_close hf hl.owed ?_)
    refine wp_iput (l := { l with files := (f :: l.files).erase f,
                                  fresh := (f :: l.fresh).filter (· ≠ f) }) ?_
    exact h _ ⟨(hl.erase f).1, rfl, hl.owed, (hl.erase f).2, hl.child, hl.cwd⟩
  · rw [fdalloc_own hf]
    refine wp_cmd ⟨List.mem_cons_self .., List.mem_singleton_self _⟩ fun r _ => ?_
    exact h _ ⟨(hl.erase f).1, List.erase_cons_head .., hl.owed, (hl.erase f).2, hl.child, hl.cwd⟩

/-! ## 4. The calls -/

/-- The call gives back what it takes. -/
def Returns (prog : P Unit) : Prop := ∀ l, Idle l → wp rules (fun _ => Idle) prog l

theorem Idle.hold (hl : Idle l) : l.hold [] = l := by
  rw [← hl.inodes]
  rfl

theorem Returns.of_hold {prog : P Unit}
    (h : ∀ l, Idle l → Idle (l.hold []) → wp rules (fun _ => Idle) prog (l.hold [])) :
    Returns prog := fun l hl => by
  have e := h l hl
  rw [hl.hold] at e
  exact e hl

theorem sysOpen_returns (path : Path) (creat rdonly : Bool) :
    Returns (sysOpen path creat rdonly) := by
  refine .of_hold fun l hl hidle => ?_
  unfold sysOpen
  split
  · exact wp_seq (wp_create hidle fun i => wp_openInode hl fun _ h => h)
  · refine wp_seq (wp_namex hidle fun i => ?_)
    refine wp_seq (wp_ask fun type => ?_)
    split
    · exact wp_iput hidle
    · exact wp_openInode hl fun _ h => h

theorem sysDup_returns (fd : Nat) : Returns (sysDup fd) := by
  intro l hl
  unfold sysDup
  refine wp_seq (wp_getFd (fun _ => hl) fun f hlt hf => ?_)
  refine wp_seq (wp_fdalloc (.inr ⟨fd, hlt, hf⟩) hl fun d _ _ => ?_)
  have hnot : f ∉ l.files := by
    rw [hl.files]
    exact List.not_mem_nil
  rw [fdalloc_owed hnot]
  refine wp_cmd (List.mem_cons_self ..) fun r _ => ?_
  refine ⟨hl.files, hl.inodes, ?_, hl.fresh, hl.child, hl.cwd⟩
  change (f :: l.owed).erase f = []
  rw [List.erase_cons_head, hl.owed]

theorem sysClose_returns (fd : Nat) : Returns (sysClose fd) := by
  intro l hl
  unfold sysClose
  refine wp_seq (wp_getFd (fun _ => hl) fun f hlt hf => ?_)
  refine wp_seq (wp_takeFd hlt hf (wp_close (List.mem_cons_self ..) hl.owed ?_))
  refine ⟨(hl.erase f).1, hl.inodes, hl.owed, ?_, hl.child, hl.cwd⟩
  change l.fresh.filter (· ≠ f) = []
  rw [hl.fresh]
  rfl

/-- **`pipealloc` has both ends, or nothing.** -/
theorem wp_pipealloc {Q : Option (Nat × Nat) → Priv → Prop} (hl : Idle l)
    (hnone : ∀ l', Idle l' → Q none l')
    (hsome : ∀ f0 f1, Q (some (f0, f1)) { l with files := [f1, f0] }) :
    wp rules Q pipealloc l := by
  have hfiles := hl.files
  have hfresh := hl.fresh
  unfold pipealloc
  refine wp_seq (wp_filealloc (hnone l hl) fun f0 _ => ?_)
  dsimp only
  rw [wp_bind, hfiles, hfresh]
  refine wp_filealloc ?_ fun f1 hne => ?_
  · dsimp only
    rw [wp_bind]
    refine wp_close (List.mem_singleton_self f0) hl.owed
      (hnone _ ⟨?_, hl.inodes, hl.owed, ?_, hl.child, hl.cwd⟩)
    · exact List.erase_cons_head ..
    · change [f0].filter (· ≠ f0) = []
      simp
  · replace hne : f1 ≠ f0 := fun e => hne (e ▸ List.mem_singleton_self _)
    refine wp_seq (wp_ask fun page => ?_)
    split
    · refine wp_seq (wp_close (List.mem_cons_of_mem _ (List.mem_singleton_self f0)) hl.owed ?_)
      rw [wp_bind]
      dsimp only
      rw [erase_second]
      refine wp_close (List.mem_singleton_self f1) hl.owed
        (hnone _ ⟨?_, hl.inodes, hl.owed, ?_, hl.child, hl.cwd⟩)
      · exact List.erase_cons_head ..
      · change ([f1, f0].filter (· ≠ f0)).filter (· ≠ f1) = []
        simp [hne]
    · refine wp_seq (wp_cmd (List.mem_cons_of_mem _ (List.mem_singleton_self f0)) fun r _ => ?_)
      rw [wp_bind]
      have hmem : f1 ∈ [f1, f0].filter (· ≠ f0) := by simp [hne]
      refine wp_cmd hmem fun r _ => ?_
      have hq := hsome f0 f1
      rw [hfresh] at hq
      have hnil : ([f1, f0].filter (· ≠ f0)).filter (· ≠ f1) = [] := by simp [hne]
      change Q (some (f0, f1)) { l with files := [f1, f0],
                                        fresh := ([f1, f0].filter (· ≠ f0)).filter (· ≠ f1) }
      rw [hnil]
      exact hq

theorem sysPipe_returns : Returns sysPipe := by
  intro l hl
  unfold sysPipe
  refine wp_seq (wp_pipealloc hl (fun _ h => h) fun rf wf => ?_)
  have done : ∀ o, Idle { l with ofile := o, files := [] } := fun o =>
    ⟨rfl, hl.inodes, hl.owed, hl.fresh, hl.child, hl.cwd⟩
  have hfil : ∀ k, l.fresh.filter (· ≠ k) = l.fresh := fun k => by
    rw [hl.fresh]
    rfl
  -- both ends closed, with any descriptors
  have both : ∀ o, wp rules (fun _ => Idle) (close rf >>= fun _ => close wf)
      { l with ofile := o, files := [wf, rf] } := fun o => by
    refine wp_seq (wp_close (List.mem_cons_of_mem _ (List.mem_singleton_self rf)) hl.owed ?_)
    dsimp only
    rw [erase_second, hfil]
    refine wp_close (List.mem_singleton_self wf) hl.owed ?_
    dsimp only
    rw [List.erase_cons_head, hfil]
    exact done o
  dsimp only
  rw [wp_bind]
  have hrf : rf ∈ [wf, rf] := List.mem_cons_of_mem _ (List.mem_singleton_self rf)
  refine wp_fdalloc (.inl hrf) (both l.ofile) fun fd0 hlt _ => ?_
  rw [fdalloc_own hrf]
  dsimp only
  rw [wp_bind, erase_second]
  refine wp_fdalloc (.inl (List.mem_singleton_self wf)) ?_ fun fd1 _ _ => ?_
  · refine wp_seq (wp_takeFd (f := rf) hlt (Function.update_self ..) ?_)
    -- the references stand in the other order now
    refine wp_seq (wp_close (List.mem_cons_self ..) hl.owed ?_)
    dsimp only
    rw [List.erase_cons_head, hfil]
    refine wp_close (List.mem_singleton_self wf) hl.owed ?_
    dsimp only
    rw [List.erase_cons_head, hfil]
    exact done _
  · rw [fdalloc_own (List.mem_singleton_self wf)]
    dsimp only
    rw [List.erase_cons_head]
    exact done _

theorem sysChdir_returns (path : Path) : Returns (sysChdir path) := by
  refine .of_hold fun l hl hidle => ?_
  unfold sysChdir
  refine wp_seq (wp_namex hidle fun ip => ?_)
  refine wp_seq (wp_ask fun type => ?_)
  split
  · exact wp_iput hidle
  · refine wp_seq (wp_cmd trivial fun c _ => ?_)
    refine wp_seq (wp_iput (l := { l with cwd := none }) (k := [ip]) ?_)
    refine wp_cmd ⟨List.mem_singleton_self ip, rfl⟩ fun r _ => ?_
    exact ⟨hl.files, List.erase_cons_head .., hl.owed, hl.fresh, hl.child, rfl⟩

theorem sysMake_returns (path : Path) (type : Nat) : Returns (sysMake path type) := by
  refine .of_hold fun l hl hidle => ?_
  unfold sysMake
  exact wp_seq (wp_create hidle fun ip => wp_iput hidle)

theorem sysLink_returns (old new : Path) : Returns (sysLink old new) := by
  refine .of_hold fun l hl hidle => ?_
  unfold sysLink
  refine wp_seq (wp_namex hidle fun ip => ?_)
  refine wp_seq (wp_ask fun type => ?_)
  split
  · exact wp_iput hidle
  · refine wp_seq (wp_namex (wp_iput hidle) fun dp => ?_)
    refine wp_seq (wp_dev fun devd => ?_)
    refine wp_seq (wp_dev fun devi => ?_)
    split
    · exact wp_seq (wp_iput (wp_iput hidle))
    · refine wp_seq (wp_dirlink fun _ => ?_)
      exact wp_seq (wp_iput (wp_iput hidle))

theorem sysUnlink_returns (path : Path) : Returns (sysUnlink path) := by
  refine .of_hold fun l hl hidle => ?_
  unfold sysUnlink
  refine wp_seq (wp_namex hidle fun dp => ?_)
  dsimp only
  split
  · exact wp_iput hidle
  · refine wp_seq (wp_dirlookup (wp_iput hidle) fun ip => ?_)
    refine wp_seq (wp_ask fun busy => ?_)
    split
    · exact wp_seq (wp_iput (wp_iput hidle))
    · exact wp_seq (wp_iput_second (wp_iput hidle))

/-- exec ends with the references it started with, whatever the disk and the allocator answer. -/
theorem exec_keeps (path : Path) (hl : Idle l) :
    wp rules (fun _ l' => l' = l) (FileRefs.exec path) l := by
  have hstart : l.hold [] = l := hl.hold
  rw [← hstart]
  unfold FileRefs.exec
  refine wp_seq (wp_namex rfl fun ip => ?_)
  refine wp_seq (wp_ask fun loaded => ?_)
  split
  · exact wp_iput rfl
  · refine wp_seq (wp_iput ?_)
    exact wp_seq (wp_ask fun _ => rfl)

theorem exec_returns (path : Path) : Returns (FileRefs.exec path) := fun _ hl =>
  Lib.wp_mono (fun _ _ he => he ▸ hl) (exec_keeps path hl)

/-- The loop of `fork` fills the slots of the child that were empty. -/
theorem wp_dupFds {fds : List Nat} {c : Child} (hn : fds.Nodup) (hlt : ∀ fd ∈ fds, fd < nofile)
    (hempty : ∀ fd ∈ fds, c.ofile fd = none) (hc : l.child = some c)
    (h : ∀ o, Q () { l with child := some { c with ofile := o } }) : wp rules Q (dupFds fds) l := by
  induction fds generalizing l c with
  | nil =>
    have hl : l = { l with child := some { c with ofile := c.ofile } } := by rw [← hc]
    rw [hl]
    exact h c.ofile
  | cons fd fds ih =>
    obtain ⟨hnot, hn'⟩ := List.nodup_cons.mp hn
    unfold dupFds
    rw [wp_bind]
    refine ⟨⟨hlt fd (List.mem_cons_self ..), c, hc, hempty fd (List.mem_cons_self ..)⟩,
      fun r l' he => ?_⟩
    obtain ⟨-, rfl⟩ := he
    refine ih (c := { c with ofile := Function.update c.ofile fd (l.ofile fd) }) hn'
      (fun k hk => hlt k (List.mem_cons_of_mem _ hk)) (fun k hk => ?_) ?_ fun o => h o
    · have hkf : k ≠ fd := fun e => hnot (e ▸ hk)
      exact (Function.update_of_ne hkf _ _).trans (hempty k (List.mem_cons_of_mem _ hk))
    · change l.child.map _ = _
      rw [hc]
      rfl

theorem fork_returns : Returns FileRefs.fork := by
  intro l hl
  unfold FileRefs.fork
  rw [wp_bind]
  have done : Idle { l with child := none } :=
    ⟨hl.files, hl.inodes, hl.owed, hl.fresh, rfl, hl.cwd⟩
  refine wp_cmd hl.child fun r _ => ?_
  cases r with
  | none => exact hl
  | some q =>
    have free : wp rules (fun _ => Idle) (op .freeproc) (l.after .allocproc (some q)) :=
      wp_cmd ⟨q, rfl⟩ fun _ _ => done
    change wp rules _ (op .ask >>= _) _
    refine wp_seq (wp_ask fun kstack => ?_)
    split
    · exact free
    · refine wp_seq (wp_ask fun pgdir => ?_)
      split
      · exact free
      · rw [wp_bind]
        refine wp_dupFds (c := ⟨q, fun _ => none, none⟩) List.nodup_range
          (fun fd hfd => List.mem_range.mp hfd) (fun _ _ => rfl) rfl fun o => ?_
        refine wp_seq (wp_cmd ⟨_, rfl, rfl⟩ fun _ _ => ?_)
        exact wp_cmd ⟨hl.fresh, hl.owed, _, rfl, hl.cwd⟩ fun _ _ => done

/-- The loop of `exit` empties the slots. -/
theorem wp_closeFds {fds : List Nat} (hlt : ∀ fd ∈ fds, fd < nofile)
    (hfresh : l.fresh = []) (howed : l.owed = [])
    (h : ∀ o, (∀ fd, fd ∈ fds ∨ l.ofile fd = none → o fd = none) → Q () { l with ofile := o }) :
    wp rules Q (closeFds fds) l := by
  induction fds generalizing l with
  | nil => exact h l.ofile fun fd hfd => hfd.resolve_left List.not_mem_nil
  | cons fd fds ih =>
    have hlt' := fun k hk => hlt k (List.mem_cons_of_mem fd hk)
    unfold closeFds
    refine wp_seq (wp_getFd (fun hnone => ?_) fun f hfd hf => wp_takeClose hfd hf hfresh howed ?_)
    · have hfd := hnone (hlt fd (List.mem_cons_self ..))
      refine ih hlt' hfresh howed fun o ho => h o fun k hk => ho k ?_
      rcases hk with hk | hk
      · exact (List.mem_cons.mp hk).elim (fun e => .inr (e ▸ hfd)) .inl
      · exact .inr hk
    · refine ih hlt' hfresh howed fun o ho => h o fun k hk => ho k ?_
      change _ ∨ Function.update l.ofile fd none k = none
      by_cases hkf : k = fd
      · rw [hkf, Function.update_self]
        exact .inr rfl
      · rw [Function.update_of_ne hkf]
        exact hk.imp (fun hm => (List.mem_cons.mp hm).resolve_left hkf) id

theorem exit_returns (init : Bool) : Returns (FileRefs.exit init) := by
  intro l hl
  unfold FileRefs.exit
  split
  · exact wp_panic
  rw [wp_bind]
  refine wp_closeFds (fun fd hfd => List.mem_range.mp hfd) hl.fresh hl.owed
    fun o ho => ?_
  refine wp_seq (wp_cmd trivial fun c _ => ?_)
  refine wp_seq (wp_iput (l := { l with ofile := o, cwd := none }) (k := l.inodes) ?_)
  have hslots : ∀ f, slots o f = 0 := fun f => by
    unfold slots
    refine Finset.sum_eq_zero fun fd hfd => ?_
    rw [ho fd (.inl (List.mem_range.mpr (Finset.mem_range.mp hfd))), refsTo_none]
  refine wp_cmd ⟨fun f => ?_, hl.owed, fun i => ?_, hl.child⟩ fun _ hr => hr.elim
  · change slots o f + l.files.count f + l.childWeight f = 0
    rw [hslots, hl.files, Priv.childWeight_none hl.child]
    rfl
  · change refsTo none i + l.inodes.count i + l.childCwd i = 0
    rw [refsTo_none, hl.inodes, Priv.childCwd_none hl.child]
    rfl

/-- **Every system call gives back what it takes.** -/
theorem Call.returns (p : Nat) (c : Call) : Returns (c.prog p) := by
  cases c with
  | «open» path creat rdonly => exact sysOpen_returns path creat rdonly
  | dup fd => exact sysDup_returns fd
  | close fd => exact sysClose_returns fd
  | pipe => exact sysPipe_returns
  | chdir path => exact sysChdir_returns path
  | mkdir path => exact sysMake_returns path tDir
  | mknod path => exact sysMake_returns path tDev
  | link old new => exact sysLink_returns old new
  | unlink path => exact sysUnlink_returns path
  | exec path => exact exec_returns path
  | fork => exact fork_returns
  | exit => exact exit_returns _

end Xv6Clock.FileRefs
