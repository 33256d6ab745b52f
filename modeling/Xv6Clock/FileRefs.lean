/-
  File:      Xv6Clock/FileRefs.lean
  Subject:   References to files and inodes (file.c, fs.c, sysfile.c, exec.c, proc.c).

  A system call is a program whose commands are the sections under `ftable.lock`, `icache.lock` and
  `ptable.lock`, the accesses to the process's own `ofile` and `cwd`, and questions. Questions are
  answered by the disk, by `kalloc` or by the arguments of the call: every answer is possible, so
  that directories, types of inodes and memory are arbitrary.

  The private state of a process holds its `ofile` and `cwd`, the references in local variables of
  the call it is in, and the process it is making in a fork.
-/
import Xv6Clock.Lib.Prog
import Xv6Clock.Lib.Reach
import Mathlib.Logic.Function.Basic

namespace Xv6Clock.FileRefs

/-! ## 1. The tables -/

def nfile : Nat := 100
def ninode : Nat := 50
def nofile : Nat := 16
def nproc : Nat := 64
def rootdev : Nat := 1
def rootino : Nat := 1

/-- `f->type`, with `f->ip` where it is FD_INODE. -/
inductive FType where
  | none
  | pipe
  | inode (ip : Nat)
  deriving DecidableEq

structure File where
  ref : Nat
  type : FType

/-- An entry of the inode cache; what is under its sleep lock is left to the questions. -/
structure Inode where
  dev : Nat
  inum : Nat
  ref : Nat

inductive PState where
  | unused
  | embryo
  | live
  | zombie
  deriving DecidableEq

structure Global where
  file : Nat → File
  inode : Nat → Inode
  state : Nat → PState

def Global.setFile (g : Global) (f : Nat) (x : File) : Global :=
  { g with file := Function.update g.file f x }

def Global.setInode (g : Global) (ip : Nat) (x : Inode) : Global :=
  { g with inode := Function.update g.inode ip x }

def Global.setState (g : Global) (p : Nat) (x : PState) : Global :=
  { g with state := Function.update g.state p x }

/-- `filealloc`. -/
def filealloc (g : Global) : Option Nat × Global :=
  match (List.range nfile).find? fun f => (g.file f).ref == 0 with
  | none => (none, g)
  | some f => (some f, g.setFile f { g.file f with ref := 1 })

/-- `filedup`. -/
def filedup (g : Global) (f : Nat) : Option Global :=
  if (g.file f).ref < 1 then none
  else some (g.setFile f { g.file f with ref := (g.file f).ref + 1 })

/-- The section of `fileclose`, and what is left to close after it. -/
def fileclose (g : Global) (f : Nat) : Option (Option FType × Global) :=
  if (g.file f).ref < 1 then none
  else if 0 < (g.file f).ref - 1 then
    some (none, g.setFile f { g.file f with ref := (g.file f).ref - 1 })
  else some (some (g.file f).type, g.setFile f ⟨0, .none⟩)

/-- `iget`. -/
def iget (g : Global) (dev inum : Nat) : Option (Nat × Global) :=
  match (List.range ninode).find? fun i =>
    0 < (g.inode i).ref && (g.inode i).dev == dev && (g.inode i).inum == inum with
  | some i => some (i, g.setInode i { g.inode i with ref := (g.inode i).ref + 1 })
  | none =>
    match (List.range ninode).find? fun i => (g.inode i).ref == 0 with
    | some i => some (i, g.setInode i ⟨dev, inum, 1⟩)
    | none => none

/-- `idup`. -/
def idup (g : Global) (ip : Nat) : Global :=
  g.setInode ip { g.inode ip with ref := (g.inode ip).ref + 1 }

/-- The last section of `iput`. -/
def iputRef (g : Global) (ip : Nat) : Global :=
  g.setInode ip { g.inode ip with ref := (g.inode ip).ref - 1 }

/-- The section of `allocproc`. -/
def allocproc (g : Global) : Option Nat × Global :=
  match (List.range nproc).find? fun p => g.state p = .unused with
  | none => (none, g)
  | some p => (some p, g.setState p .embryo)

/-! ## 2. Private states and commands -/

/-- The process that a fork is making: its slot, and what it has so far. -/
structure Child where
  slot : Nat
  ofile : Nat → Option Nat
  cwd : Option Nat

/-- What belongs to one process. -/
structure Priv where
  ofile : Nat → Option Nat
  cwd : Option Nat
  /-- References to files in local variables. -/
  files : List Nat
  /-- References to inodes in local variables. -/
  inodes : List Nat
  /-- Slots that were filled before their `filedup`. -/
  owed : List Nat
  /-- Files allocated in this call that have no type yet. -/
  fresh : List Nat
  child : Option Child

inductive Cmd where
  | ask
  | panic
  | dev (ip : Nat)
  | iget (dev inum : Nat)
  | idupCwd
  | iput (ip : Nat)
  | filealloc
  | filedup (f : Nat)
  | fileclose (f : Nat)
  | getFd (fd : Nat)
  /-- The slot is cleared, its reference is in a local variable now. -/
  | takeFd (fd : Nat)
  | fdalloc (f : Nat)
  | setInode (f ip : Nat)
  | setPipe (f : Nat)
  /-- The reference of `cwd` is in a local variable now. -/
  | takeCwd
  | setCwd (ip : Nat)
  | allocproc
  | freeproc
  /-- A round of the loop of `fork` over the descriptors. -/
  | dupFd (fd : Nat)
  | dupCwd
  /-- The child becomes RUNNABLE. -/
  | start
  /-- The process becomes a ZOMBIE. -/
  | exited

/-- The answers to a command. -/
@[reducible] def Cmd.Ans : Cmd → Type
  | .ask | .dev _ | .iget _ _ | .idupCwd | .takeCwd => Nat
  | .panic => Empty
  | .filealloc | .getFd _ | .fdalloc _ | .allocproc => Option Nat
  | .fileclose _ => Option FType
  | .iput _ | .filedup _ | .takeFd _ | .setInode _ _ | .setPipe _ | .setCwd _ | .freeproc
  | .dupFd _ | .dupCwd | .start | .exited => Unit

/-- The descriptor that `fdalloc` finds. -/
def Priv.freeFd (l : Priv) : Option Nat := (List.range nofile).find? fun fd => (l.ofile fd).isNone

/-- `fdalloc` takes over the caller's reference, if the caller has one. -/
def Priv.fdalloc (l : Priv) (f : Nat) : Option Nat → Priv
  | none => l
  | some fd =>
    let l := { l with ofile := Function.update l.ofile fd (some f) }
    if f ∈ l.files then { l with files := l.files.erase f } else { l with owed := f :: l.owed }

def Priv.takeFd (l : Priv) (fd : Nat) : Priv :=
  match l.ofile fd with
  | none => l
  | some f => { l with ofile := Function.update l.ofile fd none, files := f :: l.files }

/-- What the private state becomes. -/
def Priv.after (l : Priv) : (c : Cmd) → c.Ans → Priv
  | .ask, _ | .panic, _ | .dev _, _ | .getFd _, _ | .exited, _ => l
  | .iget _ _, i | .idupCwd, i => { l with inodes := i :: l.inodes }
  | .iput ip, _ => { l with inodes := l.inodes.erase ip }
  | .filealloc, none => l
  | .filealloc, some f => { l with files := f :: l.files, fresh := f :: l.fresh }
  | .filedup f, _ => { l with owed := l.owed.erase f }
  | .fileclose f, r =>
    let l := { l with files := l.files.erase f, fresh := l.fresh.filter (· ≠ f) }
    match r with
    | some (.inode ip) => { l with inodes := ip :: l.inodes }
    | _ => l
  | .takeFd fd, _ => l.takeFd fd
  | .fdalloc f, r => l.fdalloc f r
  | .setInode f ip, _ =>
    { l with fresh := l.fresh.filter (· ≠ f), inodes := l.inodes.erase ip }
  | .setPipe f, _ => { l with fresh := l.fresh.filter (· ≠ f) }
  | .takeCwd, i => { l with cwd := none, inodes := i :: l.inodes }
  | .setCwd ip, _ => { l with cwd := some ip, inodes := l.inodes.erase ip }
  | .allocproc, none => l
  | .allocproc, some p => { l with child := some ⟨p, fun _ => none, none⟩ }
  | .freeproc, _ => { l with child := none }
  | .dupFd fd, _ =>
    { l with child := l.child.map fun c =>
        { c with ofile := Function.update c.ofile fd (l.ofile fd) } }
  | .dupCwd, _ => { l with child := l.child.map fun c => { c with cwd := l.cwd } }
  | .start, _ => { l with child := none }

/-- **What a command does to the tables**, and its answer; `n` is the answer to a question. -/
def act (p : Nat) (n : Nat) (g : Global) (l : Priv) : (c : Cmd) → Option (c.Ans × Global)
  | .ask => some (n, g)
  | .panic => none
  | .dev ip => some ((g.inode ip).dev, g)
  | .iget dev inum => iget g dev inum
  | .idupCwd => l.cwd.map fun ip => (ip, idup g ip)
  | .iput ip => some ((), iputRef g ip)
  | .filealloc => some (filealloc g)
  | .filedup f => (filedup g f).map ((), ·)
  | .fileclose f => fileclose g f
  | .getFd fd => some (if fd < nofile then l.ofile fd else none, g)
  | .takeFd _ => some ((), g)
  | .fdalloc _ => some (l.freeFd, g)
  | .setInode f ip => some ((), g.setFile f { g.file f with type := .inode ip })
  | .setPipe f => some ((), g.setFile f { g.file f with type := .pipe })
  | .takeCwd => l.cwd.map fun ip => (ip, g)
  | .setCwd _ => some ((), g)
  | .allocproc => some (allocproc g)
  | .freeproc => l.child.map fun c => ((), g.setState c.slot .unused)
  | .dupFd fd =>
    match l.ofile fd with
    | none => some ((), g)
    | some f => (filedup g f).map ((), ·)
  | .dupCwd => l.cwd.map fun ip => ((), idup g ip)
  | .start => l.child.map fun c => ((), g.setState c.slot .live)
  | .exited => some ((), g.setState p .zombie)

/-! ## 3. The system calls -/

abbrev P := Lib.Prog Cmd Cmd.Ans

def op (c : Cmd) : P c.Ans := Lib.Prog.op c

def panic {α : Type} : P α := .cmd .panic Empty.elim

def tDir : Nat := 1
def tFile : Nat := 2

/-- A path, taken apart: whether it starts with a slash, and its elements. -/
structure Path where
  root : Bool
  elems : List (List Nat)

/-- `iput`; that it may free the inode on disk does not concern the references. -/
def iput (ip : Nat) : P Unit := op (.iput ip)

/-- `iunlockput`. -/
def iunlockput (ip : Nat) : P Unit := iput ip

/-- `ilock`, and `ip->type`. -/
def ilock (_ip : Nat) : P Nat := op .ask

/-- `dirlookup`: the directory has an inode number for the name, or 0. -/
def dirlookup (dp : Nat) (_name : List Nat) : P (Option Nat) := do
  let inum ← op .ask
  if inum = 0 then pure none
  else
    let dev ← op (.dev dp)
    let ip ← op (.iget dev inum)
    pure (some ip)

/-- The loop of `namex`. -/
def namexLoop (nameiparent : Bool) : List (List Nat) → Nat → P (Option Nat)
  | [], ip => if nameiparent then do iput ip; pure none else pure (some ip)
  | name :: path, ip => do
    let type ← ilock ip
    if type ≠ tDir then
      iunlockput ip
      pure none
    else if nameiparent && path.isEmpty then pure (some ip)
    else
      match ← dirlookup ip name with
      | none =>
        iunlockput ip
        pure none
      | some next =>
        iunlockput ip
        namexLoop nameiparent path next

def namex (path : Path) (nameiparent : Bool) : P (Option Nat) := do
  let ip ← if path.root then op (.iget rootdev rootino) else op .idupCwd
  namexLoop nameiparent path.elems ip

def namei (path : Path) : P (Option Nat) := namex path false

def nameiparent (path : Path) : P (Option Nat) := namex path true

/-- `dirlink`: false where the name is there. -/
def dirlink (dp : Nat) (name : List Nat) : P Bool := do
  match ← dirlookup dp name with
  | some ip =>
    iput ip
    pure false
  | none => pure true

/-- `ialloc`: some inode number is free, or it panics. -/
def ialloc (dev : Nat) : P Nat := do
  let inum ← op .ask
  if inum = 0 then panic else op (.iget dev inum)

def dot : List Nat := [46]

/-- A `dirlink` of `create`, which panics where it fails. -/
def mustDirlink (dp : Nat) (name : List Nat) : P Unit := do
  let linked ← dirlink dp name
  if linked then pure () else panic

/-- The entries of a new directory. -/
def createDots (ip type : Nat) : P Unit :=
  if type = tDir then do
    mustDirlink ip dot
    mustDirlink ip (dot ++ dot)
  else pure ()

/-- `create`, with the inode it returns locked. -/
def create (path : Path) (type : Nat) : P (Option Nat) := do
  match ← nameiparent path with
  | none => pure none
  | some dp =>
    let name := path.elems.getLastD []
    match ← dirlookup dp name with
    | some ip =>
      iunlockput dp
      let t ← ilock ip
      if type = tFile ∧ t = tFile then pure (some ip)
      else
        iunlockput ip
        pure none
    | none =>
      let dev ← op (.dev dp)
      let ip ← ialloc dev
      createDots ip type
      mustDirlink dp name
      iunlockput dp
      pure (some ip)

/-- `fileclose`. -/
def close (f : Nat) : P Unit := do
  match ← op (.fileclose f) with
  | some (.inode ip) => iput ip
  | _ => pure ()

/-- `sys_open`, from the inode on. -/
def openInode (ip : Nat) : P Unit := do
  match ← op .filealloc with
  | none => iunlockput ip
  | some f =>
    match ← op (.fdalloc f) with
    | none =>
      close f
      iunlockput ip
    | some _ => op (.setInode f ip)

/-- `sys_open`; `rdonly` says that the mode is O_RDONLY. -/
def sysOpen (path : Path) (creat rdonly : Bool) : P Unit := do
  if creat then
    match ← create path tFile with
    | none => pure ()
    | some ip => openInode ip
  else
    match ← namei path with
    | none => pure ()
    | some ip =>
      let type ← ilock ip
      if type = tDir ∧ !rdonly then iunlockput ip else openInode ip

def sysDup (fd : Nat) : P Unit := do
  match ← op (.getFd fd) with
  | none => pure ()
  | some f =>
    match ← op (.fdalloc f) with
    | none => pure ()
    | some _ => op (.filedup f)

def sysClose (fd : Nat) : P Unit := do
  match ← op (.getFd fd) with
  | none => pure ()
  | some f =>
    op (.takeFd fd)
    close f

/-- `pipealloc`. -/
def pipealloc : P (Option (Nat × Nat)) := do
  match ← op .filealloc with
  | none => pure none
  | some f0 =>
    match ← op .filealloc with
    | none =>
      close f0
      pure none
    | some f1 =>
      let page ← op .ask
      if page = 0 then
        close f0
        close f1
        pure none
      else
        op (.setPipe f0)
        op (.setPipe f1)
        pure (some (f0, f1))

def sysPipe : P Unit := do
  match ← pipealloc with
  | none => pure ()
  | some (rf, wf) =>
    match ← op (.fdalloc rf) with
    | none =>
      close rf
      close wf
    | some fd0 =>
      match ← op (.fdalloc wf) with
      | none =>
        op (.takeFd fd0)
        close rf
        close wf
      | some _ => pure ()

def sysChdir (path : Path) : P Unit := do
  match ← namei path with
  | none => pure ()
  | some ip =>
    let type ← ilock ip
    if type ≠ tDir then iunlockput ip
    else
      let cwd ← op .takeCwd
      iput cwd
      op (.setCwd ip)

/-- `sys_mkdir` and `sys_mknod`. -/
def sysMake (path : Path) (type : Nat) : P Unit := do
  match ← create path type with
  | none => pure ()
  | some ip => iunlockput ip

def sysLink (old new : Path) : P Unit := do
  match ← namei old with
  | none => pure ()
  | some ip =>
    let type ← ilock ip
    if type = tDir then iunlockput ip
    else
      match ← nameiparent new with
      | none => iunlockput ip
      | some dp =>
        let devd ← op (.dev dp)
        let devi ← op (.dev ip)
        if devd ≠ devi then
          iunlockput dp
          iunlockput ip
        else
          let _ok ← dirlink dp (new.elems.getLastD [])
          iunlockput dp
          iunlockput ip

def sysUnlink (path : Path) : P Unit := do
  match ← nameiparent path with
  | none => pure ()
  | some dp =>
    let name := path.elems.getLastD []
    if name = dot ∨ name = dot ++ dot then iunlockput dp
    else
      match ← dirlookup dp name with
      | none => iunlockput dp
      | some ip =>
        let busy ← op .ask
        if busy ≠ 0 then
          iunlockput ip
          iunlockput dp
        else
          iunlockput dp
          iunlockput ip

/-- `exec`: reading the image and filling the new address space can fail at every step. -/
def exec (path : Path) : P Unit := do
  match ← namei path with
  | none => pure ()
  | some ip =>
    let loaded ← op .ask
    if loaded = 0 then iunlockput ip
    else
      iunlockput ip
      let _pushed ← op .ask
      pure ()

/-- The loop of `fork` over the descriptors. -/
def dupFds : List Nat → P Unit
  | [] => pure ()
  | fd :: fds => do
    op (.dupFd fd)
    dupFds fds

def fork : P Unit := do
  match ← op .allocproc with
  | none => pure ()
  | some _ =>
    let kstack ← op .ask
    if kstack = 0 then op .freeproc
    else
      let pgdir ← op .ask
      if pgdir = 0 then op .freeproc
      else
        dupFds (List.range nofile)
        op .dupCwd
        op .start

/-- The loop of `exit` over the descriptors. Nobody reads a slot between its `fileclose` and its
    clearing. -/
def closeFds : List Nat → P Unit
  | [] => pure ()
  | fd :: fds => do
    match ← op (.getFd fd) with
    | none => closeFds fds
    | some f =>
      op (.takeFd fd)
      close f
      closeFds fds

/-- `exit`; init must not. -/
def exit (init : Bool) : P Unit :=
  if init then panic
  else do
    closeFds (List.range nofile)
    let cwd ← op .takeCwd
    iput cwd
    op .exited

inductive Call where
  | open (path : Path) (creat rdonly : Bool)
  | dup (fd : Nat)
  | close (fd : Nat)
  | pipe
  | chdir (path : Path)
  | mkdir (path : Path)
  | mknod (path : Path)
  | link (old new : Path)
  | unlink (path : Path)
  | exec (path : Path)
  | fork
  | exit

def tDev : Nat := 3

/-- The program of a call by process `p`; init has slot 0. -/
def Call.prog (p : Nat) : Call → P Unit
  | .open path creat rdonly => sysOpen path creat rdonly
  | .dup fd => sysDup fd
  | .close fd => sysClose fd
  | .pipe => sysPipe
  | .chdir path => sysChdir path
  | .mkdir path => sysMake path tDir
  | .mknod path => sysMake path tDev
  | .link old new => sysLink old new
  | .unlink path => sysUnlink path
  | .exec path => FileRefs.exec path
  | .fork => FileRefs.fork
  | .exit => FileRefs.exit (p == 0)

/-! ## 4. The machine -/

/-- A live process: its private state, and what is left of the call it is in. -/
structure Proc where
  priv : Priv
  prog : P Unit

structure Machine where
  g : Global
  proc : Nat → Option Proc

inductive Act where
  | call (p : Nat) (c : Call)
  /-- The next command of process `p`; `n` answers a question. -/
  | run (p n : Nat)
  /-- `wait` finds the zombie `p`. -/
  | reap (p : Nat)

/-- The private state of a process that starts. -/
def Child.priv (c : Child) : Priv := ⟨c.ofile, c.cwd, [], [], [], [], none⟩

/-- The processes after process `p` has run command `c`, with private state `l` before it. -/
def Machine.procs (m : Machine) (p : Nat) (l : Priv) (c : Cmd) (x : Proc) : Nat → Option Proc :=
  match c, l.child with
  | .start, some ch =>
    Function.update (Function.update m.proc p (some x)) ch.slot (some ⟨ch.priv, pure ()⟩)
  | .exited, _ => Function.update m.proc p none
  | _, _ => Function.update m.proc p (some x)

/-- **One step.** -/
def step (m : Machine) : Act → Option Machine
  | .call p c =>
    match m.proc p with
    | some ⟨l, .ret _⟩ => some { m with proc := Function.update m.proc p (some ⟨l, c.prog p⟩) }
    | _ => none
  | .run p n =>
    match m.proc p with
    | some ⟨l, .cmd c k⟩ =>
      match act p n m.g l c with
      | some (r, g) => some ⟨g, m.procs p l c ⟨l.after c r, k r⟩⟩
      | none => none
    | _ => none
  | .reap p => if m.g.state p = .zombie then some { m with g := m.g.setState p .unused } else none

/-- After `userinit`: init in the root directory. -/
def Machine.boot : Machine where
  g :=
    { file := fun _ => ⟨0, .none⟩
      inode := fun i => if i = 0 then ⟨rootdev, rootino, 1⟩ else ⟨0, 0, 0⟩
      state := fun p => if p = 0 then .live else .unused }
  proc := fun p =>
    if p = 0 then some ⟨⟨fun _ => none, some 0, [], [], [], [], none⟩, pure ()⟩ else none

/-- **Reachable machines**, by any interleaving and any answers. -/
def Reachable : Machine → Prop :=
  Lib.Reach (fun m (a : Act) m' => step m a = some m') Machine.boot

end Xv6Clock.FileRefs
