/-
  File:      Xv6Clock/Files.lean
  Subject:   The file table and pipes (file.c, pipe.c): who holds a pipe's buffer page.

  A `struct pipe` lives in a page of its own; `pipe f` is the one in frame `f`, if there is one.
  The bytes in flight are left out: what matters here is when the page is taken and given back.
  Inode files are left out as well, so a file is free, a pipe end, or just allocated.
-/
import Xv6Clock.Proc

namespace Xv6Clock

variable (cfg : Config)

/-! ## 1. Tables -/

/-- `struct file`: `pipe` is null unless its type is FD_PIPE. -/
structure File where
  ref : Nat
  pipe : Option Frame
  readable : Bool
  writable : Bool

/-- `struct pipe`. -/
structure Pipe where
  readopen : Bool
  writeopen : Bool

/-- The file table and the pipes in memory. -/
structure Files where
  file : Nat → File
  pipe : Frame → Option Pipe

def nfile : Nat := 100
def nofile : Nat := 16

def Files.setFile (t : Files) (i : Nat) (f : File) : Files :=
  ⟨Function.update t.file i f, t.pipe⟩

def Files.setPipe (t : Files) (f : Frame) (p : Option Pipe) : Files :=
  ⟨t.file, Function.update t.pipe f p⟩

@[simp] theorem Files.setFile_pipe (t : Files) (i : Nat) (f : File) :
    (t.setFile i f).pipe = t.pipe := rfl

@[simp] theorem Files.setPipe_file (t : Files) (f : Frame) (p : Option Pipe) :
    (t.setPipe f p).file = t.file := rfl

theorem Files.setFile_file (t : Files) (i : Nat) (f : File) (j : Nat) :
    (t.setFile i f).file j = if j = i then f else t.file j := Function.update_apply _ _ _ _

theorem Files.setPipe_pipe (t : Files) (f : Frame) (p : Option Pipe) (g : Frame) :
    (t.setPipe f p).pipe g = if g = f then p else t.pipe g := Function.update_apply _ _ _ _

/-! ## 2. The functions -/

/-- `filealloc`: the first entry with `ref == 0`. -/
def filealloc (t : Files) : Option (Nat × Files) :=
  match (List.range nfile).find? (fun i => (t.file i).ref == 0) with
  | none => none
  | some i => some (i, t.setFile i { t.file i with ref := 1 })

/-- `filedup`. -/
def filedup (t : Files) (i : Nat) : Except Err Files :=
  if (t.file i).ref < 1 then .error (.panic .filedup)
  else .ok (t.setFile i { t.file i with ref := (t.file i).ref + 1 })

/-- The pipe after one of its ends is closed. -/
def Pipe.close (p : Pipe) (w : Bool) : Pipe :=
  if w then ⟨p.readopen, false⟩ else ⟨false, p.writeopen⟩

/-- `pipeclose`: the page goes back when both ends are closed. -/
def pipeclose (m : Kmem) (t : Files) (f : Frame) (writable : Bool) : Except Err (Kmem × Files) :=
  match t.pipe f with
  | none => .error .badPipe
  | some p =>
    let p := p.close writable
    if !p.readopen && !p.writeopen then do
      let m ← kfree cfg m f
      .ok (m, t.setPipe f none)
    else .ok (m, t.setPipe f (some p))

/-- `fileclose`. -/
def fileclose (m : Kmem) (t : Files) (i : Nat) : Except Err (Kmem × Files) :=
  let ff := t.file i
  if ff.ref < 1 then .error (.panic .fileclose) else
  if 0 < ff.ref - 1 then .ok (m, t.setFile i { ff with ref := ff.ref - 1 }) else
  let t := t.setFile i { ff with ref := 0, pipe := none }
  match ff.pipe with
  | none => .ok (m, t)
  | some f => pipeclose cfg m t f ff.writable

/-- The exit `bad` of `pipealloc`: no page was taken, the files go back. -/
def pipeallocBad (m : Kmem) (t : Files) : List Nat → Except Err (Kmem × Files)
  | [] => .ok (m, t)
  | i :: is => do
    let (m, t) ← fileclose cfg m t i
    pipeallocBad m t is

/-- `pipealloc`: the two files, or none when it returns -1. -/
def pipealloc (m : Kmem) (t : Files) : Except Err (Option (Nat × Nat) × Kmem × Files) :=
  match filealloc t with
  | none => .ok (none, m, t)
  | some (f0, t) =>
    match filealloc t with
    | none => do
      let (m, t) ← pipeallocBad cfg m t [f0]
      .ok (none, m, t)
    | some (f1, t) =>
      match kalloc m with
      | none => do
        let (m, t) ← pipeallocBad cfg m t [f0, f1]
        .ok (none, m, t)
      | some (p, m) =>
        let t := t.setPipe p (some ⟨true, true⟩)
        let t := t.setFile f0 { t.file f0 with pipe := some p, readable := true, writable := false }
        let t := t.setFile f1 { t.file f1 with pipe := some p, readable := false, writable := true }
        .ok (some (f0, f1), m, t)

/-- `fdalloc`: the first free descriptor. -/
def fdalloc (ofile : Nat → Option Nat) (i : Nat) : Option (Nat × (Nat → Option Nat)) :=
  match (List.range nofile).find? (fun fd => (ofile fd).isNone) with
  | none => none
  | some fd => some (fd, Function.update ofile fd (some i))

/-- `sys_pipe` up to the stores of the two descriptors into user memory. -/
def sysPipe (m : Kmem) (t : Files) (ofile : Nat → Option Nat) :
    Except Err (Int × Kmem × Files × (Nat → Option Nat)) := do
  let (r, m, t) ← pipealloc cfg m t
  match r with
  | none => .ok (-1, m, t, ofile)
  | some (rf, wf) =>
    match fdalloc ofile rf with
    | none => do
      let (m, t) ← fileclose cfg m t rf
      let (m, t) ← fileclose cfg m t wf
      .ok (-1, m, t, ofile)
    | some (fd0, ofile1) =>
      match fdalloc ofile1 wf with
      | none => do
        let (m, t) ← fileclose cfg m t rf
        let (m, t) ← fileclose cfg m t wf
        .ok (-1, m, t, Function.update ofile1 fd0 none)
      | some (_, ofile2) => .ok (0, m, t, ofile2)

/-- `sys_close` on descriptor `fd`. -/
def sysClose (m : Kmem) (t : Files) (ofile : Nat → Option Nat) (fd : Nat) :
    Except Err (Int × Kmem × Files × (Nat → Option Nat)) :=
  if nofile ≤ fd then .ok (-1, m, t, ofile) else
  match ofile fd with
  | none => .ok (-1, m, t, ofile)
  | some i => do
    let (m, t) ← fileclose cfg m t i
    .ok (0, m, t, Function.update ofile fd none)

/-- The loop of `exit` over the descriptors, the last `n` of them. -/
def closeAll : Nat → Kmem → Files → (Nat → Option Nat) →
    Except Err (Kmem × Files × (Nat → Option Nat))
  | 0, m, t, ofile => .ok (m, t, ofile)
  | n + 1, m, t, ofile =>
    match ofile (nofile - (n + 1)) with
    | none => closeAll n m t ofile
    | some i => do
      let (m, t) ← fileclose cfg m t i
      closeAll n m t (Function.update ofile (nofile - (n + 1)) none)

/-- The loop of `fork` over the descriptors, the last `n` of them. -/
def dupAll : Nat → Files → (Nat → Option Nat) → (Nat → Option Nat) →
    Except Err (Files × (Nat → Option Nat))
  | 0, t, _, np => .ok (t, np)
  | n + 1, t, cur, np =>
    match cur (nofile - (n + 1)) with
    | none => dupAll n t cur np
    | some i => do
      let t ← filedup t i
      dupAll n t cur (Function.update np (nofile - (n + 1)) (some i))

/-! ## 3. Pipe ends -/

/-- File `i` is the write end (`w`) or the read end of the pipe in frame `f`. -/
def Files.isEnd (t : Files) (i : Nat) (f : Frame) (w : Bool) : Prop :=
  0 < (t.file i).ref ∧ (t.file i).pipe = some f ∧ (t.file i).writable = w

/-- An end of the pipe in frame `f` is open. -/
def Files.endOpen (t : Files) (f : Frame) (w : Bool) : Prop :=
  ∃ p, t.pipe f = some p ∧ (if w then p.writeopen else p.readopen) = true

/-- **Every open pipe end is one file**: a file that is a pipe end has an open end of a live pipe
    to itself, every open end has such a file, a live pipe has an open end, and a free file is no
    pipe end. -/
structure PipesOk (t : Files) : Prop where
  opened : ∀ i f w, t.isEnd i f w → t.endOpen f w
  inj : ∀ i j f w, t.isEnd i f w → t.isEnd j f w → i = j
  surj : ∀ f w, t.endOpen f w → ∃ i, t.isEnd i f w
  live : ∀ f p, t.pipe f = some p → p.readopen = true ∨ p.writeopen = true
  closed : ∀ i, (t.file i).ref = 0 → (t.file i).pipe = none

/-- Frames used as pipe buffers. -/
def Files.holds (t : Files) (f : Frame) : Nat := if (t.pipe f).isSome then 1 else 0

@[simp] theorem Files.setFile_holds (t : Files) (i : Nat) (x : File) (f : Frame) :
    (t.setFile i x).holds f = t.holds f := rfl

theorem Files.setPipe_holds (t : Files) (f : Frame) (p : Option Pipe) (g : Frame) :
    (t.setPipe f p).holds g = if g = f then (if p.isSome then 1 else 0) else t.holds g := by
  unfold Files.holds
  rw [Files.setPipe_pipe]
  split <;> rfl

theorem Files.setFile_isEnd (t : Files) (i : Nat) (x : File) (j : Nat) (f : Frame) (w : Bool) :
    (t.setFile i x).isEnd j f w ↔
      if j = i then 0 < x.ref ∧ x.pipe = some f ∧ x.writable = w else t.isEnd j f w := by
  unfold Files.isEnd
  rw [Files.setFile_file]
  split <;> rfl

variable {t : Files} {i : Nat} {x : File} {m m' : Kmem}

/-- A change of a file that is no pipe end before and after, or only counts its holders. -/
theorem PipesOk.setFile (h : PipesOk t)
    (hsame : ∀ f w, (0 < x.ref ∧ x.pipe = some f ∧ x.writable = w) ↔ t.isEnd i f w)
    (hfree : x.ref = 0 → x.pipe = none) : PipesOk (t.setFile i x) := by
  have key : ∀ j f w, (t.setFile i x).isEnd j f w ↔ t.isEnd j f w := by
    intro j f w
    rw [Files.setFile_isEnd]
    split
    · rename_i hj
      rw [hj]
      exact hsame f w
    · exact Iff.rfl
  refine ⟨fun j f w hj => ?_, fun j l f w hj hl => ?_, fun f w ho => ?_, h.live, fun j hj => ?_⟩
  · exact h.opened j f w ((key j f w).mp hj)
  · exact h.inj j l f w ((key j f w).mp hj) ((key l f w).mp hl)
  · obtain ⟨j, hj⟩ := h.surj f w ho
    exact ⟨j, (key j f w).mpr hj⟩
  · rw [Files.setFile_file] at hj ⊢
    split
    · rename_i he
      rw [if_pos he] at hj
      exact hfree hj
    · rename_i he
      rw [if_neg he] at hj
      exact h.closed j hj

/-- What closing files does to the allocator: pipe pages may go back. -/
structure Closing (m m' : Kmem) (t t' : Files) : Prop where
  count : ∀ f, m'.free f + t'.holds f = m.free f + t.holds f
  grow : ∀ f, m.free f ≤ m'.free f
  mem : ∀ f, m'.free f = m.free f → m'.mem f = m.mem f
  twice : (∀ f, m.free f + t.holds f ≤ 1) → m'.twice = m.twice
  ok : PipesOk t'

variable {t' : Files}

theorem Closing.trans {m'' : Kmem} {t'' : Files} (h1 : Closing m m' t t')
    (h2 : Closing m' m'' t' t'') : Closing m m'' t t'' where
  count f := (h2.count f).trans (h1.count f)
  grow f := Nat.le_trans (h1.grow f) (h2.grow f)
  mem f hf := by
    have g1 := h1.grow f
    have g2 := h2.grow f
    rw [h2.mem f (by omega), h1.mem f (by omega)]
  twice hs := by rw [h2.twice fun f => by rw [h1.count f]; exact hs f, h1.twice hs]
  ok := h2.ok

theorem Closing.same (hh : ∀ f, t'.holds f = t.holds f) (h : PipesOk t') : Closing m m t t' where
  count f := by rw [hh f]
  grow _ := Nat.le_refl _
  mem _ _ := rfl
  twice _ := rfl
  ok := h

theorem Pipe.close_open (p : Pipe) (w v : Bool) :
    (if v then (p.close w).writeopen else (p.close w).readopen) = true ↔
      v ≠ w ∧ (if v then p.writeopen else p.readopen) = true := by
  cases w <;> cases v <;> simp [Pipe.close]

/-- The last holder of pipe end `w` of the pipe in frame `f` is gone, and so is the end. -/
theorem PipesOk.closeEnd {f : Frame} {w : Bool} {p : Pipe}
    {o : Option Pipe} (h : PipesOk t) (hi : t.isEnd i f w) (hp : t.pipe f = some p)
    (hx : x.ref = 0) (hxp : x.pipe = none)
    (ho : o = none ∧ (p.close w).readopen = false ∧ (p.close w).writeopen = false ∨
      o = some (p.close w) ∧ ((p.close w).readopen = true ∨ (p.close w).writeopen = true)) :
    PipesOk ((t.setFile i x).setPipe f o) := by
  -- the other ends are as before
  have hend : ∀ j g v, ((t.setFile i x).setPipe f o).isEnd j g v ↔ j ≠ i ∧ t.isEnd j g v := by
    intro j g v
    have e : ((t.setFile i x).setPipe f o).isEnd j g v ↔ (t.setFile i x).isEnd j g v := Iff.rfl
    rw [e, Files.setFile_isEnd]
    by_cases hj : j = i
    · simp [hj, hx]
    · simp [hj]
  have hopen : ∀ g v, ((t.setFile i x).setPipe f o).endOpen g v ↔
      (g = f → v ≠ w) ∧ t.endOpen g v := by
    intro g v
    unfold Files.endOpen
    rw [Files.setPipe_pipe]
    by_cases hg : g = f
    · subst hg
      simp only [if_true, Files.setFile_pipe, hp, Option.some.injEq, exists_eq_left', forall_const]
      rw [← Pipe.close_open]
      rcases ho with ⟨rfl, h1, h2⟩ | ⟨rfl, -⟩
      · cases v <;> simp [h1, h2]
      · simp
    · simp [hg]
  refine ⟨fun j g v hj => ?_, fun j l g v hj hl => ?_, fun g v hv => ?_, fun g p' hp' => ?_,
    fun j hj => ?_⟩
  · obtain ⟨hji, hj1⟩ := (hend j g v).mp hj
    refine (hopen g v).mpr ⟨fun hg hv => hji ?_, h.opened j g v hj1⟩
    rw [hg, hv] at hj1
    exact h.inj j i f w hj1 hi
  · exact h.inj j l g v ((hend j g v).mp hj).2 ((hend l g v).mp hl).2
  · obtain ⟨h1, h2⟩ := (hopen g v).mp hv
    obtain ⟨j, hj⟩ := h.surj g v h2
    refine ⟨j, (hend j g v).mpr ⟨?_, hj⟩⟩
    rintro rfl
    have e1 : some g = some f := hj.2.1.symm.trans hi.2.1
    have e2 : v = w := hj.2.2.symm.trans hi.2.2
    exact h1 (Option.some.inj e1) e2
  · rw [Files.setPipe_pipe] at hp'
    split at hp'
    · rcases ho with ⟨rfl, -⟩ | ⟨rfl, h1⟩
      · cases hp'
      · cases hp'
        exact h1
    · exact h.live g p' hp'
  · rw [Files.setPipe_file, Files.setFile_file] at hj ⊢
    split
    · exact hxp
    · rename_i he
      rw [if_neg he] at hj
      exact h.closed j hj

/-- **`fileclose`** gives a pipe's page back exactly when its last end closes. -/
theorem fileclose_ok (h : PipesOk t) (hc : fileclose cfg m t i = .ok (m', t')) :
    Closing m m' t t' := by
  unfold fileclose at hc
  simp only at hc
  split at hc
  · cases hc
  rename_i hge
  split at hc
  · rename_i hgt
    cases hc
    refine Closing.same (fun f => rfl) (h.setFile (fun f w => ?_) (fun h0 => ?_))
    · unfold Files.isEnd
      simp only
      constructor
      · exact fun hx => ⟨by omega, hx.2⟩
      · exact fun hx => ⟨hgt, hx.2⟩
    · simp only at h0
      omega
  · rename_i hle
    split at hc
    · rename_i hn
      cases hc
      refine Closing.same (fun f => rfl) (h.setFile (fun f w => ?_) (fun _ => rfl))
      unfold Files.isEnd
      simp [hn]
    · rename_i f hf
      have hi : t.isEnd i f (t.file i).writable := ⟨by omega, hf, rfl⟩
      obtain ⟨p, hp, -⟩ := h.opened i f _ hi
      generalize (t.file i).writable = w at hi hc
      unfold pipeclose at hc
      rw [Files.setFile_pipe, hp] at hc
      simp only at hc
      split at hc
      · rename_i hboth
        have hb : (p.close w).readopen = false ∧ (p.close w).writeopen = false := by
          simpa using hboth
        obtain ⟨m1, hk, hc⟩ := Lib.bind_eq_ok.mp hc
        cases hc
        have hkf := kfree_free hk
        have hhold : t.holds f = 1 := by simp [Files.holds, hp]
        obtain ⟨-, -, hmem, -⟩ := kfree_ok hk
        refine ⟨fun g => ?_, fun g => ?_, fun g hg => ?_, fun hs => ?_,
          h.closeEnd hi hp rfl rfl (Or.inl ⟨rfl, hb⟩)⟩
        · rw [hkf g, Files.setPipe_holds]
          by_cases hg : g = f
          · rw [if_pos hg, hg, one_self, hhold]
            rfl
          · rw [if_neg hg, one, if_neg (Ne.symm hg), Files.setFile_holds]
            rfl
        · rw [hkf g]
          omega
        · have hne : g ≠ f := by
            rintro rfl
            rw [hkf, one_self] at hg
            omega
          rw [hmem, Function.update_of_ne hne]
        · have := hs f
          exact kfree_twice hk (by omega)
      · rename_i hboth
        cases hc
        have hb : (p.close w).readopen = true ∨ (p.close w).writeopen = true := by
          cases hr : (p.close w).readopen <;> cases hw : (p.close w).writeopen <;>
            simp [hr, hw] at hboth ⊢
        refine Closing.same (fun g => ?_)
          (h.closeEnd hi hp rfl rfl (Or.inr ⟨rfl, hb⟩))
        rw [Files.setPipe_holds]
        by_cases hg : g = f
        · rw [if_pos hg, hg]
          simp [Files.holds, hp]
        · rw [if_neg hg, Files.setFile_holds]

theorem pipeallocBad_ok {is : List Nat} : ∀ {m m' : Kmem} {t t' : Files}, PipesOk t →
    pipeallocBad cfg m t is = .ok (m', t') → Closing m m' t t' := by
  induction is with
  | nil =>
    intro m m' t t' h hc
    cases hc
    exact Closing.same (fun _ => rfl) h
  | cons i is ih =>
    intro m m' t t' h hc
    unfold pipeallocBad at hc
    obtain ⟨⟨m1, t1⟩, h1, h2⟩ := Lib.bind_eq_ok.mp hc
    have hf := fileclose_ok cfg h h1
    exact hf.trans (ih hf.ok h2)

theorem closeAll_ok {n : Nat} : ∀ {m m' : Kmem} {t t' : Files} {o o' : Nat → Option Nat},
    PipesOk t → closeAll cfg n m t o = .ok (m', t', o') → Closing m m' t t' := by
  induction n with
  | zero =>
    intro m m' t t' o o' h hc
    cases hc
    exact Closing.same (fun _ => rfl) h
  | succ n ih =>
    intro m m' t t' o o' h hc
    unfold closeAll at hc
    split at hc
    · exact ih h hc
    · obtain ⟨⟨m1, t1⟩, h1, h2⟩ := Lib.bind_eq_ok.mp hc
      have hf := fileclose_ok cfg h h1
      exact hf.trans (ih hf.ok h2)

/-- `filedup` only counts. -/
theorem filedup_ok (h : PipesOk t) (hd : filedup t i = .ok t') :
    PipesOk t' ∧ ∀ f, t'.holds f = t.holds f := by
  unfold filedup at hd
  split at hd
  · cases hd
  · rename_i hge
    cases hd
    refine ⟨h.setFile (fun f w => ?_) (fun h0 => ?_), fun f => rfl⟩
    · unfold Files.isEnd
      simp only
      exact ⟨fun hx => ⟨by omega, hx.2⟩, fun hx => ⟨by omega, hx.2⟩⟩
    · simp only at h0
      omega

theorem dupAll_ok {n : Nat} : ∀ {t t' : Files} {cur np np' : Nat → Option Nat}, PipesOk t →
    dupAll n t cur np = .ok (t', np') → PipesOk t' ∧ ∀ f, t'.holds f = t.holds f := by
  induction n with
  | zero =>
    intro t t' cur np np' h hd
    cases hd
    exact ⟨h, fun _ => rfl⟩
  | succ n ih =>
    intro t t' cur np np' h hd
    unfold dupAll at hd
    split at hd
    · exact ih h hd
    · obtain ⟨t1, h1, h2⟩ := Lib.bind_eq_ok.mp hd
      obtain ⟨h3, h4⟩ := filedup_ok h h1
      obtain ⟨h5, h6⟩ := ih h3 h2
      exact ⟨h5, fun f => (h6 f).trans (h4 f)⟩

/-- `filealloc` takes an entry that is no pipe end. -/
theorem filealloc_ok (h : PipesOk t) (ha : filealloc t = some (i, t')) :
    (t.file i).ref = 0 ∧ t' = t.setFile i { t.file i with ref := 1 } ∧ PipesOk t' := by
  unfold filealloc at ha
  split at ha
  · cases ha
  · rename_i j hj
    cases ha
    have h0 : (t.file i).ref = 0 := by simpa using List.find?_some hj
    refine ⟨h0, rfl, h.setFile (fun f w => ?_) (fun h1 => by cases h1)⟩
    have hn := h.closed i h0
    unfold Files.isEnd
    simp [hn]

/-- What taking or giving back pipe pages does to the allocator. -/
structure FilesStep (m m' : Kmem) (t t' : Files) : Prop where
  count : ∀ f, m'.free f + t'.holds f = m.free f + t.holds f
  mem : ∀ f, m.free f = 0 → m'.free f = 0 → m'.mem f = m.mem f
  twice : (∀ f, m.free f + t.holds f ≤ 1) → m'.twice = m.twice
  ok : PipesOk t'

theorem Closing.filesStep (h : Closing m m' t t') : FilesStep m m' t t' where
  count := h.count
  mem f h0 h1 := h.mem f (h1.trans h0.symm)
  twice := h.twice
  ok := h.ok

/-- A page taken for a pipe, before anything is closed again. -/
theorem FilesStep.close {m1 : Kmem} {t1 : Files} (h1 : FilesStep m m1 t t1)
    (hle : ∀ f, m1.free f ≤ m.free f) (h2 : Closing m1 m' t1 t') : FilesStep m m' t t' where
  count f := (h2.count f).trans (h1.count f)
  mem f h0 h3 := by
    have e1 := hle f
    have e2 := h2.grow f
    rw [h2.mem f (by omega), h1.mem f h0 (by omega)]
  twice hs := by rw [h2.twice fun f => by rw [h1.count f]; exact hs f, h1.twice hs]
  ok := h2.ok

/-- **A new pipe**: two free files become its two ends. -/
theorem PipesOk.newPipe {j : Nat} {f : Frame} {y : File} (h : PipesOk t) (hij : i ≠ j)
    (hi : (t.file i).pipe = none) (hj : (t.file j).pipe = none) (hf : t.pipe f = none)
    (hx : 0 < x.ref ∧ x.pipe = some f ∧ x.writable = false)
    (hy : 0 < y.ref ∧ y.pipe = some f ∧ y.writable = true) :
    PipesOk (((t.setPipe f (some ⟨true, true⟩)).setFile i x).setFile j y) := by
  have hold : ∀ l g v, t.isEnd l g v → l ≠ i ∧ l ≠ j ∧ g ≠ f := by
    intro l g v hl
    refine ⟨?_, ?_, ?_⟩
    · rintro rfl
      rw [hl.2.1] at hi
      cases hi
    · rintro rfl
      rw [hl.2.1] at hj
      cases hj
    · rintro rfl
      obtain ⟨p, hp, -⟩ := h.opened l _ v hl
      rw [hf] at hp
      cases hp
  have hend : ∀ l g v, (((t.setPipe f (some ⟨true, true⟩)).setFile i x).setFile j y).isEnd l g v ↔
      (l = j ∧ g = f ∧ v = true) ∨ (l = i ∧ g = f ∧ v = false) ∨ t.isEnd l g v := by
    intro l g v
    rw [Files.setFile_isEnd]
    by_cases hlj : l = j
    · rw [if_pos hlj]
      constructor
      · rintro ⟨-, h1, h2⟩
        refine Or.inl ⟨hlj, ?_, h2.symm.trans hy.2.2⟩
        exact Option.some.inj (h1.symm.trans hy.2.1)
      · rintro (⟨-, rfl, rfl⟩ | ⟨h1, -⟩ | h1)
        · exact hy
        · exact absurd (h1.symm.trans hlj) hij
        · exact absurd hlj (hold l g v h1).2.1
    · rw [if_neg hlj, Files.setFile_isEnd]
      by_cases hli : l = i
      · rw [if_pos hli]
        constructor
        · rintro ⟨-, h1, h2⟩
          refine Or.inr (Or.inl ⟨hli, ?_, h2.symm.trans hx.2.2⟩)
          exact Option.some.inj (h1.symm.trans hx.2.1)
        · rintro (⟨h1, -⟩ | ⟨-, rfl, rfl⟩ | h1)
          · exact absurd h1 hlj
          · exact hx
          · exact absurd hli (hold l g v h1).1
      · rw [if_neg hli]
        constructor
        · exact fun h1 => Or.inr (Or.inr h1)
        · rintro (⟨h1, -⟩ | ⟨h1, -⟩ | h1)
          · exact absurd h1 hlj
          · exact absurd h1 hli
          · exact h1
  have hopen : ∀ g v, (((t.setPipe f (some ⟨true, true⟩)).setFile i x).setFile j y).endOpen g v ↔
      g = f ∨ t.endOpen g v := by
    intro g v
    have e : (((t.setPipe f (some ⟨true, true⟩)).setFile i x).setFile j y).endOpen g v ↔
        (t.setPipe f (some ⟨true, true⟩)).endOpen g v := Iff.rfl
    rw [e]
    unfold Files.endOpen
    rw [Files.setPipe_pipe]
    by_cases hg : g = f
    · cases v <;> simp [hg]
    · simp [hg]
  refine ⟨fun l g v hl => ?_, fun l l' g v hl hl' => ?_, fun g v hv => ?_, fun g p hp => ?_,
    fun l hl => ?_⟩
  · rw [hopen]
    rcases (hend l g v).mp hl with ⟨-, hg, -⟩ | ⟨-, hg, -⟩ | h1
    · exact Or.inl hg
    · exact Or.inl hg
    · exact Or.inr (h.opened l g v h1)
  · rcases (hend l g v).mp hl with ⟨h1, hg, hv⟩ | ⟨h1, hg, hv⟩ | h1 <;>
      rcases (hend l' g v).mp hl' with ⟨h2, hg2, hv2⟩ | ⟨h2, hg2, hv2⟩ | h2
    · rw [h1, h2]
    · rw [hv] at hv2
      cases hv2
    · exact absurd hg (hold l' g v h2).2.2
    · rw [hv] at hv2
      cases hv2
    · rw [h1, h2]
    · exact absurd hg (hold l' g v h2).2.2
    · exact absurd hg2 (hold l g v h1).2.2
    · exact absurd hg2 (hold l g v h1).2.2
    · exact h.inj l l' g v h1 h2
  · rcases (hopen g v).mp hv with rfl | h1
    · cases v with
      | true => exact ⟨j, (hend j g true).mpr (Or.inl ⟨rfl, rfl, rfl⟩)⟩
      | false => exact ⟨i, (hend i g false).mpr (Or.inr (Or.inl ⟨rfl, rfl, rfl⟩))⟩
    · obtain ⟨l, hl⟩ := h.surj g v h1
      exact ⟨l, (hend l g v).mpr (Or.inr (Or.inr hl))⟩
  · have e : (((t.setPipe f (some ⟨true, true⟩)).setFile i x).setFile j y).pipe g =
        (t.setPipe f (some ⟨true, true⟩)).pipe g := rfl
    rw [e, Files.setPipe_pipe] at hp
    split at hp
    · cases hp
      exact Or.inl rfl
    · exact h.live g p hp
  · rw [Files.setFile_file] at hl ⊢
    by_cases hlj : l = j
    · rw [if_pos hlj] at hl
      omega
    · rw [if_neg hlj] at hl ⊢
      rw [Files.setFile_file] at hl ⊢
      by_cases hli : l = i
      · rw [if_pos hli] at hl
        omega
      · rw [if_neg hli] at hl ⊢
        exact h.closed l hl

/-- Closing files again after entries were allocated for them. -/
theorem Closing.filesStep_of {t1 : Files} (h : Closing m m' t1 t')
    (e : ∀ f, t1.holds f = t.holds f) : FilesStep m m' t t' where
  count f := by rw [h.count f, e f]
  mem := h.filesStep.mem
  twice hs := h.twice fun f => by rw [e f]; exact hs f
  ok := h.ok

/-- **`pipealloc`**: nothing is kept when it fails; otherwise the two files are the ends of a pipe
    in a page of its own. -/
theorem pipealloc_ok {r : Option (Nat × Nat)} (h : PipesOk t) (hs : ∀ f, m.free f + t.holds f ≤ 1)
    (ha : pipealloc cfg m t = .ok (r, m', t')) :
    FilesStep m m' t t' ∧ (r ≠ none → ∀ f, m'.free f ≤ m.free f) := by
  unfold pipealloc at ha
  split at ha
  · cases ha
    exact ⟨(Closing.same (fun _ => rfl) h).filesStep, fun hn => absurd rfl hn⟩
  rename_i f0 t1 h1
  obtain ⟨h10, h11, h12⟩ := filealloc_ok h h1
  have hh1 : ∀ f, t1.holds f = t.holds f := fun f => by rw [h11]; rfl
  split at ha
  · obtain ⟨⟨m2, t2⟩, h2, h3⟩ := Lib.bind_eq_ok.mp ha
    cases h3
    exact ⟨(pipeallocBad_ok cfg h12 h2).filesStep_of hh1, fun hn => absurd rfl hn⟩
  rename_i f1 t2 h2
  obtain ⟨h20, h21, h22⟩ := filealloc_ok h12 h2
  have hh2 : ∀ f, t2.holds f = t.holds f := fun f => by rw [h21]; exact hh1 f
  split at ha
  · obtain ⟨⟨m3, t3⟩, h3, h4⟩ := Lib.bind_eq_ok.mp ha
    cases h4
    exact ⟨(pipeallocBad_ok cfg h22 h3).filesStep_of hh2, fun hn => absurd rfl hn⟩
  rename_i p m1 hk
  cases ha
  have hkf := kalloc_free hk
  obtain ⟨-, hmem, htw⟩ := kalloc_some hk
  have hp0 : t2.holds p = 0 := by
    have e1 := hkf p
    have e2 := hs p
    rw [one_self] at e1
    rw [hh2]
    omega
  have hp : t2.pipe p = none := by
    cases hpp : t2.pipe p with
    | none => rfl
    | some x => simp [Files.holds, hpp] at hp0
  have hne : f0 ≠ f1 := by
    rintro rfl
    rw [h11, Files.setFile_file, if_pos rfl] at h20
    cases h20
  have e0 : (t2.file f0) = { t.file f0 with ref := 1 } := by
    rw [h21, Files.setFile_file, if_neg hne, h11, Files.setFile_file, if_pos rfl]
  have e1 : (t2.file f1) = { t1.file f1 with ref := 1 } := by
    rw [h21, Files.setFile_file, if_pos rfl]
  have hn0 : (t2.file f0).pipe = none := by
    rw [e0]
    exact h.closed f0 h10
  have hn1 : (t2.file f1).pipe = none := by
    rw [e1]
    exact h12.closed f1 h20
  have hr0 : (t2.file f0).ref = 1 := by rw [e0]
  have hr1 : (t2.file f1).ref = 1 := by rw [e1]
  have hok := h22.newPipe hne hn0 hn1 hp
    (x := { t2.file f0 with pipe := some p, readable := true, writable := false })
    (y := { t2.file f1 with pipe := some p, readable := false, writable := true })
    ⟨by simp only [hr0]; omega, rfl, rfl⟩ ⟨by simp only [hr1]; omega, rfl, rfl⟩
  refine ⟨⟨fun g => ?_, fun g _ _ => by rw [hmem], fun _ => htw, ?_⟩, fun _ g => ?_⟩
  · have e3 := hkf g
    rw [Files.setFile_holds, Files.setFile_holds, Files.setPipe_holds]
    by_cases hg : g = p
    · rw [if_pos hg, hg]
      rw [hg, one_self] at e3
      rw [hh2] at hp0
      simp only [Option.isSome_some, if_true]
      omega
    · rw [if_neg hg, hh2]
      rw [one, if_neg (Ne.symm hg)] at e3
      omega
  · have e4 : ((t2.setPipe p (some ⟨true, true⟩)).setFile f0
        { (t2.setPipe p (some ⟨true, true⟩)).file f0 with
          pipe := some p, readable := true, writable := false }).file f1 = t2.file f1 := by
      rw [Files.setFile_file, if_neg (Ne.symm hne)]
      rfl
    rw [e4]
    exact hok
  · have := hkf g
    omega

theorem sysPipe_ok {o o' : Nat → Option Nat} {r : Int} (h : PipesOk t)
    (hs : ∀ f, m.free f + t.holds f ≤ 1) (hp : sysPipe cfg m t o = .ok (r, m', t', o')) :
    FilesStep m m' t t' := by
  unfold sysPipe at hp
  obtain ⟨⟨x, m1, t1⟩, h1, h2⟩ := Lib.bind_eq_ok.mp hp
  obtain ⟨hst, hle⟩ := pipealloc_ok cfg h hs h1
  -- both error exits close the two files again
  have hundo : ∀ {rf wf : Nat} {m2 m3 : Kmem} {t2 t3 : Files}, x ≠ none →
      fileclose cfg m1 t1 rf = .ok (m2, t2) → fileclose cfg m2 t2 wf = .ok (m3, t3) →
      FilesStep m m3 t t3 := by
    intro rf wf m2 m3 t2 t3 hx h3 h4
    have c1 := fileclose_ok cfg hst.ok h3
    exact hst.close (hle hx) (c1.trans (fileclose_ok cfg c1.ok h4))
  cases x with
  | none =>
    cases h2
    exact hst
  | some fs =>
    obtain ⟨rf, wf⟩ := fs
    simp only at h2
    split at h2
    · obtain ⟨⟨m2, t2⟩, h3, h4⟩ := Lib.bind_eq_ok.mp h2
      obtain ⟨⟨m3, t3⟩, h5, h6⟩ := Lib.bind_eq_ok.mp h4
      cases h6
      exact hundo (fun hn => by cases hn) h3 h5
    · split at h2
      · obtain ⟨⟨m2, t2⟩, h3, h4⟩ := Lib.bind_eq_ok.mp h2
        obtain ⟨⟨m3, t3⟩, h5, h6⟩ := Lib.bind_eq_ok.mp h4
        cases h6
        exact hundo (fun hn => by cases hn) h3 h5
      · cases h2
        exact hst

theorem sysClose_ok {o o' : Nat → Option Nat} {fd : Nat} {r : Int} (h : PipesOk t)
    (hc : sysClose cfg m t o fd = .ok (r, m', t', o')) : FilesStep m m' t t' := by
  unfold sysClose at hc
  have hsame : FilesStep m m t t := (Closing.same (fun _ => rfl) h).filesStep
  split at hc
  · cases hc
    exact hsame
  · split at hc
    · cases hc
      exact hsame
    · obtain ⟨⟨m1, t1⟩, h1, h2⟩ := Lib.bind_eq_ok.mp hc
      cases h2
      exact (fileclose_ok cfg h h1).filesStep

end Xv6Clock
