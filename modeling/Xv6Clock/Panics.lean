/-
  File:      Xv6Clock/Panics.lean
  Subject:   Where the panics of `mappages` and `copyuvm` can come from: only from the calls that
             build page tables. Every other function ends otherwise.
-/
import Xv6Clock.Fork
import Xv6Clock.Machine

namespace Xv6Clock

variable (cfg : Config)

open Lib (Errs errs_ok errs_error)

/-- Not one of the panics of `mappages` ("remap") and `copyuvm`. -/
def Calm (e : Err) : Prop :=
  e ≠ .panic .remap ∧ e ≠ .panic .copyuvmPte ∧ e ≠ .panic .copyuvmPresent

instance (e : Err) : Decidable (Calm e) :=
  inferInstanceAs (Decidable (_ ∧ _ ∧ _))

theorem calm_oob (i : Int) : Calm (.oob i) := ⟨nofun, nofun, nofun⟩

/-! ## 1. Giving frames back -/

theorem kfree_calm (m : Kmem) (f : Frame) : Errs Calm (kfree cfg m f) := by
  unfold kfree
  split
  · exact errs_error (by decide)
  · exact errs_ok _

variable {n fuel : Nat}

theorem deallocuvmLoop_calm : ∀ (s : Vm) (a oldsz : Nat),
    Errs Calm (deallocuvmLoop cfg n s a oldsz) := by
  induction n with
  | zero => exact fun s _ _ => errs_ok s
  | succ n ih =>
    intro s a oldsz
    unfold deallocuvmLoop
    split
    · exact errs_ok _
    · split
      · exact ih _ _ _
      · split
        · split
          · exact errs_error (by decide)
          · exact (kfree_calm cfg _ _).bind fun m _ => ih _ _ _
        · exact ih _ _ _

theorem deallocuvm_calm (s : Vm) (oldsz newsz : Nat) :
    Errs Calm (deallocuvm cfg s oldsz newsz) := by
  unfold deallocuvm
  split
  · exact errs_ok _
  · exact (deallocuvmLoop_calm cfg _ _ _).bind fun s _ => errs_ok _

theorem freevmLoop_calm {r : Nat} : ∀ (m : Kmem) (pd : PgDir) (i : Nat),
    Errs Calm (freevmLoop cfg r m pd i) := by
  induction r with
  | zero => exact fun m _ _ => errs_ok m
  | succ r ih =>
    intro m pd i
    unfold freevmLoop
    split
    · exact (kfree_calm cfg _ _).bind fun m _ => ih _ _ _
    · exact ih _ _ _

theorem freevm_calm (s : Vm) : Errs Calm (freevm cfg s) :=
  (deallocuvm_calm cfg _ _ _).bind fun _ _ => (freevmLoop_calm cfg _ _ _).bind fun _ _ =>
    kfree_calm cfg _ _

/-! ## 2. Faults -/

theorem mencrypt_calm (s : Vm) (va : Nat) (len : Int) : Errs Calm (mencrypt s va len) := by
  intro e h
  rcases mencrypt_cases s va len with ⟨h1, -⟩ | ⟨s', h1, -⟩ | ⟨h1, -⟩ <;> rw [h1] at h <;> cases h
  decide

theorem nodeIndex_calm (i : Int) : Errs Calm (nodeIndex cfg i) := by
  unfold nodeIndex
  split
  · exact errs_ok _
  · exact errs_error (calm_oob i)

theorem evictPass_calm : ∀ (s : Vm) (q : ClockQ) (add i : Nat),
    Errs Calm (evictPass cfg n s q add i) := by
  induction n with
  | zero => exact fun s q _ _ => errs_ok _
  | succ n ih =>
    intro s q add i
    unfold evictPass
    refine (nodeIndex_calm cfg _).bind fun r _ => ?_
    split
    · exact errs_error (by decide)
    · split
      · exact ih _ _ _ _
      · exact (mencrypt_calm _ _ _).bind fun _ _ => errs_ok _

theorem clockInsert_calm (s : Vm) (q : ClockQ) (add : Nat) :
    Errs Calm (clockInsert cfg s q add) := by
  unfold clockInsert
  split
  · exact errs_ok _
  · split
    · exact (nodeIndex_calm cfg _).bind fun _ _ => errs_ok _
    · refine (evictPass_calm cfg _ _ _ _).bind fun _ _ => ?_
      dsimp only
      split
      · exact errs_ok _
      · exact (evictPass_calm cfg _ _ _ _).bind fun _ _ => errs_ok _

theorem mdecrypt_calm (s : Vm) (q : ClockQ) (va : Nat) : Errs Calm (mdecrypt cfg s q va) := by
  unfold mdecrypt
  refine Errs.bind (fun e h => ?_) fun _ _ => ?_
  · rcases mdecryptPage_cases s va with ⟨-, h1⟩ | ⟨-, -, h1⟩ | ⟨-, -, -, h1⟩ | ⟨-, -, -, h1⟩ <;>
      rw [h1] at h <;> cases h
    decide
  · dsimp only
    split
    · exact errs_ok _
    · exact (clockInsert_calm cfg _ _ _).bind fun _ _ => errs_ok _

theorem pageFault_calm (m : Kmem) (p : Proc) (va : Nat) : Errs Calm (pageFault cfg m p va) :=
  (mdecrypt_calm cfg _ _ _).bind fun _ _ => errs_ok _

theorem userFault_calm (m : Kmem) (p : Proc) (va : Nat) : Errs Calm (userFault cfg m p va) := by
  refine (pageFault_calm cfg _ _ _).bind fun _ _ => ?_
  dsimp only
  split <;> exact errs_ok _

theorem faultNull_calm : ∀ (m : Kmem) (p : Proc), Errs Calm (faultNull cfg n m p) := by
  induction n with
  | zero => exact fun _ _ => errs_error (by decide)
  | succ n ih =>
    intro m p
    unfold faultNull
    split
    · exact errs_ok _
    · refine (pageFault_calm cfg _ _ _).bind fun _ _ => ?_
      dsimp only
      split
      · exact errs_error (by decide)
      · exact ih _ _

theorem loadNull_calm (fuel : Nat) (m : Kmem) (p : Proc) : Errs Calm (loadNull cfg fuel m p) :=
  (faultNull_calm cfg _ _).bind fun _ _ => errs_ok _

theorem storeNull_calm (fuel : Nat) (m : Kmem) (p : Proc) (w : Word) :
    Errs Calm (storeNull cfg fuel m p w) :=
  (faultNull_calm cfg _ _).bind fun _ _ => errs_ok _

/-! ## 3. The deep copy of `fork` -/

theorem loadParent_calm (fuel : Nat) (x : ForkState) (o : Option Nat) :
    Errs Calm (x.loadParent cfg fuel o) := by
  cases o with
  | some v => exact errs_ok _
  | none => exact (loadNull_calm cfg _ _ _).bind fun _ _ => errs_ok _

theorem loadChild_calm (fuel : Nat) (x : ForkState) (o : Option Nat) :
    Errs Calm (x.loadChild cfg fuel o) := by
  cases o with
  | some v => exact errs_ok _
  | none => exact (loadNull_calm cfg _ _ _).bind fun _ _ => errs_ok _

theorem storeChild_calm (fuel : Nat) (x : ForkState) (w : Word) (o : Option Nat) :
    Errs Calm (x.storeChild cfg fuel w o) := by
  cases o with
  | some v => exact errs_ok _
  | none => exact (storeNull_calm cfg _ _ _ _).bind fun _ _ => errs_ok _

theorem forkNode_calm (fuel i : Nat) (x : ForkState) : Errs Calm (forkNode cfg fuel i x) := by
  unfold forkNode
  refine (loadParent_calm cfg _ _ _).bind fun _ _ => ?_
  dsimp only
  split
  · exact errs_ok _
  · refine (loadChild_calm cfg _ _ _).bind fun _ _ => ?_
    split
    · exact errs_ok _
    · exact (loadChild_calm cfg _ _ _).bind fun _ _ => storeChild_calm cfg _ _ _ _

theorem forkNodes_calm {r : Nat} : ∀ (i : Nat) (x : ForkState),
    Errs Calm (forkNodes cfg fuel r i x) := by
  induction r with
  | zero =>
    intro i x
    unfold forkNodes
    split
    · exact errs_ok _
    · exact errs_error (by decide)
  | succ r ih =>
    intro i x
    unfold forkNodes
    split
    · exact errs_ok _
    · exact (forkNode_calm cfg _ _ _).bind fun _ _ => ih _ _

/-! ## 4. Files -/

theorem fileclose_calm (m : Kmem) (t : Files) (i : Nat) : Errs Calm (fileclose cfg m t i) := by
  unfold fileclose
  dsimp only
  split
  · exact errs_error (by decide)
  · split
    · exact errs_ok _
    · split
      · exact errs_ok _
      · unfold pipeclose
        split
        · exact errs_error (by decide)
        · rename_i p hp
          dsimp only
          split
          · exact (kfree_calm cfg _ _).bind fun _ _ => errs_ok _
          · exact errs_ok _

theorem dupAll_calm : ∀ (t : Files) (cur np : Nat → Option Nat),
    Errs Calm (dupAll n t cur np) := by
  induction n with
  | zero => exact fun _ _ _ => errs_ok _
  | succ n ih =>
    intro t cur np
    unfold dupAll
    split
    · exact ih _ _ _
    · refine Errs.bind ?_ fun _ _ => ih _ _ _
      unfold filedup
      split
      · exact errs_error (by decide)
      · exact errs_ok _

theorem closeAll_calm : ∀ (m : Kmem) (t : Files) (ofile : Nat → Option Nat),
    Errs Calm (closeAll cfg n m t ofile) := by
  induction n with
  | zero => exact fun _ _ _ => errs_ok _
  | succ n ih =>
    intro m t ofile
    unfold closeAll
    split
    · exact ih _ _ _
    · exact (fileclose_calm cfg _ _ _).bind fun _ _ => ih _ _ _

theorem pipeallocBad_calm {is : List Nat} : ∀ (m : Kmem) (t : Files),
    Errs Calm (pipeallocBad cfg m t is) := by
  induction is with
  | nil => exact fun _ _ => errs_ok _
  | cons i is ih => exact fun m t => (fileclose_calm cfg _ _ _).bind fun _ _ => ih _ _

theorem pipealloc_calm (m : Kmem) (t : Files) : Errs Calm (pipealloc cfg m t) := by
  unfold pipealloc
  split
  · exact errs_ok _
  · split
    · exact (pipeallocBad_calm cfg _ _).bind fun _ _ => errs_ok _
    · split
      · exact (pipeallocBad_calm cfg _ _).bind fun _ _ => errs_ok _
      · exact errs_ok _

theorem sysPipe_calm (m : Kmem) (t : Files) (ofile : Nat → Option Nat) :
    Errs Calm (sysPipe cfg m t ofile) := by
  refine (pipealloc_calm cfg _ _).bind fun _ _ => ?_
  dsimp only
  split
  · exact errs_ok _
  · split
    · exact (fileclose_calm cfg _ _ _).bind fun _ _ =>
        (fileclose_calm cfg _ _ _).bind fun _ _ => errs_ok _
    · split
      · exact (fileclose_calm cfg _ _ _).bind fun _ _ =>
          (fileclose_calm cfg _ _ _).bind fun _ _ => errs_ok _
      · exact errs_ok _

theorem sysClose_calm (m : Kmem) (t : Files) (ofile : Nat → Option Nat) (fd : Nat) :
    Errs Calm (sysClose cfg m t ofile fd) := by
  unfold sysClose
  split
  · exact errs_ok _
  · split
    · exact errs_ok _
    · exact (fileclose_calm cfg _ _ _).bind fun _ _ => errs_ok _

theorem exit_calm (k : Kernel) (i : Nat) : Errs Calm (exit cfg k i) := by
  unfold exit
  split
  · exact errs_error (by decide)
  · exact (closeAll_calm cfg _ _ _).bind fun _ _ => errs_ok _

theorem wait_calm (k : Kernel) (i : Nat) : Errs Calm (wait cfg k i) := by
  unfold wait
  split
  · exact (kfree_calm cfg _ _).bind fun _ _ => (freevm_calm cfg _).bind fun _ _ => errs_ok _
  · split <;> exact errs_ok _

/-! ## 5. Operations -/

/-- The calls that build page tables return: growing, copying the image, exec. -/
structure Maps (k : Kernel) (i : Nat) : Prop where
  grow : ∀ newsz, ∃ x, allocuvm cfg ((k.proc i).vm k.kmem) (k.proc i).sz newsz = .ok x
  copy : ∀ f m, kalloc k.kmem = some (f, m) →
    ∃ x, copyuvm cfg m (k.proc i).pgdir (k.proc i).sz = .ok x

theorem growproc_calm {m : Kmem} {p : Proc} {n : Int}
    (h : ∀ newsz, ∃ x, allocuvm cfg (p.vm m) p.sz newsz = .ok x) :
    Errs Calm (growproc cfg m p n) := by
  unfold growproc
  split
  · refine (Errs.of_total (h _)).bind fun _ _ => ?_
    dsimp only
    split
    · exact errs_ok _
    · exact (mencrypt_calm _ _ _).bind fun _ _ => errs_ok _
  · split
    · refine (deallocuvm_calm cfg _ _ _).bind fun _ _ => ?_
      dsimp only
      split <;> exact errs_ok _
    · exact errs_ok _

theorem fork_calm {k : Kernel} {i : Nat} (hi : (k.proc i).state ≠ .unused) (h : Maps cfg k i) :
    Errs Calm (fork cfg fuel k i) := by
  unfold fork allocproc
  cases hu : findUnused k with
  | none => exact errs_ok _
  | some j =>
    have hij : i ≠ j := by
      rintro rfl
      exact hi (findUnused_some hu).2
    simp only [Kernel.setProc_kmem]
    cases hf : kalloc k.kmem with
    | none => exact errs_ok _
    | some x =>
      obtain ⟨f, m1⟩ := x
      simp only [Kernel.setProc, Kernel.setKmem, Function.update_self, Function.update_of_ne hij]
      refine (Errs.of_total (h.copy f m1 hf)).bind fun y _ => ?_
      obtain ⟨d, m2⟩ := y
      cases d with
      | none => exact (kfree_calm cfg _ _).bind fun _ _ => errs_ok _
      | some d =>
        exact (forkNodes_calm cfg _ _).bind fun _ _ => (dupAll_calm _ _ _).bind fun _ _ => errs_ok _

theorem memStep_calm {m : Kmem} {p : Proc} {op : MemOp}
    (hgrow : ∀ newsz, ∃ x, allocuvm cfg (p.vm m) p.sz newsz = .ok x)
    (hexec : ∀ ip path argv, op = .exec ip path argv →
      ∃ x, exec cfg fuel m p ip path argv = .ok x) : Errs Calm (memStep cfg fuel m p op) := by
  cases op with
  | read va =>
    change Errs Calm (userRead cfg m p va.toNat)
    unfold userRead
    split
    · exact errs_ok _
    · exact userFault_calm cfg _ _ _
  | write va b =>
    change Errs Calm (userWrite cfg m p va.toNat b)
    unfold userWrite
    split
    · exact errs_ok _
    · exact userFault_calm cfg _ _ _
  | mencrypt va len =>
    refine Errs.bind ?_ fun _ _ => errs_ok _
    unfold sysMencrypt
    split
    · exact errs_ok _
    · split
      · exact errs_ok _
      · split
        · exact errs_ok _
        · exact (mencrypt_calm _ _ _).bind fun _ _ => errs_ok _
  | sbrk n =>
    refine Errs.bind ((growproc_calm cfg hgrow).bind fun _ _ => ?_) fun _ _ => errs_ok _
    dsimp only
    split <;> exact errs_ok _
  | exec ip path argv =>
    exact (Errs.of_total (hexec ip path argv rfl)).bind fun _ _ => errs_ok _

/-- **An operation reaches neither panic**, where the calls that build page tables return. -/
theorem step_calm {k : Kernel} {i : Nat} {op : Op}
    (h : (k.proc i).state ≠ .unused → Maps cfg k i)
    (he : ∀ ip path argv, op = .mem (.exec ip path argv) → (k.proc i).state ≠ .unused →
      ∃ x, exec cfg fuel k.kmem (k.proc i) ip path argv = .ok x) :
    Errs Calm (step cfg fuel k i op) := by
  unfold step
  split
  · exact errs_error (by decide)
  rename_i hrun
  have hu : (k.proc i).state ≠ .unused := by
    rw [(not_not.mp hrun).2]
    decide
  have hm := h hu
  cases op with
  | mem o =>
    have hmem := memStep_calm cfg hm.grow fun ip path argv ho =>
      he ip path argv (congrArg Op.mem ho) hu
    refine hmem.bind fun _ _ => ?_
    dsimp only
    split
    · exact (exit_calm cfg _ _).bind fun _ _ => errs_ok _
    · exact errs_ok _
  | fork => exact (fork_calm cfg hu hm).bind fun _ _ => errs_ok _
  | exit => exact (exit_calm cfg _ _).bind fun _ _ => errs_ok _
  | wait => exact (wait_calm cfg _ _).bind fun _ _ => errs_ok _
  | pipe => exact (sysPipe_calm cfg _ _ _).bind fun _ _ => errs_ok _
  | close fd => exact (sysClose_calm cfg _ _ _ _).bind fun _ _ => errs_ok _

end Xv6Clock
