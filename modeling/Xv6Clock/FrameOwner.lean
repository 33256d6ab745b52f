/-
  File:      Xv6Clock/FrameOwner.lean
  Subject:   Are frames leaked or shared?

  Not in a run whose execs have short arguments and whose forks find every queued address below
  the size. A long argument writes over a page-table page and loses every page mapped there.
-/
import Xv6Clock.LongArgument

namespace Xv6Clock

variable (cfg : Config)

/-- What keeps the kernel inside its page tables: the arguments of exec are short, and fork looks
    up queued addresses below the size only. -/
def OwnOk (k : Kernel) (i : Nat) : Op → Prop
  | .mem (.exec _ _ argv) => ArgsShort argv
  | .fork => QueueLow (k.proc i)
  | _ => True

/-- An operation that keeps inside the page tables keeps the account in order. -/
theorem Accounted.step_ok {fuel : Nat} {k k' : Kernel} {i : Nat} {op : Op} {o : Out}
    (h : Accounted cfg k) (hfork : op = .fork → QueueLow (k.proc i))
    (hs : Xv6Clock.step cfg fuel k i op = .ok (o, k')) : Accounted cfg k' := by
  refine h.step cfg (fun hop {m1 m2 d nodes x} hc hx => ?_) hs
  obtain ⟨hi, hrun, -⟩ := step_cases cfg hs
  have hu : (k.proc i).state ≠ .unused := by
    rw [hrun]
    decide
  exact deep_of_low cfg (h.sane i hu).size (hfork hop) hc hx

theorem run_accounted {k0 k : Kernel} (h0 : Accounted cfg k0) (h : Run cfg OwnOk k0 k) :
    Accounted cfg k :=
  h.inv cfg h0 (fun hok => hok) fun hacc hok hs =>
    hacc.step_ok cfg (fun hop => by subst hop; exact hok) hs

/-- **Every frame is in one place.** In every state of every run from boot whose operations meet
    `OwnOk`: each frame given to the allocator is in exactly one place and no other frame is in
    any, `kfree` was never called on a free frame, the pages a process maps are not free, and
    every exec with short arguments returns. -/
theorem frames_in_one_place {ncpu : Nat} {code : List Byte} {k0 k : Kernel}
    (hb : boot cfg ncpu code = .ok k0) (h : Run cfg OwnOk k0 k) :
    (∀ f, places k f = if managed cfg f then 1 else 0) ∧ k.kmem.twice = false ∧
    ∀ i, i < nproc → (k.proc i).state ≠ .unused →
      (∀ u, u < 2 ^ 19 → mapped ((k.proc i).pgdir.pteAt u) = true →
        pteFrame ((k.proc i).pgdir.pteAt u) ∉ k.kmem.freelist) ∧
      ∀ fuel ip path argv, ArgsShort argv →
        ∃ x, exec cfg fuel k.kmem (k.proc i) ip path argv = .ok x := by
  have hacc := run_accounted cfg (boot_ok cfg hb).1 h
  refine ⟨hacc.one, hacc.once, fun i hi hu => ⟨fun u hlt hm hfree => ?_, fun _ _ _ _ ha =>
    exec_total (hacc.managed cfg hi hu) ha⟩⟩
  have h1 := hacc.proc_le cfg hi hu (pteFrame ((k.proc i).pgdir.pteAt u))
  have h2 := PgDir.one_le_holds hm hlt
  have h3 : 0 < k.kmem.free (pteFrame ((k.proc i).pgdir.pteAt u)) := List.count_pos_iff.mpr hfree
  omega

/-- The first process grows by 32 MB and stores a word. -/
theorem frames_in_one_place_grown : ∃ k0 k, boot xv6 0 [] = .ok k0 ∧ Run xv6 OwnOk k0 k ∧
    2 ^ 25 ≤ (k.proc 0).sz ∧ k.kmem.twice = false := by
  obtain ⟨k0, hb, hfirst⟩ := boot_total xv6 0 [] (by decide)
  obtain ⟨o, k1, f, g, hs, hp⟩ := hfirst.grow (boot_ok xv6 hb).1
  have hr : Run xv6 OwnOk k0 k1 := by
    refine .step .start ?_ hs
    trivial
  obtain ⟨k2, hr2, hp2, -⟩ := hp.storeWord (fun _ _ _ => by trivial) hr 7
  exact ⟨k0, k2, hb, hr2, Nat.le_trans (by decide) hp2.size,
    (frames_in_one_place xv6 hb hr2).2.1⟩

/-- **A long argument of exec loses frames**: a run from boot after which a frame of the allocator
    is in no place. -/
theorem long_argument_loses_frame : ∃ k0 k f, boot xv6 0 [] = .ok k0 ∧
    Run xv6 (fun _ _ _ => True) k0 k ∧ managed xv6 f ∧ places k f = 0 := by
  obtain ⟨k0, k, f, h1, h2, h3, h4, -⟩ := longArgument_run xv6 (by decide)
  exact ⟨k0, k, f, h1, h2, h3, h4⟩

end Xv6Clock
