/-
  File:      Xv6Clock/Follow.lean
  Subject:   Runs seen from one process: it accesses memory and calls mencrypt, sbrk and fork;
             across a fork the parent or the child is followed. Other processes do what they like.

  `Follows.inv` turns a property of address space and queue that the followed process keeps into
  one that holds in every state of such a run.
-/
import Xv6Clock.Steps

namespace Xv6Clock

variable (cfg : Config)

/-! ## 1. Runs of one process -/

/-- User accesses, `mencrypt`, `sbrk` and `fork`. -/
def UserOp : Op → Prop
  | .mem (.exec _ _ _) => False
  | .mem _ => True
  | .fork => True
  | _ => False

/-- **The states of a run that follows a process**, from entry `i0` of `k0`: its own operations
    meet `Ok`, and a fork that is followed into the child meets `ChildOk`. -/
inductive Follows (Ok : Kmem → Proc → Op → Prop) (ChildOk : Proc → Prop) (k0 : Kernel) (i0 : Nat) :
    Kernel → Nat → Prop where
  | start : Follows Ok ChildOk k0 i0 k0 i0
  | own {k k' : Kernel} {i fuel : Nat} {op : Op} {o : Out} (h : Follows Ok ChildOk k0 i0 k i)
      (hop : UserOp op) (hok : Ok k.kmem (k.proc i) op)
      (hs : step cfg fuel k i op = .ok (o, k')) : Follows Ok ChildOk k0 i0 k' i
  | child {k k' : Kernel} {i j fuel : Nat} {o : Out} (h : Follows Ok ChildOk k0 i0 k i)
      (hok : ChildOk (k.proc i)) (hs : step cfg fuel k i .fork = .ok (o, k'))
      (hj : (k.proc j).state = .unused) (hr : (k'.proc j).state = .runnable) :
      Follows Ok ChildOk k0 i0 k' j
  | other {k k' : Kernel} {i j fuel : Nat} {op : Op} {o : Out} (h : Follows Ok ChildOk k0 i0 k i)
      (hij : i ≠ j) (hi : (k.proc i).state = .runnable)
      (hs : step cfg fuel k j op = .ok (o, k')) : Follows Ok ChildOk k0 i0 k' i

/-- What the process followed keeps, for a property of address space and queue. -/
structure FollowInv (Ok : Kmem → Proc → Op → Prop) (ChildOk : Proc → Prop) (I : Proc → Prop) :
    Prop where
  image : ∀ {p p' : Proc}, SameImage p p' → I p → I p'
  mem : ∀ {m m' : Kmem} {p p' : Proc} {fuel : Nat} {op : MemOp} {o : Out}, UserOp (.mem op) →
    Ok m p (.mem op) → I p → memStep cfg fuel m p op = .ok (o, m', p') → I p'
  low : ∀ {p : Proc}, I p → Sane p ∧ QueueLow p
  child : ∀ {p p' : Proc} {m m' : Kmem} {d : PgDir} {nodes : Nat → Nat}, ChildOk p → I p →
    Copied m m' p.pgdir d (pages p.sz) → p'.pgdir = d → p'.sz = p.sz →
    p'.q = ⟨fun j => if j < p.q.inClock then p.q.nodes j else nodes j, p.q.inClock,
      toI (p.q.currInd + 3)⟩ → I p'

section
variable {cfg} {Ok : Kmem → Proc → Op → Prop} {ChildOk : Proc → Prop} {I : Proc → Prop}
  (hI : FollowInv cfg Ok ChildOk I)
include hI

theorem FollowInv.own {k k' : Kernel} {i fuel : Nat} {op : Op} {o : Out} (hop : UserOp op)
    (hok : Ok k.kmem (k.proc i) op) (hp : I (k.proc i)) (hs : step cfg fuel k i op = .ok (o, k')) :
    I (k'.proc i) := by
  obtain ⟨-, hrun, hst⟩ := step_cases cfg hs
  cases hst with
  | mem hout h1 =>
    rw [Kernel.setProc_self]
    exact hI.mem hop hok hp h1
  | killed h1 he =>
    refine hI.image (he.image i) ?_
    rw [Kernel.setProc_self]
    exact hI.mem hop hok hp h1
  | fork h1 =>
    have hne : ∀ {l : Nat}, (k.proc l).state = .unused → i ≠ l := by
      rintro l hl rfl
      rw [hrun] at hl
      cases hl
    cases h1 with
    | full => exact hp
    | noStack hl =>
      simp only [Function.update_of_ne (hne hl)]
      exact hp
    | noCopy hl =>
      simp only [Function.update_of_ne (hne hl)]
      exact hp
    | child hn hl hf hc hx hd =>
      obtain ⟨hs1, hl1⟩ := hI.low hp
      obtain ⟨-, rfl⟩ := forkNodes_low cfg hs1.size hl1 hc hx
      simp only [Function.update_of_ne (hne hl), Function.update_self]
      exact hp
  | exit _ => cases hop
  | wait _ => cases hop
  | pipe _ => cases hop
  | close _ => cases hop

/-- The child of a fork, as found in the table. -/
theorem FollowInv.forked {k k' : Kernel} {i j fuel : Nat} {o : Out} (hok : ChildOk (k.proc i))
    (hp : I (k.proc i)) (hs : step cfg fuel k i .fork = .ok (o, k'))
    (hj : (k.proc j).state = .unused) (hr : (k'.proc j).state = .runnable) : I (k'.proc j) := by
  obtain ⟨-, hrun, hst⟩ := step_cases cfg hs
  cases hst with
  | fork h1 =>
    obtain ⟨hs1, hl1⟩ := hI.low hp
    obtain ⟨f, m1, d, hb⟩ := h1.born cfg hrun hs1.size hl1 hj hr
    exact hI.child hok hp hb.copied hb.pgdir hb.size hb.queue

/-- **Along every run that follows the process the property holds.** -/
theorem Follows.inv {k0 k : Kernel} {i0 i : Nat} (h0 : I (k0.proc i0))
    (h : Follows cfg Ok ChildOk k0 i0 k i) : I (k.proc i) := by
  induction h with
  | start => exact h0
  | own _ hop hok hs ih => exact hI.own hop hok ih hs
  | child _ hok hs hj hr ih => exact hI.forked hok ih hs hj hr
  | other _ hij hi hs ih =>
    obtain ⟨-, -, hst⟩ := step_cases cfg hs
    exact hI.image (hst.other cfg hij hi).1 ih

end

/-! ## 2. A fresh process

The state exec leaves for an image of `n` pages, with two free frames and no other process. -/

/-- `n` encrypted pages, and page-table pages for the devices. -/
def freshDir (n : Nat) : PgDir where
  frame := 0x2000
  pde d :=
    if d = 0 then some ⟨0x2001, fun j => if j < n then
      frameAddr (BitVec.ofNat 20 (0x3000 + j)) ||| (pteW ||| pteU ||| pteE) else 0#32⟩
    else if 1016 ≤ d then some ⟨BitVec.ofNat 20 (0x2002 + d), fun _ => 0#32⟩ else none

def freshProc (n : Nat) : Proc :=
  { Proc.zero with sz := n * 4096, pgdir := freshDir n, state := .runnable, pid := 2 }

def freshKernel (n : Nat) : Kernel where
  kmem := ⟨[0x4000, 0x4001], fun _ => fill 0x55, false⟩
  proc i := if i = 0 then freshProc n else Proc.zero
  nextpid := 3
  initproc := 1
  kpgdir := ⟨0, fun _ => none⟩
  cpuStacks := []
  files := ⟨fun _ => ⟨0, none, false, false⟩, fun _ => none⟩

theorem freshDir_pteAt (n u : Nat) (hn : n ≤ 1024) : (freshDir n).pteAt u = if u < n then
    frameAddr (BitVec.ofNat 20 (0x3000 + u)) ||| (pteW ||| pteU ||| pteE) else 0#32 := by
  unfold PgDir.pteAt freshDir
  simp only
  by_cases h0 : u / 1024 = 0
  · rw [if_pos h0]
    simp only [show u % 1024 = u by omega]
  · rw [if_neg h0, if_neg (show ¬ u < n by omega)]
    by_cases h1 : 1016 ≤ u / 1024
    · rw [if_pos h1]
    · rw [if_neg h1]

theorem freshDir_has (n u : Nat) (hn : n ≤ 1024) {x : Word} (hx : IsFlags x) :
    has ((freshDir n).pteAt u) x = (decide (u < n) && has (pteW ||| pteU ||| pteE) x) := by
  rw [freshDir_pteAt n u hn]
  by_cases hu : u < n
  · rw [if_pos hu, has_or, has_frameAddr _ hx, Bool.false_or, decide_eq_true hu, Bool.true_and]
  · rw [if_neg hu, has_zero, decide_eq_false hu, Bool.false_and]

/-- The frame of page `j` of a fresh process. -/
theorem freshDir_pteHolds {n j : Nat} {f : Frame} (hj : j < 1024)
    (h : 0 < pteHolds (if j < n then
      frameAddr (BitVec.ofNat 20 (0x3000 + j)) ||| (pteW ||| pteU ||| pteE) else 0#32) f) :
    f.toNat = 0x3000 + j := by
  split at h
  · unfold pteHolds at h
    split at h
    · rw [← one_pos h, pteFrame_or _ (by decide), pteFrame_frameAddr, BitVec.toNat_ofNat]
      omega
    · omega
  · rw [pteHolds_unmapped mapped_zero] at h
    omega

/-- The frames of page-table page `d` of a fresh process. -/
theorem freshDir_tabHolds (n d : Nat) (f : Frame) (hd : d < 1024) :
    tabHolds f d ((freshDir n).pde d) ≤ 1 ∧ (0 < tabHolds f d ((freshDir n).pde d) →
      d = 0 ∧ 0x3000 ≤ f.toNat ∧ f.toNat < 0x3400 ∨
        f.toNat = if d = 0 then 0x2001 else 0x2002 + d) := by
  unfold freshDir
  dsimp only
  by_cases h0 : d = 0
  · rw [if_pos h0, if_pos h0, tabHolds_some, if_pos (by omega)]
    dsimp only
    have hsum := Lib.sum_le_one (fun j => pteHolds (if j < n then
      frameAddr (BitVec.ofNat 20 (0x3000 + j)) ||| (pteW ||| pteU ||| pteE) else 0#32) f)
      (fun j _ => pteHolds_le _ f) (n := 1024)
      fun i j hi hj h1 h2 => by
        have e1 := freshDir_pteHolds hi h1
        have e2 := freshDir_pteHolds hj h2
        omega
    by_cases hf : (0x2001 : Frame) = f
    · -- its own frame is no page
      subst hf
      have hz : ∑ j ∈ Finset.range 1024, pteHolds (if j < n then
          frameAddr (BitVec.ofNat 20 (0x3000 + j)) ||| (pteW ||| pteU ||| pteE) else 0#32)
          (0x2001 : Frame) = 0 := Finset.sum_eq_zero fun j hj => by
        by_contra hne
        have e := freshDir_pteHolds (Finset.mem_range.mp hj) (Nat.pos_of_ne_zero hne)
        change 0x2001 = 0x3000 + j at e
        omega
      rw [hz, one_self]
      exact ⟨Nat.le_refl 1, fun _ => .inr rfl⟩
    · rw [one, if_neg hf, Nat.zero_add]
      refine ⟨hsum, fun hpos => .inl ⟨h0, ?_⟩⟩
      obtain ⟨j, hj, h1⟩ := Lib.exists_of_sum_pos _ hpos
      have e := freshDir_pteHolds hj h1
      omega
  · rw [if_neg h0, if_neg h0]
    by_cases h1 : 1016 ≤ d
    · rw [if_pos h1, tabHolds_some, if_neg (by omega), Nat.add_zero]
      refine ⟨one_le _ _, fun hpos => .inr ?_⟩
      rw [← one_pos hpos]
      change (BitVec.ofNat 20 (0x2002 + d)).toNat = _
      rw [BitVec.toNat_ofNat]
      omega
    · rw [if_neg h1, tabHolds_none]
      exact ⟨Nat.zero_le 1, fun hpos => absurd hpos (by decide)⟩

/-- No frame of a fresh process is used twice. -/
theorem freshDir_once (n : Nat) (f : Frame) : (freshDir n).holds f ≤ 1 := by
  have hsum := Lib.sum_le_one (fun d => tabHolds f d ((freshDir n).pde d)) (n := 1024)
    (fun d hd => (freshDir_tabHolds n d f hd).1) fun i j hi hj h1 h2 => by
      have e1 := (freshDir_tabHolds n i f hi).2 h1
      have e2 := (freshDir_tabHolds n j f hj).2 h2
      split at e1 <;> split at e2 <;> omega
  unfold PgDir.holds
  by_cases hf : (0x2000 : Frame) = f
  · -- the directory is in none of its tables
    have hz : ∑ d ∈ Finset.range 1024, tabHolds f d ((freshDir n).pde d) = 0 :=
      Finset.sum_eq_zero fun d hd => by
        by_contra hne
        have e := (freshDir_tabHolds n d f (Finset.mem_range.mp hd)).2 (Nat.pos_of_ne_zero hne)
        rw [← hf] at e
        change d = 0 ∧ 0x3000 ≤ 0x2000 ∧ _ ∨ 0x2000 = _ at e
        split at e <;> omega
    rw [hz, Nat.add_zero]
    exact one_le _ _
  · change one 0x2000 f + _ ≤ 1
    rw [one, if_neg hf, Nat.zero_add]
    exact hsum

/-- Where the frames of a fresh process are. -/
theorem freshDir_frame {n : Nat} {f : Frame} (h : 0 < (freshDir n).holds f) :
    0x2000 ≤ f.toNat ∧ f.toNat < 0x3400 := by
  unfold PgDir.holds at h
  rcases Nat.add_pos_iff_pos_or_pos.mp h with h1 | h1
  · rw [← show (0x2000 : Frame) = f from one_pos h1]
    decide
  · obtain ⟨d, hd, h2⟩ := Lib.exists_of_sum_pos _ h1
    have e := (freshDir_tabHolds n d f hd).2 h2
    split at e <;> omega

/-- Beside free frames that are others. -/
theorem freshDir_one {n : Nat} {m : Kmem} (hn : m.freelist.Nodup)
    (hf : ∀ f ∈ m.freelist, 0x3400 ≤ f.toNat) (f : Frame) :
    m.free f + (freshDir n).holds f ≤ 1 := by
  have h1 := freshDir_once n f
  have h2 : m.free f ≤ 1 := List.nodup_iff_count_le_one.mp hn f
  by_contra hc
  have hfree := hf f (List.count_pos_iff.mp (show 0 < m.free f by omega))
  have := (freshDir_frame (n := n) (f := f) (by omega)).2
  omega

theorem freshKernel_one (n : Nat) (f : Frame) :
    (freshKernel n).kmem.free f + (freshProc n).pgdir.holds f ≤ 1 := by
  refine freshDir_one (m := (freshKernel n).kmem) ?_ (fun g hg => ?_) f
  · change [(0x4000 : Frame), 0x4001].Nodup
    decide
  · change g ∈ [(0x4000 : Frame), 0x4001] at hg
    rcases List.mem_pair.mp hg with rfl | rfl <;> decide

theorem freshProc_fresh (n : Nat) (hn : n ≤ 1024) : ExecFresh (freshProc n) := by
  have hpg : pages (n * 4096) = n := by
    unfold pages
    omega
  have hhigh : KernHigh (freshDir n) := by
    intro u hu
    rw [freshDir_has n u hn (by decide), freshDir_has n u hn (by decide),
      decide_eq_false (show ¬ u < n by omega)]
    exact ⟨rfl, rfl⟩
  refine ⟨⟨hhigh, ?_⟩, ⟨fun u hu => ?_, fun u h1 h2 => ?_, fun u hu => ?_, hhigh,
    fun u h1 h2 => ?_⟩, fun u => ?_, rfl, rfl⟩
  · simp only [freshProc, kernBase]
    omega
  · change u < pages (n * 4096) at hu
    rw [hpg] at hu
    simp only [freshProc]
    rw [freshDir_has n u hn (by decide), freshDir_has n u hn (by decide),
      freshDir_has n u hn (by decide), decide_eq_true hu]
    decide
  · change pages (n * 4096) ≤ u at h1
    rw [hpg] at h1
    exact (freshDir_pteAt n u hn).trans (if_neg (by omega))
  · simp only [freshProc] at hu ⊢
    rw [freshDir_has n u hn (by decide), Bool.and_eq_true] at hu
    rw [freshDir_has n u hn (by decide), hu.1]
    decide
  · simp only [freshProc, freshDir, PgDir.tabAt]
    rw [if_neg (by omega), if_pos (by omega)]
    rfl
  · simp only [freshProc, plain]
    rw [freshDir_has n u hn (by decide), freshDir_has n u hn (by decide),
      freshDir_has n u hn (by decide)]
    cases decide (u < n) <;> decide

end Xv6Clock
