/-
  File:      Xv6Clock/LogRoom.lean
  Subject:   Does the log have room for the operations that `begin_op` admits?

  `begin_op` reserves MAXOPBLOCKS entries for each operation, out of LOGSIZE. mkfs makes a log of
  LOGSIZE blocks, and one of them is the header: `log_write` panics at LOGSIZE - 1 entries. Three
  operations that use their full share reach that. With one block less for each they do not: the
  share that an operation leaves over when it ends is at least the entry that is missing.
-/
import Xv6Clock.Log
import Mathlib.Algebra.Order.BigOperators.Group.List
import Mathlib.Algebra.Order.Group.Nat
import Mathlib.Algebra.Order.Ring.Nat

namespace Xv6Clock.Log

/-! ## 1. Operations of at most `K` blocks -/

/-- The operation logs at most `K` distinct blocks. -/
def Within (K : Nat) (s : Sys) : Act → Prop
  | .logTest op b _ => (absorb (s.used op) b).length ≤ K
  | _ => True

instance (K : Nat) (s : Sys) (a : Act) : Decidable (Within K s a) :=
  match a with
  | .logTest op b _ => inferInstanceAs (Decidable ((absorb (s.used op) b).length ≤ K))
  | .bread .. | .brelse .. | .beginOp | .logAppend _ | .endOp _ | .commit | .crash | .recover =>
    .isTrue trivial

variable {K op : Nat}

theorem Within.mono {L : Nat} (h : K ≤ L) {s : Sys} {a : Act} (hw : Within K s a) :
    Within L s a := by
  cases a with
  | logTest op b x => exact Nat.le_trans hw h
  | _ => trivial

/-- **"too big a transaction" is not reached** on the log made by mkfs, in any run in which each
    operation logs at most `K` distinct blocks. -/
def NeverTooBig (K : Nat) : Prop :=
  ∀ base s, Lib.Reach (fun s (a : Act) s' => step Geom.mkfs s a = some s' ∧ Within K s a)
    (Sys.start base) s →
  ∀ op b, s.idle op → (some op, b) ∈ s.held → Geom.mkfs.Home b →
    (absorb (s.used op) b).length ≤ K → s.tooBig Geom.mkfs = false

/-! ## 2. Shares -/

/-- What is left of the share of an operation. -/
def Sys.left (s : Sys) (op : Nat) : Nat := maxOpBlocks - (s.used op).length

/-- The entries in use and those that operations may still use. -/
def Sys.reserved (s : Sys) : Nat := s.lh.length + (s.active.map s.left).sum

/-- **The books of the log**: operations run only while nobody commits or recovers, and without
    them the log is empty. -/
structure Book (s : Sys) : Prop where
  out : s.outstanding = s.active.length
  busy : s.active ≠ [] → s.mode = .run
  empty : s.mode = .run ∨ s.mode = .finish → s.active = [] → s.lh = []
  nodup : s.active.Nodup
  next : ∀ op ∈ s.active, op < s.next
  used : ∀ op ∈ s.active, ∀ b ∈ s.used op, b ∈ s.lh

/-- **The shares**: no operation has used up its own, and all fit; where a single operation is
    left, there is one entry to spare. -/
structure Shares (s : Sys) : Prop where
  calls : ∀ w ∈ s.flight, w.op ∈ s.active ∧ (absorb (s.used w.op) w.block).length < maxOpBlocks
  used : ∀ op ∈ s.active, (s.used op).length < maxOpBlocks
  fits : s.active ≠ [] → s.reserved ≤ logSize
  single : s.active.length = 1 → s.reserved < logSize

variable {s s' : Sys}

theorem Sys.reserved_erase (hop : op ∈ s.active) :
    s.reserved = s.lh.length + s.left op + ((s.active.erase op).map s.left).sum := by
  unfold Sys.reserved
  rw [← List.sum_map_erase s.left hop]
  omega

/-- With two operations or more, two entries are still reserved. -/
theorem Shares.two_left (h : Shares s) (h2 : 2 ≤ s.active.length) :
    s.lh.length + 2 ≤ s.reserved := by
  have hlen : s.active.length ≤ (s.active.map s.left).sum := by
    rw [← List.length_map (f := s.left)]
    refine List.length_le_sum_of_one_le _ fun i hi => ?_
    obtain ⟨op, hop, rfl⟩ := List.mem_map.mp hi
    have := h.used op hop
    unfold Sys.left
    omega
  unfold Sys.reserved
  omega

/-- **While an operation runs, two entries are free.** -/
theorem Shares.room (h : Shares s) (hop : op ∈ s.active) : s.lh.length + 2 ≤ logSize := by
  have hpos : 0 < s.active.length := List.length_pos_of_mem hop
  by_cases h1 : s.active.length = 1
  · have hr := h.single h1
    rw [Sys.reserved_erase hop] at hr
    have hu := h.used op hop
    unfold Sys.left at hr
    omega
  · exact Nat.le_trans (h.two_left (by omega)) (h.fits (List.ne_nil_of_mem hop))

/-! ## 3. Steps -/

/-- Without operations there is nothing to book. -/
theorem Book.quiet (hout : s'.outstanding = 0) (hact : s'.active = [])
    (hlh : s'.mode = .run ∨ s'.mode = .finish → s'.lh = []) : Book s' where
  out := by rw [hout, hact]; rfl
  busy h := absurd hact h
  empty hm _ := hlh hm
  nodup := hact ▸ .nil
  next op hop := by rw [hact] at hop; cases hop
  used op hop := by rw [hact] at hop; cases hop

theorem Shares.quiet (hact : s'.active = []) (hf : s'.flight = []) : Shares s' where
  calls w hw := by rw [hf] at hw; cases hw
  used op hop := by rw [hact] at hop; cases hop
  fits h := absurd hact h
  single h := by
    rw [hact] at h
    cases h

theorem Shares.no_flight (h : Shares s) (hact : s.active = []) : s.flight = [] :=
  List.eq_nil_iff_forall_not_mem.mpr fun w hw => by
    have := (h.calls w hw).1
    rw [hact] at this
    cases this

variable {g : Geom}

/-- A new operation has used nothing, and the others are not touched. -/
theorem Book.used_begin (h : Book s) (hop : op ∈ s.active) :
    Function.update s.used s.next [] op = s.used op :=
  Function.update_of_ne (Nat.ne_of_lt (h.next op hop)) _ _

theorem beginOp_book (h : Book s) (hs : beginOp s = some s') : Book s' := by
  obtain ⟨-, hm, rfl⟩ := beginOp_spec hs
  refine ⟨by simp [h.out], fun _ => hm, fun _ hc => (nomatch hc), ?_, fun op hop => ?_,
    fun op hop b hb => ?_⟩
  · exact List.nodup_cons.mpr ⟨fun hc => absurd (h.next _ hc) (Nat.lt_irrefl _), h.nodup⟩
  · rcases List.mem_cons.mp hop with rfl | h1
    · exact Nat.lt_succ_self _
    · exact Nat.lt_succ_of_lt (h.next op h1)
  · change b ∈ Function.update s.used s.next [] op at hb
    rcases List.mem_cons.mp hop with rfl | h1
    · rw [Function.update_self] at hb
      cases hb
    · rw [h.used_begin h1] at hb
      exact h.used op h1 b hb

theorem beginOp_shares (hb : Book s) (h : Shares s) (hs : beginOp s = some s') : Shares s' := by
  obtain ⟨hfit, hm, rfl⟩ := beginOp_spec hs
  obtain ⟨f, hf⟩ : ∃ f, f = Function.update s.used s.next [] := ⟨_, rfl⟩
  have hold : ∀ op ∈ s.active, f op = s.used op := fun op hop => hf ▸ hb.used_begin hop
  have hnew : f s.next = [] := by rw [hf, Function.update_self]
  -- each share is at most MAXOPBLOCKS, and the test counted that much for each
  have hsum : ((s.next :: s.active).map fun op => maxOpBlocks - (f op).length).sum ≤
      (s.outstanding + 1) * maxOpBlocks := by
    rw [hb.out, ← List.length_cons (a := s.next), ← List.length_map
      (f := fun op => maxOpBlocks - (f op).length)]
    refine List.sum_le_card_nsmul _ _ fun x hx => ?_
    obtain ⟨op, -, rfl⟩ := List.mem_map.mp hx
    exact Nat.sub_le _ _
  refine ⟨fun w hw => ?_, fun op hop => ?_, fun _ => ?_, fun h1 => ?_⟩
  · obtain ⟨h1, h2⟩ := h.calls w hw
    refine ⟨List.mem_cons_of_mem _ h1, ?_⟩
    change (absorb (Function.update s.used s.next [] w.op) w.block).length < _
    rw [hb.used_begin h1]
    exact h2
  · change (Function.update s.used s.next [] op).length < _
    rw [← hf]
    rcases List.mem_cons.mp hop with rfl | h1
    · rw [hnew]
      decide
    · rw [hold op h1]
      exact h.used op h1
  · change s.lh.length + ((s.next :: s.active).map fun op => maxOpBlocks -
      (Function.update s.used s.next [] op).length).sum ≤ logSize
    rw [← hf]
    omega
  · -- the first operation of a group finds the log empty
    have hnone : s.active = [] := List.length_eq_zero_iff.mp (by simpa using h1)
    change s.lh.length + ((s.next :: s.active).map fun op => maxOpBlocks -
      (Function.update s.used s.next [] op).length).sum < logSize
    rw [hb.empty (.inl hm) hnone, hnone, ← hf, List.map_singleton, hnew]
    decide

theorem logAppend_book (h : Book s) (hsh : Shares s) (hs : logAppend s op = some s') : Book s' := by
  obtain ⟨w, hw, rfl, rfl⟩ := logAppend_spec hs
  have hne : s.active ≠ [] := List.ne_nil_of_mem (hsh.calls w hw).1
  refine ⟨h.out, h.busy, fun _ hc => absurd hc hne, h.nodup, h.next, fun o ho b hb => ?_⟩
  change b ∈ Function.update s.used w.op (absorb (s.used w.op) w.block) o at hb
  refine mem_absorb.mpr ?_
  by_cases heq : o = w.op
  · rw [heq, Function.update_self] at hb
    exact (mem_absorb.mp hb).imp (h.used w.op (hsh.calls w hw).1 b) id
  · rw [Function.update_of_ne heq] at hb
    exact .inl (h.used o ho b hb)

/-- **A new entry is paid from the share of its operation.** -/
theorem append_paid (h : Book s) {b : Nat} (hop : op ∈ s.active)
    (hlt : (absorb (s.used op) b).length < maxOpBlocks) :
    (absorb s.lh b).length + (maxOpBlocks - (absorb (s.used op) b).length) ≤
      s.lh.length + (maxOpBlocks - (s.used op).length) := by
  rcases length_absorb s.lh b with ⟨h1, -⟩ | ⟨h1, h2⟩ <;>
    rcases length_absorb (s.used op) b with ⟨h3, h4⟩ | ⟨h3, -⟩
  · omega
  · omega
  · exact absurd (h.used op hop b h4) h2
  · omega

theorem logAppend_shares (hb : Book s) (h : Shares s) (hs : logAppend s op = some s') :
    Shares s' := by
  obtain ⟨w, hw, rfl, rfl⟩ := logAppend_spec hs
  obtain ⟨hact, hlt⟩ := h.calls w hw
  have hother : ∀ o, o ≠ w.op →
      Function.update s.used w.op (absorb (s.used w.op) w.block) o = s.used o :=
    fun o ho => Function.update_of_ne ho _ _
  have hself : Function.update s.used w.op (absorb (s.used w.op) w.block) w.op =
      absorb (s.used w.op) w.block := Function.update_self ..
  have hres : (absorb s.lh w.block).length + (s.active.map fun o => maxOpBlocks -
      (Function.update s.used w.op (absorb (s.used w.op) w.block) o).length).sum ≤ s.reserved := by
    have hpaid := append_paid hb hact hlt
    have hrest : ((s.active.erase w.op).map fun o => maxOpBlocks -
        (Function.update s.used w.op (absorb (s.used w.op) w.block) o).length) =
        (s.active.erase w.op).map s.left :=
      List.map_congr_left fun o ho => by
        rw [hother o (hb.nodup.mem_erase_iff.mp ho).1]
        rfl
    rw [Sys.reserved_erase hact, ← List.sum_map_erase _ hact, hrest, hself]
    change _ ≤ s.lh.length + (maxOpBlocks - (s.used w.op).length) + _
    omega
  refine ⟨fun v hv => ?_, fun o ho => ?_, fun hne => Nat.le_trans hres (h.fits hne),
    fun h1 => Nat.lt_of_le_of_lt hres (h.single h1)⟩
  · have hop : v.op ≠ w.op := of_decide_eq_true (List.mem_filter.mp hv).2
    change _ ∧ (absorb (Function.update s.used w.op _ v.op) v.block).length < _
    rw [hother v.op hop]
    exact h.calls v (List.mem_filter.mp hv).1
  · change (Function.update s.used w.op _ o).length < _
    by_cases heq : o = w.op
    · rw [heq, hself]
      exact hlt
    · rw [hother o heq]
      exact h.used o ho

theorem endOp_book (h : Book s) (hs : endOp s op = some s') : Book s' := by
  obtain ⟨hidle, -, hact, hout, hlh, hused, -, hnext, hmode⟩ := endOp_spec hs
  have hop := (idle_iff.mp hidle).1
  have hlen := List.length_erase_of_mem hop
  have hsub : ∀ o ∈ s'.active, o ∈ s.active := fun o ho =>
    List.mem_of_mem_erase (hact ▸ ho)
  have hout' : s'.outstanding = s'.active.length := by
    rw [hout, hact, hlen, h.out]
  refine ⟨hout', fun hne => ?_, fun hm hnone => ?_, hact ▸ h.nodup.erase op, fun o ho => ?_,
    fun o ho b hb => ?_⟩
  · have hpos := List.length_pos_iff.mpr hne
    rcases hmode with ⟨h0, -⟩ | ⟨-, hm⟩
    · omega
    · exact hm.trans (h.busy (List.ne_nil_of_mem hop))
  · rw [hlh]
    rw [hnone] at hout'
    rcases hmode with ⟨-, ⟨-, he⟩ | hw⟩ | ⟨h0, -⟩
    · exact he
    · rw [hw] at hm
      rcases hm with hm | hm <;> cases hm
    · exact absurd (hout.symm.trans hout') h0
  · rw [hnext]
    exact h.next o (hsub o ho)
  · rw [hlh]
    exact h.used o (hsub o ho) b (hused ▸ hb)

/-- **An operation that ends leaves at least one entry of its share.** -/
theorem endOp_shares (h : Shares s) (hs : endOp s op = some s') : Shares s' := by
  obtain ⟨hidle, -, hact, -, hlh, hused, hflight, -, -⟩ := endOp_spec hs
  obtain ⟨hop, hfree⟩ := idle_iff.mp hidle
  have hres : s'.reserved < s.reserved := by
    have hl : s'.left = s.left := by
      funext o
      unfold Sys.left
      rw [hused]
    have hu := h.used op hop
    rw [Sys.reserved_erase hop]
    unfold Sys.reserved
    rw [hact, hlh, hl]
    have : 0 < s.left op := by
      unfold Sys.left
      omega
    omega
  have hfits := h.fits (List.ne_nil_of_mem hop)
  refine ⟨fun w hw => ?_, fun o ho => ?_, fun _ => ?_, fun _ => ?_⟩
  · rw [hflight] at hw
    rw [hact, hused]
    exact ⟨(List.mem_erase_of_ne (hfree w hw)).mpr (h.calls w hw).1, (h.calls w hw).2⟩
  · rw [hused]
    exact h.used o (List.mem_of_mem_erase (hact ▸ ho))
  · omega
  · omega

/-- A commit runs without operations. -/
theorem commit_quiet (hb : Book s) (h : Shares s) (hs : commit g s = some s') :
    Book s' ∧ Shares s' := by
  have hact : s.active = [] := by
    by_contra hne
    unfold commit at hs
    rw [hb.busy hne] at hs
    cases hs
  have hout : s.outstanding = 0 := by rw [hb.out, hact]; rfl
  have hf := h.no_flight hact
  refine ⟨?_, ?_⟩
  · cases commit_cases hs with
    | write | keep | install => exact .quiet hout hact fun hm => hm.elim nofun nofun
    | clear => exact .quiet hout hact fun _ => rfl
    | finish hm => exact .quiet hout hact fun _ => hb.empty (.inr hm) hact
  · cases commit_cases hs <;> exact .quiet hact hf

/-- So does a recovery. -/
theorem recover_quiet (hb : Book s) (h : Shares s) (hs : recover g s = some s') :
    Book s' ∧ Shares s' := by
  have hact : s.active = [] := by
    by_contra hne
    unfold recover at hs
    rw [hb.busy hne] at hs
    cases hs
  have hout : s.outstanding = 0 := by rw [hb.out, hact]; rfl
  have hf := h.no_flight hact
  refine ⟨?_, ?_⟩
  · cases recover_cases hs with
    | head | install => exact .quiet hout hact fun hm => hm.elim nofun nofun
    | clear => exact .quiet hout hact fun _ => rfl
  · cases recover_cases hs <;> exact .quiet hact hf

/-- Which buffers are in use does not matter. -/
theorem Shares.same {c : Bio.Cache Blk} (h : Book s ∧ Shares s) :
    Book { s with toCache := c } ∧ Shares { s with toCache := c } :=
  ⟨⟨h.1.out, h.1.busy, h.1.empty, h.1.nodup, h.1.next, h.1.used⟩,
    h.2.calls, h.2.used, h.2.fits, h.2.single⟩

theorem step_shares (hK : K < maxOpBlocks) {a : Act} (h : Book s ∧ Shares s) (hw : Within K s a)
    (hs : step g s a = some s') : Book s' ∧ Shares s' := by
  obtain ⟨hb, hsh⟩ := h
  cases a with
  | bread p b =>
    change breadBy s p b = some s' at hs
    unfold breadBy at hs
    split at hs
    · cases hs
    · obtain ⟨c, -, rfl⟩ := Option.map_eq_some_iff.mp hs
      exact Shares.same ⟨hb, hsh⟩
  | brelse p b =>
    change brelseBy s p b = some s' at hs
    unfold brelseBy at hs
    split at hs
    · cases hs
      exact Shares.same ⟨hb, hsh⟩
    · cases hs
  | beginOp => exact ⟨beginOp_book hb hs, beginOp_shares hb hsh hs⟩
  | logTest op b x =>
    obtain ⟨hop, -, -, rfl⟩ := logTest_spec hs
    refine ⟨⟨hb.out, hb.busy, hb.empty, hb.nodup, hb.next, hb.used⟩,
      fun w hw' => ?_, hsh.used, hsh.fits, hsh.single⟩
    rcases List.mem_cons.mp hw' with rfl | h1
    · exact ⟨hop, Nat.lt_of_le_of_lt hw hK⟩
    · exact hsh.calls w h1
  | logAppend op => exact ⟨logAppend_book hb hsh hs, logAppend_shares hb hsh hs⟩
  | endOp op => exact ⟨endOp_book hb hs, endOp_shares hsh hs⟩
  | commit => exact commit_quiet hb hsh hs
  | crash =>
    cases hs
    exact ⟨.quiet rfl rfl fun _ => rfl, .quiet rfl rfl⟩
  | recover => exact recover_quiet hb hsh hs

/-! ## 4. The log made by mkfs -/

theorem neverTooBig_of_lt (hK : K < maxOpBlocks) : NeverTooBig K := by
  intro base s hs op b hidle _ _ _
  have hinv : Book s ∧ Shares s :=
    hs.inv ⟨.quiet rfl rfl fun _ => rfl, .quiet rfl rfl⟩ fun h hst => step_shares hK h hst.2 hst.1
  have hroom := hinv.2.room (idle_iff.mp hidle).1
  unfold Sys.tooBig
  rw [Bool.or_eq_false_iff, decide_eq_false_iff_not, decide_eq_false_iff_not]
  change ¬ logSize ≤ s.lh.length ∧ ¬ logSize ≤ s.lh.length + 1
  omega

/-- Boot, then three operations that log 10, 10 and 9 blocks; the third has read one more. -/
def fullShares : List Act :=
  [.recover, .recover, .beginOp, .beginOp, .beginOp] ++
    (List.range 10).flatMap (fun i => logged 0 (100 + i)) ++
    (List.range 10).flatMap (fun i => logged 1 (110 + i)) ++
    (List.range 9).flatMap (fun i => logged 2 (120 + i)) ++ [.bread 2 129]

theorem fullShares_run :
    (Lib.exec (fun s a => if Within maxOpBlocks s a then step Geom.mkfs s a else none)
      (Sys.start blank) fullShares).map (fun s =>
        (s.idle 2, s.held.contains (some 2, 129), (absorb (s.used 2) 129).length,
          s.tooBig Geom.mkfs)) = some (true, true, maxOpBlocks, true) := by
  decide +kernel

/-- **The third operation panics at its tenth block.** -/
theorem not_neverTooBig (hK : maxOpBlocks ≤ K) : ¬ NeverTooBig K := by
  obtain ⟨s, hs, hrun⟩ := Option.map_eq_some_iff.mp fullShares_run
  simp only [Prod.mk.injEq] at hrun
  obtain ⟨hidle, hheld, hlen, hbig⟩ := hrun
  intro h
  have hreach : Lib.Reach (fun s (a : Act) s' => step Geom.mkfs s a = some s' ∧ Within K s a)
      (Sys.start blank) s := by
    refine .exec (fun hst => ?_) .start hs
    split at hst
    · rename_i hw
      exact ⟨_, hst, hw.mono hK⟩
    · cases hst
  have hnot := h blank s hreach 2 129 hidle (List.contains_iff_mem.mp hheld) (by decide) (hlen ▸ hK)
  rw [hbig] at hnot
  cases hnot

/-- **The log is never too small exactly if operations log less than MAXOPBLOCKS blocks.** -/
theorem neverTooBig_iff (K : Nat) : NeverTooBig K ↔ K < maxOpBlocks :=
  ⟨fun h => Nat.lt_of_not_le fun hK => not_neverTooBig hK h, neverTooBig_of_lt⟩

/-- Three operations within the MAXOPBLOCKS blocks that `begin_op` reserves for each. -/
theorem neverTooBig_maxOpBlocks_fails : ¬ NeverTooBig maxOpBlocks :=
  not_neverTooBig (Nat.le_refl maxOpBlocks)

end Xv6Clock.Log
