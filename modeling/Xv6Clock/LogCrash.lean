/-
  File:      Xv6Clock/LogCrash.lean
  Subject:   Crash atomicity of the log.

  In each phase of a commit and of a recovery the disk holds enough to get the home blocks after
  the groups kept: until the header is written nothing but slots of the log has changed, and from
  then on every block of the group has its contents in its slot. This rests on the group fitting
  into the log. `log_write` tests for that before it takes the lock, so two processes can pass the
  test for the last entry; what keeps the commit within the log is the buffer cache. Every block of
  the group is in a buffer that nobody can recycle, and the first round of `write_log` needs one
  buffer more: a group of NBUF blocks panics there, before anything is written.
-/
import Xv6Clock.Log

namespace Xv6Clock.Log

variable (g : Geom)

/-! ## 1. The phases -/

variable {c : Bio.Cache Blk} {kept : List (List Write)} {op : Nat}

section Phases

variable (base : Nat → Blk)

/-- The log on disk is empty, and the home blocks are those after the groups kept. -/
structure Clean (d : Nat → Blk) (kept : List (List Write)) : Prop where
  head : (d g.start).head = []
  home : ∀ b, g.Home b → d b = applyAll base kept b

/-- **What a recovery makes of the disk**: the home blocks after the groups kept. -/
structure Sound (d : Nat → Blk) (kept : List (List Write)) : Prop where
  nodup : (d g.start).head.Nodup
  homes : ∀ b ∈ (d g.start).head, g.Home b
  fits : (d g.start).head = [] ∨ (d g.start).head.length + 1 ≤ g.size
  home : ∀ b, g.Home b →
    Lib.redo (fun t => d (g.slot t)) (d g.start).head 0 d b = applyAll base kept b

/-- Histories: what returned was kept, what was kept was begun, in this order; the operations of a
    group have ended. -/
structure Order (s : Sys) : Prop where
  returned : s.returned.Sublist s.kept
  kept : s.kept.Sublist s.begun
  ended : ∀ ws ∈ s.begun, ∀ w ∈ ws, w.op ∈ s.ended
  pending : ∀ w ∈ s.pending, w.op ∈ s.ended ∨ w.op ∈ s.active
  active : ∀ op ∈ s.active, op ∉ s.ended
  nodup : s.active.Nodup
  next : (∀ op ∈ s.active, op < s.next) ∧ ∀ op ∈ s.ended, op < s.next

/-- A call of `log_write` is made in an operation, for a home block whose buffer it has. -/
def Calls (s : Sys) : Prop :=
  ∀ w ∈ s.flight, w.op ∈ s.active ∧ g.Home w.block ∧ (some w.op, w.block) ∈ s.held

/-- Nobody is in an operation. -/
structure Quiet (s : Sys) : Prop where
  active : s.active = []
  pending : s.pending = []
  out : s.outstanding = 0

/-- Operations run, with disk `d` and view `v` of it. -/
structure Running (d v : Nat → Blk) (s : Sys) : Prop where
  committing : s.committing = false
  clean : Clean g base d s.kept
  view : ∀ b, g.Home b → v b = apply (applyAll base s.kept) s.pending b
  lh : Entries g s.lh s.pending
  out : s.outstanding = s.active.length

/-- `write_log` has written `t` blocks. -/
structure WritingLog (t : Nat) (d v : Nat → Blk) (s : Sys) : Prop extends Quiet s where
  clean : Clean g base d s.kept
  view : ∀ b, g.Home b → v b = apply (applyAll base s.kept) s.group b
  lh : Entries g s.lh s.group
  nonempty : s.lh ≠ []
  fits : t ≠ 0 → s.lh.length + 1 ≤ g.size
  slots : ∀ i b, i < t → s.lh[i]? = some b → d (g.slot i) = v b ∧ v (g.slot i) = v b
  last : ∃ k, s.begun = k ++ [s.group] ∧ s.kept.Sublist k

/-- `install_trans` has written `t` blocks. -/
structure Installing (t : Nat) (d v : Nat → Blk) (s : Sys) : Prop extends Quiet s where
  head : (d g.start).head = s.lh
  view : ∀ b, g.Home b → v b = applyAll base s.kept b
  lh : Entries g s.lh s.group
  fits : s.lh.length + 1 ≤ g.size
  slots : ∀ i b, s.lh[i]? = some b → d (g.slot i) = v b ∧ v (g.slot i) = v b
  home : ∀ b, g.Home b → b ∉ s.lh ∨ (∃ i, i < t ∧ s.lh[i]? = some b) →
    d b = applyAll base s.kept b
  last : ∃ k, s.kept = k ++ [s.group] ∧ s.returned.Sublist k

/-- The header is cleared. -/
structure Finishing (d v : Nat → Blk) (s : Sys) : Prop extends Quiet s where
  clean : Clean g base d s.kept
  view : ∀ b, g.Home b → v b = applyAll base s.kept b
  lh : s.lh = []
  last : ∃ k, s.kept = k ++ [s.group] ∧ s.returned.Sublist k

/-- Before `read_head` of a recovery. -/
structure Booting (d v : Nat → Blk) (s : Sys) : Prop extends Quiet s where
  sound : Sound g base d s.kept
  view : v = d
  committing : s.committing = false

/-- `install_trans` of a recovery has written `t` blocks. -/
structure Redoing (t : Nat) (d v : Nat → Blk) (s : Sys) : Prop extends Booting g base d v s where
  lh : s.lh = (d g.start).head
  home : ∀ i b, i < t → s.lh[i]? = some b → d b = applyAll base s.kept b

/-- **The phases of the machine.** -/
def Phase : Mode → (Nat → Blk) → (Nat → Blk) → Sys → Prop
  | .run => Running g base
  | .writeLog t => WritingLog g base t
  | .install t => Installing g base t
  | .finish => Finishing g base
  | .boot => Booting g base
  | .recover t => Redoing g base t

variable {g base} {s s' : Sys} {d v : Nat → Blk} {m : Mode}

/-- The phase is not a matter of the buffers. -/
theorem Phase.same (h : Phase g base m d v s) : Phase g base m d v { s with toCache := c } := by
  cases m with
  | run => exact { (h : Running g base d v s) with }
  | writeLog t => exact { (h : WritingLog g base t d v s) with }
  | install t => exact { (h : Installing g base t d v s) with }
  | finish => exact { (h : Finishing g base d v s) with }
  | boot => exact { (h : Booting g base d v s) with }
  | recover t => exact { (h : Redoing g base t d v s) with }

theorem Running.phase (h : Running g base d v s) (hm : m = .run) : Phase g base m d v s := by
  rw [hm]
  exact h

theorem Phase.quiet (h : Phase g base m d v s) (hm : m ≠ .run) : Quiet s := by
  cases m with
  | run => exact absurd rfl hm
  | writeLog t => exact WritingLog.toQuiet h
  | install t => exact Installing.toQuiet h
  | finish => exact Finishing.toQuiet h
  | boot => exact Booting.toQuiet h
  | recover t => exact (Redoing.toBooting h).toQuiet

theorem Clean.sound (h : Clean g base d kept) : Sound g base d kept := by
  refine ⟨?_, ?_, .inl h.head, fun b hb => ?_⟩
  · rw [h.head]
    exact .nil
  · rw [h.head]
    exact fun _ hb => nomatch hb
  · rw [h.head]
    exact h.home b hb

/-- Blocks of the log are not home blocks. -/
theorem home_ne_start {b : Nat} (hb : g.Home b) : b ≠ g.start := by
  have := g.pos
  unfold Geom.Home at hb
  omega

theorem home_ne_slot {b t : Nat} (hb : g.Home b) (ht : t + 1 < g.size) : b ≠ g.slot t := by
  unfold Geom.Home at hb
  unfold Geom.slot
  omega

theorem slot_ne_start (t : Nat) : g.slot t ≠ g.start := by
  unfold Geom.slot
  omega

theorem slot_inj {i j : Nat} (h : g.slot i = g.slot j) : i = j := by
  unfold Geom.slot at h
  omega

theorem lt_of_get {lh : List Nat} {t b : Nat} (h : lh[t]? = some b) : t < lh.length :=
  (List.getElem?_eq_some_iff.mp h).1

theorem Installing.sound {t : Nat} (h : Installing g base t d v s) : Sound g base d s.kept := by
  have head := h.head
  refine ⟨by rw [head]; exact h.lh.nodup, by rw [head]; exact h.lh.home,
    by rw [head]; exact .inr h.fits, fun b hb => ?_⟩
  rw [head]
  by_cases hm : b ∈ s.lh
  · obtain ⟨i, hi⟩ := List.mem_iff_getElem?.mp hm
    rw [Lib.redo_get h.lh.nodup hi, Nat.zero_add, (h.slots i b hi).1, h.view b hb]
  · rw [Lib.redo_notMem hm]
    exact h.home b hb (.inl hm)

/-- **In every phase a recovery gives the groups kept.** -/
theorem Phase.sound (h : Phase g base m d v s) : Sound g base d s.kept := by
  cases m with
  | run => exact (Running.clean h).sound
  | writeLog t => exact (WritingLog.clean h).sound
  | install t => exact Installing.sound h
  | finish => exact (Finishing.clean h).sound
  | boot => exact Booting.sound h
  | recover t => exact (Redoing.toBooting h).sound

/-! ## 2. Operations -/

/-- An operation is active only while the machine runs. -/
theorem Phase.of_active (h : Phase g base m d v s) (hop : op ∈ s.active) :
    m = .run ∧ Running g base d v s := by
  by_cases hm : m = .run
  · subst hm
    exact ⟨rfl, h⟩
  · rw [(h.quiet hm).active] at hop
    cases hop

theorem beginOp_phase (h : Phase g base s.mode d v s) (hs : beginOp s = some s') :
    Phase g base s'.mode d v s' := by
  obtain ⟨-, hrun, rfl⟩ := beginOp_spec hs
  change Phase g base s.mode d v _
  rw [hrun] at h ⊢
  obtain ⟨hc, clean, view, lh, out⟩ := h
  exact ⟨hc, clean, view, lh, by simp [out]⟩

theorem Running.logAppend (op : Nat) {w : Write} (h : Running g base d v s) (hb : g.Home w.block) :
    Running g base d (Function.update v w.block w.data) { s with
      toCache := c, lh := absorb s.lh w.block
      used := Function.update s.used op (absorb (s.used op) w.block)
      flight := s.flight.filter fun w => w.op ≠ op
      pending := s.pending ++ [w] } := by
  refine ⟨h.committing, h.clean, fun c hcb => ?_, h.lh.absorb g hb, h.out⟩
  change Function.update v w.block w.data c = apply _ (s.pending ++ [w]) c
  rw [apply_concat]
  by_cases hcb' : c = w.block
  · rw [hcb', Function.update_self, Function.update_self]
  · rw [Function.update_of_ne hcb', Function.update_of_ne hcb']
    exact h.view c hcb

theorem endOp_phase (h : Phase g base s.mode d v s) (ho : Order s) (hs : endOp s op = some s') :
    Phase g base s'.mode d v s' := by
  unfold endOp at hs
  split at hs
  · rename_i hok
    have hop := (idle_iff.mp hok.1).1
    obtain ⟨hm, hc, clean, view, lh, out⟩ := h.of_active hop
    have hlen := List.length_erase_of_mem hop
    dsimp only at hs
    split at hs
    · -- the last one: nobody is active
      rename_i h0
      have hnone : s.active.erase op = [] := List.length_eq_zero_iff.mp (by omega)
      split at hs
      · rename_i hlh
        cases hs
        have hkept : ∀ b, applyAll base (s.kept ++ [s.pending]) b = applyAll base s.kept b :=
          fun b => by
            rw [applyAll_concat]
            refine apply_notMem fun hmem => ?_
            have := (lh.mem b).mpr hmem
            rw [hlh] at this
            cases this
        refine Finishing.mk ⟨hnone, rfl, h0⟩ ⟨clean.head, fun b hb => ?_⟩ (fun b hb => ?_) hlh
          ⟨s.kept, rfl, ho.returned⟩
        · change d b = applyAll base (s.kept ++ [s.pending]) b
          rw [hkept]
          exact clean.home b hb
        · change v b = applyAll base (s.kept ++ [s.pending]) b
          rw [applyAll_concat]
          exact view b hb
      · rename_i hlh
        cases hs
        exact WritingLog.mk ⟨hnone, rfl, h0⟩ clean view lh hlh (fun hc => absurd rfl hc)
          (fun i _ hi => absurd hi (Nat.not_lt_zero i)) ⟨s.begun, rfl, ho.kept⟩
    · cases hs
      refine Running.phase ⟨hc, clean, view, lh, ?_⟩ hm
      change s.outstanding - 1 = (s.active.erase op).length
      omega
  · cases hs

/-! ## 3. Block writes of a commit -/

section Writes

variable {t b : Nat}

/-- **A round of `write_log`**, once it is known that the group fits. -/
theorem WritingLog.block (h : WritingLog g base t d v s) (hb : s.lh[t]? = some b)
    (hfit : s.lh.length + 1 ≤ g.size) :
    WritingLog g base (t + 1) (Function.update d (g.slot t) (v b))
      (Function.update v (g.slot t) (v b)) { s with toCache := c, mode := .writeLog (t + 1) } := by
  have hroom : t + 1 < g.size := by
    have := lt_of_get hb
    omega
  refine ⟨⟨h.active, h.pending, h.out⟩, ⟨?_, fun c hc => ?_⟩, fun c hc => ?_, h.lh, h.nonempty,
    fun _ => hfit, fun i c hi hc => ?_, h.last⟩
  · rw [Function.update_of_ne (slot_ne_start t).symm]
    exact h.clean.head
  · rw [Function.update_of_ne (home_ne_slot hc hroom)]
    exact h.clean.home c hc
  · rw [Function.update_of_ne (home_ne_slot hc hroom)]
    exact h.view c hc
  · have hcb : c ≠ g.slot t := home_ne_slot (h.lh.home c (List.mem_of_getElem? hc)) hroom
    rw [Function.update_of_ne hcb]
    by_cases hit : i = t
    · subst hit
      have e : c = b := Option.some.inj (hc.symm.trans hb)
      rw [e, Function.update_self, Function.update_self]
      exact ⟨rfl, rfl⟩
    · have hne : g.slot i ≠ g.slot t := fun hx => hit (slot_inj hx)
      rw [Function.update_of_ne hne, Function.update_of_ne hne]
      exact h.slots i c (by omega) hc

/-- **The header is written**: the group is kept. -/
theorem WritingLog.keep (h : WritingLog g base t d v s) (ho : Order s) (hend : s.lh[t]? = none) :
    Installing g base 0 (Function.update d g.start ((v g.start).setHead s.lh))
      (Function.update v g.start ((v g.start).setHead s.lh))
      { s with toCache := c, mode := .install 0, kept := s.kept ++ [s.group] } := by
  have hge : s.lh.length ≤ t := List.getElem?_eq_none_iff.mp hend
  have hpos := List.length_pos_iff.mpr h.nonempty
  refine ⟨⟨h.active, h.pending, h.out⟩, ?_, fun b hb => ?_, h.lh, h.fits (by omega),
    fun i b hi => ?_, fun b hb hnot => ?_, s.kept, rfl, ho.returned⟩
  · rw [Function.update_self, head_setHead]
  · rw [Function.update_of_ne (home_ne_start hb)]
    change v b = applyAll base (s.kept ++ [s.group]) b
    rw [applyAll_concat]
    exact h.view b hb
  · have hb := h.lh.home b (List.mem_of_getElem? hi)
    rw [Function.update_of_ne (home_ne_start hb), Function.update_of_ne (slot_ne_start i),
      Function.update_of_ne (slot_ne_start i)]
    exact h.slots i b (Nat.lt_of_lt_of_le (lt_of_get hi) hge) hi
  · have hb' : b ∉ s.lh := hnot.elim id fun ⟨i, hi, _⟩ => absurd hi (Nat.not_lt_zero i)
    rw [Function.update_of_ne (home_ne_start hb)]
    change d b = applyAll base (s.kept ++ [s.group]) b
    rw [h.clean.home b hb, applyAll_concat, apply_notMem fun hx => hb' ((h.lh.mem b).mpr hx)]

/-- **A round of `install_trans`.** -/
theorem Installing.block (h : Installing g base t d v s) (hb : s.lh[t]? = some b) :
    Installing g base (t + 1) (Function.update d b (v (g.slot t)))
      (Function.update v b (v (g.slot t)))
      { s with toCache := c, mode := .install (t + 1) } := by
  have hbh : g.Home b := h.lh.home b (List.mem_of_getElem? hb)
  have hfits := h.fits
  have hslot : ∀ i c, s.lh[i]? = some c → g.slot i ≠ b := fun i c hi =>
    (home_ne_slot hbh (by have := lt_of_get hi; omega)).symm
  -- the block already has these contents in the cache
  have hview : Function.update v b (v (g.slot t)) = v := by
    rw [(h.slots t b hb).2, Function.update_eq_self]
  rw [hview]
  refine ⟨⟨h.active, h.pending, h.out⟩, ?_, h.view, h.lh, hfits, fun i c hi => ?_,
    fun c hc hdone => ?_, h.last⟩
  · rw [Function.update_of_ne (home_ne_start hbh).symm]
    exact h.head
  · rw [Function.update_of_ne (hslot i c hi)]
    exact h.slots i c hi
  · by_cases hcb : c = b
    · rw [hcb, Function.update_self, (h.slots t b hb).2]
      exact h.view b hbh
    · rw [Function.update_of_ne hcb]
      refine h.home c hc (hdone.imp id fun ⟨i, hi, he⟩ => ⟨i, ?_, he⟩)
      have hit : i ≠ t := fun hx => hcb (Option.some.inj ((hx ▸ he).symm.trans hb))
      omega

/-- **The header is cleared** after a commit. -/
theorem Installing.clear (h : Installing g base t d v s) (hend : s.lh[t]? = none) :
    Finishing g base (Function.update d g.start ((v g.start).setHead []))
      (Function.update v g.start ((v g.start).setHead []))
      { s with toCache := c, lh := [], mode := .finish } := by
  have hge : s.lh.length ≤ t := List.getElem?_eq_none_iff.mp hend
  refine ⟨⟨h.active, h.pending, h.out⟩, ⟨?_, fun b hb => ?_⟩, fun b hb => ?_, rfl, h.last⟩
  · rw [Function.update_self]
    exact head_setHead _ []
  · rw [Function.update_of_ne (home_ne_start hb)]
    refine h.home b hb ?_
    by_cases hbl : b ∈ s.lh
    · obtain ⟨i, hi⟩ := List.mem_iff_getElem?.mp hbl
      exact .inr ⟨i, Nat.lt_of_lt_of_le (lt_of_get hi) hge, hi⟩
    · exact .inl hbl
  · rw [Function.update_of_ne (home_ne_start hb)]
    exact h.view b hb

/-- Nobody is in an operation, and the log is empty. -/
theorem Quiet.running (h : Quiet s) (hc : s.committing = false) (clean : Clean g base d s.kept)
    (view : ∀ b, g.Home b → v b = applyAll base s.kept b) (lh : s.lh = []) :
    Running g base d v s := by
  refine ⟨hc, clean, ?_, ?_, ?_⟩
  · rw [h.pending]
    exact view
  · rw [lh, h.pending]
    exact .nil g
  · rw [h.active, h.out]
    rfl

/-- `end_op` returns. -/
theorem Finishing.returned (h : Finishing g base d v s) : Running g base d v { s with
    committing := false, mode := .run, returned := s.returned ++ [s.group] } :=
  Quiet.running ⟨h.active, h.pending, h.out⟩ rfl h.clean h.view h.lh

end Writes

/-! ## 4. Block writes of a recovery -/

/-- A block of the header is copied during recovery. -/
theorem Sound.copy {t b : Nat} (h : Sound g base d kept) (hb : (d g.start).head[t]? = some b) :
    Sound g base (Function.update d b (d (g.slot t))) kept ∧
    (Function.update d b (d (g.slot t)) g.start).head = (d g.start).head ∧
    d (g.slot t) = applyAll base kept b := by
  have hbh : g.Home b := h.homes b (List.mem_of_getElem? hb)
  have hstart : Function.update d b (d (g.slot t)) g.start = d g.start :=
    Function.update_of_ne (home_ne_start hbh).symm _ _
  have hsize : (d g.start).head.length + 1 ≤ g.size := by
    refine h.fits.resolve_left fun hc => ?_
    rw [hc] at hb
    cases hb
  refine ⟨⟨?_, ?_, ?_, fun c hc => ?_⟩, by rw [hstart], ?_⟩
  · rw [hstart]
    exact h.nodup
  · rw [hstart]
    exact h.homes
  · rw [hstart]
    exact h.fits
  · rw [hstart, ← h.home c hc]
    -- the slots stay, and what stands at `b` does not matter
    rw [Lib.redo_congr (k := fun t => d (g.slot t)) fun i hi => ?_]
    · refine Lib.redo_agree fun hcm => Function.update_of_ne (fun e => hcm ?_) _ _
      rw [e]
      exact List.mem_of_getElem? hb
    · exact Function.update_of_ne (home_ne_slot hbh (by omega)).symm _ _
  · rw [← h.home b hbh, Lib.redo_get h.nodup hb, Nat.zero_add]

section Recovery

variable {t b : Nat}

theorem Booting.readHead (h : Booting g base d v s) :
    Redoing g base 0 d v { s with toCache := c, lh := (v g.start).head, mode := .recover 0 } :=
  ⟨⟨⟨h.active, h.pending, h.out⟩, h.sound, h.view, h.committing⟩,
    congrArg (fun v => (v g.start).head) h.view, fun i _ hi => absurd hi (Nat.not_lt_zero i)⟩

/-- A round of `install_trans` in a recovery. -/
theorem Redoing.block (h : Redoing g base t d v s) (hb : s.lh[t]? = some b) :
    Redoing g base (t + 1) (Function.update d b (v (g.slot t))) (Function.update v b (v (g.slot t)))
      { s with toCache := c, mode := .recover (t + 1) } := by
  obtain ⟨⟨⟨hact, hpend, out⟩, sound, rfl, hc⟩, lh, home⟩ := h
  obtain ⟨h1, h2, h3⟩ := sound.copy (lh ▸ hb)
  refine ⟨⟨⟨hact, hpend, out⟩, h1, rfl, hc⟩, lh.trans h2.symm, fun i c hi hic => ?_⟩
  by_cases hcb : c = b
  · rw [hcb, Function.update_self]
    exact h3
  · rw [Function.update_of_ne hcb]
    have hit : i ≠ t := fun hx => hcb (Option.some.inj ((hx ▸ hic).symm.trans hb))
    exact home i c (by omega) hic

/-- The header is cleared after a recovery. -/
theorem Redoing.clear (h : Redoing g base t d v s) (hend : s.lh[t]? = none) :
    Running g base (Function.update d g.start ((v g.start).setHead []))
      (Function.update v g.start ((v g.start).setHead []))
      { s with toCache := c, lh := [], mode := .run } := by
  have hge : s.lh.length ≤ t := List.getElem?_eq_none_iff.mp hend
  obtain ⟨⟨hq, sound, rfl, hc⟩, lh, home⟩ := h
  have hnew : ∀ b, g.Home b → Function.update v g.start ((v g.start).setHead []) b =
      applyAll base s.kept b := fun b hb => by
    rw [Function.update_of_ne (home_ne_start hb)]
    by_cases hbl : b ∈ s.lh
    · obtain ⟨i, hi⟩ := List.mem_iff_getElem?.mp hbl
      exact home i b (Nat.lt_of_lt_of_le (lt_of_get hi) hge) hi
    · rw [← sound.home b hb, Lib.redo_notMem (by rw [← lh]; exact hbl)]
  refine Quiet.running ⟨hq.active, hq.pending, hq.out⟩ hc ⟨?_, hnew⟩ hnew rfl
  rw [Function.update_self]
  exact head_setHead _ []

end Recovery

end Phases

/-! ## 5. Histories -/

theorem order_start (base : Nat → Blk) : Order (Sys.start base) where
  returned := .slnil
  kept := .slnil
  ended _ h := nomatch h
  pending _ h := nomatch h
  active _ h := nomatch h
  nodup := .nil
  next := ⟨fun _ h => (nomatch h), fun _ h => (nomatch h)⟩

theorem beginOp_order {s s' : Sys} (h : Order s) (hs : beginOp s = some s') : Order s' := by
  obtain ⟨-, -, rfl⟩ := beginOp_spec hs
  refine ⟨h.returned, h.kept, h.ended, fun w hw => (h.pending w hw).imp id
    (List.mem_cons_of_mem _), fun op hop => ?_, ?_, fun op hop => ?_,
    fun op hop => Nat.lt_succ_of_lt (h.next.2 op hop)⟩
  · rcases List.mem_cons.mp hop with rfl | h1
    · exact fun hc => absurd (h.next.2 _ hc) (Nat.lt_irrefl _)
    · exact h.active op h1
  · exact List.nodup_cons.mpr ⟨fun hc => absurd (h.next.1 _ hc) (Nat.lt_irrefl _), h.nodup⟩
  · rcases List.mem_cons.mp hop with rfl | h1
    · exact Nat.lt_succ_self _
    · exact Nat.lt_succ_of_lt (h.next.1 op h1)

theorem logAppend_order {g : Geom} {s s' : Sys} (h : Order s) (hcalls : Calls g s)
    (hs : logAppend s op = some s') : Order s' := by
  obtain ⟨w, hw, -, rfl⟩ := logAppend_spec hs
  refine ⟨h.returned, h.kept, h.ended, fun v hv => ?_, h.active, h.nodup, h.next⟩
  rcases List.mem_append.mp hv with h1 | h1
  · exact h.pending v h1
  · rw [List.mem_singleton.mp h1]
    exact .inr (hcalls w hw).1

/-- **The operations of a group have all ended** when its commit begins. -/
theorem endOp_order {g : Geom} {base : Nat → Blk} {s s' : Sys} (h : Order s)
    (hph : Phase g base s.mode s.disk s.view s) (hs : endOp s op = some s') : Order s' := by
  unfold endOp at hs
  split at hs
  · rename_i hok
    have hop := (idle_iff.mp hok.1).1
    have out := (hph.of_active hop).2.out
    have hlen := List.length_erase_of_mem hop
    have hact : ∀ o ∈ s.active.erase op, o ∉ op :: s.ended := fun o ho hc => by
      rcases List.mem_cons.mp hc with rfl | h1
      · exact (List.Nodup.mem_erase_iff h.nodup).mp ho |>.1 rfl
      · exact h.active o (List.mem_of_mem_erase ho) h1
    have hpend : ∀ w ∈ s.pending, w.op ∈ op :: s.ended ∨ w.op ∈ s.active.erase op := fun w hw => by
      rcases h.pending w hw with h1 | h1
      · exact .inl (List.mem_cons_of_mem _ h1)
      · by_cases he : w.op = op
        · exact .inl (he ▸ List.mem_cons_self ..)
        · exact .inr ((List.mem_erase_of_ne he).mpr h1)
    have hended : ∀ ws ∈ s.begun, ∀ w ∈ ws, w.op ∈ op :: s.ended := fun ws hws w hw =>
      List.mem_cons_of_mem _ (h.ended ws hws w hw)
    have hnext : (∀ o ∈ s.active.erase op, o < s.next) ∧ ∀ o ∈ op :: s.ended, o < s.next :=
      ⟨fun o ho => h.next.1 o (List.mem_of_mem_erase ho), fun o ho =>
        (List.mem_cons.mp ho).elim (fun e => e ▸ h.next.1 op hop) (h.next.2 o)⟩
    dsimp only at hs
    split at hs
    · rename_i h0
      have hnone : s.active.erase op = [] := List.length_eq_zero_iff.mp (by omega)
      have hall : ∀ ws ∈ s.begun ++ [s.pending], ∀ w ∈ ws, w.op ∈ op :: s.ended :=
        fun ws hws w hw => by
          rcases List.mem_append.mp hws with h1 | h1
          · exact hended ws h1 w hw
          · rw [List.mem_singleton.mp h1] at hw
            rcases hpend w hw with h2 | h2
            · exact h2
            · rw [hnone] at h2
              cases h2
      split at hs
      · cases hs
        exact ⟨h.returned.trans (List.sublist_append_left _ _), h.kept.append_right _, hall,
          fun w hw => (nomatch hw), hact, h.nodup.erase op, hnext⟩
      · cases hs
        exact ⟨h.returned, h.kept.trans (List.sublist_append_left _ _), hall,
          fun w hw => (nomatch hw), hact, h.nodup.erase op, hnext⟩
    · cases hs
      exact ⟨h.returned, h.kept, hended, hpend, hact, h.nodup.erase op, hnext⟩
  · cases hs

/-- A step of `commit` changes the histories only where the header is written and at the end. -/
theorem commit_order {g : Geom} {base : Nat → Blk} {s s' : Sys} (h : Order s)
    (hph : Phase g base s.mode s.disk s.view s) (hs : commit g s = some s') : Order s' := by
  cases commit_cases hs with
  | write | install | clear => exact { h with }
  | keep hm =>
    rw [hm] at hph
    obtain ⟨k, hbegun, hsub⟩ := WritingLog.last hph
    refine { h with returned := h.returned.trans (List.sublist_append_left _ _), kept := ?_ }
    change (s.kept ++ [s.group]).Sublist s.begun
    rw [hbegun]
    exact hsub.append_right _
  | finish hm =>
    rw [hm] at hph
    obtain ⟨k, hkept, hsub⟩ := Finishing.last hph
    refine { h with returned := ?_ }
    change (s.returned ++ [s.group]).Sublist s.kept
    rw [hkept]
    exact hsub.append_right _

theorem recover_order {g : Geom} {s s' : Sys} (h : Order s) (hs : recover g s = some s') :
    Order s' := by
  cases recover_cases hs <;> exact { h with }

theorem crash_order {s : Sys} (h : Order s) : Order (crash s) :=
  ⟨h.returned, h.kept, h.ended, fun _ hw => (nomatch hw), fun _ hop => (nomatch hop), .nil,
    fun _ hop => (nomatch hop), h.next.2⟩

/-! ## 6. Every run -/

/-- What is logged is in a dirty buffer, until `write_log` has begun. -/
def Pinned (s : Sys) : Prop :=
  s.mode = .run ∨ s.mode = .writeLog 0 → ∀ b ∈ s.lh, s.toCache.pinned b

section Runs

variable {g : Geom} {base : Nat → Blk} {s s' : Sys}

variable (g base) in
/-- **What holds in every state of a run.** -/
structure Inv (s : Sys) : Prop where
  cache : s.toCache.Ok
  phase : Phase g base s.mode s.disk s.view s
  order : Order s
  calls : Calls g s
  pinned : Pinned s
  calm : s.mode.starting = true → s.toCache.Idle

theorem Inv.start (hbase : (base g.start).head = []) : Inv g base (Sys.start base) := by
  refine ⟨Bio.binit_ok _ _, ⟨⟨rfl, rfl, rfl⟩, ?_, Bio.binit_view _ _, rfl⟩, order_start base,
    fun _ hw => (nomatch hw), fun _ _ hb => (nomatch hb), fun _ => Bio.binit_idle _ _⟩
  exact Clean.sound ⟨hbase, fun _ _ => rfl⟩

section
variable (h : Inv g base s)
include h

/-- While the machine starts or commits, nobody is in an operation. -/
theorem Inv.quiet (hm : s.mode ≠ .run) : s.active = [] ∧ s.flight = [] := by
  have hact : s.active = [] := (h.phase.quiet hm).active
  refine ⟨hact, List.eq_nil_iff_forall_not_mem.mpr fun w hw => ?_⟩
  have hop := (h.calls w hw).1
  rw [hact] at hop
  cases hop

/-- References are taken and given up, but those of calls of `log_write`. -/
theorem Inv.fetched (hf : Bio.Fetched s.toCache c)
    (hheld : ∀ w ∈ s.flight, (some w.op, w.block) ∈ c.held) (hcalm : s.mode.starting = false) :
    Inv g base { s with toCache := c } := by
  refine ⟨hf.ok, ?_, { h.order with }, fun w hw => ?_, fun hm b hb => ?_, fun hc => ?_⟩
  · rw [hf.disk, hf.view]
    exact h.phase.same
  · exact ⟨(h.calls w hw).1, (h.calls w hw).2.1, hheld w hw⟩
  · obtain ⟨x, hx, hxb, hd⟩ := h.pinned hm b hb
    exact ⟨x, (hf.dirty x hd).mpr hx, hxb, hd⟩
  · rw [hcalm] at hc
    cases hc

theorem breadBy_inv {p b : Nat} (hs : breadBy s p b = some s') : Inv g base s' := by
  unfold breadBy at hs
  split at hs
  · cases hs
  · rename_i hm
    obtain ⟨c, hc, rfl⟩ := Option.map_eq_some_iff.mp hs
    obtain ⟨hf, hheld⟩ := h.cache.bread hc
    refine h.fetched hf (fun w hw => ?_) (by simpa using hm)
    rw [hheld]
    exact List.mem_cons_of_mem _ (h.calls w hw).2.2

theorem brelseBy_inv {p b : Nat} (hs : brelseBy s p b = some s') : Inv g base s' := by
  unfold brelseBy at hs
  split at hs
  · rename_i hok
    cases hs
    refine h.fetched (h.cache.brelse _ _) (fun w hw => ?_) ?_
    · rw [Bio.brelse_held]
      refine (List.mem_erase_of_ne fun he => ?_).mpr (h.calls w hw).2.2
      exact hok.2 w hw (Option.some.inj (Prod.mk.inj he).1)
    · -- while the machine starts nobody has a reference
      by_contra hc
      have hidle := (h.calm (by simpa using hc)).held
      rw [hidle] at hok
      cases hok.1
  · cases hs

/-- A call of `log_write` finds its block in the cache beside the blocks that are logged. -/
theorem Inv.fits {w : Write} (hw : w ∈ s.flight) : w.block ∈ s.lh ∨ s.lh.length < logSize := by
  by_cases hb : w.block ∈ s.lh
  · exact .inl hb
  obtain ⟨hop, -, hheld⟩ := h.calls w hw
  obtain ⟨hm, hrun⟩ := h.phase.of_active hop
  have hle := h.cache.length_le (List.nodup_cons.mpr ⟨hb, hrun.lh.nodup⟩) fun b hbs => by
    rcases List.mem_cons.mp hbs with rfl | hbs
    · exact h.cache.held _ hheld
    · obtain ⟨x, hx, hxb, -⟩ := h.pinned (.inl hm) b hbs
      exact Bio.Cache.cached_iff.mpr ⟨x, hx, hxb⟩
  exact .inr hle

theorem logAppend_inv (hs : logAppend s op = some s') : Inv g base s' := by
  have ho := logAppend_order h.order h.calls hs
  obtain ⟨w, hw, rfl, rfl⟩ := logAppend_spec hs
  obtain ⟨hop, hb, hheld⟩ := h.calls w hw
  obtain ⟨hm, hrun⟩ := h.phase.of_active hop
  have hcached := h.cache.held _ hheld
  obtain ⟨hok, hview⟩ := h.cache.logged hcached w.data
  refine ⟨hok, ?_, ho, fun v hv => ?_, fun _ b hbl => ?_, fun hc => ?_⟩
  · change Phase g base s.mode s.disk (s.toCache.put w.block true w.data).view _
    rw [hview]
    exact (hrun.logAppend w.op hb).phase hm
  · exact h.calls v (List.mem_of_mem_filter hv)
  · rw [Bio.put_pinned]
    rcases mem_absorb.mp hbl with h1 | rfl
    · by_cases hbw : b = w.block
      · exact .inl ⟨hbw, hcached⟩
      · exact .inr ⟨hbw, h.pinned (.inl hm) b h1⟩
    · exact .inl ⟨rfl, hcached⟩
  · rw [show s.mode = .run from hm] at hc
    cases hc

theorem beginOp_inv (hs : beginOp s = some s') : Inv g base s' := by
  have hph := beginOp_phase h.phase hs
  have ho := beginOp_order h.order hs
  obtain ⟨-, hm, rfl⟩ := beginOp_spec hs
  exact ⟨h.cache, hph, ho, fun w hw => ⟨List.mem_cons_of_mem _ (h.calls w hw).1, (h.calls w hw).2⟩,
    h.pinned, h.calm⟩

theorem logTest_inv {b : Nat} {x : Blk} (hs : logTest g s op b x = some s') : Inv g base s' := by
  obtain ⟨hop, hheld, hb, rfl⟩ := logTest_spec hs
  obtain ⟨hm, hrun⟩ := h.phase.of_active hop
  refine ⟨h.cache, ?_, { h.order with }, fun w hw => ?_, h.pinned, h.calm⟩
  · exact Running.phase { hrun with } hm
  rcases List.mem_cons.mp hw with rfl | hw
  · exact ⟨hop, hb, hheld⟩
  · exact h.calls w hw

/-- An operation ends outside its calls of `log_write`. -/
theorem endOp_inv (hs : endOp s op = some s') : Inv g base s' := by
  have hph := endOp_phase h.phase h.order hs
  have ho := endOp_order h.order h.phase hs
  obtain ⟨hidle, hcache, hact, -, hlh, -, hflight, -, hmode⟩ := endOp_spec hs
  obtain ⟨hop, hfree⟩ := idle_iff.mp hidle
  have hm := (h.phase.of_active hop).1
  refine ⟨hcache ▸ h.cache, ?_, ho, fun w hw => ?_, fun _ b hb => ?_, fun hc => ?_⟩
  · rw [hcache]
    exact hph
  · rw [hflight] at hw
    obtain ⟨h1, h2⟩ := h.calls w hw
    rw [hact, hcache]
    exact ⟨(List.mem_erase_of_ne (hfree w hw)).mpr h1, h2⟩
  · rw [hcache]
    exact h.pinned (.inl hm) b (hlh ▸ hb)
  · rcases hmode with ⟨-, ⟨h1, -⟩ | h1⟩ | ⟨-, h1⟩
    · rw [h1] at hc; cases hc
    · rw [h1] at hc; cases hc
    · rw [h1, hm] at hc; cases hc

/-- **What the first round of `write_log` needs**: a buffer for the first slot beside those of the
    group. With a log of NBUF blocks the group fits. -/
theorem Inv.group_fits {t b : Nat} {x : Blk} (hsize : Bio.nbuf ≤ g.size) (hm : s.mode = .writeLog t)
    (hw : Bio.Wrote s.toCache c [g.slot t, b] (g.slot t) x) : s.lh.length + 1 ≤ g.size := by
  have hph := h.phase
  rw [hm] at hph
  have lh := WritingLog.lh hph
  by_cases ht : t = 0
  · subst ht
    have h1 : 0 + 1 < g.size := Nat.lt_of_lt_of_le (by decide) hsize
    have hslot : g.slot 0 ∉ s.lh := fun hc => home_ne_slot (lh.home _ hc) h1 rfl
    refine Nat.le_trans (hw.room (g.slot 0 :: s.lh) (List.nodup_cons.mpr ⟨hslot, lh.nodup⟩)
      fun e he => ?_) hsize
    rcases List.mem_cons.mp he with rfl | he
    · exact .inl (List.mem_cons_self ..)
    · exact .inr (h.pinned (.inr hm) e he)
  · exact WritingLog.fits hph ht

end

theorem Pinned.nil (h : s.lh = []) : Pinned s := fun _ b hb => by
  rw [h] at hb
  cases hb

/-- A block write, while nobody is in an operation. -/
theorem Inv.wrote {bs : List Nat} {b : Nat} {x : Blk} (hw : Bio.Wrote s.toCache c bs b x)
    (hc : s'.toCache = c) (hph : Phase g base s'.mode (Function.update s.disk b x)
      (Function.update s.view b x) s') (ho : Order s') (hf : s'.flight = []) (hpin : Pinned s')
    (hcalm : s'.mode.starting = true → c.Idle) : Inv g base s' := by
  subst hc
  refine ⟨hw.ok, ?_, ho, fun w hw => ?_, hpin, hcalm⟩
  · rw [hw.disk, hw.view]
    exact hph
  · rw [hf] at hw
    cases hw

section
variable (h : Inv g base s)
include h

theorem commit_inv (hsize : Bio.nbuf ≤ g.size) (hs : commit g s = some s') : Inv g base s' := by
  have ho := commit_order h.order h.phase hs
  have hrun : s.mode ≠ .run := fun hm => by
    unfold commit at hs
    rw [hm] at hs
    cases hs
  have hf := (h.quiet hrun).2
  have hph := h.phase
  cases commit_cases hs with
  | write hm hb hw =>
    have hw := hw h.cache
    rw [hm] at hph
    refine .wrote hw rfl (WritingLog.block hph hb (h.group_fits hsize hm hw)) ho hf
      (fun hc => ?_) fun hc => by cases hc
    rcases hc with hc | hc <;> cases hc
  | keep hm hend hw =>
    rw [hm] at hph
    refine .wrote (hw h.cache) rfl (WritingLog.keep hph h.order hend) ho hf (fun hc => ?_)
      fun hc => by cases hc
    rcases hc with hc | hc <;> cases hc
  | install hm hb hw =>
    rw [hm] at hph
    refine .wrote (hw h.cache) rfl (Installing.block hph hb) ho hf (fun hc => ?_)
      fun hc => by cases hc
    rcases hc with hc | hc <;> cases hc
  | clear hm hend hw =>
    rw [hm] at hph
    exact .wrote (hw h.cache) rfl (Installing.clear hph hend) ho hf (.nil rfl) fun hc => by cases hc
  | finish hm =>
    rw [hm] at hph
    refine ⟨h.cache, Finishing.returned hph, ho, fun w hw => ?_,
      .nil (show s.lh = [] from Finishing.lh hph), fun hc => by cases hc⟩
    rw [show s.flight = [] from hf] at hw
    cases hw

theorem recover_inv (hs : recover g s = some s') : Inv g base s' := by
  have ho := recover_order h.order hs
  have hstart : s.mode.starting = true := by
    unfold recover at hs
    split at hs
    · rename_i hm; rw [hm]; rfl
    · rename_i hm; rw [hm]; rfl
    · cases hs
  have hidle := h.calm hstart
  have hf := (h.quiet fun hm => by rw [hm] at hstart; cases hstart).2
  have hph := h.phase
  cases recover_cases hs with
  | head hm hread =>
    obtain ⟨hfetch, hheld, rfl⟩ := hread h.cache
    rw [hm] at hph
    refine ⟨hfetch.ok, ?_, ho, fun w hw => ?_, fun hc => ?_, fun _ => hfetch.idle hheld hidle⟩
    · rw [hfetch.disk, hfetch.view]
      exact Booting.readHead hph
    · rw [show s.flight = [] from hf] at hw
      cases hw
    · rcases hc with hc | hc <;> cases hc
  | install hm hb hw =>
    have hw := hw h.cache
    rw [hm] at hph
    refine .wrote hw rfl (Redoing.block hph hb) ho hf (fun hc => ?_) fun _ => hw.idle hidle
    rcases hc with hc | hc <;> cases hc
  | clear hm hend hw =>
    rw [hm] at hph
    exact .wrote (hw h.cache) rfl (Redoing.clear hph hend) ho hf (.nil rfl) fun hc => by cases hc

theorem crash_inv : Inv g base (crash s) := by
  refine ⟨Bio.binit_ok _ _, ?_, crash_order h.order, fun _ hw => (nomatch hw),
    fun hc => ?_, fun _ => Bio.binit_idle _ _⟩
  · exact ⟨⟨rfl, rfl, rfl⟩, h.phase.sound, Bio.binit_view _ _, rfl⟩
  · rcases hc with hc | hc <;> cases hc

theorem step_inv {a : Act} (hsize : Bio.nbuf ≤ g.size) (hs : step g s a = some s') :
    Inv g base s' := by
  cases a with
  | bread p b => exact breadBy_inv h hs
  | brelse p b => exact brelseBy_inv h hs
  | beginOp => exact beginOp_inv h hs
  | logTest op b x => exact logTest_inv h hs
  | logAppend op => exact logAppend_inv h hs
  | endOp op => exact endOp_inv h hs
  | commit => exact commit_inv h hsize hs
  | crash => cases hs; exact crash_inv h
  | recover => exact recover_inv h hs

/-- **A recovery does not panic**: nobody else uses the cache. -/
theorem Inv.proceeds (hm : s.mode.starting = true) : (recover g s).isSome := by
  have hidle := h.calm hm
  have hread : ∀ bs : List Nat, bs.length ≤ 2 → (s.toCache.breadAll bs).isSome := fun bs hbs =>
    h.cache.breadAll_isSome hidle.clean
      (by rw [hidle.held]; exact Nat.le_trans (by simpa) (by decide))
  unfold recover
  split
  · unfold Sys.readHead
    rw [Option.isSome_map]
    exact hread [g.start] (Nat.le_succ 1)
  · split
    · unfold Sys.installBlock Sys.writing
      rw [Option.isSome_map]
      exact hread [_, _] (Nat.le_refl 2)
    · unfold Sys.writeHead Sys.writing
      rw [Option.isSome_map]
      exact hread [g.start] (Nat.le_succ 1)
  · rename_i h1 h2
    cases hmode : s.mode with
    | boot => exact absurd hmode h1
    | recover t => exact absurd hmode (h2 t)
    | run | writeLog _ | install _ | finish => rw [hmode] at hm; cases hm

end

/-- Installing is redoing, as long as no slot is among the blocks installed. -/
theorem installTrans_eq_redo {bs : List Nat} {t : Nat} {d e : Nat → Blk}
    (hb : ∀ b ∈ bs, ∀ i, i < bs.length → b ≠ g.slot (t + i))
    (hd : ∀ i, i < bs.length → d (g.slot (t + i)) = e (g.slot (t + i))) :
    installTrans g bs t d = Lib.redo (fun i => e (g.slot i)) bs t d := by
  induction bs generalizing t d with
  | nil => rfl
  | cons b bs ih =>
    have h0 : d (g.slot t) = e (g.slot t) := hd 0 (Nat.succ_pos _)
    rw [installTrans, Lib.redo, h0]
    have hshift : ∀ i, t + 1 + i = t + (i + 1) := fun i => by omega
    refine ih (fun c hc i hi => ?_) fun i hi => ?_
    · rw [hshift]
      exact hb c (List.mem_cons_of_mem _ hc) (i + 1) (Nat.succ_lt_succ hi)
    · rw [hshift, Function.update_of_ne
        (Ne.symm (hb b (List.mem_cons_self ..) (i + 1) (Nat.succ_lt_succ hi)))]
      exact hd (i + 1) (Nat.succ_lt_succ hi)

theorem Sound.recovered {d : Nat → Blk} (h : Sound g base d kept) :
    (∀ b, g.Home b → recoverFromLog g d b = applyAll base kept b) ∧
    (recoverFromLog g d g.start).head = [] := by
  refine ⟨fun b hb => ?_, ?_⟩
  · unfold recoverFromLog
    rw [Function.update_of_ne (home_ne_start hb), ← h.home b hb,
      installTrans_eq_redo (e := d) (fun c hc i hi => ?_) fun _ _ => rfl]
    rw [Nat.zero_add]
    refine home_ne_slot (h.homes c hc) ?_
    rcases h.fits with h1 | h1
    · rw [h1] at hi
      cases hi
    · omega
  · unfold recoverFromLog
    rw [Function.update_self, head_setHead]

end Runs

/-! ## 7. Crash atomicity -/

/-- **Crash atomicity**, for the groups `gs`: `recover_from_log` leaves the home blocks after these
    groups and an empty log; while the machine runs they are the home blocks on disk. The groups
    are among those whose commit began, in this order, with every one whose commit returned; their
    writes are by operations that have ended. A recovery does not panic on its way, and a
    `log_write` past its tests finds room in `lh.block`. -/
structure CrashAtomic (g : Geom) (base : Nat → Blk) (s : Sys) (gs : List (List Write)) : Prop where
  recovered : ∀ b, g.Home b → recoverFromLog g s.disk b = applyAll base gs b
  cleared : (recoverFromLog g s.disk g.start).head = []
  running : s.mode = .run → ∀ b, g.Home b → s.disk b = applyAll base gs b
  returned : s.returned.Sublist gs
  begun : gs.Sublist s.begun
  ended : ∀ ws ∈ gs, ∀ w ∈ ws, w.op ∈ s.ended ∧ w.op ∉ s.active
  proceeds : s.mode.starting = true → (recover g s).isSome
  fits : ∀ w ∈ s.flight, w.block ∈ s.lh ∨ s.lh.length < logSize

theorem Inv.atomic {g : Geom} {base : Nat → Blk} {s : Sys} (h : Inv g base s) :
    CrashAtomic g base s s.kept where
  recovered := h.phase.sound.recovered.1
  cleared := h.phase.sound.recovered.2
  running hm := by
    have hph := h.phase
    rw [hm] at hph
    exact (Running.clean hph).home
  returned := h.order.returned
  begun := h.order.kept
  ended ws hws w hw :=
    have he := h.order.ended ws (h.order.kept.subset hws) w hw
    ⟨he, fun ha => h.order.active _ ha he⟩
  proceeds := h.proceeds
  fits _ := h.fits

/-- **Every run is crash atomic**, from a disk with an empty log of at least NBUF blocks, whatever
    the interleaving and the crashes. -/
theorem crash_atomic (g : Geom) (hsize : Bio.nbuf ≤ g.size) (base : Nat → Blk)
    (hbase : (base g.start).head = []) (s : Sys) (hs : Reachable g base s) :
    ∃ gs, CrashAtomic g base s gs :=
  have hinv : Inv g base s := hs.inv (.start hbase) fun h hst => step_inv h hsize hst
  ⟨s.kept, hinv.atomic⟩

theorem exec_reach {g : Geom} {base : Nat → Blk} {as : List Act} {s : Sys}
    (h : Lib.exec (step g) (Sys.start base) as = some s) : Reachable g base s :=
  Lib.Reach.exec (fun h => ⟨_, h⟩) .start h

/-- Boot, then two operations that log two blocks and one, in turns, and end; a crash once the
    header of the commit and one block are written, and one in the recovery. -/
def oneGroup : List Act :=
  [.recover, .recover, .beginOp, .beginOp] ++ logged 0 100 ++ logged 1 101 ++ logged 0 102 ++
    [.endOp 0, .endOp 1, .commit, .commit, .commit, .commit, .commit, .crash, .recover, .recover,
      .crash]

theorem oneGroup_run : (Lib.exec (step Geom.mkfs) (Sys.start blank) oneGroup).map (fun s =>
    (s.disk 100 0, s.disk 102 0, recoverFromLog Geom.mkfs s.disk 102 0, s.begun.length)) =
    some (100, 0, 102, 1) := by
  decide +kernel

theorem crash_atomic_oneGroup : ∃ s, s.disk 100 0 = 100 ∧ s.disk 102 0 = 0 ∧
    recoverFromLog Geom.mkfs s.disk 102 0 = 102 ∧ s.begun.length = 1 ∧
    ∃ gs, CrashAtomic Geom.mkfs blank s gs := by
  obtain ⟨s, hs, hrun⟩ := Option.map_eq_some_iff.mp oneGroup_run
  simp only [Prod.mk.injEq] at hrun
  exact ⟨s, hrun.1, hrun.2.1, hrun.2.2.1, hrun.2.2.2,
    crash_atomic Geom.mkfs (by decide) blank rfl s (exec_reach hs)⟩

end Xv6Clock.Log
