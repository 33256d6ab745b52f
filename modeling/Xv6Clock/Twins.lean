/-
  File:      Xv6Clock/Twins.lean
  Subject:   Two address spaces that differ in their frames only, under the same accesses.

  Whether an access faults, whether `mdecrypt` accepts the page, where the eviction scan stops and
  which page it encrypts depends on flags, on the first byte of the page and on the queue, never on
  the frames. So two address spaces with the same flags and bytes, and with queues that agree,
  stay so (`Twin`, `QTwin`).
-/
import Xv6Clock.Accepts
import Xv6Clock.Logical
import Xv6Clock.Machine

namespace Xv6Clock

variable (cfg : Config)

/-! ## 1. Entries -/

/-- Entries with the same flags. -/
def FlagsEq (w w' : Word) : Prop := ∀ x, IsFlags x → has w' x = has w x

section
variable {w w' : Word}

theorem FlagsEq.or (h : FlagsEq w w') (c : Word) : FlagsEq (w ||| c) (w' ||| c) := fun x hx => by
  rw [has_or, has_or, h x hx]

theorem isFlags_and {x : Word} (hx : IsFlags x) (c : Word) : IsFlags (x &&& c) := by
  unfold IsFlags at *
  rw [BitVec.toNat_and]
  exact Nat.lt_of_le_of_lt Nat.and_le_left hx

section
variable (h : FlagsEq w w')
include h

theorem FlagsEq.clear (c : Word) : FlagsEq (w &&& ~~~c) (w' &&& ~~~c) :=
  fun x hx => by rw [has_clear, has_clear, h _ (isFlags_and hx _)]

theorem FlagsEq.setRef : FlagsEq (setRef w) (setRef w') := h.or pteA

theorem FlagsEq.clearRef : FlagsEq (clearRef w) (clearRef w') := h.clear pteA

theorem FlagsEq.dec : FlagsEq (decEntry w) (decEntry w') :=
  (h.clear pteE).or pteP

theorem FlagsEq.enc : FlagsEq (encEntry w) (encEntry w') :=
  (h.or pteE).clear pteP

theorem FlagsEq.mapped : Xv6Clock.mapped w' = Xv6Clock.mapped w := by
  rw [mapped_eq, mapped_eq, h _ (by decide), h _ (by decide)]

theorem FlagsEq.plain : Xv6Clock.plain w' = Xv6Clock.plain w := by
  unfold Xv6Clock.plain
  rw [h _ (by decide), h _ (by decide), h _ (by decide)]

theorem FlagsEq.encrypted : Xv6Clock.encrypted w' = Xv6Clock.encrypted w := by
  unfold Xv6Clock.encrypted
  rw [h _ (by decide), h _ (by decide)]

end

theorem entryOk_open (hU : has w pteU = true) (hE : has w pteE = true) :
    EntryOk w (openEntry w) :=
  (entryOk_dec hU hE).trans (entryOk_setRef (mapped_dec w))

theorem entryOk_seal (hU : has w pteU = true) (hP : has w pteP = true) :
    EntryOk w (sealEntry w) := by
  refine ((entryOk_setRef (mapped_of_P hP)).trans (entryOk_clearRef _)).trans (entryOk_enc ?_ ?_)
  · rw [has_clearRef_U, has_setRef_U, hU]
  · rw [has_clearRef_P, has_setRef_P, hP]

end

/-! ## 2. Address spaces -/

/-- **The first `n` pages are the same** in flags and bytes; in both address spaces they are mapped,
    each to a frame of its own. -/
structure Twin (n : Nat) (s t : Vm) : Prop where
  flags : ∀ u, u < n → FlagsEq (s.pd.pteAt u) (t.pd.pteAt u)
  bytes : ∀ u, u < n → t.m.mem (pteFrame (t.pd.pteAt u)) = s.m.mem (pteFrame (s.pd.pteAt u))
  map : ∀ u, u < n → mapped (s.pd.pteAt u) = true
  low : n ≤ 2 ^ 19
  left : ∀ f, s.pd.holds f ≤ 1
  right : ∀ f, t.pd.holds f ≤ 1

section
variable {n v : Nat} {s t : Vm} (h : Twin n s t)
include h

theorem Twin.map_right {u : Nat} (hu : u < n) : mapped (t.pd.pteAt u) = true :=
  ((h.flags u hu).mapped).trans (h.map u hu)

theorem Twin.tab_left {u : Nat} (hu : u < n) : s.pd.tabAt u = true :=
  PgDir.tabAt_of_mapped (h.map u hu)

theorem Twin.tab_right {u : Nat} (hu : u < n) : t.pd.tabAt u = true :=
  PgDir.tabAt_of_mapped (h.map_right hu)

/-- An entry of each is replaced. -/
theorem Twin.mark {w w' : Word} (hv : v < n) (hw : EntryOk (s.pd.pteAt v) w)
    (hw' : EntryOk (t.pd.pteAt v) w') (hf : FlagsEq w w') : Twin n (s.mark v w) (t.mark v w') := by
  have hlow := h.low
  have hs : ∀ u, (s.mark v w).pd.pteAt u = if u = v then w else s.pd.pteAt u :=
    fun u => PgDir.pteAt_store w u (h.tab_left hv)
  have ht : ∀ u, (t.mark v w').pd.pteAt u = if u = v then w' else t.pd.pteAt u :=
    fun u => PgDir.pteAt_store w' u (h.tab_right hv)
  have hrs := recoded_mark (by omega) (h.tab_left hv) hw
  have hrt := recoded_mark (by omega) (h.tab_right hv) hw'
  refine ⟨fun u hu => ?_, fun u hu => ?_, fun u hu => ?_, hlow, fun f => ?_, fun f => ?_⟩
  · rw [hs, ht]
    split
    · exact hf
    · exact h.flags u hu
  · rw [(hrs.entry u).frame, (hrt.entry u).frame]
    exact h.bytes u hu
  · rw [(hrs.entry u).map]
    exact h.map u hu
  · rw [hrs.holds]
    exact h.left f
  · rw [hrt.holds]
    exact h.right f

/-- The bytes of page `v` are complemented in both. -/
theorem Twin.flip {w w' : Word} (hv : v < n) (hw : EntryOk (s.pd.pteAt v) w)
    (hw' : EntryOk (t.pd.pteAt v) w') (hf : FlagsEq w w') : Twin n (s.flip v w) (t.flip v w') := by
  have hlow := h.low
  have hm := h.mark hv hw hw' hf
  refine { hm with bytes := fun u hu => ?_ }
  have hfs : pteFrame ((s.flip v w).pd.pteAt u) = pteFrame (s.pd.pteAt u) :=
    ((recoded_mark (by omega) (h.tab_left hv) hw).entry u).frame
  have hft : pteFrame ((t.flip v w').pd.pteAt u) = pteFrame (t.pd.pteAt u) :=
    ((recoded_mark (by omega) (h.tab_right hv) hw').entry u).frame
  rw [hfs, hft]
  by_cases huv : u = v
  · subst huv
    rw [Vm.flip_mem_self, Vm.flip_mem_self, h.bytes u hu]
  · -- the page has a frame of its own in both
    have h1 := PgDir.frame_ne h.left (by omega) (by omega) (h.map u hu) (h.map v hv) huv
    have h2 := PgDir.frame_ne h.right (by omega) (by omega) (h.map_right hu) (h.map_right hv) huv
    rw [Vm.flip_mem_ne s w h1, Vm.flip_mem_ne t w' h2]
    exact h.bytes u hu

theorem Twin.setRef (hv : v < n) :
    Twin n (s.mark v (setRef (s.pd.pteAt v))) (t.mark v (Xv6Clock.setRef (t.pd.pteAt v))) :=
  h.mark hv (entryOk_setRef (h.map v hv)) (entryOk_setRef (h.map_right hv)) (h.flags v hv).setRef

theorem Twin.clearRef (hv : v < n) :
    Twin n (s.mark v (clearRef (s.pd.pteAt v))) (t.mark v (Xv6Clock.clearRef (t.pd.pteAt v))) :=
  h.mark hv (entryOk_clearRef _) (entryOk_clearRef _) (h.flags v hv).clearRef

theorem Twin.halfDec (hv : v < n) (he : encrypted (s.pd.pteAt v) = true) :
    Twin n (halfDec s v) (Xv6Clock.halfDec t v) := by
  obtain ⟨hE, hU⟩ := encrypted_iff.mp he
  obtain ⟨hE', hU'⟩ := encrypted_iff.mp ((h.flags v hv).encrypted.trans he)
  exact h.mark hv (entryOk_dec hU hE) (entryOk_dec hU' hE') (h.flags v hv).dec

theorem Twin.opened (hv : v < n) (he : encrypted (s.pd.pteAt v) = true) :
    Twin n (s.opened v) (t.opened v) := by
  obtain ⟨hE, hU⟩ := encrypted_iff.mp he
  obtain ⟨hE', hU'⟩ := encrypted_iff.mp ((h.flags v hv).encrypted.trans he)
  exact h.flip hv (entryOk_open hU hE) (entryOk_open hU' hE') (h.flags v hv).dec.setRef

theorem Twin.sealed (hv : v < n) : Twin n (s.sealed v) (t.sealed v) := by
  unfold Vm.sealed
  rw [(h.flags v hv).plain]
  split
  · rename_i hp
    obtain ⟨hU, hP, -⟩ := plain_iff.mp hp
    obtain ⟨hU', hP', -⟩ := plain_iff.mp ((h.flags v hv).plain.trans hp)
    exact h.flip hv (entryOk_seal hU hP) (entryOk_seal hU' hP') (h.flags v hv).setRef.clearRef.enc
  · exact h

theorem Twin.first {va : Nat} (hv : vpn va < n) :
    firstByte t va = firstByte s va := congrFun (h.bytes _ hv) 0

end

/-! ## 3. Queues -/

/-- **Queues that agree**: the entries, all of them pages below `n`, and the hand of a queue that
    has one. -/
structure QTwin (n : Nat) (q r : ClockQ) : Prop where
  count : r.inClock = q.inClock
  nodes : ∀ i, i < q.inClock → r.nodes i = q.nodes i
  low : ∀ i, i < q.inClock → vpn (q.nodes i) < n
  hand : 0 < q.inClock → r.currInd = q.currInd
  wf : ClockWf cfg q

/-- A page is written over or after the entries. -/
theorem nodes_update {q r : ClockQ} {n add i k : Nat}
    (hk : k = q.inClock ∨ k = q.inClock + 1 ∧ i = q.inClock)
    (hnodes : ∀ j, j < q.inClock → r.nodes j = q.nodes j)
    (hlow : ∀ j, j < q.inClock → vpn (q.nodes j) < n) (ha : vpn add < n) :
    (∀ j, j < k → Function.update r.nodes i add j = Function.update q.nodes i add j) ∧
      ∀ j, j < k → vpn (Function.update q.nodes i add j) < n := by
  refine ⟨fun j hj => ?_, fun j hj => ?_⟩
  · by_cases hji : j = i
    · rw [hji, Function.update_self, Function.update_self]
    · rw [Function.update_of_ne hji, Function.update_of_ne hji]
      exact hnodes j (by omega)
  · by_cases hji : j = i
    · rw [hji, Function.update_self]
      exact ha
    · rw [Function.update_of_ne hji]
      exact hlow j (by omega)

section
variable {cfg} {n : Nat} {s t : Vm} {q r : ClockQ}

theorem QTwin.entries (h : QTwin cfg n q r) : r.entries = q.entries := by
  unfold ClockQ.entries
  rw [h.count]
  exact Lib.front_congr h.nodes

theorem QTwin.ind (h : QTwin cfg n q r) (h0 : 0 < q.inClock) (i : Nat) :
    sweepInd cfg r i = sweepInd cfg q i := by
  unfold sweepInd
  rw [h.hand h0]

theorem QTwin.slot (h : QTwin cfg n q r) (h0 : 0 < q.inClock) (i : Nat) :
    sweepSlot cfg r i = sweepSlot cfg q i := by
  unfold sweepSlot
  rw [h.ind h0]

/-! ### A full queue -/

theorem pos_of_full (hf : q.inClock = cfg.clockSize) : 0 < q.inClock := by
  have := cfg.clockPos
  omega

section
variable (h : Twin n s t) (hq : QTwin cfg n q r) (hf : q.inClock = cfg.clockSize)
include hq hf

theorem QTwin.page (i : Nat) : sweepPage cfg r i = sweepPage cfg q i := by
  have := sweepSlot_lt cfg q i
  unfold sweepPage
  rw [hq.slot (pos_of_full hf), hq.nodes _ (by omega)]

theorem QTwin.page_lt (i : Nat) : sweepPage cfg q i < n := by
  have := sweepSlot_lt cfg q i
  exact hq.low _ (by omega)

theorem QTwin.ind_nonneg {i : Nat} (hi : i < cfg.clockSize) : 0 ≤ sweepInd cfg q i := by
  obtain ⟨h1, h2⟩ := hq.wf.hand hf
  rw [sweepInd_of_hand cfg h1 h2 hi]
  exact Int.natCast_nonneg _

include h

theorem Twin.safe_left : SweepSafe cfg s.pd q := fun i hi _ =>
  ⟨hq.ind_nonneg hf hi, h.tab_left (hq.page_lt hf i)⟩

theorem Twin.safe_right : SweepSafe cfg t.pd r := fun i hi _ => by
  refine ⟨?_, ?_⟩
  · rw [hq.ind (pos_of_full hf)]
    exact hq.ind_nonneg hf hi
  · rw [hq.page hf]
    exact h.tab_right (hq.page_lt hf i)

/-- The scan stops in the same round. -/
theorem Twin.stop : sweepStop cfg t.pd r = sweepStop cfg s.pd q := by
  have hp : passed cfg t.pd r = passed cfg s.pd q := funext fun i => by
    unfold passed
    simp only [hq.page hf]
    rw [h.flags _ (hq.page_lt hf i) pteA (by decide)]
  unfold sweepStop
  rw [hp]

theorem Twin.swept (k : Nat) : Twin n (s.swept cfg q k) (t.swept cfg r k) := by
  induction k with
  | zero => exact h
  | succ k ih =>
    unfold Vm.swept
    rw [hq.page hf]
    exact ih.clearRef (hq.page_lt hf k)

end

/-- **The same page is inserted**: both queues take it, and the same page is evicted. -/
theorem Twin.insert (h : Twin n s t) (hq : QTwin cfg n q r) {add : Nat} (ha : vpn add < n) :
    ∃ s' q' t' r', clockInsert cfg s q add = .ok (s', q') ∧ clockInsert cfg t r add = .ok (t', r') ∧
      Twin n s' t' ∧ QTwin cfg n q' r' := by
  by_cases h0 : q.inClock = 0
  · refine ⟨s, ⟨Function.update q.nodes 0 add, 1, 1⟩, t, ⟨Function.update r.nodes 0 add, 1, 1⟩,
      ?_, ?_, h, ?_⟩
    · rw [clockInsert, if_pos h0]
    · rw [clockInsert, if_pos (hq.count.trans h0)]
    · obtain ⟨h1, h2⟩ :=
        nodes_update (i := 0) (k := 1) (.inr ⟨by omega, h0.symm⟩) hq.nodes hq.low ha
      exact ⟨rfl, h1, h2, fun _ => rfl, ClockWf.of_eq cfg cfg.clockPos rfl⟩
  have hpos : 0 < q.inClock := by omega
  by_cases hlt : q.inClock < cfg.clockSize
  · have hcur := hq.wf.fill hpos hlt
    have hi : nodeIndex cfg q.currInd = .ok q.inClock := by
      rw [nodeIndex, if_pos (by omega), hcur]
      rfl
    have hsmall := cfg.clockSmall
    have hnext : toI ((q.inClock : Int) + 1) = (q.inClock + 1 : Nat) :=
      toI_of_bounds (by omega) (by omega)
    refine ⟨s, ⟨Function.update q.nodes q.inClock add, q.inClock + 1, toI (q.currInd + 1)⟩,
      t, ⟨Function.update r.nodes q.inClock add, r.inClock + 1, toI (r.currInd + 1)⟩, ?_, ?_, h, ?_⟩
    · rw [clockInsert, if_neg h0, if_pos hlt, hi]
      rfl
    · rw [clockInsert, hq.count, if_neg h0, if_pos hlt, hq.hand hpos, hi]
      rfl
    · obtain ⟨h1, h2⟩ := nodes_update (.inr ⟨rfl, rfl⟩) hq.nodes hq.low ha
      refine ⟨congrArg (· + 1) hq.count, h1, h2, fun _ => ?_, ClockWf.of_eq cfg hlt ?_⟩
      · rw [hq.hand hpos]
      · rw [hcur, hnext]
  · have hfull : q.inClock = cfg.clockSize := by
      have := hq.wf.le
      omega
    have hstop := h.stop hq hfull
    have hvict : victimSlot cfg t.pd r = victimSlot cfg s.pd q := by
      unfold victimSlot
      rw [hstop, hq.slot hpos]
    have hslot : victimSlot cfg s.pd q < cfg.clockSize := sweepSlot_lt cfg _ _
    refine ⟨_, _, _, _, clockInsert_full cfg hpos (by omega) (h.safe_left hq hfull),
      clockInsert_full cfg (by rw [hq.count]; exact hpos) (by rw [hq.count]; omega)
        (h.safe_right hq hfull), ?_, ?_⟩
    · rw [hvict, hstop, hq.nodes _ (by omega)]
      exact (h.swept hq hfull _).sealed (hq.low _ (by omega))
    · obtain ⟨h1, h2⟩ := nodes_update (i := victimSlot cfg s.pd q) (.inl rfl) hq.nodes hq.low ha
      have hmod := Nat.mod_lt (victimSlot cfg s.pd q + 1) cfg.clockPos
      have hsmall := cfg.clockSmall
      rw [hvict]
      refine ⟨hq.count, h1, h2, fun _ => rfl, ⟨hq.wf.le, fun _ h4 => ?_, fun _ => ?_⟩⟩
      · exact absurd h4 (by simpa [evictAt] using hlt)
      · dsimp only
        omega

/-- **`mdecrypt`** returns the same. -/
theorem Twin.mdecrypt (h : Twin n s t) (hq : QTwin cfg n q r) {va : Nat} (hv : vpn va < n) :
    ∃ x s' q' t' r', Xv6Clock.mdecrypt cfg s q va = .ok (x, s', q') ∧
      Xv6Clock.mdecrypt cfg t r va = .ok (x, t', r') ∧ Twin n s' t' ∧ QTwin cfg n q' r' := by
  cases he : encrypted (s.pd.pteAt (vpn va)) with
  | false =>
    exact ⟨_, _, _, _, _, mdecrypt_refuse cfg (h.tab_left hv) he,
      mdecrypt_refuse cfg (h.tab_right hv) ((h.flags _ hv).encrypted.trans he), h, hq⟩
  | true =>
    have he' := (h.flags _ hv).encrypted.trans he
    by_cases hb : firstByte s va = 0#8
    · exact ⟨_, _, _, _, _, mdecrypt_half cfg he hb, mdecrypt_half cfg he' ((h.first hv).trans hb),
        h.halfDec hv he, hq⟩
    · have hb' : firstByte t va ≠ 0#8 := fun hc => hb ((h.first hv).symm.trans hc)
      obtain ⟨s', q', t', r', h1, h2, h3, h4⟩ := (h.opened hv he).insert hq
        (show vpn (pgRoundDown va) < _ by rw [vpn_pgRoundDown]; exact hv)
      refine ⟨0, s', q', t', r', ?_, ?_, h3, h4⟩
      · rw [mdecrypt_open cfg he hb, h1]
        rfl
      · rw [mdecrypt_open cfg he' hb', h2]
        rfl

end

end Xv6Clock
