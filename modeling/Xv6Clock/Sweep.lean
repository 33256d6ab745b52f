/-
  File:      Xv6Clock/Sweep.lean
  Subject:   The eviction scan of `mdecrypt` (vm.c), round by round.

  In round `i` the scan looks at slot `(i + currInd) % CLOCKSIZE`. It passes over the page there,
  and clears its reference bit, if the bit is set; a page it meets a second time has lost the bit
  the first time. So where the scan stops can be read off the state it starts from (`sweepStop`),
  and with it the whole effect of an insertion into a full queue (`clockInsert_full`). The scan
  fails only if a round it comes to has no slot or no page-table page (`SweepSafe`).
-/
import Xv6Clock.Clock

namespace Xv6Clock

variable (cfg : Config)

/-! ## 1. Encrypting one page -/

/-- Page `v` encrypted, if it is a user page in plain text. -/
def Vm.sealed (s : Vm) (v : Nat) : Vm :=
  if plain (s.pd.pteAt v) then s.flip v (sealEntry (s.pd.pteAt v)) else s

variable {s : Vm} {pd : PgDir} {q : ClockQ} {i k n a : Nat}

/-- `mencrypt` on one page, whatever it returns. -/
theorem mencrypt_one {va : Nat} (ht : s.pd.tabAt (vpn va) = true) :
    ∃ x, mencrypt s va 1 = .ok (x, s.sealed (vpn va)) := by
  have hk : va / 4096 % 2 ^ 20 = vpn va := rfl
  have hin : InRange (va / 4096) 1 (vpn va) := (inRange_one _ _).mpr hk.symm
  have hlen : (1 : Int).toNat = 1 := rfl
  rcases mencrypt_cases s va 1 with ⟨h1, u, hu, hU, hm⟩ | ⟨s', h1, he⟩ | ⟨h1, u, hu, htu⟩
  · obtain rfl : u = vpn va := (inRange_one _ u).mp hu
    refine ⟨-1, ?_⟩
    rw [h1, Vm.sealed, if_neg]
    intro hp
    have hP := (plain_iff.mp hp).2.1
    rw [mapped_of_P hP] at hm
    cases hm
  · refine ⟨0, ?_⟩
    rw [h1]
    unfold mencrypt at h1
    rw [pgRoundDown_eq, hlen] at h1
    obtain ⟨good, -, h2⟩ := Lib.bind_eq_ok.mp h1
    split at h2
    · cases h2
    · by_cases hue : has (s.pd.pteAt (vpn va)) pteU = true ∧ has (s.pd.pteAt (vpn va)) pteE = false
      · have hP := (he.sealed _ hin hue.1 hue.2).1
        rw [mencryptPages_seal (k := va / 4096) ht hue.1 hue.2 hP, hk] at h2
        cases h2
        rw [Vm.sealed, if_pos (plain_iff.mpr ⟨hue.1, hP, hue.2⟩)]
      · rw [mencryptPages_skip (k := va / 4096) ht hue] at h2
        cases h2
        rw [Vm.sealed, if_neg fun hp => hue ⟨(plain_iff.mp hp).1, (plain_iff.mp hp).2.2⟩]
  · obtain rfl : u = vpn va := (inRange_one _ u).mp hu
    rw [ht] at htu
    cases htu

@[simp] theorem Vm.sealed_tabAt (s : Vm) (v u : Nat) : (s.sealed v).pd.tabAt u = s.pd.tabAt u := by
  unfold Vm.sealed
  split
  · exact PgDir.tabAt_store _ _ _ _
  · rfl

theorem Vm.sealed_pteAt_ne (s : Vm) {v u : Nat} (h : u ≠ v) :
    (s.sealed v).pd.pteAt u = s.pd.pteAt u := by
  unfold Vm.sealed
  split
  · exact PgDir.pteAt_store_ne _ _ h
  · rfl

/-! ## 2. Rounds -/

/-- `(i + currInd) % CLOCKSIZE`, as the source computes it on `int`. -/
def sweepInd (q : ClockQ) (i : Nat) : Int := (toI (i + q.currInd)).tmod cfg.clockSize

/-- The slot of round `i`. -/
def sweepSlot (q : ClockQ) (i : Nat) : Nat := (sweepInd cfg q i).toNat

/-- The page number in the slot of round `i`. -/
def sweepPage (q : ClockQ) (i : Nat) : Nat := vpn (q.nodes (sweepSlot cfg q i))

/-- The scan passes over the page of round `i`: its reference bit is set, and no round before has
    cleared it. -/
def passed (pd : PgDir) (q : ClockQ) (i : Nat) : Bool :=
  has (pd.pteAt (sweepPage cfg q i)) pteA &&
    (List.range i).all fun j => sweepPage cfg q j != sweepPage cfg q i

/-- The first round that does not pass over its page, or CLOCKSIZE. -/
def sweepStop (pd : PgDir) (q : ClockQ) : Nat :=
  (List.range cfg.clockSize).findIdx fun i => !passed cfg pd q i

/-- Round `i` has a slot, and its page a page-table page. -/
def RoundSafe (pd : PgDir) (q : ClockQ) (i : Nat) : Prop :=
  0 ≤ sweepInd cfg q i ∧ pd.tabAt (sweepPage cfg q i) = true

instance (pd : PgDir) (q : ClockQ) (i : Nat) : Decidable (RoundSafe cfg pd q i) :=
  inferInstanceAs (Decidable (_ ∧ _))

/-- **No round the scan comes to fails.** -/
def SweepSafe (pd : PgDir) (q : ClockQ) : Prop :=
  ∀ i, i < cfg.clockSize → i ≤ sweepStop cfg pd q → RoundSafe cfg pd q i

theorem passed_iff : passed cfg pd q i = true ↔
    has (pd.pteAt (sweepPage cfg q i)) pteA = true ∧
      ∀ j, j < i → sweepPage cfg q j ≠ sweepPage cfg q i := by
  simp [passed]

theorem sweepStop_le (pd : PgDir) (q : ClockQ) : sweepStop cfg pd q ≤ cfg.clockSize := by
  have h : sweepStop cfg pd q ≤ (List.range cfg.clockSize).length := List.findIdx_le_length
  rwa [List.length_range] at h

/-- Every round before the stop passes. -/
theorem passed_of_lt (h : i < sweepStop cfg pd q) : passed cfg pd q i = true := by
  have h1 := List.not_of_lt_findIdx h
  simpa using h1

/-- The round at the stop does not. -/
theorem not_passed_stop (h : sweepStop cfg pd q < cfg.clockSize) :
    passed cfg pd q (sweepStop cfg pd q) = false := by
  have hlen : (List.range cfg.clockSize).findIdx (fun i => !passed cfg pd q i) <
      (List.range cfg.clockSize).length := by
    rw [List.length_range]
    exact h
  have h1 := List.findIdx_getElem (w := hlen)
  rw [List.getElem_range, Bool.not_eq_true'] at h1
  exact h1

theorem sweepInd_lt (q : ClockQ) (i : Nat) : sweepInd cfg q i < cfg.clockSize :=
  Int.tmod_lt_of_pos _ (by have := cfg.clockPos; omega)

theorem sweepSlot_lt (q : ClockQ) (i : Nat) : sweepSlot cfg q i < cfg.clockSize := by
  have h := sweepInd_lt cfg q i
  have hpos := cfg.clockPos
  unfold sweepSlot
  omega

/-- The rounds of a hand that does not overflow. -/
theorem sweepInd_of_hand (h0 : 0 ≤ q.currInd) (h1 : q.currInd + cfg.clockSize < 2 ^ 31)
    (hi : i < cfg.clockSize) :
    sweepInd cfg q i = ((q.currInd.toNat + i) % cfg.clockSize : Nat) := by
  have he : (i : Int) + q.currInd = ((q.currInd.toNat + i : Nat) : Int) := by omega
  unfold sweepInd
  rw [toI_of_bounds (by omega) (by omega), Int.tmod_eq_emod_of_nonneg (by omega), he]
  rfl

theorem sweepSlot_of_hand (h0 : 0 ≤ q.currInd) (h1 : q.currInd + cfg.clockSize < 2 ^ 31)
    (hi : i < cfg.clockSize) : sweepSlot cfg q i = (q.currInd.toNat + i) % cfg.clockSize := by
  rw [sweepSlot, sweepInd_of_hand cfg h0 h1 hi]
  rfl

theorem nodeIndex_sweep (h : 0 ≤ sweepInd cfg q i) :
    nodeIndex cfg ((toI (i + q.currInd)).tmod cfg.clockSize) = .ok (sweepSlot cfg q i) :=
  if_pos ⟨h, sweepInd_lt cfg q i⟩

/-! ## 3. Pages passed over -/

/-- The reference bits of the first `k` rounds cleared. -/
def Vm.swept (s : Vm) (q : ClockQ) : Nat → Vm
  | 0 => s
  | k + 1 => (s.swept q k).mark (sweepPage cfg q k)
      (clearRef ((s.swept q k).pd.pteAt (sweepPage cfg q k)))

@[simp] theorem swept_m (s : Vm) (q : ClockQ) (k : Nat) : (s.swept cfg q k).m = s.m := by
  induction k with
  | zero => rfl
  | succ k ih => exact ih

@[simp] theorem swept_tabAt (s : Vm) (q : ClockQ) (k u : Nat) :
    (s.swept cfg q k).pd.tabAt u = s.pd.tabAt u := by
  induction k with
  | zero => rfl
  | succ k ih => exact (PgDir.tabAt_store _ _ _ _).trans ih

/-- **An entry after `k` rounds.** -/
theorem swept_pteAt (ht : ∀ j, j < k → s.pd.tabAt (sweepPage cfg q j) = true) (u : Nat) :
    (s.swept cfg q k).pd.pteAt u =
      if ∃ j, j < k ∧ sweepPage cfg q j = u then clearRef (s.pd.pteAt u) else s.pd.pteAt u := by
  induction k with
  | zero => exact (if_neg fun ⟨j, hj, _⟩ => absurd hj (Nat.not_lt_zero j)).symm
  | succ k ih =>
    have htk : (s.swept cfg q k).pd.tabAt (sweepPage cfg q k) = true := by
      rw [swept_tabAt]
      exact ht k (Nat.lt_succ_self k)
    have hstore : (s.swept cfg q (k + 1)).pd.pteAt u =
        if u = sweepPage cfg q k then clearRef ((s.swept cfg q k).pd.pteAt (sweepPage cfg q k))
        else (s.swept cfg q k).pd.pteAt u := PgDir.pteAt_store _ _ htk
    have hk := ih fun j hj => ht j (by omega)
    rw [hstore]
    by_cases hu : u = sweepPage cfg q k
    · have hlast : ∃ j, j < k + 1 ∧ sweepPage cfg q j = u := ⟨k, Nat.lt_succ_self k, hu.symm⟩
      rw [if_pos hu, ← hu, hk, if_pos hlast]
      split
      · exact clearRef_clearRef _
      · rfl
    · rw [if_neg hu, hk]
      refine if_congr ⟨fun ⟨j, hj, h⟩ => ⟨j, by omega, h⟩, fun ⟨j, hj, h⟩ => ⟨j, ?_, h⟩⟩ rfl rfl
      have : j ≠ k := fun e => hu (by rw [← h, e])
      omega

/-- What the scan finds in round `k`. -/
theorem swept_ref (ht : ∀ j, j < k → s.pd.tabAt (sweepPage cfg q j) = true) :
    has ((s.swept cfg q k).pd.pteAt (sweepPage cfg q k)) pteA = passed cfg s.pd q k := by
  rw [swept_pteAt cfg ht, Bool.eq_iff_iff, passed_iff]
  split
  · rename_i h
    obtain ⟨j, hj, he⟩ := h
    rw [has_clearRef_A]
    exact ⟨nofun, fun h => absurd he (h.2 j hj)⟩
  · rename_i h
    exact ⟨fun hA => ⟨hA, fun j hj he => h ⟨j, hj, he⟩⟩, fun hA => hA.1⟩

/-! ## 4. The scan -/

/-- What an eviction from slot `r` leaves. -/
def evictAt (s : Vm) (q : ClockQ) (add r : Nat) : Vm × ClockQ :=
  (s.sealed (vpn (q.nodes r)),
    ⟨Function.update q.nodes r add, q.inClock, ((r + 1) % cfg.clockSize : Nat)⟩)

/-- A round that passes. -/
theorem evictPass_pass {add : Nat} (ht : ∀ j, j < k → s.pd.tabAt (sweepPage cfg q j) = true)
    (hs : RoundSafe cfg s.pd q k) (hp : passed cfg s.pd q k = true) :
    evictPass cfg (n + 1) (s.swept cfg q k) q add k =
      evictPass cfg n (s.swept cfg q (k + 1)) q add (k + 1) := by
  have htk : (s.swept cfg q k).pd.tabAt (vpn (q.nodes (sweepSlot cfg q k))) = true := by
    rw [swept_tabAt]
    exact hs.2
  have hA : has ((s.swept cfg q k).pd.pteAt (vpn (q.nodes (sweepSlot cfg q k)))) pteA = _ :=
    swept_ref cfg ht
  rw [hp] at hA
  conv_lhs => unfold evictPass
  rw [nodeIndex_sweep cfg hs.1, Lib.ok_bind, PgDir.walk_of_tabAt htk]
  dsimp only
  rw [if_pos hA]
  rfl

/-- The round that does not. -/
theorem evictPass_stop {add : Nat} (ht : ∀ j, j < k → s.pd.tabAt (sweepPage cfg q j) = true)
    (hs : RoundSafe cfg s.pd q k) (hp : passed cfg s.pd q k = false) :
    evictPass cfg (n + 1) (s.swept cfg q k) q add k =
      .ok (true, evictAt cfg (s.swept cfg q k) q add (sweepSlot cfg q k)) := by
  have htk : (s.swept cfg q k).pd.tabAt (vpn (q.nodes (sweepSlot cfg q k))) = true := by
    rw [swept_tabAt]
    exact hs.2
  have hA : has ((s.swept cfg q k).pd.pteAt (vpn (q.nodes (sweepSlot cfg q k)))) pteA = _ :=
    swept_ref cfg ht
  rw [hp] at hA
  obtain ⟨x, hx⟩ := mencrypt_one htk
  unfold evictPass
  rw [nodeIndex_sweep cfg hs.1, Lib.ok_bind, PgDir.walk_of_tabAt htk]
  dsimp only
  rw [hA, if_neg Bool.false_ne_true, hx]
  rfl

/-- How round `k` fails: it has no slot, or its page no page-table page. -/
def roundError (q : ClockQ) (k : Nat) : Err :=
  if 0 ≤ sweepInd cfg q k then .nullPte else .oob (sweepInd cfg q k)

/-- A round that fails. -/
theorem evictPass_unsafe (hs : ¬ RoundSafe cfg s.pd q k) :
    evictPass cfg (n + 1) (s.swept cfg q k) q a k = .error (roundError cfg q k) := by
  unfold evictPass roundError
  by_cases h0 : 0 ≤ sweepInd cfg q k
  · have htk : (s.swept cfg q k).pd.tabAt (vpn (q.nodes (sweepSlot cfg q k))) = false := by
      rw [swept_tabAt]
      cases ht : s.pd.tabAt (vpn (q.nodes (sweepSlot cfg q k))) with
      | false => rfl
      | true => exact absurd ⟨h0, ht⟩ hs
    rw [nodeIndex_sweep cfg h0, Lib.ok_bind, PgDir.walk_of_no_tab htk, if_pos h0]
  · have hi : nodeIndex cfg ((toI (k + q.currInd)).tmod cfg.clockSize) =
        .error (.oob (sweepInd cfg q k)) := if_neg fun h => h0 h.1
    rw [hi, if_neg h0]
    rfl

/-- The rounds before round `k` all pass. -/
theorem evictPass_rounds (k : Nat) (hs : ∀ j, j < k → RoundSafe cfg s.pd q j)
    (hp : ∀ j, j < k → passed cfg s.pd q j = true) :
    evictPass cfg (k + n) s q a 0 = evictPass cfg n (s.swept cfg q k) q a k := by
  induction k generalizing n with
  | zero => rw [Nat.zero_add]; rfl
  | succ k ih =>
    rw [show k + 1 + n = k + (n + 1) by omega,
      ih (fun j hj => hs j (by omega)) (fun j hj => hp j (by omega)),
      evictPass_pass cfg (fun j hj => (hs j (by omega)).2) (hs k (by omega)) (hp k (by omega))]

/-- The slot an insertion into a full queue takes: where the scan stops, or where it started. -/
def victimSlot (pd : PgDir) (q : ClockQ) : Nat :=
  sweepSlot cfg q (sweepStop cfg pd q % cfg.clockSize)

/-- **Insertion into a full queue.** -/
theorem clockInsert_full (h0 : 0 < q.inClock) (hf : cfg.clockSize ≤ q.inClock)
    (hs : SweepSafe cfg s.pd q) :
    clockInsert cfg s q a =
      .ok (evictAt cfg (s.swept cfg q (sweepStop cfg s.pd q)) q a (victimSlot cfg s.pd q)) := by
  have hpos := cfg.clockPos
  have hle := sweepStop_le cfg s.pd q
  have hsafe : ∀ j, j < sweepStop cfg s.pd q → RoundSafe cfg s.pd q j :=
    fun j hj => hs j (by omega) (by omega)
  have hrounds := fun n => evictPass_rounds cfg (a := a) (n := n) (sweepStop cfg s.pd q) hsafe
    fun j hj => passed_of_lt cfg hj
  unfold clockInsert
  rw [if_neg (by omega), if_neg (by omega)]
  by_cases hlt : sweepStop cfg s.pd q < cfg.clockSize
  · obtain ⟨n, hn⟩ : ∃ n, cfg.clockSize = sweepStop cfg s.pd q + (n + 1) :=
      ⟨cfg.clockSize - sweepStop cfg s.pd q - 1, by omega⟩
    have h1 : evictPass cfg cfg.clockSize s q a 0 = .ok (true,
        evictAt cfg (s.swept cfg q (sweepStop cfg s.pd q)) q a
          (sweepSlot cfg q (sweepStop cfg s.pd q))) := by
      conv_lhs => rw [hn]
      rw [hrounds, evictPass_stop cfg (fun j hj => (hsafe j hj).2) (hs _ hlt (Nat.le_refl _))
        (not_passed_stop cfg hlt)]
    rw [h1, victimSlot, Nat.mod_eq_of_lt hlt]
    rfl
  · -- every page had its bit: the second pass stops in its first round
    have he : sweepStop cfg s.pd q = cfg.clockSize := by omega
    have h1 : evictPass cfg cfg.clockSize s q a 0 =
        .ok (false, s.swept cfg q cfg.clockSize, q) := by
      have := hrounds 0
      rw [Nat.add_zero, he] at this
      exact this
    have ht : ∀ j, j < cfg.clockSize → s.pd.tabAt (sweepPage cfg q j) = true :=
      fun j hj => (hsafe j (by omega)).2
    have hround : RoundSafe cfg (s.swept cfg q cfg.clockSize).pd q 0 := by
      refine ⟨(hsafe 0 (by omega)).1, ?_⟩
      rw [swept_tabAt]
      exact ht 0 (by omega)
    have hA : passed cfg (s.swept cfg q cfg.clockSize).pd q 0 = false := by
      rw [Bool.eq_false_iff]
      intro hp
      have hA := ((passed_iff cfg).mp hp).1
      rw [swept_pteAt cfg ht, if_pos ⟨0, by omega, rfl⟩, has_clearRef_A] at hA
      cases hA
    have h2 : ∀ n, evictPass cfg (n + 1) (s.swept cfg q cfg.clockSize) q a 0 = .ok (true,
        evictAt cfg (s.swept cfg q cfg.clockSize) q a (sweepSlot cfg q 0)) := fun n =>
      evictPass_stop cfg (s := s.swept cfg q cfg.clockSize) (fun j hj => by omega) hround hA
    have h3 := h2 (cfg.clockSize - 1)
    rw [show cfg.clockSize - 1 + 1 = cfg.clockSize by omega] at h3
    rw [h1, Lib.ok_bind]
    dsimp only
    rw [if_neg Bool.false_ne_true, h3, he, victimSlot, he, Nat.mod_self]
    rfl

/-- Insertion into a full queue fails otherwise, in the first round that does. -/
theorem clockInsert_full_unsafe (h0 : 0 < q.inClock) (hf : cfg.clockSize ≤ q.inClock)
    (hs : ¬ SweepSafe cfg s.pd q) :
    ∃ k, k < cfg.clockSize ∧ k ≤ sweepStop cfg s.pd q ∧ (∀ j, j < k → RoundSafe cfg s.pd q j) ∧
      ¬ RoundSafe cfg s.pd q k ∧ clockInsert cfg s q a = .error (roundError cfg q k) := by
  -- the first round that fails
  have hex : ∃ i, i < cfg.clockSize ∧ i ≤ sweepStop cfg s.pd q ∧ ¬ RoundSafe cfg s.pd q i := by
    simp only [SweepSafe, not_forall] at hs
    obtain ⟨i, h1, h2, h3⟩ := hs
    exact ⟨i, h1, h2, h3⟩
  classical
  obtain ⟨h1, h2, h3⟩ := Nat.find_spec hex
  have hmin : ∀ j, j < Nat.find hex → RoundSafe cfg s.pd q j := fun j hj => by
    by_contra hc
    exact Nat.find_min hex hj ⟨by omega, by omega, hc⟩
  obtain ⟨n, hn⟩ : ∃ n, cfg.clockSize = Nat.find hex + (n + 1) :=
    ⟨cfg.clockSize - Nat.find hex - 1, by omega⟩
  refine ⟨Nat.find hex, h1, h2, hmin, h3, ?_⟩
  have hpass : evictPass cfg cfg.clockSize s q a 0 = .error (roundError cfg q (Nat.find hex)) := by
    conv_lhs => rw [hn]
    rw [evictPass_rounds cfg _ hmin fun j hj => passed_of_lt cfg (by omega),
      evictPass_unsafe cfg h3]
  unfold clockInsert
  rw [if_neg (by omega), if_neg (by omega), hpass]
  rfl

/-! ## 5. When an insertion returns -/

/-- **The queue can take a page**: it is empty, has a place at `currInd`, or is full and the scan
    does not fail. -/
def InsertSafe (pd : PgDir) (q : ClockQ) : Prop :=
  q.inClock = 0 ∨ (0 < q.inClock ∧ q.inClock < cfg.clockSize ∧ 0 ≤ q.currInd ∧
    q.currInd < cfg.clockSize) ∨
  (0 < q.inClock ∧ cfg.clockSize ≤ q.inClock ∧ SweepSafe cfg pd q)

theorem clockInsert_returns : (∃ r, clockInsert cfg s q a = .ok r) ↔ InsertSafe cfg s.pd q := by
  by_cases h0 : q.inClock = 0
  · refine ⟨fun _ => .inl h0, fun _ => ?_⟩
    unfold clockInsert
    rw [if_pos h0]
    exact ⟨_, rfl⟩
  by_cases hlt : q.inClock < cfg.clockSize
  · have heq : clockInsert cfg s q a = (do
        let i ← nodeIndex cfg q.currInd
        .ok (s, ⟨Function.update q.nodes i a, q.inClock + 1, toI (q.currInd + 1)⟩)) := by
      unfold clockInsert
      rw [if_neg h0, if_pos hlt]
    rw [heq]
    by_cases hi : 0 ≤ q.currInd ∧ q.currInd < cfg.clockSize
    · refine ⟨fun _ => .inr (.inl ⟨by omega, hlt, hi⟩), fun _ => ?_⟩
      rw [nodeIndex, if_pos hi]
      exact ⟨_, rfl⟩
    · refine ⟨fun ⟨r, hr⟩ => ?_, ?_⟩
      · rw [nodeIndex, if_neg hi] at hr
        cases hr
      · rintro (h | h | h)
        · exact absurd h h0
        · exact absurd h.2.2 hi
        · omega
  · refine ⟨fun ⟨r, hr⟩ => .inr (.inr ⟨by omega, by omega, ?_⟩), ?_⟩
    · by_contra hs
      obtain ⟨k, -, -, -, -, he⟩ :=
        clockInsert_full_unsafe cfg (a := a) (by omega) (by omega) hs
      rw [he] at hr
      cases hr
    · rintro (h | h | h)
      · exact absurd h h0
      · omega
      · exact ⟨_, clockInsert_full cfg h.1 h.2.1 h.2.2⟩

end Xv6Clock
