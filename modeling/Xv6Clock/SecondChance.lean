/-
  File:      Xv6Clock/SecondChance.lean
  Subject:   Eviction from a full queue of distinct pages is second-chance replacement.

  Read the slots cyclically from the hand. The victim is the first page whose reference bit is
  clear, or the page under the hand if all bits are set; the pages passed over lose their bits. The
  doubly nested loop of `mdecrypt` does this for every position of the hand, every assignment of
  bits and every CLOCKSIZE.
-/
import Mathlib.Data.Nat.ModEq
import Xv6Clock.Accepts

namespace Xv6Clock

variable (cfg : Config)

/-! ## 1. Entries -/

/-- A page that `mencrypt` encrypts has its reference bit set by the encryption and cleared after
    it. -/
theorem sealEntry_eq (w : Word) : sealEntry w = encEntry (clearRef w) := by
  have h : clearRef (setRef w) = clearRef w := by
    unfold clearRef setRef
    apply BitVec.eq_of_getLsbD_eq
    intro i hi
    simp only [BitVec.getLsbD_and, BitVec.getLsbD_or, BitVec.getLsbD_not, hi, decide_true,
      Bool.true_and]
    cases w.getLsbD i <;> cases pteA.getLsbD i <;> rfl
  unfold sealEntry
  rw [h]

theorem sealEntry_clearRef (w : Word) : sealEntry (clearRef w) = sealEntry w := by
  rw [sealEntry_eq, sealEntry_eq, clearRef_clearRef]

/-- The bytes of frame `f` complemented. -/
def Kmem.flipFrame (m : Kmem) (f : Frame) : Kmem := m.setPage f (xorPage (m.mem f))

variable {s : Vm} {m j : Nat} {pd' : PgDir}

/-- The scan changes a reference bit at most. -/
theorem swept_entry {q : ClockQ}
    (ht : ∀ j, j < m → s.pd.tabAt (sweepPage cfg q j) = true) (u : Nat) :
    (s.swept cfg q m).pd.pteAt u = s.pd.pteAt u ∨
      (s.swept cfg q m).pd.pteAt u = clearRef (s.pd.pteAt u) := by
  rw [swept_pteAt cfg ht]
  split
  · exact .inr rfl
  · exact .inl rfl

theorem swept_plain {q : ClockQ}
    (ht : ∀ j, j < m → s.pd.tabAt (sweepPage cfg q j) = true) (u : Nat) :
    plain ((s.swept cfg q m).pd.pteAt u) = plain (s.pd.pteAt u) := by
  rcases swept_entry cfg ht u with h | h <;> rw [h]
  exact plain_clearRef _

theorem swept_frame {q : ClockQ}
    (ht : ∀ j, j < m → s.pd.tabAt (sweepPage cfg q j) = true) (u : Nat) :
    pteFrame ((s.swept cfg q m).pd.pteAt u) = pteFrame (s.pd.pteAt u) := by
  rcases swept_entry cfg ht u with h | h <;> rw [h]
  exact pteFrame_clearRef _

/-- The victim after the scan. -/
theorem evicted_victim {q : ClockQ} {v : Nat}
    (ht : ∀ j, j < m → s.pd.tabAt (sweepPage cfg q j) = true) (hp : plain (s.pd.pteAt v) = true) :
    ((s.swept cfg q m).sealed v).pd.pteAt v = encEntry (clearRef (s.pd.pteAt v)) := by
  have hv : s.pd.tabAt v = true := PgDir.tabAt_of_mapped (mapped_of_P (plain_iff.mp hp).2.1)
  have hstore : ((s.swept cfg q m).sealed v).pd.pteAt v =
      sealEntry ((s.swept cfg q m).pd.pteAt v) := by
    rw [Vm.sealed, if_pos ((swept_plain cfg ht v).trans hp)]
    exact PgDir.pteAt_store_self _ ((swept_tabAt cfg s q m v).trans hv)
  rw [hstore]
  rcases swept_entry cfg ht v with h | h
  · rw [h, sealEntry_eq]
  · rw [h, sealEntry_clearRef, sealEntry_eq]

/-- Its bytes. -/
theorem evicted_m {q : ClockQ} {v : Nat} (ht : ∀ j, j < m → s.pd.tabAt (sweepPage cfg q j) = true)
    (hp : plain (s.pd.pteAt v) = true) :
    ((s.swept cfg q m).sealed v).m = s.m.flipFrame (pteFrame (s.pd.pteAt v)) := by
  rw [Vm.sealed, if_pos ((swept_plain cfg ht v).trans hp)]
  unfold Vm.flip Kmem.flipFrame
  dsimp only
  rw [swept_frame cfg ht, swept_m]

/-! ## 2. Distinct pages -/

/-- The `j`th slot from the hand. -/
def handSlot (q : ClockQ) (j : Nat) : Nat := (q.currInd.toNat + j) % cfg.clockSize

/-- The page number in it. -/
def handPage (q : ClockQ) (j : Nat) : Nat := vpn (q.nodes (handSlot cfg q j))

/-- **A full queue of distinct present user pages.** -/
structure FullQueue (pd : PgDir) (q : ClockQ) : Prop where
  full : q.inClock = cfg.clockSize
  low : 0 ≤ q.currInd
  high : q.currInd ≤ cfg.clockSize
  distinct : ∀ i j, i < cfg.clockSize → j < cfg.clockSize → vpn (q.nodes i) = vpn (q.nodes j) →
    i = j
  present : ∀ i, i < cfg.clockSize → plain (pd.pteAt (vpn (q.nodes i))) = true

instance (pd : PgDir) (q : ClockQ) : Decidable (FullQueue cfg pd q) :=
  decidable_of_iff (q.inClock = cfg.clockSize ∧ 0 ≤ q.currInd ∧ q.currInd ≤ cfg.clockSize ∧
    (∀ i, i < cfg.clockSize → ∀ j, j < cfg.clockSize → vpn (q.nodes i) = vpn (q.nodes j) → i = j) ∧
    ∀ i, i < cfg.clockSize → plain (pd.pteAt (vpn (q.nodes i))) = true)
  ⟨fun ⟨h1, h2, h3, h4, h5⟩ => ⟨h1, h2, h3, fun i j hi hj => h4 i hi j hj, h5⟩,
    fun h => ⟨h.full, h.low, h.high, fun i hi j hj => h.distinct i j hi hj, h.present⟩⟩

section
variable {cfg} {pd : PgDir} {q : ClockQ}

theorem handSlot_lt (q : ClockQ) (j : Nat) : handSlot cfg q j < cfg.clockSize :=
  Nat.mod_lt _ cfg.clockPos

section
variable (h : FullQueue cfg pd q)
include h

theorem FullQueue.ind (hj : j < cfg.clockSize) : sweepInd cfg q j = handSlot cfg q j := by
  have hhigh := h.high
  have hsmall := cfg.clockSmall
  exact sweepInd_of_hand cfg h.low (by omega) hj

theorem FullQueue.slot (hj : j < cfg.clockSize) : sweepSlot cfg q j = handSlot cfg q j := by
  unfold sweepSlot
  rw [h.ind hj]
  rfl

theorem FullQueue.page (hj : j < cfg.clockSize) : sweepPage cfg q j = handPage cfg q j := by
  unfold sweepPage handPage
  rw [h.slot hj]

/-- Different rounds look at different pages. -/
theorem FullQueue.page_inj {i : Nat} (hi : i < cfg.clockSize) (hj : j < cfg.clockSize)
    (he : handPage cfg q i = handPage cfg q j) : i = j := by
  have hs : (q.currInd.toNat + i) % cfg.clockSize = (q.currInd.toNat + j) % cfg.clockSize :=
    h.distinct _ _ (handSlot_lt q i) (handSlot_lt q j) he
  have hm : i % cfg.clockSize = j % cfg.clockSize := Nat.ModEq.add_left_cancel' _ hs
  rwa [Nat.mod_eq_of_lt hi, Nat.mod_eq_of_lt hj] at hm

theorem FullQueue.plain_page (j : Nat) :
    plain (pd.pteAt (handPage cfg q j)) = true := h.present _ (handSlot_lt q j)

theorem FullQueue.safe (ht : ∀ u, pd'.tabAt u = pd.tabAt u) :
    SweepSafe cfg pd' q := fun j hj _ => by
  refine ⟨?_, ?_⟩
  · rw [h.ind hj]
    exact Int.natCast_nonneg _
  · rw [h.page hj, ht]
    exact PgDir.tabAt_of_mapped (mapped_of_P (plain_iff.mp (h.plain_page j)).2.1)

/-- With distinct pages only the reference bit counts. -/
theorem FullQueue.passed_iff (hj : j < cfg.clockSize) :
    passed cfg pd' q j = true ↔ has (pd'.pteAt (handPage cfg q j)) pteA = true := by
  rw [Xv6Clock.passed_iff, h.page hj]
  refine and_iff_left fun i hi he => ?_
  rw [h.page (by omega)] at he
  have := h.page_inj (by omega) hj he
  omega

end

end

/-! ## 3. The replacement -/

/-- The page of round `j` is referenced. -/
def refAt (pd : PgDir) (q : ClockQ) (j : Nat) : Prop :=
  has (pd.pteAt (handPage cfg q j)) pteA = true

/-- **Second chance**: round `k` has the victim, and the first `m` rounds pass over their pages. -/
def SecondChance (pd : PgDir) (q : ClockQ) (k m : Nat) : Prop :=
  (k < cfg.clockSize ∧ m = k ∧ ¬ refAt cfg pd q k ∧ ∀ j, j < k → refAt cfg pd q j) ∨
  (k = 0 ∧ m = cfg.clockSize ∧ ∀ j, j < cfg.clockSize → refAt cfg pd q j)

/-- **What replacing the page of round `k` by the page of `va` does**: the new page is decrypted,
    the victim encrypted, the other pages passed over lose their reference bit; no other entry and
    no other byte changes. The new page takes the victim's slot, and the hand the place after
    it. -/
structure Replaced (s s' : Vm) (q q' : ClockQ) (va k m : Nat) : Prop where
  new : s'.pd.pteAt (vpn va) = openEntry (s.pd.pteAt (vpn va))
  victim : s'.pd.pteAt (handPage cfg q k) = encEntry (clearRef (s.pd.pteAt (handPage cfg q k)))
  passed : ∀ j, j < m → j ≠ k →
    s'.pd.pteAt (handPage cfg q j) = clearRef (s.pd.pteAt (handPage cfg q j))
  other : ∀ u, u ≠ vpn va → u ≠ handPage cfg q k → (∀ j, j < m → u ≠ handPage cfg q j) →
    s'.pd.pteAt u = s.pd.pteAt u
  mem : s'.m = (s.m.flipFrame (pteFrame (s.pd.pteAt (vpn va)))).flipFrame
    (pteFrame (s.pd.pteAt (handPage cfg q k)))
  nodes : q'.nodes = Function.update q.nodes (handSlot cfg q k) (pgRoundDown va)
  inClock : q'.inClock = cfg.clockSize
  currInd : q'.currInd = ((handSlot cfg q k + 1) % cfg.clockSize : Nat)

/-- Where the scan stops is where second chance does. -/
theorem FullQueue.secondChance {pd : PgDir} {q : ClockQ} (h : FullQueue cfg pd q)
    (hr : ∀ j, j < cfg.clockSize →
      has (pd'.pteAt (handPage cfg q j)) pteA = has (pd.pteAt (handPage cfg q j)) pteA) :
    SecondChance cfg pd q (sweepStop cfg pd' q % cfg.clockSize) (sweepStop cfg pd' q) := by
  have hle := sweepStop_le cfg pd' q
  have hbefore : ∀ j, j < sweepStop cfg pd' q → refAt cfg pd q j := fun j hj => by
    have hp := (h.passed_iff (by omega)).mp (passed_of_lt cfg hj)
    rwa [hr j (by omega)] at hp
  by_cases hlt : sweepStop cfg pd' q < cfg.clockSize
  · rw [Nat.mod_eq_of_lt hlt]
    refine .inl ⟨hlt, rfl, fun href => ?_, hbefore⟩
    have hp := not_passed_stop cfg hlt
    rw [(h.passed_iff hlt).mpr ((hr _ hlt).trans href)] at hp
    cases hp
  · have he : sweepStop cfg pd' q = cfg.clockSize := by omega
    rw [he, Nat.mod_self]
    exact .inr ⟨rfl, rfl, fun j hj => hbefore j (by omega)⟩

theorem SecondChance.lt {pd : PgDir} {q : ClockQ} {k : Nat} (h : SecondChance cfg pd q k m) :
    k < cfg.clockSize ∧ m ≤ cfg.clockSize := by
  have hpos := cfg.clockPos
  rcases h with ⟨h1, h2, -⟩ | ⟨h1, h2, -⟩ <;> omega

/-- **Eviction is second-chance replacement.** For every full queue of distinct present user pages
    and every encrypted user page outside it that `mdecrypt` does not refuse, `mdecrypt` returns 0
    and replaces the second-chance victim, and nothing else, by the new page. -/
theorem mdecrypt_secondChance (s : Vm) (q : ClockQ) (va : Nat) (hq : FullQueue cfg s.pd q)
    (he : encrypted (s.pd.pteAt (vpn va)) = true) (hb : firstByte s va ≠ 0#8)
    (hnew : ∀ i, i < cfg.clockSize → vpn (q.nodes i) ≠ vpn va) :
    ∃ s' q' k m, mdecrypt cfg s q va = .ok (0, s', q') ∧ SecondChance cfg s.pd q k m ∧
      Replaced cfg s s' q q' va k m := by
  have hpos := cfg.clockPos
  have ht : s.pd.tabAt (vpn va) = true :=
    PgDir.tabAt_of_mapped (mapped_of_E (encrypted_iff.mp he).1)
  have hne : ∀ j, handPage cfg q j ≠ vpn va := fun j => hnew _ (handSlot_lt q j)
  have hopen : ∀ u, (s.opened (vpn va)).pd.pteAt u =
      if u = vpn va then openEntry (s.pd.pteAt (vpn va)) else s.pd.pteAt u :=
    fun u => PgDir.pteAt_store _ _ ht
  have hpage : ∀ j, (s.opened (vpn va)).pd.pteAt (handPage cfg q j) =
      s.pd.pteAt (handPage cfg q j) := fun j => by rw [hopen, if_neg (hne j)]
  have htab : ∀ u, (s.opened (vpn va)).pd.tabAt u = s.pd.tabAt u :=
    fun u => PgDir.tabAt_store _ _ _ _
  have href : ∀ j, j < cfg.clockSize → has ((s.opened (vpn va)).pd.pteAt (handPage cfg q j)) pteA =
      has (s.pd.pteAt (handPage cfg q j)) pteA := fun j _ => by rw [hpage]
  have hsc := hq.secondChance cfg href
  have hins := clockInsert_full cfg (a := pgRoundDown va) (by rw [hq.full]; omega)
    (Nat.le_of_eq hq.full.symm) (hq.safe htab)
  unfold evictAt victimSlot at hins
  generalize hkeq : sweepStop cfg (s.opened (vpn va)).pd q % cfg.clockSize = k at hsc hins
  generalize sweepStop cfg (s.opened (vpn va)).pd q = m at hsc hins
  obtain ⟨hk, hm⟩ := hsc.lt cfg
  have hround : ∀ j, j < m → sweepPage cfg q j = handPage cfg q j := fun j hj => hq.page (by omega)
  have htabs : ∀ j, j < m → (s.opened (vpn va)).pd.tabAt (sweepPage cfg q j) = true :=
    fun j hj => by
      rw [hround j hj, htab]
      exact PgDir.tabAt_of_mapped (mapped_of_P (plain_iff.mp (hq.plain_page j)).2.1)
  have hplain : plain ((s.opened (vpn va)).pd.pteAt (handPage cfg q k)) = true := by
    rw [hpage]
    exact hq.plain_page k
  have hswept : ∀ u, u ≠ handPage cfg q k →
      (((s.opened (vpn va)).swept cfg q m).sealed (handPage cfg q k)).pd.pteAt u =
        if ∃ j, j < m ∧ sweepPage cfg q j = u then clearRef ((s.opened (vpn va)).pd.pteAt u)
        else (s.opened (vpn va)).pd.pteAt u := fun u hu => by
    rw [Vm.sealed_pteAt_ne _ hu, swept_pteAt cfg htabs]
  rw [hq.slot hk] at hins
  have hres := mdecrypt_open cfg (q := q) he hb
  rw [hins, Lib.ok_bind] at hres
  refine ⟨_, _, k, m, hres, hsc,
    ⟨?_, ?_, fun j hj hjk => ?_, fun u h1 h2 h3 => ?_, ?_, rfl, hq.full, rfl⟩⟩
  · refine (hswept _ (hne k).symm).trans ?_
    rw [if_neg fun ⟨j, hj, e⟩ => hne j ((hround j hj).symm.trans e), hopen, if_pos rfl]
  · refine (evicted_victim cfg htabs hplain).trans ?_
    rw [hpage]
  · have hpk : handPage cfg q j ≠ handPage cfg q k := fun e =>
      hjk (hq.page_inj (by omega) hk e)
    refine (hswept _ hpk).trans ?_
    rw [if_pos ⟨j, hj, hround j hj⟩, hpage]
  · refine (hswept u h2).trans ?_
    rw [if_neg fun ⟨j, hj, e⟩ => h3 j hj (e.symm.trans (hround j hj)), hopen, if_neg h1]
  · refine (evicted_m cfg htabs hplain).trans ?_
    rw [hpage]
    rfl

/-- Touch the first eight of nine pages. -/
def fillQueue : List Op := (List.range 8).map fun i => .mem (.read (4096 * i))

/-- The ninth page then replaces one of them. -/
theorem mdecrypt_secondChance_fillQueue : ∃ k s' q' r m,
    Run xv6 (fun _ _ _ => True) (freshKernel 9) k ∧
    mdecrypt xv6 ((k.proc 0).vm k.kmem) (k.proc 0).q (4096 * 8) = .ok (0, s', q') ∧
    SecondChance xv6 (k.proc 0).pgdir (k.proc 0).q r m ∧
    Replaced xv6 ((k.proc 0).vm k.kmem) s' (k.proc 0).q q' (4096 * 8) r m := by
  have h : Lib.okAnd (steps xv6 (freshKernel 9) 0 fillQueue) (fun k =>
      decide (FullQueue xv6 (k.proc 0).pgdir (k.proc 0).q) &&
      (encrypted ((k.proc 0).pgdir.pteAt 8) &&
      (decide (firstByte ((k.proc 0).vm k.kmem) (4096 * 8) ≠ 0#8) &&
      (List.range 8).all fun i => vpn ((k.proc 0).q.nodes i) != 8))) = true := by decide +kernel
  obtain ⟨k, hk, h1⟩ := Lib.okAnd_iff.mp h
  simp only [Bool.and_eq_true, decide_eq_true_eq] at h1
  obtain ⟨hq, he, hb, hnew⟩ := h1
  simp only [List.all_eq_true, List.mem_range, bne_iff_ne] at hnew
  obtain ⟨s', q', r, m, h2, h3, h4⟩ := mdecrypt_secondChance xv6 _ _ (4096 * 8) hq he hb hnew
  exact ⟨k, s', q', r, m, .of_steps xv6 .start hk, h2, h3, h4⟩

end Xv6Clock
