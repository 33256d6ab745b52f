/-
  File:      Xv6Clock/Handled.lean
  Subject:   A page fault that `mdecrypt` (vm.c) handles leaves the page accessible, if the scan
             does not choose the page itself.

  The page is decrypted before the queue is searched for a victim, and its address may still be in
  the queue from an earlier fault, when `mencrypt` has encrypted it in between. If all reference
  bits are set the scan evicts the page under the hand; that can be the faulting page.
-/
import Xv6Clock.Decrypted
import Xv6Clock.SecondChance

namespace Xv6Clock

variable (cfg : Config)

/-! ## 1. The property -/

/-- The page of `va` is accessible: present, in plain text, with the bytes complemented. -/
structure Accessible (s s' : Vm) (va : Nat) : Prop where
  present : has (s'.pd.pteAt (vpn va)) pteP = true
  open_ : has (s'.pd.pteAt (vpn va)) pteE = false
  bytes : s'.m.mem (pteFrame (s'.pd.pteAt (vpn va))) =
    xorPage (s.m.mem (pteFrame (s.pd.pteAt (vpn va))))

/-- At most one page other than `v` has changed PTE_E, from clear to set. -/
def OneSealed (pd pd' : PgDir) (v : Nat) : Prop :=
  ∃ w, ∀ u, u ≠ v → has (pd'.pteAt u) pteE ≠ has (pd.pteAt u) pteE →
    u = w ∧ has (pd.pteAt u) pteE = false

/-- **A handled page fault.** -/
structure Handled (s s' : Vm) (q' : ClockQ) (va : Nat) : Prop where
  accessible : Accessible s s' va
  queued : pgRoundDown va ∈ q'.entries
  others : OneSealed s.pd s'.pd (vpn va)

/-- The page number in the slot that an insertion of page `v` into a full queue takes. -/
def victimPage (pd : PgDir) (q : ClockQ) (v : Nat) : Nat :=
  vpn (q.nodes (victimSlot cfg (pd.touched v) q))

/-- **When the queue has a place for the page of `va`**: it is empty; or it fills, and the place
    that is written lies among the entries (or the address does already); or it is full, and the
    victim is another page in another frame, or not in plain text. -/
def HasPlace (pd : PgDir) (q : ClockQ) (va : Nat) : Prop :=
  q.inClock = 0 ∨
  (0 < q.inClock ∧ q.inClock < cfg.clockSize ∧
    (q.currInd ≤ q.inClock ∨ ∃ i, i ≤ q.inClock ∧ q.nodes i = pgRoundDown va)) ∨
  (0 < q.inClock ∧ cfg.clockSize ≤ q.inClock ∧ victimPage cfg pd q (vpn va) ≠ vpn va ∧
    (plain (pd.pteAt (victimPage cfg pd q (vpn va))) = true →
      pteFrame (pd.pteAt (victimPage cfg pd q (vpn va))) ≠ pteFrame (pd.pteAt (vpn va))))

/-! ## 2. The page tables on the way -/

section
variable {s : Vm} {v : Nat}

theorem opened_m (s : Vm) (v : Nat) : (s.opened v).m = s.m.flipFrame (pteFrame (s.pd.pteAt v)) :=
  rfl

theorem flipFrame_self (m : Kmem) (f : Frame) : (m.flipFrame f).mem f = xorPage (m.mem f) :=
  Function.update_self ..

theorem flipFrame_ne (m : Kmem) {f g : Frame} (h : g ≠ f) : (m.flipFrame f).mem g = m.mem g :=
  Function.update_of_ne h ..

@[simp] theorem pteFrame_open (w : Word) : pteFrame (openEntry w) = pteFrame w := by
  simp [openEntry]

/-- The complement of a page is another page. -/
theorem xorPage_ne (pg : Page) : xorPage pg ≠ pg := fun h => flip_ne (pg 0) (congrFun h 0)

/-- The decrypted page before the queue is looked at. -/
theorem accessible_opened {va : Nat} (hE : has (s.pd.pteAt (vpn va)) pteE = true) :
    Accessible s (s.opened (vpn va)) va := by
  have he := opened_pteAt hE (vpn va)
  rw [if_pos rfl] at he
  refine ⟨?_, ?_, ?_⟩ <;> rw [he]
  · simp [openEntry]
  · simp [openEntry]
  · rw [pteFrame_open, opened_m, flipFrame_self]

theorem oneSealed_opened (hE : has (s.pd.pteAt v) pteE = true) :
    OneSealed s.pd (s.opened v).pd v := by
  refine ⟨v, fun u hu hne => ?_⟩
  rw [opened_pteAt hE, if_neg hu] at hne
  exact absurd rfl hne

/-- The scan changes reference bits only. -/
theorem swept_has {q : ClockQ} {m : Nat} (ht : ∀ j, j < m → s.pd.tabAt (sweepPage cfg q j) = true)
    (u : Nat) {x : Word} (hx : x &&& pteA = 0#32) :
    has ((s.swept cfg q m).pd.pteAt u) x = has (s.pd.pteAt u) x := by
  rcases swept_entry cfg ht u with h | h <;> rw [h]
  exact has_clearRef _ hx

theorem sealed_of_not_plain {w : Nat} (h : plain (s.pd.pteAt w) = false) : s.sealed w = s := by
  rw [Vm.sealed, h]
  rfl

/-- No victim stays in plain text. -/
theorem Vm.sealed_plain (s : Vm) (v : Nat) : plain ((s.sealed v).pd.pteAt v) = false := by
  cases hp : plain (s.pd.pteAt v) with
  | false => rw [sealed_of_not_plain hp, hp]
  | true =>
    have hv : s.pd.tabAt v = true := PgDir.tabAt_of_mapped (mapped_of_P (plain_iff.mp hp).2.1)
    rw [Vm.sealed, if_pos hp]
    exact (congrArg plain (PgDir.pteAt_store_self _ hv)).trans (plain_seal _)

end

/-! ## 3. Eviction -/

section
variable {s : Vm} {q : ClockQ} {m va w : Nat}
  (hE : has (s.pd.pteAt (vpn va)) pteE = true)
  (hts : ∀ j, j < m → (s.opened (vpn va)).pd.tabAt (sweepPage cfg q j) = true)
include hE hts

/-- A page evicted right after it was decrypted is not accessible. -/
theorem not_accessible_of_victim (hU : has (s.pd.pteAt (vpn va)) pteU = true) :
    ¬ Accessible s (((s.opened (vpn va)).swept cfg q m).sealed (vpn va)) va := by
  have hp : plain ((s.opened (vpn va)).pd.pteAt (vpn va)) = true := by
    rw [opened_pteAt hE, if_pos rfl]
    exact plain_open hU
  intro h
  have hopen := h.open_
  rw [evicted_victim cfg hts hp, has_enc_E] at hopen
  cases hopen

/-- Eviction of another page. -/
theorem evicted_others (hw : w ≠ vpn va) :
    OneSealed s.pd (((s.opened (vpn va)).swept cfg q m).sealed w).pd (vpn va) := by
  refine ⟨w, fun u hu hne => ?_⟩
  have hkeep : has (((s.opened (vpn va)).swept cfg q m).pd.pteAt u) pteE =
      has (s.pd.pteAt u) pteE := by
    rw [swept_has cfg hts u (by decide), opened_pteAt hE, if_neg hu]
  by_cases huw : u = w
  · subst huw
    refine ⟨rfl, ?_⟩
    cases hp : plain (((s.opened (vpn va)).swept cfg q m).pd.pteAt u) with
    | false =>
      rw [sealed_of_not_plain hp] at hne
      exact absurd hkeep hne
    | true => exact hkeep.symm.trans (plain_iff.mp hp).2.2
  · rw [Vm.sealed_pteAt_ne _ huw] at hne
    exact absurd hkeep hne

/-- The faulting page stays accessible if the victim is another page, and in another frame if its
    bytes are complemented. -/
theorem evicted_accessible_iff (hw : w ≠ vpn va) :
    Accessible s (((s.opened (vpn va)).swept cfg q m).sealed w) va ↔
      (plain (s.pd.pteAt w) = true →
        pteFrame (s.pd.pteAt w) ≠ pteFrame (s.pd.pteAt (vpn va))) := by
  have hopen := accessible_opened hE
  have hwpte : (s.opened (vpn va)).pd.pteAt w = s.pd.pteAt w := by
    rw [opened_pteAt hE, if_neg hw]
  have hframe : pteFrame ((((s.opened (vpn va)).swept cfg q m).sealed w).pd.pteAt (vpn va)) =
      pteFrame (s.pd.pteAt (vpn va)) := by
    rw [Vm.sealed_pteAt_ne _ hw.symm, swept_frame cfg hts, opened_pteAt hE, if_pos rfl,
      pteFrame_open]
  have hbits : ∀ x : Word, x &&& pteA = 0#32 →
      has ((((s.opened (vpn va)).swept cfg q m).sealed w).pd.pteAt (vpn va)) x =
        has ((s.opened (vpn va)).pd.pteAt (vpn va)) x := fun x hx => by
    rw [Vm.sealed_pteAt_ne _ hw.symm, swept_has cfg hts _ hx]
  have hP := (hbits pteP (by decide)).trans hopen.present
  have hopen' := (hbits pteE (by decide)).trans hopen.open_
  cases hp : plain (s.pd.pteAt w) with
  | false =>
    have hs : ((s.opened (vpn va)).swept cfg q m).sealed w = (s.opened (vpn va)).swept cfg q m :=
      sealed_of_not_plain (by rw [swept_plain cfg hts, hwpte, hp])
    refine ⟨fun _ => nofun, fun _ => ⟨hP, hopen', ?_⟩⟩
    rw [hframe, hs, swept_m, opened_m, flipFrame_self]
  | true =>
    have hm := evicted_m cfg hts (v := w) (by rw [hwpte, hp])
    rw [hwpte, opened_m] at hm
    refine ⟨fun h _ heq => ?_, fun h => ⟨hP, hopen', ?_⟩⟩
    · -- both flips hit one frame and cancel
      have hb := h.bytes
      rw [hframe, hm, heq, flipFrame_self, flipFrame_self, xorPage_xorPage] at hb
      exact xorPage_ne _ hb.symm
    · rw [hframe, hm, flipFrame_ne _ (h rfl).symm, flipFrame_self]

end

/-! ## 4. The fault -/

/-- A page written among the entries. -/
theorem mem_entries_update {nodes : Nat → Nat} {i n add : Nat} {c : Int} (h : i < n) :
    add ∈ (ClockQ.mk (Function.update nodes i add) n c).entries :=
  Lib.mem_front.mpr ⟨i, h, by dsimp only; rw [Function.update_self]⟩

/-- A page written while the queue fills. -/
theorem mem_entries_fill {q : ClockQ} {i add : Nat} {c : Int} :
    add ∈ (ClockQ.mk (Function.update q.nodes i add) (q.inClock + 1) c).entries ↔
      i ≤ q.inClock ∨ ∃ j, j ≤ q.inClock ∧ q.nodes j = add := by
  have hmem : add ∈ (ClockQ.mk (Function.update q.nodes i add) (q.inClock + 1) c).entries ↔
      ∃ j, j < q.inClock + 1 ∧ Function.update q.nodes i add j = add := Lib.mem_front
  refine hmem.trans ⟨fun ⟨j, hj, he⟩ => ?_, fun h => ?_⟩
  · by_cases hji : j = i
    · exact .inl (by omega)
    · exact .inr ⟨j, by omega, (Function.update_of_ne hji ..).symm.trans he⟩
  · by_cases hi : i ≤ q.inClock
    · exact hmem.mp (mem_entries_update (by omega))
    · obtain ⟨j, hj, he⟩ := h.resolve_left hi
      exact ⟨j, by omega, (Function.update_of_ne (by omega) ..).trans he⟩

/-- **A fault into a full queue**: the page is decrypted, the scan clears reference bits, and the
    victim is encrypted and its node overwritten. -/
theorem clockInsert_opened {s s' : Vm} {q q' : ClockQ} {va : Nat}
    (ht : s.pd.tabAt (vpn va) = true) (h0 : 0 < q.inClock) (h1 : cfg.clockSize ≤ q.inClock)
    (h : clockInsert cfg (s.opened (vpn va)) q (pgRoundDown va) = .ok (s', q')) :
    (∀ j, j < sweepStop cfg (s.pd.touched (vpn va)) q →
      (s.opened (vpn va)).pd.tabAt (sweepPage cfg q j) = true) ∧
    s' = ((s.opened (vpn va)).swept cfg q (sweepStop cfg (s.pd.touched (vpn va)) q)).sealed
      (victimPage cfg s.pd q (vpn va)) ∧
    q' = ⟨Function.update q.nodes (victimSlot cfg (s.pd.touched (vpn va)) q) (pgRoundDown va),
      q.inClock, ((victimSlot cfg (s.pd.touched (vpn va)) q + 1) % cfg.clockSize : Nat)⟩ := by
  have hsafe : SweepSafe cfg (s.opened (vpn va)).pd q := by
    rcases (clockInsert_returns cfg).mp ⟨_, h⟩ with h2 | h2 | h2
    · omega
    · omega
    · exact h2.2.2
  rw [clockInsert_full cfg h0 h1 hsafe] at h
  have hstop : sweepStop cfg (s.opened (vpn va)).pd q = sweepStop cfg (s.pd.touched (vpn va)) q :=
    (opened_sameRefs ht).stop
  have hslot : victimSlot cfg (s.opened (vpn va)).pd q =
      victimSlot cfg (s.pd.touched (vpn va)) q := by
    unfold victimSlot
    rw [hstop]
  have hle := sweepStop_le cfg (s.opened (vpn va)).pd q
  rw [hslot, hstop] at h
  rw [hstop] at hle
  cases h
  exact ⟨fun j hj => (hsafe j (by omega) (by rw [hstop]; omega)).2, rfl, rfl⟩

/-- **What a handled fault leaves alone**: the entry of a page that is neither the faulting page
    nor evicted changes in its reference bit at most. -/
theorem mdecrypt_other {s s' : Vm} {q q' : ClockQ} {va u : Nat}
    (h : mdecrypt cfg s q va = .ok (0, s', q')) (hu : u ≠ vpn va)
    (hv : cfg.clockSize ≤ q.inClock → plain (s.pd.pteAt u) = true →
      u ≠ victimPage cfg s.pd q (vpn va)) :
    s'.pd.pteAt u = s.pd.pteAt u ∨ s'.pd.pteAt u = clearRef (s.pd.pteAt u) := by
  rcases mdecrypt_ok cfg h with ⟨h0, -⟩ | ⟨h0, -⟩ | ⟨-, hE, hU, -, hins⟩
  · cases h0
  · cases h0
  have hopen : (s.opened (vpn va)).pd.pteAt u = s.pd.pteAt u := by
    rw [opened_pteAt hE, if_neg hu]
  rcases clockInsert_ok cfg hins with ⟨-, rfl, -⟩ | ⟨-, -, rfl, -⟩ | ⟨h0, h1, -⟩
  · exact .inl hopen
  · exact .inl hopen
  obtain ⟨hts, rfl, -⟩ :=
    clockInsert_opened cfg (PgDir.tabAt_of_mapped (mapped_of_E hE)) h0 h1 hins
  have hswept := swept_entry cfg hts u
  rw [hopen] at hswept
  by_cases huv : u = victimPage cfg s.pd q (vpn va)
  · have hnot : plain (s.pd.pteAt u) = false := by
      cases hp : plain (s.pd.pteAt u) with
      | false => rfl
      | true => exact absurd huv (hv h1 hp)
    rw [← huv, sealed_of_not_plain (by rw [swept_plain cfg hts, hopen, hnot])]
    exact hswept
  · rw [Vm.sealed_pteAt_ne _ huv]
    exact hswept

/-- **The pages in plain text after a handled fault**: the faulting page comes in, and the victim of
    a full queue goes. -/
theorem mdecrypt_plain {s s' : Vm} {q q' : ClockQ} {va : Nat}
    (h : mdecrypt cfg s q va = .ok (0, s', q')) (u : Nat) : plain (s'.pd.pteAt u) =
      ((u == vpn va || plain (s.pd.pteAt u)) &&
        !(decide (cfg.clockSize ≤ q.inClock) && u == victimPage cfg s.pd q (vpn va))) := by
  rcases mdecrypt_ok cfg h with ⟨h0, -⟩ | ⟨h0, -⟩ | ⟨-, hE, hU, -, hins⟩
  · cases h0
  · cases h0
  have hopen : plain ((s.opened (vpn va)).pd.pteAt u) = (u == vpn va || plain (s.pd.pteAt u)) := by
    rw [opened_pteAt hE]
    by_cases hu : u = vpn va
    · rw [if_pos hu, plain_open hU, hu, beq_self_eq_true, Bool.true_or]
    · rw [if_neg hu, beq_false_of_ne hu, Bool.false_or]
  have hpos := cfg.clockPos
  rw [← hopen]
  rcases clockInsert_ok cfg hins with ⟨h0, rfl, -⟩ | ⟨-, h1, rfl, -⟩ | ⟨h0, h1, -⟩
  · rw [decide_eq_false (by omega), Bool.false_and, Bool.not_false, Bool.and_true]
  · rw [decide_eq_false (by omega), Bool.false_and, Bool.not_false, Bool.and_true]
  · obtain ⟨hts, rfl, -⟩ :=
      clockInsert_opened cfg (PgDir.tabAt_of_mapped (mapped_of_E hE)) h0 h1 hins
    rw [decide_eq_true h1, Bool.true_and]
    by_cases hu : u = victimPage cfg s.pd q (vpn va)
    · rw [← hu, beq_self_eq_true, Bool.not_true, Bool.and_false]
      exact Vm.sealed_plain _ u
    · rw [beq_false_of_ne hu, Vm.sealed_pteAt_ne _ hu, swept_plain cfg hts, Bool.not_false,
        Bool.and_true]

/-! ## 5. The theorem -/

/-- **A handled page fault makes the page accessible exactly if the queue has a place for it**, for
    every state and every address for which `mdecrypt` returns 0. -/
theorem handled_iff (s s' : Vm) (q q' : ClockQ) (va : Nat)
    (h : mdecrypt cfg s q va = .ok (0, s', q')) :
    Handled s s' q' va ↔ HasPlace cfg s.pd q va := by
  rcases mdecrypt_ok cfg h with ⟨h0, -⟩ | ⟨h0, -⟩ | ⟨-, hE, hU, -, hins⟩
  · cases h0
  · cases h0
  have ht : s.pd.tabAt (vpn va) = true := PgDir.tabAt_of_mapped (mapped_of_E hE)
  rcases clockInsert_ok cfg hins with ⟨h0, rfl, rfl⟩ | ⟨h0, h1, rfl, i, hi, hc, rfl⟩ | ⟨h0, h1, -⟩
  · refine ⟨fun _ => .inl h0, fun _ => ⟨accessible_opened hE, ?_, oneSealed_opened hE⟩⟩
    exact mem_entries_update Nat.zero_lt_one
  · refine ⟨fun hh => .inr (.inl ⟨h0, h1, ?_⟩), fun hh => ?_⟩
    · rw [hc]
      exact (mem_entries_fill.mp hh.queued).imp_left Int.ofNat_le.mpr
    · refine ⟨accessible_opened hE, mem_entries_fill.mpr ?_, oneSealed_opened hE⟩
      rcases hh with h2 | ⟨-, -, h2⟩ | ⟨-, h2, -⟩
      · omega
      · rw [hc] at h2
        exact h2.imp_left Int.ofNat_le.mp
      · omega
  · obtain ⟨hts, rfl, hq'⟩ := clockInsert_opened cfg ht h0 h1 hins
    have hqueued : pgRoundDown va ∈ q'.entries := by
      rw [hq']
      exact mem_entries_update (Nat.lt_of_lt_of_le (sweepSlot_lt cfg q _) h1)
    constructor
    · intro hh
      by_cases hv : victimPage cfg s.pd q (vpn va) = vpn va
      · have hacc := hh.accessible
        rw [hv] at hacc
        exact absurd hacc (not_accessible_of_victim cfg hE hts hU)
      · exact .inr (.inr ⟨h0, h1, hv, (evicted_accessible_iff cfg hE hts hv).mp hh.accessible⟩)
    · rintro (h2 | h2 | ⟨-, -, hv, hf⟩)
      · omega
      · omega
      · exact ⟨(evicted_accessible_iff cfg hE hts hv).mpr hf, hqueued, evicted_others cfg hE hts hv⟩

/-- The ninth page of a process, after the first eight. -/
theorem handled_iff_fillQueue : ∃ k s' q', Run xv6 (fun _ _ _ => True) (freshKernel 9) k ∧
    mdecrypt xv6 ((k.proc 0).vm k.kmem) (k.proc 0).q (4096 * 8) = .ok (0, s', q') ∧
    Handled ((k.proc 0).vm k.kmem) s' q' (4096 * 8) := by
  have h : Lib.okAnd (steps xv6 (freshKernel 9) 0 fillQueue) (fun k =>
      (k.proc 0).q.inClock == 8 && (victimPage xv6 (k.proc 0).pgdir (k.proc 0).q 8 != 8 &&
      (pteFrame ((k.proc 0).pgdir.pteAt (victimPage xv6 (k.proc 0).pgdir (k.proc 0).q 8)) !=
        pteFrame ((k.proc 0).pgdir.pteAt 8) &&
      Lib.okAnd (mdecrypt xv6 ((k.proc 0).vm k.kmem) (k.proc 0).q (4096 * 8)) fun x =>
        x.1 == 0))) = true := by decide +kernel
  obtain ⟨k, hk, h1⟩ := Lib.okAnd_iff.mp h
  simp only [Bool.and_eq_true, beq_iff_eq, bne_iff_ne] at h1
  obtain ⟨hn, hv, hf, h2⟩ := h1
  obtain ⟨⟨r, s', q'⟩, hd, h3⟩ := Lib.okAnd_iff.mp h2
  obtain rfl : r = 0 := beq_iff_eq.mp h3
  refine ⟨k, s', q', .of_steps xv6 .start hk, hd, (handled_iff xv6 _ _ _ _ _ hd).mpr ?_⟩
  exact .inr (.inr ⟨by omega, Nat.le_of_eq hn.symm, hv, fun _ => hf⟩)

/-- Touch eight pages, encrypt the first again. -/
def resealFirst : List Op := fillQueue ++ [.mem (.mencrypt 0 1)]

/-- **The next touch of page 0 is handled by evicting page 0**: `mdecrypt` returns 0 and the page is
    encrypted and not present. -/
theorem resealFirst_evicts_itself : ∃ k s' q', Run xv6 (fun _ _ _ => True) (freshKernel 9) k ∧
    mdecrypt xv6 ((k.proc 0).vm k.kmem) (k.proc 0).q 0 = .ok (0, s', q') ∧
    has (s'.pd.pteAt 0) pteE = true ∧ ¬ Handled ((k.proc 0).vm k.kmem) s' q' 0 := by
  have h : Lib.okAnd (steps xv6 (freshKernel 9) 0 resealFirst) (fun k =>
      Lib.okAnd (mdecrypt xv6 ((k.proc 0).vm k.kmem) (k.proc 0).q 0) fun x =>
        x.1 == 0 && has (x.2.1.pd.pteAt 0) pteE) = true := by decide +kernel
  obtain ⟨k, hk, h1⟩ := Lib.okAnd_iff.mp h
  obtain ⟨⟨r, s', q'⟩, hd, h2⟩ := Lib.okAnd_iff.mp h1
  simp only [Bool.and_eq_true, beq_iff_eq] at h2
  obtain ⟨rfl, hE⟩ := h2
  refine ⟨k, s', q', .of_steps xv6 .start hk, hd, hE, fun hh => ?_⟩
  have hopen : has (s'.pd.pteAt 0) pteE = false := hh.accessible.open_
  rw [hE] at hopen
  cases hopen

end Xv6Clock
