/-
  File:      Xv6Clock/ShrinkOrder.lean
  Subject:   What a shrinking `growproc` (proc.c) does to the order of the clock queue.

  The loop takes the freed pages out of `nodes` and keeps the others in the order of the array.
  That is the order of the clock only while the queue is not full, or if the survivors of a full
  queue stand on one side of the hand: a queue that is not full any more is read from index 0. And
  `currInd` follows only if a node is taken out from in front of another, so a later page can land
  beyond the entries or on top of one (`ShrinkOk`).
-/
import Mathlib.Data.List.Rotate
import Mathlib.Data.List.Nodup
import Xv6Clock.Sweep
import Xv6Clock.Resize
import Xv6Clock.ClockIndex

namespace Xv6Clock

variable (cfg : Config)

/-! ## 1. Clock order -/

/-- **The order in which the eviction scan comes to the entries**: from the hand when the queue is
    full, from index 0 when it is not. -/
def clockOrder (q : ClockQ) : List Nat :=
  if q.inClock < cfg.clockSize then q.entries
  else (List.range cfg.clockSize).map fun i => q.nodes (sweepSlot cfg q i)

theorem clockOrder_fill {q : ClockQ} (h : q.inClock < cfg.clockSize) :
    clockOrder cfg q = q.entries := if_pos h

theorem clockOrder_full {q : ClockQ} (hf : q.inClock = cfg.clockSize) (h0 : 0 ≤ q.currInd)
    (h1 : q.currInd + cfg.clockSize < 2 ^ 31) :
    clockOrder cfg q = q.entries.rotate q.currInd.toNat := by
  have hlen : q.entries.length = cfg.clockSize := (Lib.length_front _ _).trans hf
  have hpos := cfg.clockPos
  rw [clockOrder, if_neg (by omega)]
  apply List.ext_getElem?
  intro i
  by_cases hi : i < cfg.clockSize
  · rw [List.getElem?_rotate (by omega), hlen, List.getElem?_map, List.getElem?_range hi,
      Option.map_some, sweepSlot_of_hand cfg h0 h1 hi, Nat.add_comm]
    exact (Lib.getElem?_front (by rw [hf]; exact Nat.mod_lt _ hpos)).symm
  · rw [List.getElem?_eq_none (by simpa using hi),
      List.getElem?_eq_none (by rw [List.length_rotate]; omega)]

theorem mem_of_clockOrder {q : ClockQ} {a : Nat} (h : a ∈ clockOrder cfg q) : a ∈ q.entries := by
  unfold clockOrder at h
  split at h
  · exact h
  · rename_i hge
    obtain ⟨i, -, rfl⟩ := List.mem_map.mp h
    have := sweepSlot_lt cfg q i
    exact Lib.mem_front.mpr ⟨sweepSlot cfg q i, by omega, rfl⟩

/-! ## 2. The next page -/

/-- **The next page comes last**: after all entries while the queue fills, in the last place of the
    order when it is full. -/
structure InsertsLast (q : ClockQ) : Prop where
  fill : q.inClock < cfg.clockSize → ∀ s add, add % 4096 = 0 → add < 2 ^ 32 →
    ∃ q', clockInsert cfg s q add = .ok (s, q') ∧ clockOrder cfg q' = clockOrder cfg q ++ [add]
  full : cfg.clockSize ≤ q.inClock → ∀ s add s' q', clockInsert cfg s q add = .ok (s', q') →
    ∃ l, clockOrder cfg q' = l ++ [add]

section
variable {cfg} {q : ClockQ}

/-- The scan of a full queue starts after the new page, and so comes to it last. -/
theorem insertsLast_full (hf : q.inClock = cfg.clockSize) : InsertsLast cfg q where
  fill h := by omega
  full h s add s' q' hins := by
    have hpos := cfg.clockPos
    have hsm := cfg.clockSmall
    rcases clockInsert_ok cfg hins with ⟨h0, -⟩ | ⟨-, h0, -⟩ | ⟨-, -, s1, r, x, hev⟩
    · omega
    · omega
    have hr := hev.lt
    have hmod := Nat.mod_lt (r + 1) hpos
    obtain ⟨n, hn⟩ : ∃ n, cfg.clockSize = n + 1 := ⟨cfg.clockSize - 1, by omega⟩
    have hcur : q'.currInd = ((r + 1) % cfg.clockSize : Nat) := by rw [hev.queue]
    have hslot : sweepSlot cfg q' n = r := by
      rw [sweepSlot_of_hand cfg (by omega) (by omega) (by omega), hcur, Int.toNat_natCast,
        Nat.mod_add_mod, show r + 1 + n = r + cfg.clockSize by omega, Nat.add_mod_right,
        Nat.mod_eq_of_lt hr]
    have hlen : ¬ q'.inClock < cfg.clockSize := by
      rw [hev.queue]
      exact Nat.not_lt.mpr h
    refine ⟨(List.range n).map fun i => q'.nodes (sweepSlot cfg q' i), ?_⟩
    rw [clockOrder, if_neg hlen, hn, List.range_succ, List.map_append, List.map_singleton, hslot,
      hev.queue]
    simp

/-- What an insertion while the queue fills gives. -/
theorem clockInsert_fill {s : Vm} {add : Nat} (h0 : 0 < q.inClock)
    (hlt : q.inClock < cfg.clockSize) (hc : q.currInd = q.inClock) :
    clockInsert cfg s q add = .ok (s, ⟨Function.update q.nodes q.inClock add, q.inClock + 1,
      (q.inClock + 1 : Nat)⟩) := by
  have hsm := cfg.clockSmall
  have hi : nodeIndex cfg q.currInd = .ok q.inClock := by
    rw [nodeIndex, if_pos (by omega), hc]
    rfl
  unfold clockInsert
  rw [if_neg (by omega), if_pos hlt, hi, Lib.ok_bind, hc, toI_of_bounds (by omega) (by omega)]
  rfl

/-- A queue with its entries followed by one more, read from index 0 or from a hand that is back
    there. -/
theorem clockOrder_append {a : Nat} (hlt : q.inClock < cfg.clockSize) :
    clockOrder cfg ⟨Function.update q.nodes q.inClock a, q.inClock + 1, (q.inClock + 1 : Nat)⟩ =
      q.entries ++ [a] := by
  have hsm := cfg.clockSmall
  have hent : (ClockQ.mk (Function.update q.nodes q.inClock a) (q.inClock + 1)
      (q.inClock + 1 : Nat)).entries = q.entries ++ [a] := Lib.front_update_end _ _ _
  by_cases hf : q.inClock + 1 < cfg.clockSize
  · rw [clockOrder_fill cfg hf, hent]
  · have hfull : q.inClock + 1 = cfg.clockSize := by omega
    rw [clockOrder_full cfg hfull (Int.natCast_nonneg _) (by dsimp only; omega), hent,
      Int.toNat_natCast]
    have hlen : (q.entries ++ [a]).length = q.inClock + 1 := by
      rw [List.length_append, ClockQ.entries, Lib.length_front, List.length_singleton]
    rw [← hlen, List.rotate_length]

theorem insertsLast_fill (hlt : q.inClock < cfg.clockSize)
    (h : q.inClock = 0 ∨ q.currInd = q.inClock) : InsertsLast cfg q where
  fill _ s add _ _ := by
    rw [clockOrder_fill cfg hlt]
    by_cases h0 : q.inClock = 0
    · refine ⟨⟨Function.update q.nodes 0 add, 1, 1⟩, ?_, ?_⟩
      · unfold clockInsert
        rw [if_pos h0]
      · have := clockOrder_append (q := q) (a := add) hlt
        rwa [h0] at this
    · exact ⟨_, clockInsert_fill (by omega) hlt (h.resolve_left h0), clockOrder_append hlt⟩
  full h := by omega

/-- There is a page other than `x`. -/
theorem exists_page_ne (x : Nat) : ∃ add, add % 4096 = 0 ∧ add < 2 ^ 32 ∧ add ≠ x := by
  by_cases h : x = 0
  · exact ⟨4096, by decide, by decide, by omega⟩
  · exact ⟨0, by decide, by decide, fun e => h e.symm⟩

/-- If `currInd` is not behind the entries, the next page is not either. -/
theorem not_insertsLast (h0 : 0 < q.inClock) (hlt : q.inClock < cfg.clockSize)
    (hc : q.currInd ≠ q.inClock) (hnd : q.entries.Nodup) (hnew : q.nodes q.inClock ∉ q.entries) :
    ¬ InsertsLast cfg q := by
  intro h
  -- the entry that the page overwrites, or the place it should have
  obtain ⟨add, ha1, ha2, hne⟩ := exists_page_ne (q.nodes (min q.currInd.toNat q.inClock))
  obtain ⟨q', hins, hord⟩ := h.fill hlt ⟨⟨[], fun _ => fill 0, false⟩, Proc.zero.pgdir⟩ add ha1 ha2
  rw [clockOrder_fill cfg hlt] at hord
  rcases clockInsert_ok cfg hins with ⟨h1, -⟩ | ⟨-, -, -, i, hi, hic, hq'⟩ | ⟨-, h1, -⟩
  · omega
  · have hii : i ≠ q.inClock := fun e => hc (by rw [hic, e])
    rw [hic, Int.toNat_natCast] at hne
    by_cases hgt : q.inClock < i
    · rw [Nat.min_eq_right (by omega)] at hne
      rw [hq', clockOrder_fill cfg (by dsimp only; omega)] at hord
      have hlast : (ClockQ.mk (Function.update q.nodes i add) (q.inClock + 1)
          (i + 1 : Nat)).entries = _ ++ [Function.update q.nodes i add q.inClock] :=
        Lib.front_succ _ _
      rw [hlast, Function.update_of_ne hii.symm] at hord
      have := List.append_inj_right' hord rfl
      exact hne (List.singleton_inj.mp this).symm
    · rw [Nat.min_eq_left (by omega)] at hne
      have hi' : q.nodes i ∈ q.entries := Lib.mem_front.mpr ⟨i, by omega, rfl⟩
      have hmem : q.nodes i ∈ q'.entries := by
        refine mem_of_clockOrder cfg ?_
        rw [hord]
        exact List.mem_append_left _ hi'
      rw [hq'] at hmem
      obtain ⟨j, hj, he⟩ := Lib.mem_front.mp hmem
      dsimp only at hj he
      by_cases hji : j = i
      · rw [hji, Function.update_self] at he
        exact hne he
      · rw [Function.update_of_ne hji] at he
        by_cases hjn : j = q.inClock
        · rw [← he, hjn] at hi'
          exact hnew hi'
        · exact hji (List.inj_on_of_nodup_map hnd (List.mem_range.mpr (by omega))
            (List.mem_range.mpr (by omega)) he)
  · omega

end

/-! ## 3. `currInd` after the loop -/

section
variable {q : ClockQ} {newsz : Nat}

/-- The node a removal leaves behind the entries. -/
theorem ClockQ.remove_hole {i : Nat} (h : i < q.inClock) :
    (q.remove i).nodes (q.inClock - 1) = noPage := by
  unfold ClockQ.remove
  split
  · dsimp only
    rw [Lib.shift_apply, if_neg (by omega), if_neg (by omega), if_pos (by omega)]
  · obtain rfl : i = q.inClock - 1 := by omega
    exact Function.update_self ..

theorem removeFreed_hole {n : Nat} : ∀ {q : ClockQ} {i : Nat},
    removeFreed n q newsz i = q ∨
      (removeFreed n q newsz i).nodes (removeFreed n q newsz i).inClock = noPage := by
  induction n with
  | zero => exact fun {q i} => .inl rfl
  | succ n ih =>
    intro q i
    unfold removeFreed
    split
    · exact .inl rfl
    · rename_i hi
      split
      · right
        rcases @ih (q.remove i) i with h | h
        · rw [h, ClockQ.remove_inClock]
          exact ClockQ.remove_hole (by omega)
        · exact h
      · exact ih

/-- If the last node goes and one before it went, `currInd` is one too far. -/
theorem removeFreed_stale {n : Nat} : ∀ {q : ClockQ} {i : Nat}, q.inClock ≤ i + n →
    newsz ≤ q.nodes (q.inClock - 1) → (∃ j, i ≤ j ∧ j < q.inClock - 1 ∧ newsz ≤ q.nodes j) →
    (removeFreed n q newsz i).currInd = (removeFreed n q newsz i).inClock + 1 := by
  induction n with
  | zero =>
    rintro q i hn hlast ⟨j, h1, h2, -⟩
    omega
  | succ n ih =>
    rintro q i hn hlast ⟨j, h1, h2, h3⟩
    unfold removeFreed
    rw [if_neg (by omega)]
    by_cases hi : newsz ≤ q.nodes i
    · rw [if_pos hi]
      obtain ⟨hl, hc⟩ := ClockQ.remove_last (q := q) (i := i) (by omega)
      have hcount := ClockQ.remove_inClock q i
      have hlast' : newsz ≤ (q.remove i).nodes ((q.remove i).inClock - 1) := by
        rw [hcount, show q.inClock - 1 - 1 = q.inClock - 2 by omega, hl]
        exact hlast
      by_cases hmore : ∃ j, i ≤ j ∧ j < (q.remove i).inClock - 1 ∧ newsz ≤ (q.remove i).nodes j
      · exact ih (by omega) hlast' hmore
      · -- only the last node is left to go
        obtain ⟨h4, h5⟩ := removeFreed_onlyLast (n := n) (q := q.remove i) (i := i)
          (by omega) (by omega)
          (fun j h6 h7 => by
            by_contra hc'
            exact hmore ⟨j, h6, h7, by omega⟩) hlast'
        rw [h4, h5, hc]
        omega
    · rw [if_neg hi]
      refine ih (by omega) hlast ⟨j, ?_, h2, h3⟩
      have : j ≠ i := fun e => hi (e ▸ h3)
      omega

/-- Something goes. -/
theorem removeFreed_lt (h : ¬ ∀ a ∈ q.entries, a < newsz) :
    (removeFreed q.inClock q newsz 0).inClock < q.inClock := by
  have hlen : q.entries.length = q.inClock := Lib.length_front _ _
  rw [removeFreed_inClock]
  refine Nat.lt_of_le_of_ne (Nat.le_trans (List.length_filter_le _ _) (Nat.le_of_eq hlen)) ?_
  intro he
  refine h fun a ha => ?_
  exact of_decide_eq_true (List.length_filter_eq_length_iff.mp (he.trans hlen.symm) a ha)

/-- **When `currInd` is right after a node has gone.** -/
theorem currInd_right_iff (h : ¬ ∀ a ∈ q.entries, a < newsz) :
    ((removeFreed q.inClock q newsz 0).inClock = 0 ∨ (removeFreed q.inClock q newsz 0).currInd =
      (removeFreed q.inClock q newsz 0).inClock) ↔ ShrinkOk q newsz := by
  have hcount := removeFreed_inClock q newsz
  have hzero : (removeFreed q.inClock q newsz 0).inClock = 0 ↔
      ∀ i, i < q.inClock → newsz ≤ q.nodes i := by
    rw [hcount, List.length_eq_zero_iff, List.filter_eq_nil_iff]
    refine ⟨fun h1 i hi => ?_, fun h1 a ha => ?_⟩
    · simpa using h1 _ (Lib.mem_front.mpr ⟨i, hi, rfl⟩)
    · obtain ⟨i, hi, rfl⟩ := Lib.mem_front.mp ha
      simpa using h1 i hi
  have h0 : q.inClock ≠ 0 := fun h0 => h fun a ha => by
    obtain ⟨i, hi, -⟩ := Lib.mem_front.mp ha
    omega
  by_cases hlast : q.nodes (q.inClock - 1) < newsz
  · refine ⟨fun _ => .inr (.inl hlast), fun _ => .inr ?_⟩
    rcases removeFreed_keep (n := q.inClock) (i := 0) hlast with he | he
    · exact absurd (removeFreed_eq_self_iff.mp he) h
    · exact he
  by_cases hmore : ∃ j, 0 ≤ j ∧ j < q.inClock - 1 ∧ newsz ≤ q.nodes j
  · have hcur := removeFreed_stale (n := q.inClock) (i := 0) (by omega) (by omega) hmore
    obtain ⟨j, -, hj, hge⟩ := hmore
    constructor
    · rintro (h1 | h1)
      · exact .inr (.inr (.inl (hzero.mp h1)))
      · omega
    · rintro (h1 | h1 | h1 | ⟨h1, -⟩)
      · exact absurd h1 h0
      · exact absurd h1 hlast
      · exact .inl (hzero.mpr h1)
      · have := h1 j hj
        omega
  · have hlow : ∀ j, 0 ≤ j → j < q.inClock - 1 → q.nodes j < newsz := fun j h1 h2 => by
      by_contra hc
      exact hmore ⟨j, h1, h2, by omega⟩
    obtain ⟨h1, h2⟩ := removeFreed_onlyLast (n := q.inClock) (i := 0) (by omega) (by omega) hlow
      (by omega)
    rw [h1, h2]
    constructor
    · rintro (h3 | h3)
      · exact .inr (.inr (.inl (hzero.mp (h2.trans h3))))
      · exact .inr (.inr (.inr ⟨fun i hi => hlow i (Nat.zero_le i) hi, h3⟩))
    · rintro (h3 | h3 | h3 | ⟨-, h3⟩)
      · exact absurd h3 h0
      · exact absurd h3 hlast
      · exact .inl (h2.symm.trans (hzero.mpr h3))
      · exact .inr h3

end

/-! ## 4. The theorem -/

/-- **The queue after shrinking to `newsz`**: the entries below it and no others, in the same clock
    order, and the next page comes after them. -/
structure ShrinksInOrder (q q' : ClockQ) (newsz : Nat) : Prop where
  same : ∀ a, a ∈ q'.entries ↔ a ∈ q.entries ∧ a < newsz
  order : clockOrder cfg q' = (clockOrder cfg q).filter (· < newsz)
  next : InsertsLast cfg q'

/-- **The order survives**: nothing goes, the queue is not full, or everything on one side of the
    hand goes. -/
def OrderKept (q : ClockQ) (newsz : Nat) : Prop :=
  (∀ a ∈ q.entries, a < newsz) ∨ q.inClock < cfg.clockSize ∨
  (∀ a ∈ q.entries.take (q.currInd.toNat % cfg.clockSize), newsz ≤ a) ∨
  ∀ a ∈ q.entries.drop (q.currInd.toNat % cfg.clockSize), newsz ≤ a

/-- Two lists without a common entry commute only if one is empty. -/
theorem append_comm_iff {A B : List Nat} (h : List.Disjoint A B) :
    A ++ B = B ++ A ↔ A = [] ∨ B = [] := by
  constructor
  · intro he
    cases A with
    | nil => exact .inl rfl
    | cons a A =>
      cases B with
      | nil => exact .inr rfl
      | cons b B =>
        have hab : a = b := (List.cons.inj he).1
        exact absurd (hab ▸ List.mem_cons_self) (h List.mem_cons_self)
  · rintro (rfl | rfl)
    · rw [List.nil_append, List.append_nil]
    · rw [List.nil_append, List.append_nil]

section
variable {cfg} {q : ClockQ} {newsz : Nat} (hwf : ClockWf cfg q) (hnd : q.entries.Nodup)
include hwf hnd

theorem order_iff : clockOrder cfg (removeFreed q.inClock q newsz 0) =
    (clockOrder cfg q).filter (· < newsz) ↔ OrderKept cfg q newsz := by
  have hle := hwf.le
  by_cases hall : ∀ a ∈ q.entries, a < newsz
  · refine ⟨fun _ => .inl hall, fun _ => ?_⟩
    rw [removeFreed_eq_self_iff.mpr hall, eq_comm, List.filter_eq_self]
    exact fun a ha => decide_eq_true (hall a (mem_of_clockOrder cfg ha))
  have hlt := removeFreed_lt hall
  rw [clockOrder_fill cfg (by omega), removeFreed_filter]
  by_cases hf : q.inClock < cfg.clockSize
  · rw [clockOrder_fill cfg hf]
    exact ⟨fun _ => .inr (.inl hf), fun _ => rfl⟩
  have hfull : q.inClock = cfg.clockSize := by omega
  have hlen : q.entries.length = cfg.clockSize := (Lib.length_front _ _).trans hfull
  obtain ⟨h0, h1⟩ := hwf.hand hfull
  rw [clockOrder_full cfg hfull h0 h1, List.rotate_eq_drop_append_take_mod, hlen]
  unfold OrderKept
  generalize q.currInd.toNat % cfg.clockSize = c
  have hsplit : q.entries.filter (· < newsz) =
      (q.entries.take c).filter (· < newsz) ++ (q.entries.drop c).filter (· < newsz) := by
    rw [← List.filter_append, List.take_append_drop]
  have hdis : List.Disjoint ((q.entries.take c).filter (· < newsz))
      ((q.entries.drop c).filter (· < newsz)) := by
    refine List.disjoint_of_nodup_append ?_
    rw [← hsplit]
    exact hnd.filter _
  have hnil : ∀ l : List Nat, l.filter (· < newsz) = [] ↔ ∀ a ∈ l, newsz ≤ a := fun l => by
    rw [List.filter_eq_nil_iff]
    simp
  rw [hsplit, List.filter_append, append_comm_iff hdis, hnil, hnil]
  refine ⟨fun h => .inr (.inr h), ?_⟩
  rintro (h | h | h)
  · exact absurd h hall
  · exact absurd h hf
  · exact h

theorem next_iff (hz : newsz ≤ noPage) :
    InsertsLast cfg (removeFreed q.inClock q newsz 0) ↔ ShrinkOk q newsz := by
  have hle := hwf.le
  by_cases hall : ∀ a ∈ q.entries, a < newsz
  · rw [removeFreed_eq_self_iff.mpr hall]
    refine ⟨fun _ => ?_, fun _ => ?_⟩
    · by_cases h0 : q.inClock = 0
      · exact .inl h0
      · exact .inr (.inl (hall _ (Lib.mem_front.mpr ⟨q.inClock - 1, by omega, rfl⟩)))
    · by_cases hf : q.inClock < cfg.clockSize
      · refine insertsLast_fill hf ?_
        by_cases h0 : q.inClock = 0
        · exact .inl h0
        · exact .inr (hwf.fill (by omega) hf)
      · exact insertsLast_full (by omega)
  · have hlt := removeFreed_lt hall
    rw [← currInd_right_iff hall]
    refine ⟨fun h => ?_, fun h => insertsLast_fill (by omega) h⟩
    by_contra hc
    simp only [not_or] at hc
    refine not_insertsLast (by omega) (by omega) hc.2 ?_ ?_ h
    · rw [removeFreed_filter]
      exact hnd.filter _
    · rcases (removeFreed_hole : removeFreed q.inClock q newsz 0 = q ∨ _) with he | he
      · exact absurd (removeFreed_eq_self_iff.mp he) hall
      · rw [he, removeFreed_filter]
        intro hmem
        have := of_decide_eq_true (List.mem_filter.mp hmem).2
        omega

end

/-- **When shrinking keeps the clock queue in order**: for every well-formed queue of distinct pages
    and every `n < 0` that leaves a size. -/
theorem shrinksInOrder_iff {m m' : Kmem} {p p' : Proc} {n : BitVec 32} {r : Int} (hp : Sane p)
    (hwf : ClockWf cfg p.q) (hnd : p.q.entries.Nodup) (hn : n.toInt < 0)
    (hpos : 0 < p.sz + n.toInt) (h : growproc cfg m p n.toInt = .ok (r, m', p')) :
    ShrinksInOrder cfg p.q p'.q (p.sz + n.toInt).toNat ↔
      ShrinkOk p.q (p.sz + n.toInt).toNat ∧ OrderKept cfg p.q (p.sz + n.toInt).toNat := by
  have hsz : p.sz < 2 ^ 31 := hp.size
  have hu : toU (p.sz + n.toInt) = (p.sz + n.toInt).toNat := by
    unfold toU
    omega
  have hq : p'.q = removeFreed p.q.inClock p.q (p.sz + n.toInt).toNat 0 := by
    rw [← hu]
    cases growproc_ok cfg hp BitVec.toInt_lt h with
    | same h1 => omega
    | grown h1 => omega
    | failed h1 => omega
    | wrapped h1 => rfl
    | shrunk h1 => rfl
  rw [hq, ← order_iff hwf hnd, ← next_iff hwf hnd (by unfold noPage; omega)]
  refine ⟨fun h => ⟨h.next, h.order⟩, fun h => ⟨fun a => ?_, h.2, h.1⟩⟩
  rw [removeFreed_filter, List.mem_filter, decide_eq_true_eq]

/-- A process of three pages with page 2 and page 0 on its queue. -/
def twoQueued : Proc :=
  { freshProc 3 with q := ⟨fun i => if i = 0 then 8192 else 0, 2, 2⟩ }

/-- It gives back page 2. -/
theorem shrinksInOrder_twoQueued : ∃ m' p',
    growproc xv6 (freshKernel 3).kmem twoQueued (-4096#32).toInt = .ok (0, m', p') ∧
    ShrinksInOrder xv6 twoQueued.q p'.q 8192 := by
  have h : Lib.okAnd (growproc xv6 (freshKernel 3).kmem twoQueued (-4096#32).toInt) (fun x =>
      x.1 == 0) = true := by decide +kernel
  obtain ⟨⟨r, m', p'⟩, h1, h2⟩ := Lib.okAnd_iff.mp h
  obtain rfl : r = 0 := beq_iff_eq.mp h2
  have hfresh := (freshProc_fresh 3 (by decide)).sane
  have hsane : Sane twoQueued := ⟨hfresh.high, hfresh.size⟩
  have hwf : ClockWf xv6 twoQueued.q := .of_eq xv6 (by decide) rfl
  exact ⟨m', p', h1, (shrinksInOrder_iff xv6 hsane hwf (by decide) (by decide) (by decide) h1).mpr
    ⟨.inr (.inl (by decide)), .inr (.inl (by decide))⟩⟩

/-- **Giving back the last page on the queue leaves `currInd` behind**: the next page is not put
    after the survivors. -/
theorem giveBackLast_out_of_order : ∃ k m' p',
    Run xv6 (fun _ _ _ => True) (freshKernel 3) k ∧ (k.proc 0).q.entries = [0, 4096, 8192] ∧
    growproc xv6 k.kmem (k.proc 0) (-4096#32).toInt = .ok (0, m', p') ∧
    p'.q.inClock = 2 ∧ p'.q.currInd = 3 ∧ ¬ ShrinksInOrder xv6 (k.proc 0).q p'.q 8192 := by
  have h : Lib.okAnd (steps xv6 (freshKernel 3) 0
      [.mem (.read 0), .mem (.read 4096), .mem (.read 8192)]) (fun k =>
      (k.proc 0).q.entries == [0, 4096, 8192] &&
      Lib.okAnd (growproc xv6 k.kmem (k.proc 0) (-4096#32).toInt) fun x =>
        x.1 == 0 && (x.2.2.q.inClock == 2 && (x.2.2.q.currInd == 3 &&
          (x.2.2.q.entries == [0, 4096] && x.2.2.q.nodes 2 == noPage)))) = true := by decide +kernel
  obtain ⟨k, hk, h1⟩ := Lib.okAnd_iff.mp h
  rw [Bool.and_eq_true, beq_iff_eq] at h1
  obtain ⟨⟨r, m', p'⟩, hg, h2⟩ := Lib.okAnd_iff.mp h1.2
  simp only [Bool.and_eq_true, beq_iff_eq] at h2
  obtain ⟨rfl, hn, hc, he, hh⟩ := h2
  refine ⟨k, m', p', .of_steps xv6 .start hk, h1.1, hg, hn, hc, fun hs => ?_⟩
  refine not_insertsLast (by omega) (by rw [hn]; decide) (by rw [hn, hc]; decide) ?_ ?_ hs.next
  · rw [he]
    decide
  · rw [hn, hh, he]
    decide

end Xv6Clock
