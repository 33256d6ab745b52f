/-
  File:      Xv6Clock/Clock.lean
  Subject:   The clock queue of decrypted pages: insertion and eviction (`mdecrypt`, vm.c) and the
             removal of freed pages (`growproc`, proc.c).

  `nodes` is the array of `struct proc`; its first `inClock` entries are the queue. `currInd` is
  the next free place while the queue fills and the hand once it is full. Both readings are in
  `ClockWf`; none of the functions checks it.
-/
import Xv6Clock.Crypt
import Xv6Clock.Lib.Front

namespace Xv6Clock

variable (cfg : Config)

/-! ## 1. The functions -/

/-- The clock fields of `struct proc`; a node is its `pageAddr`. -/
structure ClockQ where
  nodes : Nat → Nat
  inClock : Nat
  currInd : Int

/-- The addresses `nodes[0 .. inClock)`. -/
def ClockQ.entries (q : ClockQ) : List Nat := Lib.front q.nodes q.inClock

/-- The place `nodes[i]`, if the array has it. -/
def nodeIndex (i : Int) : Except Err Nat :=
  if 0 ≤ i ∧ i < cfg.clockSize then .ok i.toNat else .error (.oob i)

/-- The inner loop of the eviction, from `i` on with `n` rounds left; `true` when it evicted. -/
def evictPass : Nat → Vm → ClockQ → Nat → Nat → Except Err (Bool × Vm × ClockQ)
  | 0, s, q, _, _ => .ok (false, s, q)
  | n + 1, s, q, add, i => do
    let realInd ← nodeIndex cfg ((toI (i + q.currInd)).tmod cfg.clockSize)
    match s.pd.walk (q.nodes realInd) with
    | none => .error .nullPte
    | some pte =>
      if has (s.pd.pteAt pte) pteA then
        evictPass n (s.mark pte (clearRef (s.pd.pteAt pte))) q add (i + 1)
      else do
        let (_, s) ← mencrypt s (q.nodes realInd) 1
        .ok (true, s, ⟨Function.update q.nodes realInd add, q.inClock,
          ((realInd + 1) % cfg.clockSize : Nat)⟩)

/-- The clock logic of `mdecrypt`. -/
def clockInsert (s : Vm) (q : ClockQ) (add : Nat) : Except Err (Vm × ClockQ) :=
  if q.inClock = 0 then .ok (s, ⟨Function.update q.nodes 0 add, 1, 1⟩) else
  if q.inClock < cfg.clockSize then do
    let i ← nodeIndex cfg q.currInd
    .ok (s, ⟨Function.update q.nodes i add, q.inClock + 1, toI (q.currInd + 1)⟩)
  else do
    let (evicted, s, q) ← evictPass cfg cfg.clockSize s q add 0
    if evicted then .ok (s, q) else do
    let (_, s, q) ← evictPass cfg cfg.clockSize s q add 0
    .ok (s, q)

/-- `mdecrypt`. -/
def mdecrypt (s : Vm) (q : ClockQ) (va : Nat) : Except Err (Int × Vm × ClockQ) := do
  let (r, s) ← mdecryptPage s va
  if r < 0 then .ok (-1, s, q) else do
  let (s, q) ← clockInsert cfg s q (pgRoundDown va)
  .ok (0, s, q)

/-- `(char *)-1`. -/
def noPage : Nat := 0xFFFFFFFF

/-- Node `i` leaves the queue (`growproc`): the nodes after it move down, and only then does
    `currInd` follow. -/
def ClockQ.remove (q : ClockQ) (i : Nat) : ClockQ :=
  if i < q.inClock - 1 then
    ⟨Lib.shift noPage (q.inClock - 1 - i) q.nodes i, q.inClock - 1, (q.inClock - 1 : Nat)⟩
  else ⟨Function.update q.nodes i noPage, q.inClock - 1, q.currInd⟩

/-- The loop of `growproc` over the queue, for the new size `newsz`; every round either leaves a
    node behind or takes one out. -/
def removeFreed : Nat → ClockQ → Nat → Nat → ClockQ
  | 0, q, _, _ => q
  | n + 1, q, newsz, i =>
    if q.inClock ≤ i then q else
    if newsz ≤ q.nodes i then removeFreed n (q.remove i) newsz i
    else removeFreed n q newsz (i + 1)

/-! ## 2. Removing freed pages -/

variable {q : ClockQ} {n add va : Nat} {s s' : Vm} {r : Int}

theorem ClockQ.remove_entries {i : Nat} (h : i < q.inClock) :
    (q.remove i).entries = q.entries.eraseIdx i := by
  obtain ⟨n, hn⟩ : ∃ n, q.inClock = n + 1 := ⟨q.inClock - 1, by omega⟩
  unfold ClockQ.entries ClockQ.remove
  split
  · simp only [hn, Nat.add_sub_cancel]
    exact Lib.front_shift noPage q.nodes (by omega)
  · have hi : i = n := by omega
    simp only [hn, Nat.add_sub_cancel, hi]
    rw [Lib.front_succ, Lib.front_congr (b := q.nodes)
      fun j hj => Function.update_of_ne (by omega) _ _]
    rw [List.eraseIdx_append_of_length_le (by simp)]
    simp

@[simp] theorem ClockQ.remove_inClock (q : ClockQ) (i : Nat) :
    (q.remove i).inClock = q.inClock - 1 := by
  unfold ClockQ.remove
  split <;> rfl

/-- **The loop keeps the nodes below the new size, in order.** -/
theorem removeFreed_entries : ∀ {q : ClockQ} {newsz i : Nat}, q.inClock ≤ i + n →
    (removeFreed n q newsz i).entries =
      q.entries.take i ++ (q.entries.drop i).filter (· < newsz) := by
  induction n with
  | zero =>
    intro q newsz i h
    have hlen : q.entries.length ≤ i := by
      unfold ClockQ.entries
      rw [Lib.length_front]
      exact h
    rw [removeFreed, List.take_of_length_le hlen, List.drop_of_length_le hlen]
    simp
  | succ n ih =>
    intro q newsz i h
    have hlen : q.entries.length = q.inClock := Lib.length_front _ _
    unfold removeFreed
    split
    · rename_i hle
      rw [List.take_of_length_le (by omega), List.drop_of_length_le (by omega)]
      simp
    rename_i hlt
    have hi : i < q.entries.length := by omega
    have hget : q.entries[i] = q.nodes i := by
      have := Lib.getElem?_front (a := q.nodes) (n := q.inClock) (i := i) (by omega)
      exact Option.some.inj ((List.getElem?_eq_getElem hi).symm.trans this)
    have hdrop : q.entries.drop i = q.nodes i :: q.entries.drop (i + 1) := by
      rw [List.drop_eq_getElem_cons hi, hget]
    split
    · rename_i hge
      rw [ih (by rw [ClockQ.remove_inClock]; omega), ClockQ.remove_entries (by omega), hdrop,
        List.filter_cons_of_neg (by simpa using hge)]
      congr 1
      · rw [List.take_eraseIdx_eq_take_of_le _ _ _ (Nat.le_refl i)]
      · congr 1
        rw [List.eraseIdx_eq_take_drop_succ]
        exact List.drop_left' (by rw [List.length_take]; omega)
    · rename_i hltz
      rw [ih (by omega), hdrop, List.filter_cons_of_pos (by simpa using hltz)]
      rw [List.take_succ_eq_append_getElem hi, hget, List.append_assoc]
      rfl

/-- `growproc`'s loop over the whole queue. -/
theorem removeFreed_filter (q : ClockQ) (newsz : Nat) :
    (removeFreed q.inClock q newsz 0).entries = q.entries.filter (· < newsz) := by
  rw [removeFreed_entries (by omega)]
  rfl

theorem removeFreed_inClock (q : ClockQ) (newsz : Nat) :
    (removeFreed q.inClock q newsz 0).inClock = (q.entries.filter (· < newsz)).length := by
  rw [← removeFreed_filter]
  exact (Lib.length_front _ _).symm

theorem ClockQ.remove_last {i : Nat} (h : i < q.inClock - 1) :
    (q.remove i).nodes (q.inClock - 2) = q.nodes (q.inClock - 1) ∧
      (q.remove i).currInd = (q.remove i).inClock := by
  unfold ClockQ.remove
  rw [if_pos h]
  refine ⟨?_, rfl⟩
  simp only [Lib.shift_apply]
  rw [if_neg (by omega), if_pos (by omega), show q.inClock - 2 + 1 = q.inClock - 1 by omega]

/-- Where the last node stays, the place after it is kept in `currInd`. -/
theorem removeFreed_keep : ∀ {q : ClockQ} {newsz i : Nat},
    q.nodes (q.inClock - 1) < newsz →
    removeFreed n q newsz i = q ∨
      (removeFreed n q newsz i).currInd = (removeFreed n q newsz i).inClock := by
  induction n with
  | zero => exact fun _ => Or.inl rfl
  | succ n ih =>
    intro q newsz i hlast
    unfold removeFreed
    split
    · exact Or.inl rfl
    rename_i hi
    split
    · rename_i hge
      have hlt : i < q.inClock - 1 := by
        by_contra hc
        rw [show i = q.inClock - 1 by omega] at hge
        omega
      obtain ⟨h1, h2⟩ := ClockQ.remove_last hlt
      have h3 := @ih (q.remove i) newsz i
        (by rw [ClockQ.remove_inClock, show q.inClock - 1 - 1 = q.inClock - 2 by omega, h1]
            exact hlast)
      rcases h3 with h3 | h3
      · rw [h3]
        exact Or.inr h2
      · exact Or.inr h3
    · exact ih hlast

/-- Where only the last node goes, `currInd` is left as it was. -/
theorem removeFreed_onlyLast : ∀ {q : ClockQ} {newsz i : Nat}, q.inClock ≤ i + n →
    i < q.inClock → (∀ j, i ≤ j → j < q.inClock - 1 → q.nodes j < newsz) →
    newsz ≤ q.nodes (q.inClock - 1) →
    (removeFreed n q newsz i).currInd = q.currInd ∧
      (removeFreed n q newsz i).inClock = q.inClock - 1 := by
  induction n with
  | zero =>
    intro q newsz i h1 h2
    omega
  | succ n ih =>
    intro q newsz i h1 h2 hlow hlast
    unfold removeFreed
    rw [if_neg (by omega)]
    by_cases hi : i = q.inClock - 1
    · rw [if_pos (by rw [hi]; exact hlast)]
      -- nothing is left behind the removed node
      have hr : q.remove i = ⟨Function.update q.nodes i noPage, q.inClock - 1, q.currInd⟩ :=
        if_neg (by omega)
      have hstop : removeFreed n (q.remove i) newsz i = q.remove i := by
        cases n with
        | zero => rfl
        | succ n =>
          unfold removeFreed
          rw [if_pos (by rw [ClockQ.remove_inClock]; omega)]
      rw [hstop, hr]
      exact ⟨rfl, rfl⟩
    · rw [if_neg (by have := hlow i (Nat.le_refl _) (by omega); omega)]
      exact ih (by omega) (by omega) (fun j h3 h4 => hlow j (by omega) h4) hlast

/-! ## 3. The two readings of `currInd` -/

/-- **The queue is well formed**: `currInd` is the next free place while the queue fills, and a
    hand from which two rounds can be counted when it is full. -/
structure ClockWf (q : ClockQ) : Prop where
  le : q.inClock ≤ cfg.clockSize
  fill : 0 < q.inClock → q.inClock < cfg.clockSize → q.currInd = q.inClock
  hand : q.inClock = cfg.clockSize → 0 ≤ q.currInd ∧ q.currInd + cfg.clockSize < 2 ^ 31

theorem Config.clockSmall : cfg.clockSize < 2 ^ 23 := by
  have := cfg.clockFits
  omega

/-- When shrinking to `newsz` keeps `currInd` right: the queue is empty, its last node stays, all
    of it goes, or only the last node goes and `currInd` happens to be its place. -/
def ShrinkOk (q : ClockQ) (newsz : Nat) : Prop :=
  q.inClock = 0 ∨ q.nodes (q.inClock - 1) < newsz ∨ (∀ i, i < q.inClock → newsz ≤ q.nodes i) ∨
    ((∀ i, i < q.inClock - 1 → q.nodes i < newsz) ∧ q.currInd = (q.inClock - 1 : Nat))

theorem ClockWf.empty (h : q.inClock = 0) : ClockWf cfg q where
  le := by omega
  fill h1 := by omega
  hand h1 := by
    have := cfg.clockPos
    omega

/-- A queue whose `currInd` is its length is well formed, full or not. -/
theorem ClockWf.of_eq (h : q.inClock ≤ cfg.clockSize) (hc : q.currInd = q.inClock) :
    ClockWf cfg q where
  le := h
  fill _ _ := hc
  hand h1 := by
    have := cfg.clockSmall
    rw [hc, h1]
    omega

theorem removeFreed_wf {newsz : Nat} (h : ClockWf cfg q) (hok : ShrinkOk q newsz) :
    ClockWf cfg (removeFreed q.inClock q newsz 0) := by
  have hle : (removeFreed q.inClock q newsz 0).inClock ≤ q.inClock := by
    rw [removeFreed_inClock]
    exact Nat.le_trans (List.length_filter_le _ _) (Nat.le_of_eq (Lib.length_front _ _))
  rcases hok with h0 | hlast | hall | ⟨hlow, hcur⟩
  · exact ClockWf.empty cfg (by omega)
  · rcases removeFreed_keep (n := q.inClock) (i := 0) hlast with he | he
    · rw [he]
      exact h
    · exact ClockWf.of_eq cfg (Nat.le_trans hle h.le) he
  · refine ClockWf.empty cfg ?_
    rw [removeFreed_inClock, List.length_eq_zero_iff, List.filter_eq_nil_iff]
    intro a ha
    obtain ⟨i, hi, rfl⟩ := Lib.mem_front.mp ha
    simpa using hall i hi
  · by_cases h0 : q.inClock = 0
    · exact ClockWf.empty cfg (by omega)
    · by_cases hlast : q.nodes (q.inClock - 1) < newsz
      · rcases removeFreed_keep (n := q.inClock) (i := 0) hlast with he | he
        · rw [he]
          exact h
        · exact ClockWf.of_eq cfg (Nat.le_trans hle h.le) he
      · obtain ⟨h1, h2⟩ := removeFreed_onlyLast (n := q.inClock) (i := 0) (by omega) (by omega)
          (fun j _ hj => hlow j hj) (by omega)
        refine ClockWf.of_eq cfg (Nat.le_trans hle h.le) ?_
        rw [h1, h2, hcur]

/-! ## 4. Eviction -/

/-- A user page in plain text. -/
def plain (w : Word) : Bool := has w pteU && has w pteP && !has w pteE

theorem plain_iff {w : Word} :
    plain w = true ↔ has w pteU = true ∧ has w pteP = true ∧ has w pteE = false := by
  simp [plain, and_assoc]

theorem plain_seal (w : Word) : plain (sealEntry w) = false := by
  simp [plain, sealEntry]

@[simp] theorem plain_clearRef (w : Word) : plain (clearRef w) = plain w := by simp [plain]

@[simp] theorem plain_setRef (w : Word) : plain (setRef w) = plain w := by simp [plain]

/-- What the sweep does before it evicts: some reference bits are cleared. -/
structure Cleared (s s' : Vm) : Prop where
  m : s'.m = s.m
  tab : ∀ u, s'.pd.tabAt u = s.pd.tabAt u
  pte : ∀ u, s'.pd.pteAt u = s.pd.pteAt u ∨ s'.pd.pteAt u = clearRef (s.pd.pteAt u)
  flips : Flips s s'

theorem Cleared.refl (s : Vm) : Cleared s s :=
  ⟨rfl, fun _ => rfl, fun _ => Or.inl rfl, Relation.ReflTransGen.refl⟩

theorem clearRef_clearRef (w : Word) : clearRef (clearRef w) = clearRef w := by
  unfold clearRef
  rw [BitVec.and_assoc, BitVec.and_self]

theorem Cleared.cons {v : Nat} (hv : v < 2 ^ 20) (ht : s.pd.tabAt v = true)
    (h : Cleared (s.mark v (clearRef (s.pd.pteAt v))) s') : Cleared s s' where
  m := h.m
  tab u := (h.tab u).trans (PgDir.tabAt_store _ _ _ _)
  pte u := by
    have e : (s.mark v (clearRef (s.pd.pteAt v))).pd.pteAt u =
        if u = v then clearRef (s.pd.pteAt v) else s.pd.pteAt u := PgDir.pteAt_store _ _ ht
    have h1 := h.pte u
    rw [e] at h1
    by_cases hu : u = v
    · rw [if_pos hu, ← hu, clearRef_clearRef, or_self] at h1
      exact Or.inr h1
    · rwa [if_neg hu] at h1
  flips := Relation.ReflTransGen.head (Flip.unref hv ht) h.flips

theorem Cleared.plain (h : Cleared s s') (u : Nat) :
    plain (s'.pd.pteAt u) = plain (s.pd.pteAt u) := by
  rcases h.pte u with e | e <;> rw [e]
  exact plain_clearRef _

theorem Cleared.unref (h : Cleared s s') {u : Nat} (hu : has (s.pd.pteAt u) pteA = false) :
    has (s'.pd.pteAt u) pteA = false := by
  rcases h.pte u with e | e <;> rw [e]
  · exact hu
  · exact has_clearRef_A _

/-- **An eviction**: after the sweep, node `r` is not referenced; its page is handed to `mencrypt`
    and the new page takes its place. -/
structure EvictedAt (s s' : Vm) (q q' : ClockQ) (add : Nat) (s1 : Vm) (r : Nat) (x : Int) :
    Prop where
  lt : r < cfg.clockSize
  swept : Cleared s s1
  tab : s1.pd.tabAt (vpn (q.nodes r)) = true
  unref : has (s1.pd.pteAt (vpn (q.nodes r))) pteA = false
  sealed : mencrypt s1 (q.nodes r) 1 = .ok (x, s')
  queue : q' = ⟨Function.update q.nodes r add, q.inClock, ((r + 1) % cfg.clockSize : Nat)⟩

def Evicted (s s' : Vm) (q q' : ClockQ) (add : Nat) : Prop :=
  ∃ s1 r x, EvictedAt cfg s s' q q' add s1 r x

theorem nodeIndex_ok {i : Int} {r : Nat} (h : nodeIndex cfg i = .ok r) :
    r < cfg.clockSize ∧ i = r := by
  unfold nodeIndex at h
  split at h
  · rename_i hi
    cases h
    omega
  · cases h

/-- A pass over the queue: it evicts, or it leaves every node it met without its reference bit. -/
theorem evictPass_ok : ∀ {s s' : Vm} {q q' : ClockQ} {add i : Nat} {b : Bool},
    evictPass cfg n s q add i = .ok (b, s', q') →
    (b = true ∧ Evicted cfg s s' q q' add) ∨
    (b = false ∧ q' = q ∧ Cleared s s' ∧ ∀ j : Nat, i ≤ j → j < i + n →
      ∃ r, nodeIndex cfg ((toI (j + q.currInd)).tmod cfg.clockSize) = .ok r ∧
        s'.pd.tabAt (vpn (q.nodes r)) = true ∧
        has (s'.pd.pteAt (vpn (q.nodes r))) pteA = false) := by
  induction n with
  | zero =>
    intro s s' q q' add i b h
    cases h
    exact Or.inr ⟨rfl, rfl, Cleared.refl s, fun j h1 h2 => by omega⟩
  | succ n ih =>
    intro s s' q q' add i b h
    unfold evictPass at h
    obtain ⟨r, hr, h⟩ := Lib.bind_eq_ok.mp h
    split at h
    · cases h
    rename_i pte hw
    obtain ⟨rfl, ht⟩ := PgDir.walk_some hw
    split at h
    · -- referenced: clear the bit and go on
      have e : (s.mark (vpn (q.nodes r)) (clearRef (s.pd.pteAt (vpn (q.nodes r))))).pd.pteAt
          (vpn (q.nodes r)) = clearRef (s.pd.pteAt (vpn (q.nodes r))) :=
        PgDir.pteAt_store_self _ ht
      rcases ih h with ⟨hb, s1, r1, x, hev⟩ | ⟨hb, hq, hc, hall⟩
      · exact Or.inl ⟨hb, s1, r1, x, { hev with swept := hev.swept.cons (vpn_lt _) ht }⟩
      · refine Or.inr ⟨hb, hq, hc.cons (vpn_lt _) ht, fun j h1 h2 => ?_⟩
        by_cases hj : j = i
        · refine ⟨r, by rw [hj]; exact hr, ?_, hc.unref (by rw [e]; exact has_clearRef_A _)⟩
          rw [hc.tab]
          exact (PgDir.tabAt_store _ _ _ _).trans ht
        · exact hall j (by omega) (by omega)
    · rename_i hA
      obtain ⟨⟨x, s2⟩, h1, h2⟩ := Lib.bind_eq_ok.mp h
      cases h2
      refine Or.inl ⟨rfl, s, r, x, ⟨(nodeIndex_ok cfg hr).1, Cleared.refl s, ht, ?_, h1, rfl⟩⟩
      simpa using hA

variable {q' : ClockQ}

/-- **Two passes always evict.** -/
theorem clockInsert_ok (h : clockInsert cfg s q add = .ok (s', q')) :
    (q.inClock = 0 ∧ s' = s ∧ q' = ⟨Function.update q.nodes 0 add, 1, 1⟩) ∨
    (0 < q.inClock ∧ q.inClock < cfg.clockSize ∧ s' = s ∧ ∃ i : Nat, i < cfg.clockSize ∧
      q.currInd = i ∧ q' = ⟨Function.update q.nodes i add, q.inClock + 1, (i + 1 : Nat)⟩) ∨
    (0 < q.inClock ∧ cfg.clockSize ≤ q.inClock ∧ Evicted cfg s s' q q' add) := by
  unfold clockInsert at h
  split at h
  · rename_i h0
    cases h
    exact Or.inl ⟨h0, rfl, rfl⟩
  rename_i h0
  split at h
  · rename_i hlt
    obtain ⟨i, hi, h1⟩ := Lib.bind_eq_ok.mp h
    obtain ⟨hic, hie⟩ := nodeIndex_ok cfg hi
    cases h1
    have hsm := cfg.clockSmall
    refine Or.inr (Or.inl ⟨by omega, hlt, rfl, i, hic, hie, ?_⟩)
    rw [hie, toI_of_bounds (by omega) (by omega)]
    rfl
  · rename_i hge
    refine Or.inr (Or.inr ⟨by omega, by omega, ?_⟩)
    obtain ⟨⟨b, s1, q1⟩, h1, h2⟩ := Lib.bind_eq_ok.mp h
    rcases evictPass_ok cfg h1 with ⟨rfl, hev⟩ | ⟨rfl, rfl, hc, hall⟩
    · cases h2
      exact hev
    -- the second pass meets the first node again, now without its bit
    obtain ⟨⟨b2, s2, q2⟩, h3, h4⟩ := Lib.bind_eq_ok.mp h2
    cases h4
    rcases evictPass_ok cfg h3 with ⟨-, s3, r, x, hev⟩ | ⟨rfl, -, -, -⟩
    · refine ⟨s3, r, x, { hev with swept := ?_ }⟩
      have h5 := hev.swept
      refine ⟨h5.m.trans hc.m, fun u => (h5.tab u).trans (hc.tab u), fun u => ?_,
        hc.flips.trans h5.flips⟩
      rcases hc.pte u with e | e
      · rw [← e]
        exact h5.pte u
      · have := h5.pte u
        rw [e, clearRef_clearRef, or_self] at this
        exact Or.inr this
    · exfalso
      have hpos := cfg.clockPos
      obtain ⟨r, hr, ht, hA⟩ := hall 0 (Nat.le_refl _) (by omega)
      obtain ⟨n, hn⟩ : ∃ n, cfg.clockSize = n + 1 := ⟨cfg.clockSize - 1, by omega⟩
      have h6 : ∀ n, evictPass cfg (n + 1) s1 q1 add 0 ≠ .ok (false, s', q') := by
        intro n h6
        unfold evictPass at h6
        rw [hr, Lib.ok_bind, PgDir.walk_of_tabAt ht] at h6
        simp only [hA, Bool.false_eq_true, if_false] at h6
        obtain ⟨⟨x, s2⟩, -, h8⟩ := Lib.bind_eq_ok.mp h6
        cases h8
      exact h6 n (hn ▸ h3)

/-! ## 5. `mencrypt` and `mdecrypt` as a whole -/

theorem mencrypt_ok {len x : Int} (h : mencrypt s va len = .ok (x, s')) :
    (x = -1 ∧ s' = s ∧ ∃ u, InRange (va / 4096) len.toNat u ∧
      has (s.pd.pteAt u) pteU = true ∧ mapped (s.pd.pteAt u) = false) ∨
    (x = 0 ∧ EncRange s s' (va / 4096) len.toNat) := by
  rcases mencrypt_cases s va len with ⟨h1, h2⟩ | ⟨s1, h1, h2⟩ | ⟨h1, -⟩
  · rw [h1] at h
    cases h
    exact Or.inl ⟨rfl, rfl, h2⟩
  · rw [h1] at h
    cases h
    exact Or.inr ⟨rfl, h2⟩
  · rw [h1] at h
    cases h

theorem mencrypt_flips {len x : Int} (hk : KernHigh s.pd) (h : mencrypt s va len = .ok (x, s')) :
    Flips s s' := by
  rcases mencrypt_ok h with ⟨-, rfl, -⟩ | ⟨-, he⟩
  · exact Relation.ReflTransGen.refl
  · exact he.flips hk

theorem Evicted.flips (hk : KernHigh s.pd) (h : Evicted cfg s s' q q' add) : Flips s s' := by
  obtain ⟨s1, r, x, h⟩ := h
  exact h.swept.flips.trans
    (mencrypt_flips (h.swept.flips.recoded.kernHigh hk) h.sealed)

theorem clockInsert_flips (hk : KernHigh s.pd) (h : clockInsert cfg s q add = .ok (s', q')) :
    Flips s s' := by
  rcases clockInsert_ok cfg h with ⟨-, rfl, -⟩ | ⟨-, -, rfl, -⟩ | ⟨-, -, hev⟩
  · exact Relation.ReflTransGen.refl
  · exact Relation.ReflTransGen.refl
  · exact hev.flips cfg hk

/-- Page `v` decrypted: flags and bytes, and referenced. -/
def Vm.opened (s : Vm) (v : Nat) : Vm := s.flip v (openEntry (s.pd.pteAt v))

/-- **`mdecrypt`, when it returns.** -/
theorem mdecrypt_ok (h : mdecrypt cfg s q va = .ok (r, s', q')) :
    (r = -1 ∧ q' = q ∧ s' = s ∧
      ¬ (has (s.pd.pteAt (vpn va)) pteE = true ∧ has (s.pd.pteAt (vpn va)) pteU = true)) ∨
    (r = -1 ∧ q' = q ∧ s' = halfDec s (vpn va) ∧ has (s.pd.pteAt (vpn va)) pteE = true ∧
      has (s.pd.pteAt (vpn va)) pteU = true ∧ s.m.mem (pteFrame (s.pd.pteAt (vpn va))) 0 = 0#8) ∨
    (r = 0 ∧ has (s.pd.pteAt (vpn va)) pteE = true ∧ has (s.pd.pteAt (vpn va)) pteU = true ∧
      s.m.mem (pteFrame (s.pd.pteAt (vpn va))) 0 ≠ 0#8 ∧
      clockInsert cfg (s.opened (vpn va)) q (pgRoundDown va) = .ok (s', q')) := by
  unfold mdecrypt at h
  rcases mdecryptPage_cases s va with ⟨-, e⟩ | ⟨-, hn, e⟩ | ⟨hE, hU, hb, e⟩ | ⟨hE, hU, hb, e⟩ <;>
    rw [e] at h
  · cases h
  · cases h
    exact Or.inl ⟨rfl, rfl, rfl, hn⟩
  · cases h
    exact Or.inr (Or.inl ⟨rfl, rfl, rfl, hE, hU, hb⟩)
  · rw [Lib.ok_bind] at h
    dsimp only at h
    rw [if_neg (by decide)] at h
    obtain ⟨⟨s1, q1⟩, h1, h2⟩ := Lib.bind_eq_ok.mp h
    cases h2
    exact Or.inr (Or.inr ⟨rfl, hE, hU, hb, h1⟩)

theorem mdecrypt_flips (hk : KernHigh s.pd) (h : mdecrypt cfg s q va = .ok (0, s', q')) :
    Flips s s' := by
  rcases mdecrypt_ok cfg h with ⟨h0, -⟩ | ⟨h0, -⟩ | ⟨-, hE, hU, -, hi⟩
  · cases h0
  · cases h0
  · have h1 := flips_open (hk.lt hU) hU hE
    exact h1.trans (clockInsert_flips cfg (h1.recoded.kernHigh hk) hi)

theorem mdecrypt_recoded (hk : KernHigh s.pd) (h : mdecrypt cfg s q va = .ok (r, s', q')) :
    Recoded s s' := by
  rcases mdecrypt_ok cfg h with ⟨-, -, rfl, -⟩ | ⟨-, -, rfl, hE, hU, -⟩ | ⟨rfl, -⟩
  · exact Recoded.refl _
  · exact recoded_halfDec (vpn_lt va) hU hE
  · exact (mdecrypt_flips cfg hk h).recoded

/-! ## 6. The hand stays inside the array -/

/-- **Insertion keeps the queue well formed.** -/
theorem clockInsert_wf (hwf : ClockWf cfg q) (h : clockInsert cfg s q add = .ok (s', q')) :
    ClockWf cfg q' := by
  rcases clockInsert_ok cfg h with ⟨-, -, rfl⟩ | ⟨h0, hlt, -, i, -, hi, rfl⟩ |
    ⟨h0, hge, s1, r, x, hev⟩
  · exact ClockWf.of_eq cfg cfg.clockPos rfl
  · have h1 := hwf.fill h0 hlt
    refine ClockWf.of_eq cfg hlt ?_
    simp only
    omega
  · have hr : (r + 1) % cfg.clockSize < cfg.clockSize := Nat.mod_lt _ cfg.clockPos
    have hsm := cfg.clockSmall
    rw [hev.queue]
    refine ⟨hwf.le, fun _ h2 => ?_, fun _ => ?_⟩
    · simp only at h2
      omega
    · simp only
      omega

/-- **Insertion, on the list of entries**: while the queue fills the page is appended; a full queue
    trades it for one entry, whose page is handed to `mencrypt`. -/
theorem clockInsert_entries (hwf : ClockWf cfg q) (h : clockInsert cfg s q add = .ok (s', q')) :
    (q.inClock < cfg.clockSize ∧ s' = s ∧ q'.entries = q.entries ++ [add]) ∨
    (q.inClock = cfg.clockSize ∧ ∃ s1 r x, r < q.inClock ∧ q'.entries = q.entries.set r add ∧
      Cleared s s1 ∧ mencrypt s1 (q.nodes r) 1 = .ok (x, s')) := by
  rcases clockInsert_ok cfg h with ⟨h0, hs, rfl⟩ | ⟨h0, hlt, hs, i, -, hi, rfl⟩ |
    ⟨h0, hge, s1, r, x, hev⟩
  · have hpos := cfg.clockPos
    refine Or.inl ⟨by omega, hs, ?_⟩
    unfold ClockQ.entries
    rw [h0]
    exact Lib.front_update_end q.nodes 0 add
  · have h1 := hwf.fill h0 hlt
    have h2 : i = q.inClock := by omega
    refine Or.inl ⟨hlt, hs, ?_⟩
    unfold ClockQ.entries
    rw [h2]
    exact Lib.front_update_end q.nodes q.inClock add
  · have hr : r < q.inClock := Nat.lt_of_lt_of_le hev.lt hge
    have hle := hwf.le
    refine Or.inr ⟨by omega, s1, r, x, hr, ?_, hev.swept, hev.sealed⟩
    rw [hev.queue]
    exact Lib.front_update q.nodes hr add

theorem clockInsert_mem {a : Nat} (hwf : ClockWf cfg q) (h : clockInsert cfg s q add = .ok (s', q'))
    (ha : a ∈ q'.entries) : a = add ∨ a ∈ q.entries := by
  rcases clockInsert_entries cfg hwf h with ⟨-, -, e⟩ | ⟨-, -, r, -, -, e, -⟩ <;> rw [e] at ha
  · rcases List.mem_append.mp ha with h1 | h1
    · exact Or.inr h1
    · exact Or.inl (List.mem_singleton.mp h1)
  · exact (List.mem_or_eq_of_mem_set ha).symm

/-- The hand of a full queue always points into the array. -/
theorem nodeIndex_hand {c : Int} {j : Nat} (h0 : 0 ≤ c) (hc : c + cfg.clockSize < 2 ^ 31)
    (hj : j < cfg.clockSize) : nodeIndex cfg ((toI (j + c)).tmod cfg.clockSize) =
      .ok ((j + c.toNat) % cfg.clockSize) := by
  have hpos := cfg.clockPos
  have e : (toI (j + c)).tmod cfg.clockSize = ((j + c.toNat) % cfg.clockSize : Nat) := by
    rw [toI_of_bounds (by omega) (by omega), Int.tmod_eq_emod_of_nonneg (by omega)]
    have : (j : Int) + c = ((j + c.toNat : Nat) : Int) := by omega
    rw [this]
    rfl
  have hlt : (j + c.toNat) % cfg.clockSize < cfg.clockSize := Nat.mod_lt _ hpos
  unfold nodeIndex
  rw [e, if_pos (by omega)]
  rfl

/-- The sweep of a full queue stops without a result only at a node whose page-table page is
    missing. -/
theorem evictPass_error : ∀ {s : Vm} {q : ClockQ} {add i : Nat} {e : Err},
    0 ≤ q.currInd → q.currInd + cfg.clockSize < 2 ^ 31 → i + n ≤ cfg.clockSize →
    evictPass cfg n s q add i = .error e →
    e = .nullPte ∧ ∃ r, r < cfg.clockSize ∧ s.pd.tabAt (vpn (q.nodes r)) = false := by
  induction n with
  | zero =>
    intro s q add i e _ _ _ h
    cases h
  | succ n ih =>
    intro s q add i e h0 hc hn h
    have hlt : (i + q.currInd.toNat) % cfg.clockSize < cfg.clockSize := Nat.mod_lt _ cfg.clockPos
    unfold evictPass at h
    rw [nodeIndex_hand cfg h0 hc (by omega), Lib.ok_bind] at h
    generalize (i + q.currInd.toNat) % cfg.clockSize = r at hlt h
    cases ht : s.pd.tabAt (vpn (q.nodes r)) with
    | false =>
      rw [PgDir.walk_of_no_tab ht] at h
      cases h
      exact ⟨rfl, r, hlt, ht⟩
    | true =>
      rw [PgDir.walk_of_tabAt ht] at h
      split at h
      · cases ‹some _ = none›
      rename_i pte hp
      cases hp
      split at h
      · obtain ⟨he, r1, hr1, ht1⟩ := ih h0 hc (by omega) h
        exact ⟨he, r1, hr1, (PgDir.tabAt_store _ _ _ _).symm.trans ht1⟩
      · rcases Lib.bind_eq_error.mp h with h1 | ⟨⟨x, s2⟩, h1, h2⟩
        · rcases mencrypt_cases s (q.nodes r) 1 with ⟨h3, -⟩ | ⟨s1, h3, -⟩ | ⟨h3, u, hu, htu⟩
          · rw [h3] at h1
            cases h1
          · rw [h3] at h1
            cases h1
          · -- the one page of this range is the node's, which was just looked up
            have hv : u = vpn (q.nodes r) := (inRange_one _ u).mp hu
            rw [hv, ht] at htu
            cases htu
        · cases h2

/-- **A well-formed queue is never accessed out of bounds**; insertion fails only when a node's
    page-table page is missing. -/
theorem clockInsert_error {e : Err} (hwf : ClockWf cfg q) (h : clockInsert cfg s q add = .error e) :
    e = .nullPte ∧ q.inClock = cfg.clockSize ∧
      ∃ r, r < cfg.clockSize ∧ s.pd.tabAt (vpn (q.nodes r)) = false := by
  unfold clockInsert at h
  split at h
  · cases h
  rename_i h0
  split at h
  · rename_i hlt
    have h1 := hwf.fill (by omega) hlt
    have h2 : nodeIndex cfg q.currInd = .ok q.inClock := by
      unfold nodeIndex
      rw [if_pos (by omega), h1]
      rfl
    rw [h2] at h
    cases h
  · rename_i hge
    have hfull : q.inClock = cfg.clockSize := by
      have := hwf.le
      omega
    obtain ⟨hc0, hc1⟩ := hwf.hand hfull
    rcases Lib.bind_eq_error.mp h with h1 | ⟨⟨b, s1, q1⟩, h1, h2⟩
    · obtain ⟨he, hr⟩ := evictPass_error cfg hc0 hc1 (by omega) h1
      exact ⟨he, hfull, hr⟩
    · rcases evictPass_ok cfg h1 with ⟨rfl, -⟩ | ⟨rfl, rfl, hc, -⟩
      · cases h2
      · rcases Lib.bind_eq_error.mp h2 with h3 | ⟨⟨b2, s2, q2⟩, -, h4⟩
        · obtain ⟨he, r, hr, ht⟩ := evictPass_error cfg hc0 hc1 (by omega) h3
          exact ⟨he, hfull, r, hr, (hc.tab _).symm.trans ht⟩
        · cases h4

theorem mdecrypt_wf (hwf : ClockWf cfg q) (h : mdecrypt cfg s q va = .ok (r, s', q')) :
    ClockWf cfg q' := by
  rcases mdecrypt_ok cfg h with ⟨-, rfl, -⟩ | ⟨-, rfl, -⟩ | ⟨-, -, -, -, hi⟩
  · exact hwf
  · exact hwf
  · exact clockInsert_wf cfg hwf hi

/-- `mdecrypt` with a well-formed queue fails only on a lookup. -/
theorem mdecrypt_error {e : Err} (hwf : ClockWf cfg q) (h : mdecrypt cfg s q va = .error e) :
    e = .nullPte ∧ (s.pd.tabAt (vpn va) = false ∨ q.inClock = cfg.clockSize ∧
      ∃ r, r < cfg.clockSize ∧ s.pd.tabAt (vpn (q.nodes r)) = false) := by
  unfold mdecrypt at h
  rcases mdecryptPage_cases s va with ⟨ht, e⟩ | ⟨-, -, e⟩ | ⟨-, -, -, e⟩ | ⟨hE, -, -, e⟩ <;>
    rw [e] at h
  · cases h
    exact ⟨rfl, Or.inl ht⟩
  · cases h
  · cases h
  · rw [Lib.ok_bind] at h
    dsimp only at h
    rw [if_neg (by decide)] at h
    rcases Lib.bind_eq_error.mp h with h1 | ⟨⟨s1, q1⟩, -, h2⟩
    · obtain ⟨he, hf, r, hr, ht⟩ := clockInsert_error cfg hwf h1
      exact ⟨he, Or.inr ⟨hf, r, hr, (PgDir.tabAt_store _ _ _ _).symm.trans ht⟩⟩
    · cases h2

end Xv6Clock
