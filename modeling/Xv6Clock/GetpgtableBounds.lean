/-
  File:      Xv6Clock/GetpgtableBounds.lean
  Subject:   Does the loop of `getpgtable` (vm.c) end, and does it stay inside the address space and
             the buffer?

  The loop goes down page by page and tests for the last page, and for the last entry, only after a
  user page. It misses page 0 if that is not a user page and goes on at the top of the address
  space; and it misses `num` if that is not positive, unless the first user page it comes to is not
  listed. The buffer was checked for `num * 8` bytes modulo 2^32. The call ends and stays in bounds
  exactly where none of this happens and every page fault of a store is handled (`CallOk`).

  A store needs one or two pages at once, and a fault for one may evict the other. The hand then
  comes nearer to a page that the store does not need (`handDist`); if the queue holds none, the
  faults never end.
-/
import Xv6Clock.AddressSpace
import Xv6Clock.Getpgtable
import Xv6Clock.Handled
import Xv6Clock.Lib.Reach
import Mathlib.Order.Lattice.Nat

namespace Xv6Clock

variable (cfg : Config)

/-! ## 1. The property and the condition on steps -/

/-- A process as exec and sbrk leave it. -/
structure CallReady (p : Proc) : Prop extends Shaped p where
  queue : p.q.inClock ≤ cfg.clockSize

/-- The states of the loop from `x0` on. -/
def ScanReach (entries : Nat) (num : Int) (wset : Bool) (x0 : Scan) : Scan → Prop :=
  Lib.Reach (fun x (_ : Unit) x' => x.step cfg entries num wset = .ok x') x0

/-- The page that is looked at is below the size, and a word that is accessed is in the buffer. -/
structure InBounds (p : Proc) (entries : Nat) (num : Int) (x : Scan) : Prop where
  look : x.pc = .look → x.uva < pgRoundUp p.sz
  write : ∀ f v fs, x.pc = .write f v fs → entries ≤ fieldAddr entries x.i f ∧
    (fieldAddr entries x.i f + 4 : Int) ≤ entries + entrySize * num
  count : (x.i : Int) ≤ num

/-- **The call is refused, or it ends and stays in bounds.** -/
def StaysInBounds (m : Kmem) (p : Proc) (entries : Nat) (num wsetOnly : Int) : Prop :=
  ∀ x0, sysGetpgtable m p entries num wsetOnly = some x0 →
    (entries + entrySize * num : Int) ≤ p.sz ∧
    (∃ x, Returns cfg m p entries num (wsetOnly == 1) x) ∧
    ∀ x, ScanReach cfg entries num (wsetOnly == 1) x0 x → InBounds p entries num x

/-- A store to the word at `w` needs page `u` in plain text. -/
def Needs (p : Proc) (w u : Nat) : Prop :=
  (u = vpn w ∨ u = vpn (addU w 3)) ∧ has (p.pgdir.pteAt u) pteU = true

/-- A fault at `a` of a store to the word at `w` is handled: `mdecrypt` takes the page, and a full
    queue has a page that the store does not need. -/
structure FaultOk (m : Kmem) (p : Proc) (w a : Nat) : Prop where
  byte : firstByte (p.vm m) a ≠ 0#8
  safe : InsertSafe cfg (p.pgdir.touched (vpn a)) p.q
  other : cfg.clockSize ≤ p.q.inClock →
    ∃ j, j < cfg.clockSize ∧ ¬ Needs p w (vpn (p.q.nodes j))

/-- Page 0 is a user page when it is looked at. -/
def ZeroOk (x : Scan) : Prop :=
  x.pc = .look → x.uva = 0 → has (x.p.pgdir.pteAt 0) pteU = true

/-- **The condition on a step**: page 0 is a user page when it is looked at, and a fault is
    handled. -/
structure BoundOk (entries : Nat) (x : Scan) : Prop where
  zero : ZeroOk x
  fault : ∀ f v fs a, x.pc = .write f v fs → missing x.p (fieldAddr entries x.i f) = some a →
    FaultOk cfg x.m x.p (fieldAddr entries x.i f) a

/-- The highest user page. -/
def TopUser (p : Proc) (v : Nat) : Prop :=
  v < pages p.sz ∧ has (p.pgdir.pteAt v) pteU = true ∧
    ∀ u, v < u → u < pages p.sz → has (p.pgdir.pteAt u) pteU = false

/-- **The condition on a call**: with no entry to write it is in the working-set mode and the
    highest user page is not queued; otherwise `num * 8` does not wrap and every state of the loop
    meets `BoundOk`. -/
def CallOk (m : Kmem) (p : Proc) (entries : Nat) (num wsetOnly : Int) : Prop :=
  num = 0 ∧ wsetOnly = 1 ∧ (∃ v, TopUser p v ∧ ¬ Queued p.q v) ∨
  (1 ≤ num ∧ num < 2 ^ 29) ∧
    ∀ x, ScanReach cfg entries num (wsetOnly == 1) (scanStart m p) x → BoundOk cfg entries x

/-! ## 2. The buffer -/

theorem missing_none {p : Proc} {a : Nat} (h : missing p a = none) :
    has (p.pgdir.pteAt (vpn a)) pteP = true ∧
      has (p.pgdir.pteAt (vpn (addU a 3))) pteP = true := by
  unfold missing at h
  split at h
  · cases h
  · rename_i h1
    split at h
    · cases h
    · rename_i h2
      simpa using And.intro h1 h2

/-- The page that is missing is the first or the last of the word. -/
theorem missing_some {p : Proc} {w a : Nat} (h : missing p w = some a) :
    (vpn a = vpn w ∨ vpn a = vpn (addU w 3)) ∧ has (p.pgdir.pteAt (vpn a)) pteP = false := by
  unfold missing at h
  split at h
  · rename_i h1
    cases h
    exact ⟨.inl rfl, by simpa using h1⟩
  · split at h
    · rename_i h2
      cases h
      rw [vpn_pgRoundDown]
      exact ⟨.inr rfl, by simpa using h2⟩
    · cases h

section
variable {p : Proc} {entries n : Nat} (h : Shaped p) (hr : entries + entrySize * n ≤ p.sz)
include h hr

theorem Shaped.kern : entries + entrySize * n ≤ kernBase := by
  have hs := h.size
  omega

/-- The pages of the buffer are mapped. -/
theorem Shaped.mapped {c : Nat} (hc : c < entries + entrySize * n) :
    Xv6Clock.mapped (p.pgdir.pteAt (vpn c)) = true :=
  h.shape.mapped (vpn_lt_pages (by omega))

/-- The word of a store, all its pages present. -/
theorem Shaped.resident {i : Nat} (hi : i < n) {f : PtField}
    (hm : missing p (fieldAddr entries i f) = none) :
    Resident p.pgdir (fieldAddr entries i f) 4 := by
  have hlow := h.kern hr
  obtain ⟨ea, hea⟩ := @fieldAddr_eq entries i n f hlow hi
  obtain ⟨h1, h2⟩ := missing_none hm
  have hk : kernBase = 2 ^ 31 := rfl
  rw [addU_eq (by omega)] at h2
  have hP : ∀ c, fieldAddr entries i f ≤ c → c < fieldAddr entries i f + 4 →
      has (p.pgdir.pteAt (vpn c)) pteP = true := fun c hc1 hc2 => by
    have hv : vpn c = vpn (fieldAddr entries i f) ∨
        vpn c = vpn (fieldAddr entries i f + 3) := by
      unfold vpn
      omega
    rcases hv with hv | hv <;> rw [hv]
    · exact h1
    · exact h2
  refine ⟨by omega, hP, fun c hc1 hc2 => ?_⟩
  have hone := (h.shape.low (vpn c) (vpn_lt_pages (by omega))).1
  rw [hP c hc1 hc2] at hone
  simpa using hone

/-- The page a store faults on is an encrypted user page. -/
theorem Shaped.missing_encrypted {i : Nat} (hi : i < n) {f : PtField} {a : Nat}
    (hm : missing p (fieldAddr entries i f) = some a) :
    encrypted (p.pgdir.pteAt (vpn a)) = true := by
  obtain ⟨ea, hea⟩ := @fieldAddr_eq entries i n f (h.kern hr) hi
  have hk := h.kern hr
  unfold kernBase at hk
  obtain ⟨hv, hP⟩ := missing_some hm
  rw [addU_eq (by omega)] at hv
  have hlow : vpn a < pages p.sz := by
    rcases hv with hv | hv <;> rw [hv] <;> exact vpn_lt_pages (by omega)
  have hone := (h.shape.low (vpn a) hlow).1
  rw [hP] at hone
  have hE : has (p.pgdir.pteAt (vpn a)) pteE = true := by simpa using hone
  exact encrypted_iff.mpr ⟨hE, h.shape.encUser _ hE⟩

end

/-! ## 3. Faults -/

/-- A page below the size is present if it is not the user's, or in plain text. -/
theorem Shape.present {pd : PgDir} {sz u : Nat} (h : Shape pd sz) (hu : u < pages sz) :
    has (pd.pteAt u) pteP = (!has (pd.pteAt u) pteU || plain (pd.pteAt u)) := by
  have h1 := (h.low u hu).1
  have h2 := h.encUser u
  unfold plain
  revert h1 h2
  cases has (pd.pteAt u) pteU <;> cases has (pd.pteAt u) pteP <;> cases has (pd.pteAt u) pteE <;>
    simp

section
variable {cfg} {s s' : Vm} {q q' : ClockQ} {va : Nat}

/-- The number of entries in the queue stays within CLOCKSIZE. -/
theorem mdecrypt_count {r : Int} (h : mdecrypt cfg s q va = .ok (r, s', q'))
    (hq : q.inClock ≤ cfg.clockSize) : q'.inClock ≤ cfg.clockSize := by
  rcases mdecrypt_ok cfg h with ⟨-, rfl, -⟩ | ⟨-, rfl, -⟩ | ⟨-, -, -, -, hins⟩
  · exact hq
  · exact hq
  rcases clockInsert_ok cfg hins with ⟨-, -, rfl⟩ | ⟨-, h1, -, i, -, -, rfl⟩ | ⟨-, -, s1, r, x, hev⟩
  · exact cfg.clockPos
  · exact h1
  · rw [hev.queue]
    exact hq

/-- What `mdecrypt` accepts. -/
theorem mdecrypt_accepted (h : mdecrypt cfg s q va = .ok (0, s', q')) :
    firstByte s va ≠ 0#8 ∧ InsertSafe cfg (s.pd.touched (vpn va)) q := by
  rcases mdecrypt_ok cfg h with ⟨h0, -⟩ | ⟨h0, -⟩ | ⟨-, hE, hU, -, -⟩
  · cases h0
  · cases h0
  · have henc := encrypted_iff.mpr ⟨hE, hU⟩
    refine (exactDecrypt_iff cfg s q va (PgDir.tabAt_of_mapped (mapped_of_E hE))).mp
      ⟨⟨fun _ => henc, fun _ => ⟨s', q', h⟩⟩, fun s1 q1 h1 => ?_⟩ henc
    cases h.symm.trans h1

end

/-! ## 4. The hand -/

/-- In how many steps the hand takes a page that a store to `w` does not need; it passes over a
    referenced page once. -/
def Rounds (p : Proc) (w : Nat) : Set Nat :=
  { k | ∃ d, d < cfg.clockSize ∧ ¬ Needs p w (sweepPage cfg p.q d) ∧
    k = d + if has (p.pgdir.pteAt (sweepPage cfg p.q d)) pteA then cfg.clockSize else 0 }

/-- **How far the hand is from such a page.** A hand outside the queue is inside it after one
    eviction. -/
noncomputable def handDist (p : Proc) (w : Nat) : Nat :=
  if 0 ≤ p.q.currInd ∧ p.q.currInd < cfg.clockSize then sInf (Rounds cfg p w)
  else 2 * cfg.clockSize

/-- **An eviction**, as far as the hand goes: the node of slot `r`, which the scan comes to in round
    `n`, is replaced, and the reference bits of the pages passed over are cleared. -/
structure HandMoved (p p' : Proc) (w n : Nat) : Prop where
  stop : n ≤ cfg.clockSize
  needs : ∀ u, Needs p' w u ↔ Needs p w u
  victim : Needs p w (sweepPage cfg p.q (n % cfg.clockSize))
  hand : p'.q.currInd = ((sweepSlot cfg p.q (n % cfg.clockSize) + 1) % cfg.clockSize : Nat)
  nodes : ∀ j, j ≠ sweepSlot cfg p.q (n % cfg.clockSize) → p'.q.nodes j = p.q.nodes j
  refs : ∀ u, ¬ Needs p w u → has (p'.pgdir.pteAt u) pteA = true →
    has (p.pgdir.pteAt u) pteA = true
  passed : ∀ d, d < n → ¬ Needs p w (sweepPage cfg p.q d) →
    has (p.pgdir.pteAt (sweepPage cfg p.q d)) pteA = true ∧
    has (p'.pgdir.pteAt (sweepPage cfg p.q d)) pteA = false

section
variable {cfg} {q q' : ClockQ} {p p' : Proc} {w n d j : Nat}

/-- The rounds of a hand inside the queue come to every slot. -/
theorem sweepSlot_hits (h : 0 ≤ q.currInd ∧ q.currInd < cfg.clockSize) (hj : j < cfg.clockSize) :
    ∃ d, d < cfg.clockSize ∧ sweepSlot cfg q d = j := by
  have hsm := cfg.clockSmall
  have hc : q.currInd.toNat < cfg.clockSize := by omega
  refine ⟨(j + (cfg.clockSize - q.currInd.toNat)) % cfg.clockSize,
    Nat.mod_lt _ cfg.clockPos, ?_⟩
  rw [sweepSlot_of_hand cfg h.1 (by omega) (Nat.mod_lt _ cfg.clockPos), Nat.add_mod_mod,
    show q.currInd.toNat + (j + (cfg.clockSize - q.currInd.toNat)) = j + cfg.clockSize by omega,
    Nat.add_mod_right, Nat.mod_eq_of_lt hj]

/-- A round after the one that evicts is a round of the next scan. -/
theorem sweepSlot_later (h : 0 ≤ q.currInd ∧ q.currInd < cfg.clockSize)
    (hq : q'.currInd = ((sweepSlot cfg q n + 1) % cfg.clockSize : Nat)) (hn : n < d)
    (hd : d < cfg.clockSize) : sweepSlot cfg q' (d - n - 1) = sweepSlot cfg q d := by
  have hsm := cfg.clockSmall
  have hlt : (sweepSlot cfg q n + 1) % cfg.clockSize < cfg.clockSize := Nat.mod_lt _ cfg.clockPos
  rw [sweepSlot_of_hand cfg (by omega) (by omega) (by omega), hq, Int.toNat_natCast,
    Nat.mod_add_mod, sweepSlot_of_hand cfg h.1 (by omega) (by omega),
    sweepSlot_of_hand cfg h.1 (by omega) hd,
    show (q.currInd.toNat + n) % cfg.clockSize + 1 + (d - n - 1) =
      (q.currInd.toNat + n) % cfg.clockSize + (d - n) by omega, Nat.mod_add_mod,
    show q.currInd.toNat + n + (d - n) = q.currInd.toNat + d by omega]

theorem rounds_lt {k : Nat} (h : k ∈ Rounds cfg p w) : k < 2 * cfg.clockSize := by
  obtain ⟨d, hd, -, rfl⟩ := h
  split <;> omega

theorem handDist_le (p : Proc) (w : Nat) : handDist cfg p w ≤ 2 * cfg.clockSize := by
  unfold handDist
  split
  · by_cases hne : (Rounds cfg p w).Nonempty
    · exact Nat.le_of_lt (rounds_lt (Nat.sInf_mem hne))
    · rw [Set.not_nonempty_iff_eq_empty.mp hne, Nat.sInf_empty]
      exact Nat.zero_le _
  · exact Nat.le_refl _

section
variable (h : HandMoved cfg p p' w n)
include h

/-- The node of a page that is not needed stays. -/
theorem HandMoved.node (hj : ¬ Needs p w (vpn (p.q.nodes j))) : p'.q.nodes j = p.q.nodes j :=
  h.nodes j fun e => hj (e ▸ h.victim)

theorem HandMoved.inside : 0 ≤ p'.q.currInd ∧ p'.q.currInd < cfg.clockSize := by
  have hlt : (sweepSlot cfg p.q (n % cfg.clockSize) + 1) % cfg.clockSize < cfg.clockSize :=
    Nat.mod_lt _ cfg.clockPos
  rw [h.hand]
  omega

/-- Such a page is met by the next scan. -/
theorem HandMoved.meets (hj : j < cfg.clockSize) (hneed : ¬ Needs p w (vpn (p.q.nodes j))) :
    ∃ d, d < cfg.clockSize ∧ sweepPage cfg p'.q d = vpn (p.q.nodes j) ∧
      d + (if has (p'.pgdir.pteAt (vpn (p.q.nodes j))) pteA then cfg.clockSize else 0) ∈
        Rounds cfg p' w := by
  obtain ⟨d, hd, hs⟩ := sweepSlot_hits h.inside hj
  have hp : sweepPage cfg p'.q d = vpn (p.q.nodes j) := by
    unfold sweepPage
    rw [hs, h.node hneed]
  exact ⟨d, hd, hp, d, hd, by rw [hp, h.needs]; exact hneed, by rw [hp]⟩

/-- **An eviction of a page that is needed brings the hand nearer** to one that is not. -/
theorem HandMoved.nearer (hj : j < cfg.clockSize) (hneed : ¬ Needs p w (vpn (p.q.nodes j))) :
    handDist cfg p' w < handDist cfg p w := by
  have hin : handDist cfg p' w = sInf (Rounds cfg p' w) := if_pos h.inside
  rw [hin]
  unfold handDist
  split
  · rename_i hreg
    have hne : (Rounds cfg p w).Nonempty := by
      obtain ⟨d, hd, hs⟩ := sweepSlot_hits hreg hj
      exact ⟨_, d, hd, by unfold sweepPage; rw [hs]; exact hneed, rfl⟩
    obtain ⟨d, hd, hnd, hk⟩ := Nat.sInf_mem hne
    rw [hk]
    by_cases hpass : d < n
    · -- the hand has passed over the page
      obtain ⟨hA, hA'⟩ := h.passed d hpass hnd
      obtain ⟨d', hd', -, hmem⟩ := h.meets (sweepSlot_lt cfg p.q d) hnd
      change d' + (if has (p'.pgdir.pteAt (sweepPage cfg p.q d)) pteA then _ else _) ∈ _ at hmem
      rw [hA', if_neg Bool.false_ne_true] at hmem
      rw [hA, if_pos rfl]
      have hle := Nat.sInf_le hmem
      omega
    · -- the page is still ahead of it
      have hmod : n % cfg.clockSize = n := Nat.mod_eq_of_lt (by omega)
      have hdn : n ≠ d := fun e => hnd (by rw [← e, ← hmod]; exact h.victim)
      have hslot : sweepSlot cfg p'.q (d - n - 1) = sweepSlot cfg p.q d :=
        sweepSlot_later hreg (by rw [h.hand, hmod]) (by omega) hd
      have hpage : sweepPage cfg p'.q (d - n - 1) = sweepPage cfg p.q d := by
        unfold sweepPage
        rw [hslot, h.node hnd]
      have hle : sInf (Rounds cfg p' w) ≤ d - n - 1 +
          if has (p'.pgdir.pteAt (sweepPage cfg p.q d)) pteA then cfg.clockSize else 0 :=
        Nat.sInf_le ⟨d - n - 1, by omega, by rw [hpage, h.needs]; exact hnd, by rw [hpage]⟩
      have hrefs := h.refs _ hnd
      refine Nat.lt_of_le_of_lt hle ?_
      split
      · rename_i hA
        rw [if_pos (hrefs hA)]
        omega
      · omega
  · obtain ⟨d, hd, -, hmem⟩ := h.meets hj hneed
    have hle := Nat.sInf_le hmem
    have hlt := rounds_lt hmem
    omega

end

end

/-! ## 5. The invariant -/

structure BoundInv (p : Proc) (num : Int) (x : Scan) : Prop extends CallReady cfg x.p where
  sz : x.p.sz = p.sz
  aligned : x.uva % 4096 = 0
  below : x.uva < pages p.sz * 4096
  live : x.pc ≠ .ret → (x.i : Int) < num
  count : (x.i : Int) ≤ num

section
variable {cfg} {p : Proc} {entries : Nat} {num : Int} {wset : Bool} {x x' : Scan}

section
variable (h : BoundInv cfg p num x)
include h

theorem BoundInv.vpn_lt : vpn x.uva < pages x.p.sz := by
  have hb := h.below
  have hv : vpn x.uva ≤ x.uva / 2 ^ 12 := Nat.mod_le _ _
  rw [h.sz]
  omega

theorem BoundInv.mapped : Xv6Clock.mapped (x.p.pgdir.pteAt (vpn x.uva)) = true :=
  h.shape.mapped h.vpn_lt

theorem BoundInv.tab : x.p.pgdir.tabAt (vpn x.uva) = true :=
  PgDir.tabAt_of_mapped h.mapped

/-- The buffer, in the state the loop is in. -/
theorem BoundInv.range (hbuf : (entries + entrySize * num : Int) ≤ p.sz) (hpc : x.pc ≠ .ret) :
    entries + entrySize * num.toNat ≤ x.p.sz ∧ x.i < num.toNat := by
  have hi := h.live hpc
  rw [h.sz]
  unfold entrySize at *
  omega

/-- The loop moves on over the same process. -/
theorem BoundInv.move (hp : x'.p = x.p) (ha : x'.uva % 4096 = 0)
    (hb : x'.uva < pages p.sz * 4096) (hlive : x'.pc ≠ .ret → (x'.i : Int) < num)
    (hcount : (x'.i : Int) ≤ num) : BoundInv cfg p num x' := by
  refine ⟨?_, ?_, ha, hb, hlive, hcount⟩
  · rw [hp]; exact h.toCallReady
  · rw [hp]; exact h.sz

/-- The next page down, with `i` entries complete. -/
theorem BoundInv.down {i : Nat} (hi : (i : Int) < num) (h0 : x.uva ≠ 0) :
    BoundInv cfg p num { x with i := i }.down := by
  have ha := h.aligned
  have hb := h.below
  have hsz : pages p.sz ≤ 2 ^ 19 := pages_le (h.sz ▸ h.size)
  have hu : { x with i := i }.down.uva = x.uva - 4096 := by
    rw [Scan.down_uva]
    change subU x.uva pgSize = _
    unfold subU pgSize
    omega
  refine h.move (Scan.down_p _) ?_ ?_ ?_ ?_
  · rw [hu]; omega
  · rw [hu]; omega
  · rw [Scan.down_i]; exact fun _ => hi
  · rw [Scan.down_i]; exact Int.le_of_lt hi

theorem BoundInv.next {i : Nat} (hi : (i : Int) ≤ num) :
    BoundInv cfg p num (Scan.next num { x with i := i }) := by
  unfold Scan.next
  split
  · exact h.move rfl h.aligned h.below (fun hc => absurd rfl hc) hi
  · rename_i hc
    rw [not_or] at hc
    exact h.down (lt_of_le_of_ne hi hc.2) hc.1

end

/-! ## 6. Steps -/

theorem Scan.step_fault {f : PtField} {v : Word} {fs : List PtField} {a : Nat}
    (hpc : x.pc = .write f v fs) (hm : missing x.p (fieldAddr entries x.i f) = some a) :
    x.step cfg entries num wset = x.fault cfg a := by
  unfold Scan.step
  rw [hpc]
  dsimp only
  rw [hm]

/-- A page that is not the user's is skipped. -/
theorem Scan.step_skip (hpc : x.pc = .look) (ht : x.p.pgdir.tabAt (vpn x.uva) = true)
    (hU : has (x.p.pgdir.pteAt (vpn x.uva)) pteU = false) :
    x.step cfg entries num wset = .ok x.down := by
  unfold Scan.step
  rw [hpc]
  dsimp only
  rw [Scan.deref_of_tab ht]
  dsimp only
  rw [hU]
  rfl

section
variable (hbuf : (entries + entrySize * num : Int) ≤ p.sz) (h : BoundInv cfg p num x)
include hbuf h

/-- **Every step keeps the invariant.** -/
theorem BoundInv.step (hz : ZeroOk x)
    (hs : x.step cfg entries num wset = .ok x') : BoundInv cfg p num x' := by
  have hlive : ∀ {pc}, x.pc = pc → pc ≠ .ret → (x.i : Int) < num := fun hpc hne =>
    h.live (hpc ▸ hne)
  cases Scan.stepped h.tab hs with
  | halt => exact h
  | fault hpc hm hf =>
    obtain ⟨s, q, hd, -, rfl⟩ := Scan.fault_ok hf
    have hshape := (mdecrypt_flips cfg h.high hd).recoded.toPdRecoded.shape h.shape
    exact ⟨⟨⟨⟨hshape.high, h.size⟩, hshape⟩, mdecrypt_count hd h.queue⟩, h.sz, h.aligned, h.below,
      h.live, h.count⟩
  | skip hpc hw =>
    refine h.down (hlive hpc (by simp)) fun h0 => hw ⟨?_, h.mapped⟩
    rw [h0]
    exact hz hpc h0
  | pass hpc => exact h.next h.count
  | list hpc =>
    exact h.move rfl h.aligned h.below (fun _ => hlive hpc (by simp)) h.count
  | value hpc =>
    exact h.move rfl h.aligned h.below (fun _ => hlive hpc (by simp)) h.count
  | @put f v fs hpc hm =>
    obtain ⟨hr, hi⟩ := h.range hbuf (by rw [hpc]; simp)
    have hrec := touchWord_recoded (m := x.m) (h.resident hr hi hm)
    have hshape := hrec.toPdRecoded.shape h.shape
    exact ⟨⟨⟨⟨hshape.high, h.size⟩, hshape⟩, h.queue⟩, h.sz, h.aligned, h.below,
      fun _ => hlive hpc (by simp), h.count⟩
  | done hpc =>
    have hlt := hlive hpc (by simp)
    exact h.next (by omega)

theorem BoundInv.inBounds : InBounds p entries num x := by
  refine ⟨fun _ => ?_, fun f v fs hpc => ?_, h.count⟩
  · rw [pgRoundUp_pages (Nat.le_of_lt (h.sz ▸ h.size))]
    exact h.below
  · obtain ⟨hr, hi⟩ := h.range hbuf (by rw [hpc]; simp)
    obtain ⟨ea, hea⟩ := @fieldAddr_eq entries x.i num.toNat f (h.kern hr) hi
    rw [ea]
    unfold entrySize at *
    omega

/-! A store to the word at `w` that faults at `a`. -/

variable {s : Vm} {q : ClockQ} {f : PtField} {v : Word} {fs : List PtField} {a w : Nat}
  (hpc : x.pc = .write f v fs) (hw : fieldAddr entries x.i f = w) (hm : missing x.p w = some a)
  (hd : mdecrypt cfg (x.p.vm x.m) x.p.q a = .ok (0, s, q))
include hpc hw

/-- The pages of the word are below the size. -/
theorem BoundInv.word_low {u : Nat} (hu : u = vpn w ∨ u = vpn (addU w 3)) : u < pages x.p.sz := by
  obtain ⟨hr, hi⟩ := h.range hbuf (by rw [hpc]; simp)
  obtain ⟨ea, hea⟩ := @fieldAddr_eq entries x.i _ f (h.kern hr) hi
  have hk := h.kern hr
  unfold kernBase at hk
  rw [addU_eq (by omega)] at hu
  rcases hu with rfl | rfl <;> exact vpn_lt_pages (by omega)

include hm in
/-- The page that the store faults on is needed. -/
theorem BoundInv.needs_missing :
    encrypted (x.p.pgdir.pteAt (vpn a)) = true ∧ Needs x.p w (vpn a) := by
  obtain ⟨hr, hi⟩ := h.range hbuf (by rw [hpc]; simp)
  have henc := h.missing_encrypted hr hi (hw ▸ hm)
  exact ⟨henc, (missing_some hm).1, (encrypted_iff.mp henc).2⟩

omit hbuf hpc hw in
include hd in
/-- What is needed stays the same. -/
theorem BoundInv.needs_fault (w u : Nat) :
    Needs { x.p with pgdir := s.pd, q := q } w u ↔ Needs x.p w u :=
  and_congr_right fun _ => by
    rw [show has (s.pd.pteAt u) pteU = has (x.p.pgdir.pteAt u) pteU from
      ((mdecrypt_flips cfg h.high hd).recoded.entry u).user]

include hd in
/-- **The pages of the word after a fault.** -/
theorem BoundInv.present_fault {u : Nat} (hu : u = vpn w ∨ u = vpn (addU w 3)) :
    has (s.pd.pteAt u) pteP = (!has (x.p.pgdir.pteAt u) pteU ||
      (u == vpn a || plain (x.p.pgdir.pteAt u)) &&
        !(decide (cfg.clockSize ≤ x.p.q.inClock) &&
          u == victimPage cfg x.p.pgdir x.p.q (vpn a))) := by
  have hrec := (mdecrypt_flips cfg h.high hd).recoded
  have hlow := h.word_low hbuf hpc hw hu
  rw [(hrec.toPdRecoded.shape h.shape).present hlow, mdecrypt_plain cfg hd,
    show has (s.pd.pteAt u) pteU = has (x.p.pgdir.pteAt u) pteU from (hrec.entry u).user]
  rfl

include hm hd

/-- Where the queue has room, or the victim is not needed, fewer pages are missing. -/
theorem BoundInv.left_fault (hvic : cfg.clockSize ≤ x.p.q.inClock →
      ¬ Needs x.p w (victimPage cfg x.p.pgdir x.p.q (vpn a))) :
    Scan.left entries { x with m := s.m, p := { x.p with pgdir := s.pd, q := q } } <
      x.left entries := by
  -- a page of the word is missing afterwards only if it was, and is not the one faulted in
  have key : ∀ u, u = vpn w ∨ u = vpn (addU w 3) →
      has (s.pd.pteAt u) pteP = (has (x.p.pgdir.pteAt u) pteP || u == vpn a) := fun u hu => by
    rw [h.present_fault hbuf hpc hw hd hu, h.shape.present (h.word_low hbuf hpc hw hu)]
    have hnot : has (x.p.pgdir.pteAt u) pteU = true →
        (decide (cfg.clockSize ≤ x.p.q.inClock) &&
          u == victimPage cfg x.p.pgdir x.p.q (vpn a)) = false := fun hU => by
      rw [Bool.eq_false_iff]
      intro hc
      simp only [Bool.and_eq_true, decide_eq_true_eq, beq_iff_eq] at hc
      exact hvic hc.1 (hc.2 ▸ ⟨hu, hU⟩)
    cases hU : has (x.p.pgdir.pteAt u) pteU with
    | false => simp
    | true => rw [hnot hU]; simp [Bool.or_comm]
  obtain ⟨hv, hP⟩ := missing_some hm
  have hA := key _ (.inl rfl)
  have hB := key _ (.inr rfl)
  unfold Scan.left Scan.absent
  rw [hpc]
  dsimp only
  rw [hw, hA, hB]
  refine Nat.add_lt_add_left ?_ _
  rcases hv with hv | hv <;> rw [hv] at hP ⊢ <;> rw [hP, beq_self_eq_true]
  · cases has (x.p.pgdir.pteAt (vpn (addU w 3))) pteP <;> simp
    split <;> decide
  · cases has (x.p.pgdir.pteAt (vpn w)) pteP <;> simp
    split <;> decide

variable (hfull : cfg.clockSize ≤ x.p.q.inClock)
  (hvic : Needs x.p w (victimPage cfg x.p.pgdir x.p.q (vpn a)))
include hfull hvic

/-- **A fault that evicts a page of the word** leaves no more pages missing, and at least one. -/
theorem BoundInv.absent_fault :
    Scan.left entries { x with m := s.m, p := { x.p with pgdir := s.pd, q := q } } ≤
      x.left entries ∧ missing { x.p with pgdir := s.pd, q := q } w ≠ none := by
  have hlost : has (s.pd.pteAt (victimPage cfg x.p.pgdir x.p.q (vpn a))) pteP = false := by
    rw [h.present_fault hbuf hpc hw hd hvic.1, hvic.2, decide_eq_true hfull, beq_self_eq_true]
    simp
  obtain ⟨hv, hP⟩ := missing_some hm
  refine ⟨?_, fun hn => ?_⟩
  · unfold Scan.left Scan.absent
    rw [hpc]
    refine Nat.add_le_add_left ?_ _
    dsimp only
    rw [hw]
    by_cases hself : victimPage cfg x.p.pgdir x.p.q (vpn a) = vpn a
    · -- the page itself: nothing changes
      rw [hself] at hlost
      have same : ∀ u, u = vpn w ∨ u = vpn (addU w 3) →
          has (s.pd.pteAt u) pteP = has (x.p.pgdir.pteAt u) pteP := fun u hu => by
        by_cases hua : u = vpn a
        · rw [hua, hlost, hP]
        · rw [h.present_fault hbuf hpc hw hd hu, h.shape.present (h.word_low hbuf hpc hw hu), hself,
            beq_false_of_ne hua]
          simp
      rw [same _ (.inl rfl), same _ (.inr rfl)]
    · -- the other page of the word
      have hin := h.present_fault hbuf hpc hw hd hv
      rw [beq_self_eq_true, beq_false_of_ne (Ne.symm hself)] at hin
      rcases hv with hv | hv <;> rcases hvic.1 with hc | hc
      · exact absurd (hc.trans hv.symm) hself
      · rw [hv] at hP
        rw [hc] at hlost
        rw [hP, hlost, ← hv, hin]
        simp
      · rw [hv] at hP
        rw [hc] at hlost
        rw [hP, hlost, ← hv, hin]
        simp
      · exact absurd (hc.trans hv.symm) hself
  · obtain ⟨h1, h2⟩ := missing_none hn
    rcases hvic.1 with hc | hc <;> rw [hc] at hlost
    · exact Bool.false_ne_true (hlost.symm.trans h1)
    · exact Bool.false_ne_true (hlost.symm.trans h2)

/-- The hand after such a fault. -/
theorem BoundInv.handMoved :
    HandMoved cfg x.p { x.p with pgdir := s.pd, q := q } w
      (sweepStop cfg (x.p.pgdir.touched (vpn a)) x.p.q) ∧
    q.inClock = x.p.q.inClock ∧
    ∀ j, Needs x.p w (vpn (x.p.q.nodes j)) → Needs x.p w (vpn (q.nodes j)) := by
  obtain ⟨henc, hneed⟩ := h.needs_missing hbuf hpc hw hm
  have ht := PgDir.tabAt_of_mapped (mapped_of_E (encrypted_iff.mp henc).1)
  have hpos := cfg.clockPos
  rcases mdecrypt_ok cfg hd with ⟨h0, -⟩ | ⟨h0, -⟩ | ⟨-, hE, -, -, hins⟩
  · cases h0
  · cases h0
  obtain ⟨hts, hs, rfl⟩ := clockInsert_opened cfg ht (by omega) hfull hins
  have away : ∀ {u c}, ¬ Needs x.p w u → Needs x.p w c → u ≠ c := fun hu hc e => hu (e ▸ hc)
  refine ⟨⟨sweepStop_le cfg _ _, h.needs_fault hd _, hvic, rfl, ?_, ?_, ?_⟩, rfl, ?_⟩
  · exact fun j hj => Function.update_of_ne hj _ _
  · intro u hu hA
    rcases mdecrypt_other cfg hd (away hu hneed) fun _ _ => away hu hvic with h1 | h1
    · exact (congrArg (has · pteA) h1).symm.trans hA
    · rw [show s.pd.pteAt u = _ from h1, has_clearRef_A] at hA
      cases hA
  · intro d hd hnd
    refine ⟨?_, ?_⟩
    · have hpass := ((passed_iff cfg).mp (passed_of_lt cfg hd)).1
      rwa [PgDir.touched, PgDir.pteAt_store_ne _ _ (away hnd hneed)] at hpass
    · change has (s.pd.pteAt _) pteA = false
      rw [hs, Vm.sealed_pteAt_ne]
      · rw [swept_pteAt cfg hts, if_pos ⟨d, hd, rfl⟩, has_clearRef_A]
      · exact away hnd hvic
  · intro j hj
    change Needs _ _ (vpn (Function.update x.p.q.nodes _ (pgRoundDown a) j))
    by_cases hjr : j = victimSlot cfg (x.p.pgdir.touched (vpn a)) x.p.q
    · rw [hjr]
      exact (congrArg _ (congrArg vpn (Function.update_self ..))).mpr
        ((vpn_pgRoundDown a).symm ▸ hneed)
    · exact (congrArg _ (congrArg vpn (Function.update_of_ne hjr ..))).mpr hj

end

/-- What the loop has left to do, page faults included. -/
noncomputable def Scan.toGo (cfg : Config) (entries : Nat) (x : Scan) : Nat :=
  x.left entries * (2 * cfg.clockSize + 1) +
    match x.pc with
    | .write f _ _ => handDist cfg x.p (fieldAddr entries x.i f)
    | _ => 0

theorem Scan.toGo_lt (h : x'.left entries < x.left entries) :
    x'.toGo cfg entries < x.toGo cfg entries := by
  have hle : x'.toGo cfg entries ≤ x'.left entries * (2 * cfg.clockSize + 1) +
      2 * cfg.clockSize := by
    unfold Scan.toGo
    refine Nat.add_le_add_left ?_ _
    split
    · exact handDist_le _ _
    · exact Nat.zero_le _
  have hmul := Nat.mul_le_mul_right (2 * cfg.clockSize + 1) (Nat.succ_le_of_lt h)
  rw [Nat.succ_mul] at hmul
  have hge : x.left entries * (2 * cfg.clockSize + 1) ≤ x.toGo cfg entries := Nat.le_add_right _ _
  omega

section
variable (hbuf : (entries + entrySize * num : Int) ≤ p.sz) (h : BoundInv cfg p num x)
include hbuf h

/-- **A handled fault** brings the loop nearer to its end. -/
theorem BoundInv.fault {f : PtField} {v : Word} {fs : List PtField} {a : Nat}
    (hpc : x.pc = .write f v fs) (hm : missing x.p (fieldAddr entries x.i f) = some a)
    (hok : FaultOk cfg x.m x.p (fieldAddr entries x.i f) a) :
    ∃ x', x.fault cfg a = .ok x' ∧ x'.toGo cfg entries < x.toGo cfg entries := by
  obtain ⟨henc, -⟩ := h.needs_missing hbuf hpc rfl hm
  have ht := PgDir.tabAt_of_mapped (mapped_of_E (encrypted_iff.mp henc).1)
  obtain ⟨s, q, hd⟩ := ((exactDecrypt_iff cfg (x.p.vm x.m) x.p.q a ht).mpr
    fun _ => ⟨hok.byte, hok.safe⟩).accepts.mpr henc
  refine ⟨{ x with m := s.m, p := { x.p with pgdir := s.pd, q := q } }, ?_, ?_⟩
  · unfold Scan.fault pageFault
    rw [hd]
    rfl
  · by_cases hbad : cfg.clockSize ≤ x.p.q.inClock ∧
        Needs x.p (fieldAddr entries x.i f) (victimPage cfg x.p.pgdir x.p.q (vpn a))
    · obtain ⟨hfull, hvic⟩ := hbad
      obtain ⟨j, hj, hneed⟩ := hok.other hfull
      have hle := (h.absent_fault hbuf hpc rfl hm hd hfull hvic).1
      have hnear := (h.handMoved hbuf hpc rfl hm hd hfull hvic).1.nearer hj hneed
      have hmul := Nat.mul_le_mul_right (2 * cfg.clockSize + 1) hle
      unfold Scan.toGo
      dsimp only at hmul ⊢
      rw [hpc]
      rw [hpc] at hmul
      exact Nat.add_lt_add_of_le_of_lt hmul hnear
    · exact Scan.toGo_lt (h.left_fault hbuf hpc rfl hm hd fun hfull hvic => hbad ⟨hfull, hvic⟩)

/-- **There is a next step, and less is left after it.** -/
theorem BoundInv.progress (hok : BoundOk cfg entries x) (hret : x.pc ≠ .ret) :
    ∃ x', x.step cfg entries num wset = .ok x' ∧ x'.toGo cfg entries < x.toGo cfg entries := by
  by_cases hf : ∃ f v fs a, x.pc = .write f v fs ∧ missing x.p (fieldAddr entries x.i f) = some a
  · obtain ⟨f, v, fs, a, hpc, hm⟩ := hf
    rw [Scan.step_fault hpc hm]
    exact h.fault hbuf hpc hm (hok.fault f v fs a hpc hm)
  have hm : ∀ f v fs, x.pc = .write f v fs → missing x.p (fieldAddr entries x.i f) = none :=
    fun f v fs hpc => by
      by_contra hne
      obtain ⟨a, ha⟩ := Option.ne_none_iff_exists'.mp hne
      exact hf ⟨f, v, fs, a, hpc, ha⟩
  obtain ⟨x', hs⟩ : ∃ x', x.step cfg entries num wset = .ok x' :=
    Scan.step_total h.tab h.queue hm
  have hb := h.below
  have hsz : pages p.sz ≤ 2 ^ 19 := pages_le (h.sz ▸ h.size)
  refine ⟨x', hs, Scan.toGo_lt
    ((Scan.stepped h.tab hs).left_lt hret hm h.aligned (by omega) ?_)⟩
  intro hpc hw h0
  refine hw ⟨?_, h.mapped⟩
  rw [h0]
  exact hok.zero hpc h0

/-- A store whose pages are all that a full queue holds, one of them missing. -/
def Scan.Thrashes (cfg : Config) (entries : Nat) (x : Scan) : Prop :=
  ∃ f v fs, x.pc = .write f v fs ∧ missing x.p (fieldAddr entries x.i f) ≠ none ∧
    cfg.clockSize ≤ x.p.q.inClock ∧
    ∀ j, j < cfg.clockSize → Needs x.p (fieldAddr entries x.i f) (vpn (x.p.q.nodes j))

/-- **Such a store faults again.** -/
theorem BoundInv.thrashes (ht : x.Thrashes cfg entries)
    (hs : x.step cfg entries num wset = .ok x') : x'.Thrashes cfg entries := by
  obtain ⟨f, v, fs, hpc, hmiss, hfull, hall⟩ := ht
  obtain ⟨a, hm⟩ := Option.ne_none_iff_exists'.mp hmiss
  rw [Scan.step_fault hpc hm] at hs
  obtain ⟨s, q, hd, -, rfl⟩ := Scan.fault_ok hs
  have hvic := hall _ (sweepSlot_lt cfg x.p.q
    (sweepStop cfg (x.p.pgdir.touched (vpn a)) x.p.q % cfg.clockSize))
  obtain ⟨-, hcount, hnodes⟩ := h.handMoved hbuf hpc rfl hm hd hfull hvic
  refine ⟨f, v, fs, hpc, (h.absent_fault hbuf hpc rfl hm hd hfull hvic).2, ?_, fun j hj => ?_⟩
  · exact hcount ▸ hfull
  · exact (h.needs_fault hd _ _).mpr (hnodes j (hall j hj))

end

theorem BoundInv.start {m : Kmem} (hp : CallReady cfg p) (hnum : 1 ≤ num) (hsz : 0 < p.sz) :
    BoundInv cfg p num (scanStart m p) := by
  have hk := hp.size
  unfold kernBase at hk
  have hlt : ((0 : Nat) : Int) < num := Int.lt_of_lt_of_le Int.zero_lt_one hnum
  refine ⟨hp, rfl, ?_, ?_, fun _ => hlt, Int.le_of_lt hlt⟩
  · unfold scanStart subU pgRoundDown pgSize
    dsimp only
    split <;> omega
  · unfold scanStart subU pgRoundDown pgSize pages
    dsimp only
    split <;> omega

/-- What the call accepts for a number of entries that does not wrap. -/
theorem sysGetpgtable_some {m : Kmem} {wsetOnly : Int} (hnum : 0 ≤ num) (hlt : num < 2 ^ 29)
    (hsz : p.sz < kernBase) (h : sysGetpgtable m p entries num wsetOnly = some x) :
    0 < p.sz ∧ (entries + entrySize * num : Int) ≤ p.sz := by
  unfold sysGetpgtable at h
  split at h
  · cases h
  · rename_i harg
    unfold argptr at harg
    simp only [Bool.not_not, Bool.or_eq_true, decide_eq_true_eq, not_or] at harg
    obtain ⟨⟨hneg, hva⟩, hend⟩ := harg
    unfold kernBase at hsz
    unfold entrySize at *
    by_cases hbig : num * (8 : Nat) < 2 ^ 31
    · rw [toI_of_bounds (by omega) hbig, addU_eq (by omega)] at hend
      omega
    · -- a size of 2^31 or more is negative as an int
      refine absurd ?_ hneg
      unfold toI
      rw [Int.bmod_def]
      split <;> omega

/-- The loop an accepted call starts, and its mode. -/
theorem sysGetpgtable_start {m : Kmem} {wsetOnly : Int}
    (h : sysGetpgtable m p entries num wsetOnly = some x) :
    x = scanStart m p ∧ (wsetOnly = 0 ∨ wsetOnly = 1) := by
  unfold sysGetpgtable at h
  split at h
  · cases h
  · split at h
    · cases h
    · rename_i hw
      cases h
      exact ⟨rfl, by omega⟩

/-- What is reached step by step is reached in some number of steps, and conversely. -/
theorem scanReach_iff {x0 : Scan} : ScanReach cfg entries num wset x0 x ↔
    ∃ n, Scan.run cfg entries num wset n x0 = .ok x := by
  have hone : ∀ {y : Scan}, Scan.run cfg entries num wset 1 y = y.step cfg entries num wset := by
    intro y
    unfold Scan.run
    cases y.step cfg entries num wset <;> rfl
  refine ⟨fun h => ?_, fun h => ?_⟩
  · induction h with
    | start => exact ⟨0, rfl⟩
    | step _ hs ih =>
      obtain ⟨n, hn⟩ := ih
      exact ⟨n + 1, by rw [Scan.run_add 1 hn, hone, hs]⟩
  · obtain ⟨n, hn⟩ := h
    exact Scan.run_inv (I := ScanReach cfg entries num wset x0)
      (fun h hs => .step (e := ()) h hs) .start hn

/-- A call that returns reaches nothing else. -/
theorem scanReach_le {x0 y : Scan} {k : Nat} (hy : Scan.run cfg entries num wset k x0 = .ok y)
    (hret : y.pc = .ret) (hx : ScanReach cfg entries num wset x0 x) :
    ∃ n, n ≤ k ∧ Scan.run cfg entries num wset n x0 = .ok x := by
  obtain ⟨n, hn⟩ := scanReach_iff.mp hx
  by_cases hle : n ≤ k
  · exact ⟨n, hle, hn⟩
  · have hadd := Scan.run_add (n - k) hy
    rw [Scan.run_ret (n - k) hret, show k + (n - k) = n by omega] at hadd
    exact ⟨k, Nat.le_refl k, by rw [hy, ← hadd, hn]⟩

/-- What every step keeps from a state of a call that returns on holds when it returns. -/
theorem Returns.from {m : Kmem} {I : Scan → Prop} {z : Scan}
    (hz : Returns cfg m p entries num wset z)
    (hx : ScanReach cfg entries num wset (scanStart m p) x) (h : I x)
    (hstep : ∀ {x x'}, I x → x.step cfg entries num wset = .ok x' → I x') : I z := by
  obtain ⟨hret, k, hk⟩ := hz
  obtain ⟨n, hle, hn⟩ := scanReach_le hk hret hx
  have hadd := Scan.run_add (k - n) hn
  rw [show n + (k - n) = k by omega, hk] at hadd
  exact Scan.run_inv hstep h hadd.symm

/-- No state of a call that returns is without a next step. -/
theorem Returns.next {m : Kmem} {z : Scan} (hz : Returns cfg m p entries num wset z)
    (hx : ScanReach cfg entries num wset (scanStart m p) x) :
    ∃ x', x.step cfg entries num wset = .ok x' := by
  obtain ⟨n, hn⟩ := scanReach_iff.mp hx
  obtain ⟨y, hy⟩ := hz.ok (n + 1)
  rw [Scan.run_add 1 hn] at hy
  obtain ⟨x', hs, -⟩ := Lib.bind_eq_ok.mp hy
  exact ⟨x', hs⟩

end

/-! ## 7. The theorem -/

section
variable {cfg} {m : Kmem} {p : Proc} {entries : Nat} {num wsetOnly : Int} {wset : Bool}

/-- The first round looks at the highest page. -/
theorem scanStart_eq (m : Kmem) (hp : Sane p) (hsz : 0 < p.sz) :
    scanStart m p = ⟨m, p, (pages p.sz - 1) * 4096, 0, .look⟩ := by
  have hk := hp.size
  unfold kernBase at hk
  unfold scanStart subU pgRoundDown pgSize pages
  congr 1
  split <;> omega

/-- The rounds over the pages above the highest user page. -/
theorem run_skips (hp : CallReady cfg p) (hsz : 0 < p.sz) {v : Nat} (hv : v < pages p.sz)
    (hnone : ∀ u, v < u → u < pages p.sz → has (p.pgdir.pteAt u) pteU = false) {k : Nat} :
    k ≤ pages p.sz - 1 - v → Scan.run cfg entries num wset k (scanStart m p) =
      .ok ⟨m, p, (pages p.sz - 1 - k) * 4096, 0, .look⟩ := by
  have hsz19 : pages p.sz ≤ 2 ^ 19 := pages_le hp.size
  induction k with
  | zero =>
    intro _
    rw [scanStart_eq m hp.toSane hsz]
    rfl
  | succ k ih =>
    intro hk
    rw [Scan.run_add 1 (ih (by omega))]
    have hvpn : vpn ((pages p.sz - 1 - k) * 4096) = pages p.sz - 1 - k := vpn_page (by omega)
    have hU := hnone (pages p.sz - 1 - k) (by omega) (by omega)
    have ht := PgDir.tabAt_of_mapped (hp.shape.mapped
      (show pages p.sz - 1 - k < pages p.sz by omega))
    have hs := @Scan.step_skip cfg entries num wset ⟨m, p, (pages p.sz - 1 - k) * 4096, 0, .look⟩
      rfl (by rw [hvpn]; exact ht) (by rw [hvpn]; exact hU)
    unfold Scan.run
    rw [hs, Lib.ok_bind]
    unfold Scan.run Scan.down subU pgSize
    dsimp only
    rw [show ((pages p.sz - 1 - k) * 4096 + (2 ^ 32 - 4096 % 2 ^ 32)) % 2 ^ 32 =
      (pages p.sz - 1 - (k + 1)) * 4096 by omega]

/-- The round at a user page, with no entry to write. -/
theorem step_noEntry (hp : CallReady cfg p) {v : Nat} (hv : v < pages p.sz)
    (hU : has (p.pgdir.pteAt v) pteU = true) :
    Scan.step cfg entries 0 wset ⟨m, p, v * 4096, 0, .look⟩ =
      .ok ⟨m, p, v * 4096, 0, if wset && !decide (Queued p.q v) then .ret
        else .read PtField.stored⟩ := by
  have hsz : pages p.sz ≤ 2 ^ 19 := pages_le hp.size
  have hvpn : vpn (v * 4096) = v := vpn_page (by omega)
  have hm := hp.shape.mapped hv
  have ht := PgDir.tabAt_of_mapped hm
  unfold Scan.step
  dsimp only
  rw [Scan.deref_of_tab (by rw [hvpn]; exact ht)]
  dsimp only
  have hwalk : p.pgdir.walk (v * 4096) = some v := by
    rw [← hvpn] at ht
    exact (PgDir.walk_of_tabAt ht).trans (congrArg some hvpn)
  rw [hvpn, hU, hm, hwalk, wanted_ok hp.queue ht, Lib.ok_bind]
  have hnext : Scan.next 0 ⟨m, p, v * 4096, 0, .look⟩ = ⟨m, p, v * 4096, 0, .ret⟩ :=
    if_pos (.inr rfl)
  rw [hnext]
  cases wset <;> cases decide (Queued p.q v) <;> rfl

/-- There is a highest user page, if there is any. -/
theorem topUser_or_none (p : Proc) : (∃ v, TopUser p v) ∨
    ∀ u, u < pages p.sz → has (p.pgdir.pteAt u) pteU = false := by
  by_cases h : ∃ u, u < pages p.sz ∧ has (p.pgdir.pteAt u) pteU = true
  · left
    obtain ⟨u, hu, hU⟩ := h
    have hspec := Nat.findGreatest_spec (P := fun u => u < pages p.sz ∧
      has (p.pgdir.pteAt u) pteU = true) (Nat.le_of_lt hu) ⟨hu, hU⟩
    refine ⟨_, hspec.1, hspec.2, fun w hw hlt => ?_⟩
    have hnot := Nat.findGreatest_is_greatest hw (Nat.le_of_lt hlt)
    rw [Bool.eq_false_iff]
    exact fun hc => hnot ⟨hlt, hc⟩
  · right
    intro u hu
    rw [Bool.eq_false_iff]
    exact fun hc => h ⟨u, hu, hc⟩

/-- **A call for no entry** stays in bounds where the first user page is not listed. -/
theorem noEntry_inBounds (hp : CallReady cfg p) (hsz : 0 < p.sz) {v : Nat} (hv : TopUser p v)
    (hq : ¬ Queued p.q v) : (∃ x, Returns cfg m p entries 0 true x) ∧
    ∀ x, ScanReach cfg entries 0 true (scanStart m p) x → InBounds p entries 0 x := by
  have hskip := fun {k} => @run_skips cfg m p entries 0 true hp hsz v hv.1 hv.2.2 k
  have hlast := hskip (Nat.le_refl _)
  rw [show pages p.sz - 1 - (pages p.sz - 1 - v) = v by have := hv.1; omega] at hlast
  have hend : Scan.run cfg entries 0 true (pages p.sz - 1 - v + 1) (scanStart m p) =
      .ok ⟨m, p, v * 4096, 0, .ret⟩ := by
    rw [Scan.run_add 1 hlast]
    unfold Scan.run
    rw [step_noEntry hp hv.1 hv.2.1, decide_eq_false hq]
    rfl
  refine ⟨⟨_, rfl, _, hend⟩, fun x hx => ?_⟩
  obtain ⟨n, hle, hn⟩ := scanReach_le hend rfl hx
  by_cases hlt : n ≤ pages p.sz - 1 - v
  · cases hn.symm.trans (hskip hlt)
    refine ⟨fun _ => ?_, fun _ _ _ hpc => (by cases hpc), Int.le_refl 0⟩
    rw [pgRoundUp_pages (Nat.le_of_lt hp.size)]
    have := hv.1
    dsimp only
    omega
  · obtain rfl : n = pages p.sz - 1 - v + 1 := by omega
    cases hn.symm.trans hend
    exact ⟨fun hpc => (by cases hpc), fun _ _ _ hpc => (by cases hpc), Int.le_refl 0⟩

/-- A state in bounds has page 0 for a user page when it looks at it. -/
theorem zeroOk_of_inBounds (hp : CallReady cfg p)
    (hin : ∀ x, ScanReach cfg entries num wset (scanStart m p) x → InBounds p entries num x)
    {x : Scan} (hx : ScanReach cfg entries num wset (scanStart m p) x)
    (ht : x.p.pgdir.tabAt 0 = true) : ZeroOk x := by
  intro hpc h0
  by_contra hU
  have hs : x.step cfg entries num wset = .ok x.down := Scan.step_skip hpc (by rw [h0]; exact ht)
    (by rw [h0]; exact Bool.eq_false_iff.mpr hU)
  have hl := (hin _ (.step (e := ()) hx hs)).look (Scan.down_pc x)
  have hsz19 : pages p.sz ≤ 2 ^ 19 := pages_le hp.size
  rw [Scan.down_uva, h0, pgRoundUp_pages (Nat.le_of_lt hp.size)] at hl
  unfold subU pgSize at hl
  omega

/-- Conversely it stays in bounds in no other case. -/
theorem noEntry_only (hp : CallReady cfg p) (hsz : 0 < p.sz)
    (hin : ∀ x, ScanReach cfg entries 0 wset (scanStart m p) x → InBounds p entries 0 x) :
    wset = true ∧ ∃ v, TopUser p v ∧ ¬ Queued p.q v := by
  have hsz19 : pages p.sz ≤ 2 ^ 19 := pages_le hp.size
  have hpos : 0 < pages p.sz := by
    unfold pages
    omega
  rcases topUser_or_none p with ⟨v, hv⟩ | hnone
  · have hlast := @run_skips cfg m p entries 0 wset hp hsz v hv.1 hv.2.2 _ (Nat.le_refl _)
    rw [show pages p.sz - 1 - (pages p.sz - 1 - v) = v by have := hv.1; omega] at hlast
    have hreach := scanReach_iff.mpr ⟨_, hlast⟩
    by_cases hw : wset = true ∧ ¬ Queued p.q v
    · exact ⟨hw.1, v, hv, hw.2⟩
    · -- the page is listed, and its first field stored
      have hread := @step_noEntry cfg m p entries wset hp v hv.1 hv.2.1
      rw [if_neg (by simpa using hw)] at hread
      have hwrite : Scan.step cfg entries 0 wset ⟨m, p, v * 4096, 0, .read PtField.stored⟩ =
          .ok ⟨m, p, v * 4096, 0, .write .pdx (PtField.pdx.of (v * 4096) 0)
            PtField.stored.tail⟩ := rfl
      have hb := (hin _ (.step (e := ()) (.step (e := ()) hreach hread) hwrite)).write _ _ _ rfl
      omega
  · -- the rounds go on below page 0
    have hlast := @run_skips cfg m p entries 0 wset hp hsz 0 hpos
      (fun u _ hu => hnone u hu) _ (Nat.le_refl _)
    have hU := zeroOk_of_inBounds hp hin (scanReach_iff.mpr ⟨_, hlast⟩)
      (PgDir.tabAt_of_mapped (hp.shape.mapped hpos)) rfl
      (show (pages p.sz - 1 - (pages p.sz - 1 - 0)) * 4096 = 0 by omega)
    exact absurd (hU.symm.trans (hnone 0 hpos)) Bool.noConfusion

section
variable (hp : CallReady cfg p) (hnum : 1 ≤ num) (hsz : 0 < p.sz)
  (hbuf : (entries + entrySize * num : Int) ≤ p.sz)
include hp hnum hsz hbuf

/-- The invariant, where page 0 is a user page whenever it is looked at. -/
theorem scanReach_inv
    (hz : ∀ x, ScanReach cfg entries num wset (scanStart m p) x → ZeroOk x) {x : Scan}
    (hx : ScanReach cfg entries num wset (scanStart m p) x) : BoundInv cfg p num x := by
  induction hx with
  | start => exact .start hp hnum hsz
  | step hx hs ih => exact ih.step hbuf (hz _ hx) hs

/-- **A call that meets the condition in every state** returns and stays in bounds. -/
theorem boundOk_inBounds
    (hok : ∀ x, ScanReach cfg entries num wset (scanStart m p) x → BoundOk cfg entries x) :
    (∃ x, Returns cfg m p entries num wset x) ∧
    ∀ x, ScanReach cfg entries num wset (scanStart m p) x → InBounds p entries num x := by
  have hinv := fun {x} hx =>
    scanReach_inv (x := x) hp hnum hsz hbuf (fun x hx => (hok x hx).zero) hx
  refine ⟨?_, fun x hx => (hinv hx).inBounds hbuf⟩
  obtain ⟨n, y, hrun, hret, -⟩ := Scan.run_ends
    (I := ScanReach cfg entries num wset (scanStart m p)) (Scan.toGo cfg entries)
    (fun x hx hret => by
      obtain ⟨x', hs, hless⟩ := (hinv hx).progress hbuf (hok x hx) hret
      exact ⟨x', hs, .step (e := ()) hx hs, hless⟩)
    .start
  exact ⟨y, hret, n, hrun⟩

/-- **A call that returns and stays in bounds** meets the condition in every state. -/
theorem boundOk_only (hret : ∃ x, Returns cfg m p entries num wset x)
    (hin : ∀ x, ScanReach cfg entries num wset (scanStart m p) x → InBounds p entries num x)
    {x : Scan} (hx : ScanReach cfg entries num wset (scanStart m p) x) : BoundOk cfg entries x := by
  have hpos : 0 < pages p.sz := by
    unfold pages
    omega
  have both : ∀ {x}, ScanReach cfg entries num wset (scanStart m p) x →
      BoundInv cfg p num x ∧ ZeroOk x := fun hx => by
    induction hx with
    | start => exact ⟨.start hp hnum hsz, zeroOk_of_inBounds hp hin .start
        (PgDir.tabAt_of_mapped (hp.shape.mapped hpos))⟩
    | step hx hs ih =>
      have hi := ih.1.step hbuf ih.2 hs
      exact ⟨hi, zeroOk_of_inBounds hp hin (.step (e := ()) hx hs)
        (PgDir.tabAt_of_mapped (hi.shape.mapped (hi.sz ▸ hpos)))⟩
  obtain ⟨h, hz⟩ := both hx
  obtain ⟨z, hz'⟩ := hret
  refine ⟨hz, fun f v fs a hpc hm => ?_⟩
  obtain ⟨x', hs⟩ := hz'.next hx
  rw [Scan.step_fault hpc hm] at hs
  obtain ⟨s, q, hd, -, -⟩ := Scan.fault_ok hs
  obtain ⟨hbyte, hsafe⟩ := mdecrypt_accepted hd
  refine ⟨hbyte, hsafe, fun hfull => ?_⟩
  by_contra hall
  -- the store faults for ever
  have hthrash : x.Thrashes cfg entries := by
    refine ⟨f, v, fs, hpc, by rw [hm]; simp, hfull, fun j hj => ?_⟩
    by_contra hneed
    exact hall ⟨j, hj, hneed⟩
  have hend : BoundInv cfg p num z ∧ z.Thrashes cfg entries := by
    refine hz'.from (I := fun y => BoundInv cfg p num y ∧ y.Thrashes cfg entries) hx
      ⟨h, hthrash⟩ fun hy hs => ⟨hy.1.step hbuf (fun hl => ?_) hs, hy.1.thrashes hbuf hy.2 hs⟩
    obtain ⟨f, v, fs, hpc, -⟩ := hy.2
    rw [hpc] at hl
    cases hl
  obtain ⟨f, v, fs, hpc, -⟩ := hend.2
  rw [hz'.1] at hpc
  cases hpc

end

end

/-- **When the call stays in bounds and ends**: if it is refused, or else exactly if it meets
    `CallOk`. -/
theorem getpgtable_in_bounds_iff (m : Kmem) (p : Proc) (entries : Nat) (num wsetOnly : Int)
    (hp : CallReady cfg p) : StaysInBounds cfg m p entries num wsetOnly ↔
      ((sysGetpgtable m p entries num wsetOnly).isSome = true →
        CallOk cfg m p entries num wsetOnly) := by
  have hk := hp.size
  unfold kernBase at hk
  refine ⟨fun hs hsome => ?_, fun hok x0 h0 => ?_⟩
  · obtain ⟨x0, h0⟩ := Option.isSome_iff_exists.mp hsome
    obtain ⟨hbuf, hret, hin⟩ := hs x0 h0
    obtain ⟨rfl, hw⟩ := sysGetpgtable_start h0
    have hcount : (0 : Int) ≤ num := (hin _ .start).count
    have hlt : num < 2 ^ 29 := by
      unfold entrySize at hbuf
      omega
    obtain ⟨hsz, -⟩ := sysGetpgtable_some hcount hlt hp.size h0
    rcases eq_or_lt_of_le hcount with rfl | hpos
    · obtain ⟨h1, hv⟩ := noEntry_only hp hsz hin
      exact .inl ⟨rfl, beq_iff_eq.mp h1, hv⟩
    · exact .inr ⟨⟨hpos, hlt⟩, fun x hx => boundOk_only hp hpos hsz hbuf hret hin hx⟩
  · obtain ⟨rfl, -⟩ := sysGetpgtable_start h0
    rcases hok (by rw [h0]; rfl) with ⟨rfl, rfl, v, hv, hq⟩ | ⟨⟨hnum, hlt⟩, hall⟩
    · obtain ⟨hsz, hbuf⟩ := sysGetpgtable_some (Int.le_refl 0) (by decide) hp.size h0
      exact ⟨hbuf, noEntry_inBounds hp hsz hv hq⟩
    · obtain ⟨hsz, hbuf⟩ := sysGetpgtable_some (by omega) hlt hp.size h0
      exact ⟨hbuf, boundOk_inBounds hp hnum hsz hbuf hall⟩

/-- The next step does not go below page 0, and a fault finds an empty queue. -/
def Scan.quiet (entries : Nat) (x : Scan) : Bool :=
  match x.pc with
  | .look => x.uva != 0 || has (x.p.pgdir.pteAt 0) pteU
  | .write f _ _ =>
    match missing x.p (fieldAddr entries x.i f) with
    | some a => firstByte (x.p.vm x.m) a != 0#8 && x.p.q.inClock == 0
    | none => true
  | _ => true

theorem Scan.quiet.boundOk {entries : Nat} {x : Scan} (h : x.quiet entries = true) :
    BoundOk cfg entries x := by
  unfold Scan.quiet at h
  refine ⟨fun hpc h0 => ?_, fun f v fs a hpc hm => ?_⟩
  · rw [hpc, h0] at h
    simpa using h
  · rw [hpc] at h
    dsimp only at h
    rw [hm] at h
    simp only [Bool.and_eq_true, bne_iff_ne, ne_eq, beq_iff_eq] at h
    refine ⟨h.1, .inl h.2, fun hfull => ?_⟩
    have hpos := cfg.clockPos
    omega

/-- One entry of a process with one page, which the store brings in. -/
theorem getpgtable_in_bounds_fresh :
    StaysInBounds xv6 (freshKernel 1).kmem (freshProc 1) 0 1 0 := by
  have hfresh := freshProc_fresh 1 (by decide)
  have hrun : ∀ n, n < 18 → Lib.okAnd (Scan.run xv6 0 1 false n
      (scanStart (freshKernel 1).kmem (freshProc 1))) (fun x => x.quiet 0 &&
        (n != 17 || x.pc == .ret)) = true := by
    decide +kernel
  refine (getpgtable_in_bounds_iff xv6 _ _ 0 1 0 ⟨⟨hfresh.sane, hfresh.shape⟩, by decide⟩).mpr
    fun _ => .inr ⟨by decide, fun x hx => Scan.quiet.boundOk xv6 ?_⟩
  obtain ⟨y, hy, hq⟩ := Lib.okAnd_iff.mp (hrun 17 (by decide))
  obtain ⟨-, hret⟩ := Bool.and_eq_true_iff.mp hq
  obtain ⟨n, hle, hn⟩ := scanReach_le hy (by simpa using hret) hx
  obtain ⟨z, hz, hq⟩ := Lib.okAnd_iff.mp (hrun n (by omega))
  cases hn.symm.trans hz
  exact (Bool.and_eq_true_iff.mp hq).1

/-! ## 8. Calls that do not -/

/-- A process as exec leaves it for a file without segments: page 0 is the guard page. -/
def guardProc : Proc :=
  { freshProc 2 with pgdir := (freshDir 2).store 0 (frameAddr 0x3000 ||| (pteW ||| pteP)) }

theorem guardProc_ready : CallReady xv6 guardProc := by
  have hfresh := freshProc_fresh 2 (by decide)
  have hpd : guardProc.pgdir = (freshDir 2).store 0 (frameAddr 0x3000 ||| (pteW ||| pteP)) := rfl
  have h0 : guardProc.pgdir.pteAt 0 = frameAddr 0x3000 ||| (pteW ||| pteP) := by
    rw [hpd]
    exact PgDir.pteAt_store_self _ (by decide)
  have hne : ∀ u, u ≠ 0 → guardProc.pgdir.pteAt u = (freshDir 2).pteAt u := fun u hu => by
    rw [hpd]
    exact PgDir.pteAt_store_ne _ _ hu
  have hhigh : KernHigh guardProc.pgdir := fun u hu => by
    rw [hne u (by omega)]
    exact hfresh.sane.high u hu
  refine ⟨⟨⟨hhigh, hfresh.sane.size⟩, ⟨fun u hu => ?_, fun u h1 h2 => ?_, fun u hE => ?_, hhigh,
    fun u h1 h2 => ?_⟩⟩, Nat.zero_le _⟩
  · by_cases hu0 : u = 0
    · rw [hu0, h0]
      decide
    · rw [hne u hu0]
      exact hfresh.shape.low u hu
  · rw [hne u (Nat.ne_of_gt (Nat.lt_of_lt_of_le (by decide) h1))]
    exact hfresh.shape.rest u h1 h2
  · by_cases hu0 : u = 0
    · rw [hu0, h0] at hE
      exact absurd hE (by decide)
    · rw [hne u hu0] at hE ⊢
      exact hfresh.shape.encUser u hE
  · rw [hpd]
    exact (PgDir.tabAt_store _ _ _ _).trans (hfresh.shape.dev u h1 h2)

section
variable {cfg} {m : Kmem} {p : Proc} {entries n : Nat} {num wsetOnly : Int}

/-- A call that is accepted and reaches a state out of bounds. -/
theorem not_staysInBounds (h0 : sysGetpgtable m p entries num wsetOnly = some (scanStart m p))
    {bad : Scan → Bool} (h : Lib.okAnd (Scan.run cfg entries num (wsetOnly == 1) n
      (scanStart m p)) bad = true) (hbad : ∀ x, bad x = true → ¬ InBounds p entries num x) :
    ¬ StaysInBounds cfg m p entries num wsetOnly := by
  intro hs
  obtain ⟨x, hx, hb⟩ := Lib.okAnd_iff.mp h
  exact hbad x hb ((hs _ h0).2.2 x (scanReach_iff.mpr ⟨n, hx⟩))

end

/-- The scan is about to store into the first entry. -/
def Scan.storesFirst (x : Scan) : Bool :=
  match x.pc with
  | .write _ _ _ => x.i == 0
  | _ => false

/-- **Four calls that leave the bounds or do not end**: no entry, 2^29 entries, a process without
    segments, and a buffer in a page whose first stored byte is zero. -/
theorem getpgtable_out_of_bounds :
    (CallReady xv6 (freshProc 1) ∧
      ¬ StaysInBounds xv6 (freshKernel 1).kmem (freshProc 1) 0 0 0) ∧
    ¬ StaysInBounds xv6 (freshKernel 1).kmem (freshProc 1) 0 (2 ^ 29) 0 ∧
    (CallReady xv6 guardProc ∧ ¬ StaysInBounds xv6 (freshKernel 2).kmem guardProc 4096 2 0) ∧
    ¬ StaysInBounds xv6 { (freshKernel 1).kmem with mem := fun _ => fill 0 } (freshProc 1)
      0 1 0 := by
  have hfresh := freshProc_fresh 1 (by decide)
  have hready : CallReady xv6 (freshProc 1) := ⟨⟨hfresh.sane, hfresh.shape⟩, by decide⟩
  refine ⟨⟨hready, ?_⟩, ?_, ⟨guardProc_ready, ?_⟩, ?_⟩
  · -- the first store
    have hrun : Lib.okAnd (Scan.run xv6 0 0 false 2 (scanStart (freshKernel 1).kmem (freshProc 1)))
        Scan.storesFirst = true := by
      decide +kernel
    refine not_staysInBounds rfl hrun fun x hx hb => ?_
    cases hpc : x.pc with
    | write f v fs =>
      have hw := (hb.write f v fs hpc).2
      omega
    | _ =>
      rw [Scan.storesFirst, hpc] at hx
      cases hx
  · intro hs
    have hbuf := (hs (scanStart (freshKernel 1).kmem (freshProc 1)) rfl).1
    revert hbuf
    decide
  · -- below page 0
    have hrun : Lib.okAnd (Scan.run xv6 4096 2 false 18
        (scanStart (freshKernel 2).kmem guardProc))
        (fun x => x.pc == .look && x.uva == 0xFFFFF000) = true := by
      decide +kernel
    refine not_staysInBounds rfl hrun fun x hx hb => ?_
    simp only [Bool.and_eq_true, beq_iff_eq] at hx
    have hl := hb.look hx.1
    rw [hx.2] at hl
    revert hl
    decide
  · -- the fault is not handled
    intro hs
    obtain ⟨x, hx⟩ := (hs (scanStart _ (freshProc 1)) rfl).2.1
    have hrun : Lib.okAnd (Scan.run xv6 0 1 false 3 (scanStart
        { (freshKernel 1).kmem with mem := fun _ => fill 0 } (freshProc 1)))
        (fun _ => true) = false := by
      decide +kernel
    have hok := hx.ok 3
    rw [Bool.eq_false_iff] at hrun
    exact hrun (Lib.okAnd_iff.mpr ⟨_, hok.choose_spec, rfl⟩)

end Xv6Clock
