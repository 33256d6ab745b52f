/-
  File:      Xv6Clock/Accepts.lean
  Subject:   Which pages `mdecrypt` (vm.c) accepts, and what a refusal leaves behind.

  The last check of `mdecrypt` reads the first byte of the page, still encrypted, and it comes
  after the flags have been changed. So a page whose first byte is 0xFF in plain text is refused,
  and is left marked as decrypted. Every other encrypted user page is accepted, as far as the clock
  queue can take it.
-/
import Xv6Clock.Sweep
import Xv6Clock.ClockIndex

namespace Xv6Clock

variable (cfg : Config)

/-! ## 1. What the scan depends on -/

/-- Page `v` marked as referenced. -/
def PgDir.touched (pd : PgDir) (v : Nat) : PgDir := pd.store v (setRef (pd.pteAt v))

/-- Page tables with the same reference bits and the same page-table pages. -/
structure SameRefs (pd pd' : PgDir) : Prop where
  ref : ∀ u, has (pd'.pteAt u) pteA = has (pd.pteAt u) pteA
  tab : ∀ u, pd'.tabAt u = pd.tabAt u

section SameRefs

variable {cfg} {pd pd' : PgDir} {q : ClockQ}

section
variable (h : SameRefs pd pd')
include h

theorem SameRefs.symm : SameRefs pd' pd :=
  ⟨fun u => (h.ref u).symm, fun u => (h.tab u).symm⟩

theorem SameRefs.stop : sweepStop cfg pd' q = sweepStop cfg pd q := by
  have hp : passed cfg pd' q = passed cfg pd q := funext fun i => by
    unfold passed
    rw [h.ref]
  unfold sweepStop
  rw [hp]

theorem SameRefs.safe (hs : InsertSafe cfg pd q) : InsertSafe cfg pd' q := by
  rcases hs with h0 | h1 | ⟨h1, h2, h3⟩
  · exact .inl h0
  · exact .inr (.inl h1)
  · refine .inr (.inr ⟨h1, h2, fun i hi hle => ?_⟩)
    rw [h.stop] at hle
    obtain ⟨h4, h5⟩ := h3 i hi hle
    exact ⟨h4, (h.tab _).trans h5⟩

theorem SameRefs.safe_iff : InsertSafe cfg pd' q ↔ InsertSafe cfg pd q :=
  ⟨h.symm.safe, h.safe⟩

end

end SameRefs

/-- A decrypted page has been referenced; nothing else differs. -/
theorem opened_sameRefs {s : Vm} {v : Nat} (ht : s.pd.tabAt v = true) :
    SameRefs (s.pd.touched v) (s.opened v).pd := by
  refine ⟨fun u => ?_, fun u => ?_⟩
  · have h1 : (s.opened v).pd.pteAt u = if u = v then openEntry (s.pd.pteAt v) else s.pd.pteAt u :=
      PgDir.pteAt_store _ _ ht
    have h2 : (s.pd.touched v).pteAt u = if u = v then setRef (s.pd.pteAt v) else s.pd.pteAt u :=
      PgDir.pteAt_store _ _ ht
    rw [h1, h2]
    split
    · rw [openEntry, has_setRef_A, has_setRef_A]
    · rfl
  · exact (PgDir.tabAt_store _ _ _ _).trans (PgDir.tabAt_store _ _ _ _).symm

/-! ## 2. `mdecrypt` -/

/-- An encrypted user page. -/
def encrypted (w : Word) : Bool := has w pteE && has w pteU

theorem encrypted_iff {w : Word} :
    encrypted w = true ↔ has w pteE = true ∧ has w pteU = true := Bool.and_eq_true_iff

/-- **`mdecrypt` succeeds exactly on encrypted user pages, and otherwise changes nothing.** -/
structure ExactDecrypt (s : Vm) (q : ClockQ) (va : Nat) : Prop where
  accepts : (∃ s' q', mdecrypt cfg s q va = .ok (0, s', q')) ↔
    encrypted (s.pd.pteAt (vpn va)) = true
  refuses : ∀ s' q', mdecrypt cfg s q va = .ok (-1, s', q') → s' = s ∧ q' = q

/-- The first stored byte of the page of `va`. -/
def firstByte (s : Vm) (va : Nat) : Byte := s.m.mem (pteFrame (s.pd.pteAt (vpn va))) 0

/-- A page that is not an encrypted user page is refused at once. -/
theorem mdecrypt_refuse {s : Vm} {q : ClockQ} {va : Nat} (ht : s.pd.tabAt (vpn va) = true)
    (hn : encrypted (s.pd.pteAt (vpn va)) = false) : mdecrypt cfg s q va = .ok (-1, s, q) := by
  unfold mdecrypt
  rcases mdecryptPage_cases s va with ⟨h0, -⟩ | ⟨-, -, e⟩ | ⟨hE, hU, -⟩ | ⟨hE, hU, -⟩
  · rw [ht] at h0
    cases h0
  · rw [e]
    rfl
  · rw [encrypted_iff.mpr ⟨hE, hU⟩] at hn
    cases hn
  · rw [encrypted_iff.mpr ⟨hE, hU⟩] at hn
    cases hn

/-- A page whose first stored byte is zero is refused late. -/
theorem mdecrypt_half {s : Vm} {q : ClockQ} {va : Nat}
    (he : encrypted (s.pd.pteAt (vpn va)) = true) (hb : firstByte s va = 0#8) :
    mdecrypt cfg s q va = .ok (-1, halfDec s (vpn va), q) := by
  unfold mdecrypt
  rcases mdecryptPage_cases s va with ⟨h0, -⟩ | ⟨-, hn, -⟩ | ⟨-, -, -, e⟩ | ⟨-, -, hb', -⟩
  · rw [PgDir.tabAt_of_mapped (mapped_of_E (encrypted_iff.mp he).1)] at h0
    cases h0
  · exact absurd (encrypted_iff.mp he) hn
  · rw [e]
    rfl
  · exact absurd hb hb'

/-- Any other is decrypted and handed to the clock. -/
theorem mdecrypt_open {s : Vm} {q : ClockQ} {va : Nat}
    (he : encrypted (s.pd.pteAt (vpn va)) = true) (hb : firstByte s va ≠ 0#8) :
    mdecrypt cfg s q va = (do
      let (s, q) ← clockInsert cfg (s.opened (vpn va)) q (pgRoundDown va)
      .ok (0, s, q)) := by
  unfold mdecrypt
  rcases mdecryptPage_cases s va with ⟨h0, -⟩ | ⟨-, hn, -⟩ | ⟨-, -, hb', -⟩ | ⟨-, -, -, e⟩
  · rw [PgDir.tabAt_of_mapped (mapped_of_E (encrypted_iff.mp he).1)] at h0
    cases h0
  · exact absurd (encrypted_iff.mp he) hn
  · exact absurd hb' hb
  · rw [e, Lib.ok_bind]
    dsimp only
    rw [if_neg (by decide)]
    rfl

/-- The late refusal has changed the entry. -/
theorem halfDec_ne {s : Vm} {v : Nat} (he : encrypted (s.pd.pteAt v) = true) : halfDec s v ≠ s := by
  intro h
  have hE := (encrypted_iff.mp he).1
  have ht := PgDir.tabAt_of_mapped (mapped_of_E hE)
  have h1 : (halfDec s v).pd.pteAt v = decEntry (s.pd.pteAt v) := PgDir.pteAt_store_self _ ht
  rw [h] at h1
  rw [h1, has_dec_E] at hE
  cases hE

/-- **When `mdecrypt` is exact**, for a page-table page that exists: the page is not an encrypted
    user page, or its first stored byte is not zero and the queue can take it (with the page itself
    counted as referenced). -/
theorem exactDecrypt_iff (s : Vm) (q : ClockQ) (va : Nat) (ht : s.pd.tabAt (vpn va) = true) :
    ExactDecrypt cfg s q va ↔ (encrypted (s.pd.pteAt (vpn va)) = true →
      firstByte s va ≠ 0#8 ∧ InsertSafe cfg (s.pd.touched (vpn va)) q) := by
  cases he : encrypted (s.pd.pteAt (vpn va)) with
  | false =>
    have heq := mdecrypt_refuse cfg (q := q) ht he
    refine ⟨fun _ => nofun, fun _ => ⟨?_, fun s' q' h => ?_⟩⟩
    · rw [heq, he]
      exact ⟨fun ⟨s', q', h⟩ => (by cases h), nofun⟩
    · rw [heq] at h
      cases h
      exact ⟨rfl, rfl⟩
  | true =>
    by_cases hb : firstByte s va = 0#8
    · have heq := mdecrypt_half cfg (q := q) he hb
      refine ⟨fun h => ?_, fun h => absurd hb (h rfl).1⟩
      exact absurd (h.refuses _ _ heq).1 (halfDec_ne he)
    have heq := mdecrypt_open cfg (q := q) he hb
    have hsafe : InsertSafe cfg (s.opened (vpn va)).pd q ↔
        InsertSafe cfg (s.pd.touched (vpn va)) q := (opened_sameRefs ht).safe_iff
    refine ⟨fun h _ => ⟨hb, ?_⟩, fun h => ⟨⟨fun _ => he, fun _ => ?_⟩, fun s' q' h1 => ?_⟩⟩
    · obtain ⟨s', q', h1⟩ := h.accepts.mpr he
      rw [heq] at h1
      obtain ⟨r, hr, -⟩ := Lib.bind_eq_ok.mp h1
      exact hsafe.mp ((clockInsert_returns cfg).mp ⟨r, hr⟩)
    · obtain ⟨r, hr⟩ := (clockInsert_returns cfg (a := pgRoundDown va)).mpr
        (hsafe.mpr (h rfl).2)
      rw [heq, hr]
      exact ⟨_, _, rfl⟩
    · rw [heq] at h1
      obtain ⟨r, -, h2⟩ := Lib.bind_eq_ok.mp h1
      cases h2

/-- The first page of a fresh process, and an empty queue. -/
theorem exactDecrypt_fresh :
    ExactDecrypt xv6 ((freshProc 1).vm (freshKernel 1).kmem) (freshProc 1).q 5 :=
  (exactDecrypt_iff xv6 _ _ 5 (by decide)).mpr fun _ => ⟨by decide, .inl rfl⟩

/-- Touch page 0, write 0xFF at address 0, encrypt the page. -/
def fullFirstByte : List Op := [.mem (.read 0), .mem (.write 0 0xFF), .mem (.mencrypt 0 1)]

/-- **A page that starts with 0xFF is refused once it is encrypted**, and its entry is left with
    PTE_P and without PTE_E over bytes that are still encrypted. -/
theorem fullFirstByte_refused : ∃ k m p, Run xv6 (fun _ _ _ => True) (freshKernel 1) k ∧
    encrypted ((k.proc 0).pgdir.pteAt 0) = true ∧
    pageFault xv6 k.kmem (k.proc 0) 0 = .ok (-1, m, p) ∧
    has (p.pgdir.pteAt 0) pteE = false ∧ has (p.pgdir.pteAt 0) pteP = true := by
  have h : Lib.okAnd (steps xv6 (freshKernel 1) 0 fullFirstByte) (fun k =>
      encrypted ((k.proc 0).pgdir.pteAt 0) &&
      Lib.okAnd (pageFault xv6 k.kmem (k.proc 0) 0) fun x =>
        x.1 == -1 && (!has (x.2.2.pgdir.pteAt 0) pteE && has (x.2.2.pgdir.pteAt 0) pteP)) =
      true := by decide +kernel
  obtain ⟨k, hk, h1⟩ := Lib.okAnd_iff.mp h
  rw [Bool.and_eq_true] at h1
  obtain ⟨⟨r, m, p⟩, hf, h2⟩ := Lib.okAnd_iff.mp h1.2
  simp only [Bool.and_eq_true, Bool.not_eq_true', beq_iff_eq] at h2
  obtain ⟨rfl, h3, h4⟩ := h2
  exact ⟨k, m, p, .of_steps xv6 .start hk, h1.1, hf, h3, h4⟩

end Xv6Clock
