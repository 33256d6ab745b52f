/-
  File:      Xv6Clock/NullPte.lean
  Subject:   Which user addresses make `mdecrypt`, `mencrypt` and `uva2ka` (vm.c) dereference a null
             PTE pointer.

  `walkpgdir` returns null where there is no page-table page, and none of these functions looks at
  the pointer before it reads the entry. Each of them looks up a sequence of pages and stops at
  the first entry that it does not like. So null is dereferenced exactly if it comes to a page
  without a page-table page before that (`Found`).
-/
import Xv6Clock.Accepts
import Xv6Clock.ForkRoom
import Xv6Clock.MencryptCall

namespace Xv6Clock

variable (cfg : Config)

/-! ## 1. The property -/

/-- A user-chosen address in the kernel's hands. -/
inductive Lookup where
  /-- A page fault at `va`. -/
  | fault (va : Word)
  /-- The system call `mencrypt(va, len)`. -/
  | mencrypt (va len : Word)
  /-- `copyout` of `buf` to `va`. -/
  | copyout (va : Word) (buf : List Byte)

/-- **No null PTE pointer is dereferenced.** -/
def NoNullPte (m : Kmem) (p : Proc) : Lookup → Prop
  | .fault va => mdecrypt cfg (p.vm m) p.q va.toNat ≠ .error .nullPte
  | .mencrypt va len => sysMencrypt m p va.toNat len.toInt ≠ .error .nullPte
  | .copyout va buf => copyout (p.vm m) va.toNat buf ≠ .error .nullPte

/-- **Pages `k`, `k + 1`, … have page-table pages**, as far as a loop over `n` of them comes that
    goes on after an entry only if it is one to `pass`. -/
def Found (pass : Word → Bool) (pd : PgDir) (k n : Nat) : Prop :=
  ∀ i, i < n → (∀ j, j < i → pass (pd.pteAt ((k + j) % 2 ^ 20)) = true) →
    pd.tabAt ((k + i) % 2 ^ 20) = true

/-- The check of `mencrypt` goes on after the entry. -/
def checkPasses (w : Word) : Bool := !has w pteU || mapped w

/-- `copyout` goes on after the entry. -/
def copyPasses (w : Word) : Bool := mapped w && has w pteU

/-- The number of pages of `n` bytes at `va`. -/
def span (va n : Nat) : Nat := if n = 0 then 0 else (va % 4096 + n + 4095) / 4096

/-- The eviction scan finds a page-table page in every round that it comes to. -/
def SweepFinds (pd : PgDir) (q : ClockQ) : Prop :=
  ∀ i, i < cfg.clockSize → i ≤ sweepStop cfg pd q → (∀ j, j ≤ i → 0 ≤ sweepInd cfg q j) →
    pd.tabAt (sweepPage cfg q i) = true

/-- The arguments that `sys_mencrypt` accepts. -/
def Accepted (p : Proc) (va : Nat) (len : Int) : Prop :=
  0 < len ∧ va < p.sz ∧ addU va 1 ≤ p.sz ∧ va < kernBase + phystop

/-- **The page-table pages that are looked up exist.** -/
def TablesFound (m : Kmem) (p : Proc) : Lookup → Prop
  | .fault va => p.pgdir.tabAt (vpn va.toNat) = true ∧
      (encrypted (p.pgdir.pteAt (vpn va.toNat)) = true → firstByte (p.vm m) va.toNat ≠ 0#8 →
        0 < p.q.inClock → cfg.clockSize ≤ p.q.inClock →
        SweepFinds cfg (p.pgdir.touched (vpn va.toNat)) p.q)
  | .mencrypt va len => Accepted p va.toNat len.toInt →
      Found checkPasses p.pgdir (va.toNat / 4096) len.toInt.toNat
  | .copyout va buf => Found copyPasses p.pgdir (va.toNat / 4096) (span va.toNat buf.length)

/-! ## 2. Loops over pages -/

section
variable {pass : Word → Bool} {pd : PgDir} {k n : Nat}

theorem found_zero : Found pass pd k 0 := fun i hi => absurd hi (Nat.not_lt_zero i)

theorem found_succ : Found pass pd k (n + 1) ↔ pd.tabAt (k % 2 ^ 20) = true ∧
    (pass (pd.pteAt (k % 2 ^ 20)) = true → Found pass pd ((k + 1) % 2 ^ 20) n) := by
  constructor
  · intro h
    refine ⟨h 0 (Nat.succ_pos n) fun j hj => absurd hj (Nat.not_lt_zero j), fun hp i hi hpass => ?_⟩
    rw [page_shift]
    refine h (i + 1) (by omega) fun j hj => ?_
    cases j with
    | zero => exact hp
    | succ j =>
      have := hpass j (by omega)
      rwa [page_shift] at this
  · intro h i hi hpass
    cases i with
    | zero => exact h.1
    | succ i =>
      have hrest := h.2 (hpass 0 (by omega)) i (by omega) fun j hj => by
        rw [page_shift]
        exact hpass (j + 1) (by omega)
      rwa [page_shift] at hrest

/-- A page the loop stops at. -/
theorem found_stop (ht : pd.tabAt (k % 2 ^ 20) = true)
    (hp : pass (pd.pteAt (k % 2 ^ 20)) = false) : Found pass pd k n := by
  cases n with
  | zero => exact found_zero
  | succ n => exact found_succ.mpr ⟨ht, fun h => by rw [hp] at h; cases h⟩

/-- A page the loop gets past. -/
theorem found_pass (ht : pd.tabAt (k % 2 ^ 20) = true)
    (hp : pass (pd.pteAt (k % 2 ^ 20)) = true) :
    Found pass pd k (n + 1) ↔ Found pass pd ((k + 1) % 2 ^ 20) n :=
  found_succ.trans ⟨fun h => h.2 hp, fun h => ⟨ht, fun _ => h⟩⟩

theorem not_found (ht : pd.tabAt (k % 2 ^ 20) = false) : ¬ Found pass pd k (n + 1) := by
  intro h
  have := (found_succ.mp h).1
  rw [ht] at this
  cases this

end

/-- The first loop of `mencrypt`. -/
theorem mencryptCheck_found {pd : PgDir} {n : Nat} : ∀ {k : Nat},
    mencryptCheck n pd (k * 4096) ≠ .error .nullPte ↔ Found checkPasses pd k n := by
  induction n with
  | zero =>
    intro k
    refine iff_of_true (fun h => ?_) found_zero
    cases h
  | succ n ih =>
    intro k
    unfold mencryptCheck
    cases ht : pd.tabAt (k % 2 ^ 20) with
    | false =>
      rw [walk_page_no ht]
      exact iff_of_false (fun h => h rfl) (not_found ht)
    | true =>
      rw [walk_page_of ht]
      dsimp only
      cases hU : has (pd.pteAt (k % 2 ^ 20)) pteU with
      | false =>
        rw [found_pass ht (by rw [checkPasses, hU]; rfl), ← ih, ← addU_page]
        rfl
      | true =>
        rw [uva2ka_page ht, hU, Bool.and_true]
        cases hm : mapped (pd.pteAt (k % 2 ^ 20)) with
        | false =>
          refine iff_of_true (fun h => ?_) (found_stop ht (by rw [checkPasses, hU, hm]; rfl))
          cases h
        | true =>
          rw [found_pass ht (by rw [checkPasses, hU, hm]; rfl), ← ih, ← addU_page]
          rfl

variable {s : Vm} {va : Nat} {q : ClockQ}

/-- `mencrypt`: the second loop looks up what the first one has found. -/
theorem mencrypt_found {len : Int} :
    mencrypt s va len ≠ .error .nullPte ↔ Found checkPasses s.pd (va / 4096) len.toNat := by
  rw [← mencryptCheck_found]
  unfold mencrypt
  rw [pgRoundDown_eq]
  dsimp only
  rcases @mencryptCheck_cases len.toNat s.pd (va / 4096) with ⟨h1, h2, h3⟩ | ⟨h1, -⟩ | ⟨h1, -⟩
  · obtain ⟨s', hs⟩ := mencryptPages_total h2 h3
    rw [h1, Lib.ok_bind, if_neg (by decide), hs]
    exact iff_of_true nofun nofun
  · rw [h1, Lib.ok_bind, if_pos (by decide)]
    exact iff_of_true nofun nofun
  · rw [h1]
    exact iff_of_false (fun h => h rfl) fun h => h rfl

/-- `sys_mencrypt`. -/
theorem sysMencrypt_found {m : Kmem} {p : Proc} {len : Int} :
    sysMencrypt m p va len ≠ .error .nullPte ↔
      (Accepted p va len → Found checkPasses p.pgdir (va / 4096) len.toNat) := by
  by_cases hacc : Accepted p va len
  · have hpd : (p.vm m).pd = p.pgdir := rfl
    rw [sysMencrypt_eq hacc.2.1 hacc.1 hacc.2.2.2, imp_iff_right hacc, ← hpd, ← mencrypt_found]
    exact Lib.bind_ne_error nofun
  · refine iff_of_true (fun h => hacc ?_) fun h => absurd h hacc
    unfold sysMencrypt at h
    split at h
    · cases h
    · split at h
      · cases h
      · split at h
        · cases h
        · refine ⟨?_, ?_, ?_, ?_⟩ <;> omega

/-! ## 3. `copyout` -/

theorem span_first {n : Nat} (hn : n ≠ 0) :
    span va n = span ((va / 4096 + 1) % 2 ^ 20 * 4096) (n - min (4096 - va % 4096) n) + 1 := by
  unfold span
  rw [if_neg hn]
  split <;> omega

/-- The loop of `copyout`. -/
theorem copyoutLoop_found {r : Nat} : ∀ {s : Vm} {va : Nat} {buf : List Byte}, buf.length ≤ r →
    (copyoutLoop r s va buf ≠ .error .nullPte ↔
      Found copyPasses s.pd (va / 4096) (span va buf.length)) := by
  induction r with
  | zero =>
    intro s va buf hr
    obtain rfl : buf = [] := List.length_eq_zero_iff.mp (by omega)
    exact iff_of_true (fun h => by cases h) found_zero
  | succ r ih =>
    intro s va buf hr
    unfold copyoutLoop
    by_cases hlen : buf.length = 0
    · rw [if_pos hlen, hlen]
      exact iff_of_true (fun h => by cases h) found_zero
    rw [if_neg hlen, span_first hlen]
    dsimp only
    rw [pgRoundDown_eq]
    cases ht : s.pd.tabAt (va / 4096 % 2 ^ 20) with
    | false =>
      have hka : uva2ka s.pd (va / 4096 * 4096) = .error .nullPte := by
        unfold uva2ka
        rw [walk_page_no ht]
      rw [hka]
      exact iff_of_false (fun h => h rfl) (not_found ht)
    | true =>
      rw [uva2ka_page ht]
      cases hp : copyPasses (s.pd.pteAt (va / 4096 % 2 ^ 20)) with
      | false =>
        rw [show (mapped (s.pd.pteAt (va / 4096 % 2 ^ 20)) &&
          has (s.pd.pteAt (va / 4096 % 2 ^ 20)) pteU) = false from hp]
        exact iff_of_true (fun h => by cases h) (found_stop ht hp)
      | true =>
        rw [show (mapped (s.pd.pteAt (va / 4096 % 2 ^ 20)) &&
          has (s.pd.pteAt (va / 4096 % 2 ^ 20)) pteU) = true from hp, found_pass ht hp,
          if_pos rfl, Lib.ok_bind]
        dsimp only
        -- the bytes copied do not touch the page table
        have hoff : pgSize - (va - va / 4096 * 4096) = 4096 - va % 4096 := by
          unfold pgSize
          omega
        have hpage : (va / 4096 + 1) % 2 ^ 20 * 4096 / 4096 = (va / 4096 + 1) % 2 ^ 20 := by omega
        rw [hoff, addU_page, ih (by rw [List.length_drop]; omega), List.length_drop, hpage]

/-! ## 4. The eviction scan -/

theorem SweepSafe.finds {pd : PgDir} (h : SweepSafe cfg pd q) : SweepFinds cfg pd q :=
  fun i hi hle _ => (h i hi hle).2

/-- Insertion into a full queue. -/
theorem clockInsert_finds {a : Nat} : clockInsert cfg s q a ≠ .error .nullPte ↔
    (0 < q.inClock → cfg.clockSize ≤ q.inClock → SweepFinds cfg s.pd q) := by
  by_cases hfull : 0 < q.inClock ∧ cfg.clockSize ≤ q.inClock
  · rw [imp_iff_right hfull.1, imp_iff_right hfull.2]
    by_cases hs : SweepSafe cfg s.pd q
    · rw [clockInsert_full cfg hfull.1 hfull.2 hs]
      exact iff_of_true nofun hs.finds
    obtain ⟨k, hk, hstop, hbefore, hbad, he⟩ :=
      clockInsert_full_unsafe cfg (a := a) hfull.1 hfull.2 hs
    rw [he, roundError]
    by_cases h0 : 0 ≤ sweepInd cfg q k
    · -- the round has a slot: it is the page-table page that is missing
      rw [if_pos h0]
      refine iff_of_false (fun h => h rfl) fun hf => hbad ⟨h0, hf k hk hstop fun j hj => ?_⟩
      rcases Nat.lt_or_eq_of_le hj with hlt | rfl
      · exact (hbefore j hlt).1
      · exact h0
    · rw [if_neg h0]
      refine iff_of_true nofun fun i hi hle hall => ?_
      have hik : i < k := by
        by_contra hge
        exact h0 (hall k (by omega))
      exact (hbefore i hik).2
  · refine iff_of_true (fun h => ?_) fun h1 h2 => absurd ⟨h1, h2⟩ hfull
    unfold clockInsert at h
    split at h
    · cases h
    · rw [if_pos (by omega), nodeIndex] at h
      split at h
      · cases h
      · cases h

theorem SameRefs.finds {pd pd' : PgDir} (h : SameRefs pd pd') :
    SweepFinds cfg pd' q ↔ SweepFinds cfg pd q := by
  unfold SweepFinds
  rw [h.stop]
  simp only [h.tab]

/-- `mdecrypt`. -/
theorem mdecrypt_finds :
    mdecrypt cfg s q va ≠ .error .nullPte ↔ s.pd.tabAt (vpn va) = true ∧
      (encrypted (s.pd.pteAt (vpn va)) = true → firstByte s va ≠ 0#8 → 0 < q.inClock →
        cfg.clockSize ≤ q.inClock → SweepFinds cfg (s.pd.touched (vpn va)) q) := by
  cases ht : s.pd.tabAt (vpn va) with
  | false =>
    refine iff_of_false (fun h => h ?_) fun h => by cases h.1
    unfold mdecrypt mdecryptPage
    rw [PgDir.walk_of_no_tab ht]
    rfl
  | true =>
    rw [and_iff_right rfl]
    cases he : encrypted (s.pd.pteAt (vpn va)) with
    | false =>
      rw [mdecrypt_refuse cfg ht he]
      exact iff_of_true nofun nofun
    | true =>
      rw [imp_iff_right rfl]
      by_cases hb : firstByte s va = 0#8
      · rw [mdecrypt_half cfg he hb]
        exact iff_of_true nofun fun h => absurd hb h
      · rw [mdecrypt_open cfg he hb, imp_iff_right hb, ← (opened_sameRefs ht).finds,
          ← clockInsert_finds cfg (a := pgRoundDown va)]
        exact Lib.bind_ne_error nofun

/-! ## 5. The theorem -/

/-- **When no null PTE pointer is dereferenced**, for every process, fault address, argument of
    `mencrypt` and range of `copyout`. -/
theorem noNullPte_iff (m : Kmem) (p : Proc) (x : Lookup) :
    NoNullPte cfg m p x ↔ TablesFound cfg m p x := by
  cases x with
  | fault va => exact mdecrypt_finds cfg
  | mencrypt va len => exact sysMencrypt_found
  | copyout va buf => exact copyoutLoop_found (Nat.le_refl _)

/-- **The child of a process of one page**: a fault at 4 MB, an encryption of 1025 pages and a
    `copyout` to 4 MB each dereference null. -/
theorem beyondTheTables_null : ∃ m p d m', OnePage m p ∧
    copyuvm xv6 m p.pgdir p.sz = .ok (some d, m') ∧
    ¬ NoNullPte xv6 m' { p with pgdir := d } (.fault 0x400000) ∧
    ¬ NoNullPte xv6 m' { p with pgdir := d } (.mencrypt 0 1025) ∧
    ¬ NoNullPte xv6 m' { p with pgdir := d } (.copyout 0x400000 [0]) := by
  obtain ⟨m, p, d, m', hp, hk, hc, hcop⟩ := onePage_copied
  have hsz : pages p.sz = 1 := by
    rw [hp.sz]
    decide
  have htab : d.tabAt 1024 = false := by
    rw [Bool.eq_false_iff]
    intro ht
    have := (copyuvm_tab xv6 hk hc (by decide)).mp ht
    rw [hp.sz] at this
    revert this
    decide
  refine ⟨m, p, d, m', hp, hc, fun h => ?_, fun h => ?_, fun h => ?_⟩
  · have h1 := ((mdecrypt_finds xv6).mp h).1
    rw [show vpn (0x400000 : Word).toNat = 1024 by decide] at h1
    rw [Proc.vm_pd, htab] at h1
    cases h1
  · have hacc : Accepted { p with pgdir := d } 0 (1025 : Word).toInt := by
      refine ⟨by decide, ?_, ?_, by decide⟩ <;> simp only [hp.sz] <;> decide
    have h1 := sysMencrypt_found.mp h hacc 1024 (by decide) fun j hj => ?_
    · rw [show ((0 : Word).toNat / 4096 + 1024) % 2 ^ 20 = 1024 by decide, htab] at h1
      cases h1
    · have hjj : ((0 : Word).toNat / 4096 + j) % 2 ^ 20 = j := by
        change (0 / 4096 + j) % 2 ^ 20 = j
        omega
      rw [hjj]
      cases j with
      | zero =>
        obtain ⟨f, hf, -⟩ := hcop.pte 0 (by omega)
        have hmap := hcop.src 0 (by omega)
        dsimp only
        rw [hf, checkPasses, mapped_copyEntry f hmap, Bool.or_true]
      | succ j =>
        dsimp only
        rw [hcop.rest (j + 1) (by omega) (by omega)]
        decide
  · have h1 := (copyoutLoop_found (Nat.le_refl _)).mp h 0 (by decide)
      fun j hj => absurd hj (Nat.not_lt_zero j)
    rw [show ((0x400000 : Word).toNat / 4096 + 0) % 2 ^ 20 = 1024 by decide] at h1
    rw [Proc.vm_pd, htab] at h1
    cases h1

end Xv6Clock
