/-
  File:      Xv6Clock/Decrypted.lean
  Subject:   Does the clock queue hold live, distinct, decrypted pages?

  Eviction encrypts a page and overwrites its node; the `mencrypt` system call encrypts pages
  without a look at the queue, and a page it takes from under its node comes back as a second
  node. Where `mencrypt` stays away from queued pages (`QueueStepOk`), the queue holds what it is
  meant to hold along every run.
-/
import Xv6Clock.Tracked

namespace Xv6Clock

variable (cfg : Config)

/-! ## 1. The property and its step conditions -/

/-- **The queue holds distinct pages, all of them plain.** -/
structure Decrypted (p : Proc) : Prop where
  nodup : p.q.entries.Nodup
  plain : ∀ a, a ∈ p.q.entries → plain (p.pgdir.pteAt (vpn a)) = true

/-- What an operation must not do: encrypt a queued page by `mencrypt`, or shrink so that `currInd`
    goes wrong. -/
def QueueStepOk (_m : Kmem) (p : Proc) : Op → Prop
  | .mem (.mencrypt va len) => ∀ a, a ∈ p.q.entries →
      ¬ InRange (va.toNat / 4096) len.toInt.toNat (vpn a)
  | .mem (.sbrk n) => n.toInt < 0 → ShrinkOk p.q (toU (p.sz + n.toInt))
  | _ => True

/-! ## 2. Encryption and decryption -/

variable {va : Nat} {m m' : Kmem} {p p' : Proc}

/-- `mencrypt` leaves the pages outside its range alone. -/
theorem mencrypt_out {s s' : Vm} {len x : Int} (h : mencrypt s va len = .ok (x, s')) {u : Nat}
    (hu : ¬ InRange (va / 4096) len.toNat u) : s'.pd.pteAt u = s.pd.pteAt u := by
  rcases mencrypt_ok h with ⟨-, rfl, -⟩ | ⟨-, he⟩
  · rfl
  · exact he.same u fun hc => hu hc.1

/-- Page addresses with the same page number are the same. -/
theorem vpn_inj {a b : Nat} (ha : a % 4096 = 0) (hb : b % 4096 = 0) (ha' : a < kernBase)
    (hb' : b < kernBase) (h : vpn a = vpn b) : a = b := by
  unfold kernBase at ha' hb'
  unfold vpn at h
  omega

theorem plain_open {w : Word} (h : has w pteU = true) : plain (openEntry w) = true := by
  simp [plain, openEntry, h]

/-- In a list without repetition the overwritten entry is gone. -/
theorem mem_set_nodup {l : List Nat} {n a b : Nat} (hl : l.Nodup) (ha : a ∈ l.set n b) :
    a = b ∨ a ∈ l ∧ l[n]? ≠ some a := by
  obtain ⟨j, hj⟩ := List.mem_iff_getElem?.mp ha
  by_cases hjn : n = j
  · rw [List.getElem?_set, if_pos hjn] at hj
    split at hj
    · exact Or.inl (Option.some.inj hj).symm
    · cases hj
  · rw [List.getElem?_set_ne hjn] at hj
    refine Or.inr ⟨List.mem_iff_getElem?.mpr ⟨j, hj⟩, fun hn => hjn ?_⟩
    obtain ⟨hlt, -⟩ := List.getElem?_eq_some_iff.mp hn
    exact (List.getElem?_inj hlt hl).mp (hn.trans hj.symm)

/-- **A page fault keeps the queue distinct and decrypted.** -/
theorem mdecrypt_decrypted {s : Vm} {q : ClockQ} {r : Int} (hva : va < 2 ^ 32) (hq : QueueOk cfg p)
    (hd : Decrypted p) (h : mdecrypt cfg (p.vm m) p.q va = .ok (r, s, q)) :
    q.entries.Nodup ∧ ∀ a, a ∈ q.entries → plain (s.pd.pteAt (vpn a)) = true := by
  -- an encrypted page is not on the queue
  have hout : has (p.pgdir.pteAt (vpn va)) pteE = true → ∀ a, a ∈ p.q.entries →
      vpn a ≠ vpn va := by
    intro hE a ha hv
    rw [← hv, (plain_iff.mp (hd.plain a ha)).2.2] at hE
    cases hE
  rcases mdecrypt_ok cfg h with ⟨-, rfl, rfl, -⟩ | ⟨-, rfl, rfl, hE, -⟩ | ⟨-, hE, hU, -, hi⟩
  · exact ⟨hd.nodup, hd.plain⟩
  · refine ⟨hd.nodup, fun a ha => ?_⟩
    have e : (halfDec (p.vm m) (vpn va)).pd.pteAt (vpn a) = p.pgdir.pteAt (vpn a) := by
      have e1 : (halfDec (p.vm m) (vpn va)).pd.pteAt (vpn a) = if vpn a = vpn va then
          decEntry (p.pgdir.pteAt (vpn va)) else p.pgdir.pteAt (vpn a) :=
        PgDir.pteAt_store _ _ (PgDir.tabAt_of_mapped (mapped_of_E hE))
      rw [e1, if_neg (hout hE a ha)]
    rw [e]
    exact hd.plain a ha
  · rw [pgRoundDown_vpn hva] at hi
    have hadd : vpn (vpn va * 4096) = vpn va := vpn_page (vpn_lt va)
    have hnew : vpn va * 4096 ∉ p.q.entries := fun ha => hout hE _ ha hadd
    have hopen : ∀ a, a = vpn va * 4096 ∨ a ∈ p.q.entries →
        plain (((p.vm m).opened (vpn va)).pd.pteAt (vpn a)) = true := by
      intro a ha
      rw [opened_pteAt hE]
      rcases ha with rfl | ha
      · rw [if_pos hadd]
        exact plain_open hU
      · rw [if_neg (hout hE a ha)]
        exact hd.plain a ha
    rcases clockInsert_entries cfg hq.wf hi with ⟨-, rfl, e⟩ | ⟨-, s1, n, x, hn, e, hc, he⟩
    · rw [e]
      refine ⟨?_, fun a ha => hopen a ?_⟩
      · rw [← List.concat_eq_append]
        exact hd.nodup.concat hnew
      · rcases List.mem_append.mp ha with h1 | h1
        · exact Or.inr h1
        · exact Or.inl (List.mem_singleton.mp h1)
    · rw [e]
      refine ⟨hd.nodup.set hnew, fun a ha => ?_⟩
      have hnode : p.q.nodes n ∈ p.q.entries := Lib.mem_front.mpr ⟨n, hn, rfl⟩
      -- what stays on the queue is not the page that was encrypted
      have hstay : (a = vpn va * 4096 ∨ a ∈ p.q.entries) ∧ vpn a ≠ vpn (p.q.nodes n) := by
        rcases mem_set_nodup hd.nodup ha with rfl | ⟨h1, h2⟩
        · rw [hadd]
          exact ⟨Or.inl rfl, (hout hE _ hnode).symm⟩
        · refine ⟨Or.inr h1, fun hv => h2 ?_⟩
          obtain ⟨h3, h4⟩ := hq.low a h1
          obtain ⟨h5, h6⟩ := hq.low _ hnode
          have hsz := hq.sane.size
          rw [vpn_inj h3 h5 (by omega) (by omega) hv]
          exact Lib.getElem?_front hn
      rw [mencrypt_out he fun hin => hstay.2 ((inRange_one _ _).mp hin), hc.plain]
      exact hopen a hstay.1

/-! ## 3. The operations -/

/-- **Growing and shrinking.** -/
theorem Growproc.decrypted {n r : Int} (hq : QueueOk cfg p) (hd : Decrypted p)
    (h : Growproc m p n r m' p') : Decrypted p' := by
  -- queued pages are below the old size
  have hlow : ∀ a, a ∈ p.q.entries → vpn a < pages p.sz := fun a ha => vpn_lt_pages (hq.low a ha).2
  cases h with
  | same h0 => exact hd
  | @grown s s' x h0 hlt ha he =>
    refine ⟨hd.nodup, fun a h1 => ?_⟩
    have h2 := hlow a h1
    have hlast := pages_le hlt
    have hout : ¬ InRange (pages p.sz * 4096 / 4096) (n / (pgSize : Nat) : Int).toNat (vpn a) := by
      rintro ⟨i, hi, hv⟩
      have hle : pages p.sz + (n / (pgSize : Nat) : Int).toNat ≤ pages (p.sz + n.toNat) := by
        unfold pages pgSize
        omega
      omega
    rw [mencrypt_out he hout, show s.pd.pteAt (vpn a) = p.pgdir.pteAt (vpn a) from
      ha.pte _ (by omega)]
    exact hd.plain a h1
  | @failed s h0 hu =>
    refine ⟨hd.nodup, fun a h1 => ?_⟩
    have h2 := hlow a h1
    have e : s.pd.pteAt (vpn a) = p.pgdir.pteAt (vpn a) := by
      rcases hu with rfl | ⟨-, hu⟩
      · rfl
      · rcases hu.pte (vpn a) with h3 | ⟨h3, -, -⟩
        · exact h3
        · omega
    rw [e]
    exact hd.plain a h1
  | wrapped h0 hge =>
    refine ⟨?_, fun a h1 => hd.plain a ?_⟩
    · rw [removeFreed_filter]
      exact hd.nodup.filter _
    · rw [removeFreed_filter] at h1
      exact (List.mem_filter.mp h1).1
  | @shrunk r s h0 hlt hu =>
    refine ⟨?_, fun a h1 => ?_⟩
    · rw [removeFreed_filter]
      exact hd.nodup.filter _
    · rw [removeFreed_filter] at h1
      obtain ⟨h2, h3⟩ := List.mem_filter.mp h1
      have h4 : a < toU (p.sz + n) := by simpa using h3
      have h5 := vpn_lt_pages h4
      have e : s.pd.pteAt (vpn a) = p.pgdir.pteAt (vpn a) :=
        (hu.pte (vpn a)).trans (if_neg (by omega))
      rw [e]
      exact hd.plain a h2

theorem memStep_decrypted {fuel : Nat} {op : MemOp} {o : Out} (hop : UserOp (.mem op))
    (hok : QueueStepOk m p (.mem op)) (hq : QueueOk cfg p) (hd : Decrypted p)
    (h : memStep cfg fuel m p op = .ok (o, m', p')) : Decrypted p' := by
  cases memStep_ok cfg h with
  | read hr | write hr =>
    exact ⟨hd.nodup, fun a ha => (touch_plain (reaches_mapped hr) _).trans (hd.plain a ha)⟩
  | fault va _ _ h1 =>
    obtain ⟨r, s, q, h2, -, h3⟩ := userFault_ok cfg h1
    obtain ⟨h4, h5⟩ := mdecrypt_decrypted cfg va.isLt hq hd h2
    rcases h3 with ⟨-, -, rfl⟩ | ⟨-, -, rfl⟩ <;> exact ⟨h4, h5⟩
  | mencrypt h1 =>
    rcases sysMencrypt_ok h1 with ⟨-, rfl⟩ | ⟨s, -, -, h3, -, rfl⟩
    · exact hd
    · refine ⟨hd.nodup, fun a ha => ?_⟩
      rw [mencrypt_out h3 (hok a ha)]
      exact hd.plain a ha
  | sbrk h1 =>
    obtain ⟨r', h2⟩ := sysSbrk_ok cfg h1
    exact (growproc_ok cfg hq.sane BitVec.toInt_lt h2).decrypted cfg hq hd
  | exec _ => exact hop.elim

theorem decryptedInv : FollowInv cfg QueueStepOk (fun p => ForkOk cfg p.q)
    fun p => QueueOk cfg p ∧ Decrypted p where
  image h hp := by
    refine ⟨h.queue cfg hp.1, ?_, ?_⟩
    · rw [h.q]
      exact hp.2.nodup
    · rw [h.q, h.pgdir]
      exact hp.2.plain
  mem hop hok hp h := ⟨memStep_queue cfg (fun n hn => by subst hn; exact hok) hp.1 h,
    memStep_decrypted cfg hop hok hp.1 hp.2 h⟩
  low hp := ⟨hp.1.sane, hp.1.queueLow cfg⟩
  child hf hp hc hd hz hq := by
    refine ⟨hc.queue cfg hp.1 hf hd hz hq, ?_, fun a ha => ?_⟩
    · rw [hq, entries_copied]
      exact hp.2.nodup
    · rw [hq, entries_copied] at ha
      rw [hd, hc.plain_eq (vpn_lt_pages (hp.1.low a ha).2)]
      exact hp.2.plain a ha

/-! ## 4. Whole runs -/

/-- **The queue only holds live, distinct, decrypted pages.** From the state a successful exec
    leaves, along every run of accesses, mencrypt, sbrk and fork whose operations meet
    `QueueStepOk` (and whose forks, where the child is followed, `ForkOk`), the queued addresses
    are distinct, page aligned and below the size, and their entries have PTE_P and PTE_U and not
    PTE_E. -/
theorem queue_holds_decrypted {k0 k : Kernel} {i0 i : Nat} (h0 : ExecFresh (k0.proc i0))
    (h : Follows cfg QueueStepOk (fun p => ForkOk cfg p.q) k0 i0 k i) :
    (k.proc i).q.entries.Nodup ∧ ∀ a, a ∈ (k.proc i).q.entries →
      a % 4096 = 0 ∧ a < (k.proc i).sz ∧
      has ((k.proc i).pgdir.pteAt (vpn a)) pteP = true ∧
      has ((k.proc i).pgdir.pteAt (vpn a)) pteU = true ∧
      has ((k.proc i).pgdir.pteAt (vpn a)) pteE = false := by
  have he : (k0.proc i0).q.entries = [] := by
    unfold ClockQ.entries
    rw [h0.inClock]
    rfl
  have hinv := h.inv (decryptedInv cfg) ⟨h0.queue cfg, by rw [he]; exact List.nodup_nil,
    fun a ha => by rw [he] at ha; cases ha⟩
  refine ⟨hinv.2.nodup, fun a ha => ?_⟩
  obtain ⟨h1, h2⟩ := hinv.1.low a ha
  obtain ⟨h3, h4, h5⟩ := plain_iff.mp (hinv.2.plain a ha)
  exact ⟨h1, h2, h4, h3, h5⟩

/-- A touch of page 0, then `mencrypt` of page 1, which is not queued. -/
theorem queue_holds_decrypted_fresh : ∃ k, Follows xv6 QueueStepOk (fun p => ForkOk xv6 p.q)
    (freshKernel 2) 0 k 0 ∧ 0 ∈ (k.proc 0).q.entries ∧
    has ((k.proc 0).pgdir.pteAt (vpn 0)) pteP = true := by
  have h1 : Lib.okAnd (step xv6 0 (freshKernel 2) 0 (.mem (.read 5)))
      (fun x => (x.2.proc 0).q.entries == [0]) = true := by decide +kernel
  have h2 : Lib.okAnd (step xv6 0 (freshKernel 2) 0 (.mem (.read 5)) >>= fun x =>
      step xv6 0 x.2 0 (.mem (.mencrypt 4096 1))) (fun x =>
      (x.2.proc 0).q.entries == [0]) = true := by decide +kernel
  obtain ⟨⟨o1, k1⟩, hs1, he1⟩ := Lib.okAnd_iff.mp h1
  rw [hs1, Lib.ok_bind] at h2
  obtain ⟨⟨o2, k2⟩, hs2, he2⟩ := Lib.okAnd_iff.mp h2
  have hq1 : (k1.proc 0).q.entries = [0] := eq_of_beq he1
  have hq2 : 0 ∈ (k2.proc 0).q.entries := by
    rw [eq_of_beq he2]
    exact List.mem_singleton.mpr rfl
  have hrun : Follows xv6 QueueStepOk (fun p => ForkOk xv6 p.q) (freshKernel 2) 0 k2 0 := by
    refine .own (.own .start ?_ ?_ hs1) ?_ ?_ hs2
    · trivial
    · trivial
    · trivial
    · intro a ha
      rw [hq1, List.mem_singleton] at ha
      rw [ha]
      intro hin
      exact absurd ((inRange_one _ _).mp hin) (by decide)
  exact ⟨k2, hrun, hq2,
    ((queue_holds_decrypted xv6 (freshProc_fresh 2 (by decide)) hrun).2 0 hq2).2.2.1⟩

/-- **`mencrypt` on a decrypted page leaves it queued, and the next touch queues it twice.** -/
theorem mencrypt_queued_page : ExecFresh ((freshKernel 2).proc 0) ∧
    (∃ k, Follows xv6 (fun _ _ _ => True) (fun _ => True) (freshKernel 2) 0 k 0 ∧
      0 ∈ (k.proc 0).q.entries ∧ has ((k.proc 0).pgdir.pteAt (vpn 0)) pteE = true) ∧
    ∃ k, Follows xv6 (fun _ _ _ => True) (fun _ => True) (freshKernel 2) 0 k 0 ∧
      ¬ (k.proc 0).q.entries.Nodup := by
  have h1 : Lib.okAnd (step xv6 0 (freshKernel 2) 0 (.mem (.read 5))) (fun x =>
      Lib.okAnd (step xv6 0 x.2 0 (.mem (.mencrypt 0 1))) fun y =>
        (y.2.proc 0).q.entries == [0] && has ((y.2.proc 0).pgdir.pteAt (vpn 0)) pteE &&
        Lib.okAnd (step xv6 0 y.2 0 (.mem (.read 5))) fun z =>
          (z.2.proc 0).q.entries == [0, 0]) = true := by decide +kernel
  obtain ⟨⟨o1, k1⟩, hs1, h2⟩ := Lib.okAnd_iff.mp h1
  obtain ⟨⟨o2, k2⟩, hs2, h3⟩ := Lib.okAnd_iff.mp h2
  rw [Bool.and_eq_true, Bool.and_eq_true] at h3
  obtain ⟨⟨o3, k3⟩, hs3, h4⟩ := Lib.okAnd_iff.mp h3.2
  have hrun : Follows xv6 (fun _ _ _ => True) (fun _ => True) (freshKernel 2) 0 k2 0 := by
    refine .own (.own .start ?_ ?_ hs1) ?_ ?_ hs2 <;> trivial
  refine ⟨freshProc_fresh 2 (by decide), ⟨k2, hrun, ?_, h3.1.2⟩, k3, .own hrun ?_ ?_ hs3, ?_⟩
  · rw [eq_of_beq h3.1.1]
    exact List.mem_singleton.mpr rfl
  · trivial
  · trivial
  · rw [eq_of_beq h4]
    decide

end Xv6Clock
