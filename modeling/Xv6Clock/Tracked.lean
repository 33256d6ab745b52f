/-
  File:      Xv6Clock/Tracked.lean
  Subject:   Is every page in plain text on the clock queue?

  `mdecrypt` puts a page on the queue when it decrypts it and encrypts the page it takes off; but
  growing the process, shrinking it, forking it and the early exit of `mdecrypt` each can leave a
  plain page that is not on the queue. `TrackOk` and `ForkOk` exclude exactly these, and the
  property then holds along every run.
-/
import Xv6Clock.Follow
import Mathlib.Data.Finset.Card

namespace Xv6Clock

variable (cfg : Config)

/-! ## 1. The property and its step conditions -/

/-- **Every plain page is on the queue.** -/
def Tracked (p : Proc) : Prop :=
  ∀ u, plain (p.pgdir.pteAt u) = true → u * 4096 ∈ p.q.entries

/-- What an operation must not do: touch an encrypted page whose first stored byte is 0, grow into
    more pages than `n / PGSIZE`, or shrink so that `currInd` goes wrong. -/
def TrackOk (m : Kmem) (p : Proc) : Op → Prop
  | .mem (.read va) => has (p.pgdir.pteAt (vpn va.toNat)) pteE = true →
      m.mem (p.frameOf va.toNat) 0 ≠ 0#8
  | .mem (.write va _) => has (p.pgdir.pteAt (vpn va.toNat)) pteE = true →
      m.mem (p.frameOf va.toNat) 0 ≠ 0#8
  | .mem (.sbrk n) =>
      (0 < n.toInt → p.sz + n.toInt.toNat < kernBase →
        pages (p.sz + n.toInt.toNat) = pages p.sz + n.toInt.toNat / 4096) ∧
      (n.toInt < 0 → ShrinkOk p.q (toU (p.sz + n.toInt)))
  | _ => True

/-! ## 2. Encryption and decryption -/

variable {s : Vm} {va u : Nat} {m m' : Kmem} {p p' : Proc}

/-- After `mencrypt` only what was plain is plain; in its range only if it found a page there that
    is not mapped and encrypted nothing. -/
theorem mencrypt_plain {s' : Vm} {len x : Int} (h : mencrypt s va len = .ok (x, s'))
    (hu : plain (s'.pd.pteAt u) = true) :
    plain (s.pd.pteAt u) = true ∧ (InRange (va / 4096) len.toNat u →
      ∃ v, InRange (va / 4096) len.toNat v ∧ mapped (s.pd.pteAt v) = false) := by
  rcases mencrypt_ok h with ⟨-, rfl, v, h1, -, h3⟩ | ⟨-, he⟩
  · exact ⟨hu, fun _ => ⟨v, h1, h3⟩⟩
  · have hn : ¬ (InRange (va / 4096) len.toNat u ∧ has (s.pd.pteAt u) pteU = true ∧
        has (s.pd.pteAt u) pteE = false) := by
      rintro ⟨h1, h2, h3⟩
      rw [(he.sealed u h1 h2 h3).2, plain_seal] at hu
      cases hu
    rw [he.same u hn] at hu
    obtain ⟨h2, -, h3⟩ := plain_iff.mp hu
    exact ⟨hu, fun h1 => absurd ⟨h1, h2, h3⟩ hn⟩

/-- The page of one address is not plain after `mencrypt` on it. -/
theorem mencrypt_one_plain {s' : Vm} {x : Int} (h : mencrypt s va 1 = .ok (x, s'))
    (hu : plain (s'.pd.pteAt u) = true) : plain (s.pd.pteAt u) = true ∧ u ≠ vpn va := by
  obtain ⟨h1, h2⟩ := mencrypt_plain h hu
  refine ⟨h1, fun hv => ?_⟩
  have hin : ∀ v, InRange (va / 4096) (1 : Int).toNat v ↔ v = vpn va := inRange_one (va / 4096)
  obtain ⟨v, h3, h4⟩ := h2 ((hin u).mpr hv)
  rw [(hin v).mp h3, ← hv, mapped_of_P (plain_iff.mp h1).2.1] at h4
  cases h4

theorem mem_set_of_ne {l : List Nat} {r a b : Nat} (ha : a ∈ l) (hr : l[r]? ≠ some a) :
    a ∈ l.set r b := by
  obtain ⟨j, hj⟩ := List.mem_iff_getElem?.mp ha
  refine List.mem_iff_getElem?.mpr ⟨j, ?_⟩
  rw [List.getElem?_set_ne]
  · exact hj
  · rintro rfl
    exact hr hj

/-- The entry of a page after it was decrypted. -/
theorem opened_pteAt {v : Nat} (hE : has (s.pd.pteAt v) pteE = true) (u : Nat) :
    (s.opened v).pd.pteAt u = if u = v then openEntry (s.pd.pteAt v) else s.pd.pteAt u :=
  PgDir.pteAt_store _ _ (PgDir.tabAt_of_mapped (mapped_of_E hE))

/-- **A page fault keeps plain pages on the queue**, unless `mdecrypt` gives up half way. -/
theorem mdecrypt_tracked {q : ClockQ} {r : Int} (hva : va < 2 ^ 32) (hq : QueueOk cfg p)
    (ht : Tracked p) (hz : has (p.pgdir.pteAt (vpn va)) pteE = true → m.mem (p.frameOf va) 0 ≠ 0#8)
    (h : mdecrypt cfg (p.vm m) p.q va = .ok (r, s, q)) :
    ∀ u, plain (s.pd.pteAt u) = true → u * 4096 ∈ q.entries := by
  rcases mdecrypt_ok cfg h with ⟨-, rfl, rfl, -⟩ | ⟨-, -, -, hE, -, hb⟩ | ⟨-, hE, hU, -, hi⟩
  · exact ht
  · exact absurd hb (hz hE)
  rw [pgRoundDown_vpn hva] at hi
  -- what is plain once the page is open: that page, and what was plain before
  have hopen : ∀ u, plain (((p.vm m).opened (vpn va)).pd.pteAt u) = true →
      u = vpn va ∨ u * 4096 ∈ p.q.entries := by
    intro u hu
    rw [opened_pteAt hE] at hu
    by_cases hv : u = vpn va
    · exact Or.inl hv
    · rw [if_neg hv] at hu
      exact Or.inr (ht u hu)
  rcases clockInsert_entries cfg hq.wf hi with ⟨-, rfl, e⟩ | ⟨-, s1, n, x, hn, e, hc, he⟩
  · intro u hu
    rw [e, List.mem_append]
    rcases hopen u hu with rfl | h1
    · exact Or.inr (List.mem_singleton.mpr rfl)
    · exact Or.inl h1
  · intro u hu
    obtain ⟨h1, h2⟩ := mencrypt_one_plain he hu
    rw [hc.plain] at h1
    have hlen : n < p.q.entries.length := by
      unfold ClockQ.entries
      rw [Lib.length_front]
      exact hn
    rw [e]
    rcases hopen u h1 with rfl | h3
    · exact List.mem_set hlen _
    · refine mem_set_of_ne h3 ?_
      -- the node that goes is another page
      rw [ClockQ.entries, Lib.getElem?_front hn, ne_eq, Option.some.injEq]
      intro h4
      have hsz := hq.sane.size
      have hlow := (hq.low _ h3).2
      unfold kernBase at hsz
      rw [h4, vpn_page (by omega)] at h2
      exact h2 rfl

/-! ## 3. The operations -/

/-- The state after exec has nothing plain and an empty queue. -/
theorem ExecFresh.queue (h : ExecFresh p) : QueueOk cfg p where
  sane := h.sane
  used _ hu := h.shape.used hu
  wf := ClockWf.empty cfg h.inClock
  low a ha := by
    unfold ClockQ.entries at ha
    rw [h.inClock] at ha
    cases ha

/-- **One operation of the process keeps its queue in order.** -/
theorem memStep_queue {fuel : Nat} {op : MemOp} {o : Out}
    (hok : ∀ n, op = .sbrk n → n.toInt < 0 → ShrinkOk p.q (toU (p.sz + n.toInt)))
    (hq : QueueOk cfg p) (h : memStep cfg fuel m p op = .ok (o, m', p')) : QueueOk cfg p' := by
  rcases memStep_kind cfg hq.sane h with h1 | ⟨n, r, rfl, h1⟩ | ⟨ip, path, argv, r, -, h1⟩
  · exact h1.queue hq
  · exact h1.queue cfg hq (hok n rfl)
  · rcases h1.outcome with ⟨-, h3⟩ | ⟨-, -, -, h3⟩
    · exact h3.queue cfg
    · exact h3 hq

/-- **Growing and shrinking.** -/
theorem Growproc.tracked {n r : Int} (hq : QueueOk cfg p)
    (ht : Tracked p) (hup : 0 < n → p.sz + n.toNat < kernBase →
      pages (p.sz + n.toNat) = pages p.sz + n.toNat / 4096)
    (h : Growproc m p n r m' p') : Tracked p' := by
  cases h with
  | same h0 => exact ht
  | @grown s s' x h0 hlt ha he =>
    intro u hu
    obtain ⟨h1, h2⟩ := mencrypt_plain he hu
    have hlast := pages_le hlt
    rw [hup h0 hlt] at ha hlast
    have hlen : (n / (pgSize : Nat) : Int).toNat = n.toNat / 4096 := by
      unfold pgSize
      omega
    rw [hlen, Nat.mul_div_cancel _ (by decide)] at h2
    by_cases hu1 : pages p.sz ≤ u ∧ u < pages p.sz + n.toNat / 4096
    · -- a new page would have been encrypted, with all the others
      obtain ⟨v, ⟨i, hi, hv⟩, h4⟩ := h2 ⟨u - pages p.sz, by omega, by omega⟩
      obtain ⟨f, h5, -⟩ := ha.new v (by omega) (by omega)
      rw [h5, mapped_of_P ((has_allocEntry f (by decide)).trans (by decide))] at h4
      cases h4
    · have h3 : s.pd.pteAt u = p.pgdir.pteAt u := ha.pte u hu1
      rw [h3] at h1
      exact ht u h1
  | @failed s h0 hu =>
    intro u h1
    rcases hu with rfl | ⟨-, hu⟩
    · exact ht u h1
    · rcases hu.pte u with h2 | ⟨-, -, h2⟩
      · rw [show s.pd.pteAt u = p.pgdir.pteAt u from h2] at h1
        exact ht u h1
      · rw [h2, plain_iff, has_zero] at h1
        cases h1.1
  | wrapped h0 hge =>
    intro u hu
    rw [removeFreed_filter, List.mem_filter]
    have h1 := lt_pages.mp (hq.user_lt cfg (plain_iff.mp hu).1)
    exact ⟨ht u hu, by simp only [decide_eq_true_eq]; omega⟩
  | @shrunk r s h0 hlt hu =>
    intro u h1
    have h2 : s.pd.pteAt u = if pages (toU (p.sz + n)) ≤ u ∧ u < pages p.sz ∧
        mapped (p.pgdir.pteAt u) = true then 0#32 else p.pgdir.pteAt u := hu.pte u
    rw [h2] at h1
    split at h1
    · rw [plain_iff, has_zero] at h1
      cases h1.1
    · rename_i h3
      -- the page is below the new size, so its node stays
      obtain ⟨hU, hP, -⟩ := plain_iff.mp h1
      have h4 : u < pages (toU (p.sz + n)) := by
        by_contra hc
        exact h3 ⟨by omega, hq.user_lt cfg hU, mapped_of_P hP⟩
      rw [removeFreed_filter, List.mem_filter]
      exact ⟨ht u h1, by simpa using lt_pages.mp h4⟩

/-- **One operation of the process keeps plain pages on the queue.** -/
theorem memStep_tracked {fuel : Nat} {op : MemOp} {o : Out} (hop : UserOp (.mem op))
    (hok : TrackOk m p (.mem op)) (hq : QueueOk cfg p) (ht : Tracked p)
    (h : memStep cfg fuel m p op = .ok (o, m', p')) : Tracked p' := by
  cases memStep_ok cfg h with
  | read hr | write hr => exact fun u hu => ht u (touch_plain (reaches_mapped hr) u ▸ hu)
  | fault va hacc _ h1 =>
    have hz : has (p.pgdir.pteAt (vpn va.toNat)) pteE = true →
        m.mem (p.frameOf va.toNat) 0 ≠ 0#8 := by
      rcases hacc with rfl | ⟨b, rfl⟩ <;> exact hok
    obtain ⟨r, s, q, h2, -, ⟨-, -, rfl⟩ | ⟨-, -, rfl⟩⟩ := userFault_ok cfg h1 <;>
      exact mdecrypt_tracked cfg va.isLt hq ht hz h2
  | mencrypt h1 =>
    rcases sysMencrypt_ok h1 with ⟨-, rfl⟩ | ⟨s, -, -, h3, -, rfl⟩
    · exact ht
    · exact fun u hu => ht u (mencrypt_plain h3 hu).1
  | sbrk h1 =>
    obtain ⟨r', h2⟩ := sysSbrk_ok cfg h1
    exact (growproc_ok cfg hq.sane BitVec.toInt_lt h2).tracked cfg hq ht hok.1
  | exec _ => exact hop.elim

/-- The child of a fork has the parent's plain pages. -/
theorem Copied.plain_eq {pd d : PgDir} {n : Nat} (h : Copied m m' pd d n) (hu : u < n) :
    plain (d.pteAt u) = plain (pd.pteAt u) := by
  obtain ⟨f, h1, -⟩ := h.pte u hu
  have hm := h.src u hu
  unfold plain
  rw [h1, has_copyEntry f hm (by decide), has_copyEntry f hm (by decide),
    has_copyEntry f hm (by decide)]

theorem Copied.plain {pd d : PgDir} {n : Nat} (h : Copied m m' pd d n)
    (hu : plain (d.pteAt u) = true) : Xv6Clock.plain (pd.pteAt u) = true := by
  obtain ⟨hU, -, -⟩ := plain_iff.mp hu
  have h1 : u < n := by
    by_contra hc
    rw [h.rest u (by omega) (KernHigh.lt h.high hU), has_zero] at hU
    cases hU
  rwa [h.plain_eq h1] at hu

theorem trackInv : FollowInv cfg TrackOk (fun p => ForkOk cfg p.q)
    fun p => QueueOk cfg p ∧ Tracked p where
  image h hp := by
    refine ⟨h.queue cfg hp.1, fun u hu => ?_⟩
    rw [h.pgdir] at hu
    rw [h.q]
    exact hp.2 u hu
  mem hop hok hp h := ⟨memStep_queue cfg (fun n hn => by subst hn; exact hok.2) hp.1 h,
    memStep_tracked cfg hop hok hp.1 hp.2 h⟩
  low hp := ⟨hp.1.sane, hp.1.queueLow cfg⟩
  child hf hp hc hd hz hq := by
    refine ⟨hc.queue cfg hp.1 hf hd hz hq, fun u hu => ?_⟩
    rw [hq, entries_copied]
    rw [hd] at hu
    exact hp.2 u (hc.plain hu)

/-! ## 4. Whole runs -/

/-- **No untracked plain text.** From the state a successful exec leaves, along every run of
    accesses, mencrypt, sbrk and fork whose operations meet `TrackOk` (and whose forks, where the
    child is followed, `ForkOk`), every user page that is present and not encrypted is one of the
    addresses on the queue; so there are at most CLOCKSIZE of them. -/
theorem plain_pages_on_queue {k0 k : Kernel} {i0 i : Nat} (h0 : ExecFresh (k0.proc i0))
    (h : Follows cfg TrackOk (fun p => ForkOk cfg p.q) k0 i0 k i) :
    (∀ u, plain ((k.proc i).pgdir.pteAt u) = true → u * 4096 ∈ (k.proc i).q.entries) ∧
    ∀ S : Finset Nat, (∀ u ∈ S, plain ((k.proc i).pgdir.pteAt u) = true) →
      S.card ≤ cfg.clockSize := by
  have hinv := h.inv (trackInv cfg) ⟨h0.queue cfg, fun u hu => by
    rw [h0.sealed u] at hu
    cases hu⟩
  refine ⟨hinv.2, fun S hS => ?_⟩
  have hmap : ∀ u ∈ S, u * 4096 ∈ (k.proc i).q.entries.toFinset := fun u hu =>
    List.mem_toFinset.mpr (hinv.2 u (hS u hu))
  have hinj : Set.InjOn (fun u => u * 4096) (S : Set Nat) := fun a _ b _ hab =>
    Nat.eq_of_mul_eq_mul_right (by decide) hab
  calc S.card ≤ (k.proc i).q.entries.toFinset.card := Finset.card_le_card_of_injOn _ hmap hinj
    _ ≤ (k.proc i).q.entries.length := List.toFinset_card_le _
    _ = (k.proc i).q.inClock := Lib.length_front _ _
    _ ≤ cfg.clockSize := hinv.1.wf.le

/-- A touch of page 0 and then growth by a whole page. -/
theorem plain_pages_on_queue_fresh : ∃ k, Follows xv6 TrackOk (fun p => ForkOk xv6 p.q)
    (freshKernel 1) 0 k 0 ∧ plain ((k.proc 0).pgdir.pteAt 0) = true ∧
    0 * 4096 ∈ (k.proc 0).q.entries := by
  have h1 : Lib.okAnd (step xv6 0 (freshKernel 1) 0 (.mem (.read 5)))
      (fun x => (x.2.proc 0).sz == 4096) = true := by decide +kernel
  have h2 : Lib.okAnd (step xv6 0 (freshKernel 1) 0 (.mem (.read 5)) >>= fun x =>
      step xv6 0 x.2 0 (.mem (.sbrk 4096))) (fun x =>
      plain ((x.2.proc 0).pgdir.pteAt 0)) = true := by decide +kernel
  obtain ⟨⟨o1, k1⟩, hs1, hz⟩ := Lib.okAnd_iff.mp h1
  rw [hs1, Lib.ok_bind] at h2
  obtain ⟨⟨o2, k2⟩, hs2, hp⟩ := Lib.okAnd_iff.mp h2
  have hz1 : (k1.proc 0).sz = 4096 := by simpa using hz
  have hrun : Follows xv6 TrackOk (fun p => ForkOk xv6 p.q) (freshKernel 1) 0 k2 0 := by
    refine .own (.own .start ?_ ?_ hs1) ?_ ?_ hs2
    · trivial
    · exact fun _ => by decide
    · trivial
    · refine ⟨fun _ _ => ?_, fun hn => absurd hn (by decide)⟩
      rw [hz1]
      decide
  exact ⟨k2, hrun, hp,
    (plain_pages_on_queue xv6 (freshProc_fresh 1 (by decide)) hrun).1 0 hp⟩

/-- **`sbrk(1)` leaves a page in plain text that is not on the queue**: the size grows into a new
    page, and `growproc` encrypts `1 / PGSIZE` pages. -/
theorem sbrk_one_untracked : ExecFresh ((freshKernel 1).proc 0) ∧
    ∃ k, Follows xv6 (fun _ _ _ => True) (fun _ => True) (freshKernel 1) 0 k 0 ∧
      plain ((k.proc 0).pgdir.pteAt 1) = true ∧ 1 * 4096 ∉ (k.proc 0).q.entries := by
  have h1 : Lib.okAnd (step xv6 0 (freshKernel 1) 0 (.mem (.sbrk 1))) (fun x =>
      plain ((x.2.proc 0).pgdir.pteAt 1) && (x.2.proc 0).q.entries.all (· != 1 * 4096)) = true := by
    decide +kernel
  obtain ⟨⟨o, k⟩, hs, ht⟩ := Lib.okAnd_iff.mp h1
  rw [Bool.and_eq_true, List.all_eq_true] at ht
  refine ⟨freshProc_fresh 1 (by decide), k, .own .start ?_ ?_ hs, ht.1, fun hm => ?_⟩
  · trivial
  · trivial
  · simpa using ht.2 _ hm

end Xv6Clock
