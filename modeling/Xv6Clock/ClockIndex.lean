/-
  File:      Xv6Clock/ClockIndex.lean
  Subject:   Does `currInd` stay inside `nodes[]`?

  `currInd` is the next free place while the queue fills and the hand once it is full. Two places
  break the first reading: shrinking that removes only the last node, and fork, which adds three.
  Where neither happens (`ClockStepOk`) every process keeps its queue in order along every run of
  all processes, for every CLOCKSIZE; where one does, `mdecrypt` comes to write past the array.
-/
import Xv6Clock.Tracked

namespace Xv6Clock

variable (cfg : Config)

/-! ## 1. All processes -/

/-- What an operation must not do: shrink so that `currInd` goes wrong, fork with a part-filled
    queue, or exec with an argument of 32 MB (which can overrun into any page table). -/
def ClockStepOk (k : Kernel) (i : Nat) : Op → Prop
  | .mem (.sbrk n) => n.toInt < 0 → ShrinkOk (k.proc i).q (toU ((k.proc i).sz + n.toInt))
  | .mem (.exec _ _ argv) => ArgsShort argv
  | .fork => ForkOk cfg (k.proc i).q
  | _ => True

/-- A process with an empty queue, as boot and exec leave it. -/
structure Started (p : Proc) : Prop where
  sane : Sane p
  used : ∀ u, u < 2 ^ 19 →
    p.pgdir.pteAt u = 0#32 ∨ mapped (p.pgdir.pteAt u) = true ∧ u < pages p.sz
  empty : p.q.inClock = 0

theorem Started.queue {p : Proc} (h : Started p) : QueueOk cfg p where
  sane := h.sane
  used := h.used
  wf := ClockWf.empty cfg h.empty
  low a ha := by
    unfold ClockQ.entries at ha
    rw [h.empty] at ha
    cases ha

theorem ExecFresh.started {p : Proc} (h : ExecFresh p) : Started p :=
  ⟨h.sane, (h.queue xv6).used, h.inClock⟩

theorem queueInv : ImageInv cfg (ClockStepOk cfg) (QueueOk cfg) where
  image h hq := h.queue cfg hq
  mem hok hq h := memStep_queue cfg (fun n hn => by subst hn; exact hok) hq h
  fork hok hq hc hx hd hz hqq := by
    obtain ⟨hcop, rfl⟩ := forkNodes_low cfg hq.sane.size (hq.queueLow cfg) hc hx
    exact ⟨hq, hcop.queue cfg hq hok hd hz hqq⟩

theorem run_queue {k0 k : Kernel} (h0 : EveryProc Started k0)
    (h : Run cfg (ClockStepOk cfg) k0 k) : EveryProc (QueueOk cfg) k :=
  h.inv cfg (fun i hi => (h0 i hi).queue cfg) (fun hok => hok) fun hinv hok hs =>
    (queueInv cfg).step cfg (fun hq hm => (memStep_step cfg hq.sane hm).state) hinv hok hs

/-! ## 2. Faults -/

/-- **A fault of a process whose queue is in order**: the array is not left, a queue that fills
    gets the page at its end, and a full one trades it for one node. -/
theorem pageFault_index {m : Kmem} {p : Proc} {va : Nat} (hq : QueueOk cfg p) :
    (∀ x, pageFault cfg m p va ≠ .error (.oob x)) ∧
    ∀ m' p', pageFault cfg m p va = .ok (0, m', p') →
      (p.q.inClock < cfg.clockSize → p'.q.entries = p.q.entries ++ [pgRoundDown va]) ∧
      (p.q.inClock = cfg.clockSize →
        ∃ r, r < cfg.clockSize ∧ p'.q.entries = p.q.entries.set r (pgRoundDown va)) := by
  refine ⟨fun x h => ?_, fun m' p' h => ?_⟩
  · unfold pageFault at h
    rcases Lib.bind_eq_error.mp h with h1 | ⟨a, -, h2⟩
    · cases (mdecrypt_error cfg hq.wf h1).1
    · cases h2
  · unfold pageFault at h
    obtain ⟨⟨r, s, q⟩, h1, h2⟩ := Lib.bind_eq_ok.mp h
    cases h2
    rcases mdecrypt_ok cfg h1 with ⟨hr, -⟩ | ⟨hr, -⟩ | ⟨-, -, -, -, hi⟩
    · cases hr
    · cases hr
    · rcases clockInsert_entries cfg hq.wf hi with ⟨hlt, -, e⟩ | ⟨hfull, s1, n, x, hn, e, -⟩
      · exact ⟨fun _ => e, fun hc => absurd hc (by omega)⟩
      · exact ⟨fun hc => absurd hc (by omega), fun _ => ⟨n, by omega, e⟩⟩

/-- **The clock array is used in bounds.** Along every run of any processes, from states with empty
    queues, whose operations meet `ClockStepOk`: a part-filled queue has `currInd = inClock`; a
    fault at any address never leaves `nodes[]`; it appends to a part-filled queue and overwrites
    one node of a full one. -/
theorem clock_index_in_bounds {k0 k : Kernel} {i : Nat} (h0 : EveryProc Started k0)
    (h : Run cfg (ClockStepOk cfg) k0 k) (hi : (k.proc i).state ≠ .unused) :
    (0 < (k.proc i).q.inClock → (k.proc i).q.inClock < cfg.clockSize →
      (k.proc i).q.currInd = (k.proc i).q.inClock) ∧
    ∀ va, (∀ x, pageFault cfg k.kmem (k.proc i) va ≠ .error (.oob x)) ∧
      ∀ m p, pageFault cfg k.kmem (k.proc i) va = .ok (0, m, p) →
        ((k.proc i).q.inClock < cfg.clockSize →
          p.q.entries = (k.proc i).q.entries ++ [pgRoundDown va]) ∧
        ((k.proc i).q.inClock = cfg.clockSize → ∃ r, r < cfg.clockSize ∧
          p.q.entries = (k.proc i).q.entries.set r (pgRoundDown va)) := by
  have hq := run_queue cfg h0 h i hi
  exact ⟨hq.wf.fill, fun va => pageFault_index cfg hq⟩

/-- Operations of one process, one after the other. -/
def steps (k : Kernel) (i : Nat) : List Op → Except Err Kernel
  | [] => .ok k
  | op :: ops => do
    let (_, k) ← step cfg 0 k i op
    steps k i ops

theorem Run.of_steps {i : Nat} {ops : List Op} : ∀ {k0 k k' : Kernel},
    Run cfg (fun _ _ _ => True) k0 k → steps cfg k i ops = .ok k' →
    Run cfg (fun _ _ _ => True) k0 k' := by
  induction ops with
  | nil =>
    intro k0 k k' h hs
    cases hs
    exact h
  | cons op ops ih =>
    intro k0 k k' h hs
    obtain ⟨⟨o, k1⟩, h1, h2⟩ := Lib.bind_eq_ok.mp hs
    exact ih (.step h trivial h1) h2

theorem freshKernel_started (n : Nat) (hn : n ≤ 1024) : EveryProc Started (freshKernel n) := by
  intro i hi
  by_cases h0 : i = 0
  · rw [h0]
    exact (freshProc_fresh n hn).started
  · refine absurd ?_ hi
    simp only [freshKernel, if_neg h0]
    rfl

/-- A touch of one page. -/
theorem clock_index_in_bounds_fresh : ∃ k, Run xv6 (ClockStepOk xv6) (freshKernel 2) k ∧
    (k.proc 0).q.inClock = 1 ∧ (k.proc 0).q.currInd = 1 := by
  have h1 : Lib.okAnd (step xv6 0 (freshKernel 2) 0 (.mem (.read 5))) (fun x =>
      (x.2.proc 0).q.inClock == 1 && (x.2.proc 0).state != .unused) = true := by decide +kernel
  obtain ⟨⟨o, k⟩, hs, ht⟩ := Lib.okAnd_iff.mp h1
  rw [Bool.and_eq_true] at ht
  have hin : (k.proc 0).q.inClock = 1 := eq_of_beq ht.1
  have hrun : Run xv6 (ClockStepOk xv6) (freshKernel 2) k := by
    refine .step .start ?_ hs
    trivial
  have hc := (clock_index_in_bounds xv6 (freshKernel_started 2 (by decide)) hrun
    (by simpa using ht.2)).1 (by omega) (by rw [hin]; decide)
  exact ⟨k, hrun, hin, by rw [hc, hin]; rfl⟩

/-- Touch the first page and the last of nine, shrink by one page, touch six more. -/
def lastNodeFreed : List Op :=
  [.mem (.read 0), .mem (.read 0x8000), .mem (.sbrk (-4096)), .mem (.read 0x1000),
    .mem (.read 0x2000), .mem (.read 0x3000), .mem (.read 0x4000), .mem (.read 0x5000),
    .mem (.read 0x6000)]

/-- **Shrinking away the last node leaves `currInd` one too far**: `inClock` is 1 and `currInd` 2;
    six pages later the next fault stores to `nodes[CLOCKSIZE]`. -/
theorem shrink_breaks_currInd : EveryProc Started (freshKernel 9) ∧
    (∃ k, Run xv6 (fun _ _ _ => True) (freshKernel 9) k ∧ (k.proc 0).q.inClock = 1 ∧
      (k.proc 0).q.currInd = 2) ∧
    ∃ k, Run xv6 (fun _ _ _ => True) (freshKernel 9) k ∧
      step xv6 0 k 0 (.mem (.read 0x7000)) = .error (.oob 8) := by
  have h1 : Lib.okAnd (steps xv6 (freshKernel 9) 0 (lastNodeFreed.take 3)) (fun k =>
      (k.proc 0).q.inClock == 1 && (k.proc 0).q.currInd == 2) = true := by decide +kernel
  have h2 : Lib.okAnd (steps xv6 (freshKernel 9) 0 lastNodeFreed) (fun k =>
      match step xv6 0 k 0 (.mem (.read 0x7000)) with
      | .error e => decide (e = .oob 8)
      | .ok _ => false) = true := by decide +kernel
  obtain ⟨k1, hs1, ht1⟩ := Lib.okAnd_iff.mp h1
  obtain ⟨k2, hs2, ht2⟩ := Lib.okAnd_iff.mp h2
  rw [Bool.and_eq_true] at ht1
  refine ⟨freshKernel_started 9 (by decide), ⟨k1, .of_steps xv6 .start hs1, eq_of_beq ht1.1,
    eq_of_beq ht1.2⟩, k2, .of_steps xv6 .start hs2, ?_⟩
  split at ht2
  · rename_i e he
    rw [he, of_decide_eq_true ht2]
  · cases ht2

end Xv6Clock
