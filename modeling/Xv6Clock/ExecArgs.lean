/-
  File:      Xv6Clock/ExecArgs.lean
  Subject:   The stack that exec (exec.c) builds, and the whole image it commits.

  `copyout` that succeeds writes pages of the user only. The page below the stack has no PTE_U, so
  every string and the words of `ustack` lie in the one stack page, each below the one before
  (`Pushed`). `mencrypt` keeps the logical bytes, and the frames of the old image are others, so
  the committed image has them.
-/
import Xv6Clock.ExecContent
import Xv6Clock.Getpgtable
import Xv6Clock.LongArgument
import Xv6Clock.ForkRoom

namespace Xv6Clock

/-! ## 1. `copyout` to pages of the user -/

variable {va sp lo entry : Nat} {p' : Proc} {buf path : List Byte} {r : Int} {B : Nat → Byte}
  {args argv : List (List Byte)}

section
variable {s s' : Vm} {m m' : Kmem}

theorem copyoutLoop_ret {n : Nat} : ∀ {s s' : Vm} {va : Nat} {buf : List Byte} {r : Int},
    copyoutLoop n s va buf = .ok (r, s') → r = 0 ∨ r = -1 := by
  induction n with
  | zero =>
    intro s s' va buf r h
    cases h
    exact .inl rfl
  | succ n ih =>
    intro s s' va buf r h
    unfold copyoutLoop at h
    split at h
    · cases h
      exact .inl rfl
    · obtain ⟨o, h1, h2⟩ := Lib.bind_eq_ok.mp h
      cases o with
      | none =>
        cases h2
        exact .inr rfl
      | some f => exact ih h2

/-- **Every byte that is written belongs to the user.** -/
theorem copyoutLoop_user {n : Nat} : ∀ {s : Vm} {va : Nat} {buf : List Byte}, KernHigh s.pd →
    buf.length ≤ n → va < 2 ^ 32 → copyoutLoop n s va buf = .ok (0, s') →
    ∀ c, va ≤ c → c < va + buf.length →
      c < kernBase ∧ has (s.pd.pteAt (vpn c)) pteU = true := by
  induction n with
  | zero =>
    intro s va buf _ hn _ _ c h1 h2
    omega
  | succ n ih =>
    intro s va buf hk hn hva h c h1 h2
    unfold copyoutLoop at h
    split at h
    · omega
    obtain ⟨o, h3, h4⟩ := Lib.bind_eq_ok.mp h
    cases o with
    | none => cases h4
    | some f =>
      obtain ⟨-, hU, -⟩ := uva2ka_some h3
      rw [vpn_pgRoundDown] at hU
      have hlt := hk.lt hU
      have hb : kernBase = 2 ^ 31 := rfl
      have hvaddr : va < 2 ^ 31 := by
        unfold vpn at hlt
        omega
      by_cases hc : c / 4096 = va / 4096
      · have hv : vpn c = vpn va := by
          unfold vpn
          omega
        rw [hv]
        exact ⟨by omega, hU⟩
      · -- a later page, for the next rounds
        have hnext : addU (pgRoundDown va) pgSize = va / 4096 * 4096 + 4096 := by
          unfold addU pgRoundDown pgSize
          omega
        have hoff : va - pgRoundDown va = va % 4096 := by
          unfold pgRoundDown
          omega
        dsimp only at h4
        rw [hnext, hoff] at h4
        have hpg : pgSize = 4096 := rfl
        generalize hkn : min (pgSize - va % 4096) buf.length = k at h4
        refine ih (by exact hk) ?_ (by omega) h4 c (by omega) ?_
        · rw [List.length_drop]
          omega
        · rw [List.length_drop]
          omega

/-- `copyout` of exec that does not fail. -/
theorem copyoutUser_nonneg {cfg : Config} {fuel : Nat} {p : Proc}
    (h : copyoutUser cfg fuel s p va buf = .ok (r, s', p')) (hr : ¬r < 0) :
    copyout s va buf = .ok (0, s') ∧ p' = p := by
  unfold copyoutUser at h
  split at h
  · rename_i r1 s1 h1
    cases h
    rcases copyoutLoop_ret h1 with rfl | rfl
    · exact ⟨h1, rfl⟩
    · exact absurd (by decide) hr
  · obtain ⟨⟨w, m1, p1⟩, h1, h2⟩ := Lib.bind_eq_ok.mp h
    dsimp only at h2
    split at h2
    · cases h2
      exact absurd (by decide) hr
    · cases h2
  · cases h

/-! ## 2. The stack page -/

/-- **The image with its stack**: the last page is the stack, and of all pages only the one below
    it is not the user's. -/
structure Stacked (m : Kmem) (s : Vm) (sz : Nat) : Prop where
  image : Image m s sz
  aligned : sz % 4096 = 0
  two : 8192 ≤ sz
  user : ∀ u, u < pages sz → (has (s.pd.pteAt u) pteU = true ↔ u ≠ sz / 4096 - 2)

theorem Stacked.user_byte {sz c : Nat} (h : Stacked m s sz) (hc : c < kernBase)
    (hU : has (s.pd.pteAt (vpn c)) pteU = true) : c < sz ∧ c / 4096 ≠ sz / 4096 - 2 := by
  have hb : kernBase = 2 ^ 31 := rfl
  have hal := h.aligned
  have hv : vpn c = c / 4096 := by
    unfold vpn
    omega
  have hlt : vpn c < pages sz := by
    by_contra hge
    rw [h.image.rest (vpn c) (by omega) (by omega), has_zero] at hU
    cases hU
  have hne := (h.user (vpn c) hlt).mp hU
  rw [hv] at hlt hne
  unfold pages at hlt
  exact ⟨by omega, hne⟩

theorem Stacked.pages_eq {sz : Nat} (h : Stacked m s sz) : pages sz * 4096 = sz := by
  have := h.aligned
  unfold pages
  omega

/-- **Bytes pushed on the stack** stay in the stack page, below what was there. -/
theorem Stacked.push {sz : Nat} (h : Stacked m s sz) (hfree : ∀ f, m.free f ≤ 1)
    (hlo : sz - 4096 ≤ sp) (hhi : sp ≤ sz) (h4 : sp % 4 = 0) (hb : 0 < buf.length)
    (hc : copyout s (subU sp buf.length / 4 * 4) buf = .ok (0, s')) :
    sz - 4096 ≤ subU sp buf.length / 4 * 4 ∧ subU sp buf.length / 4 * 4 + buf.length ≤ sp ∧
      (buf.length % 4 = 0 → subU sp buf.length / 4 * 4 + buf.length = sp) ∧
      Stacked m s' sz ∧ s'.pd = s.pd ∧ ∀ c, c < sz → s'.rbyte c =
        if subU sp buf.length / 4 * 4 ≤ c ∧ c < subU sp buf.length / 4 * 4 + buf.length then
          buf.getD (c - subU sp buf.length / 4 * 4) 0
        else s.rbyte c := by
  have hkb : kernBase = 2 ^ 31 := rfl
  have hsize := h.image.size
  have hal := h.aligned
  have h2 := h.two
  have hsub : subU sp buf.length = (sp + (2 ^ 32 - buf.length % 2 ^ 32)) % 2 ^ 32 := rfl
  generalize hva : subU sp buf.length / 4 * 4 = va at *
  have hva32 : va < 2 ^ 32 := by omega
  have huser : ∀ c, va ≤ c → c < va + buf.length → c < sz ∧ c / 4096 ≠ sz / 4096 - 2 :=
    fun c h1 h3 => by
      obtain ⟨hck, hU⟩ := copyoutLoop_user h.image.high (Nat.le_refl _) hva32 hc c h1 h3
      exact h.user_byte hck hU
  -- the first and the last byte are in the image, so the subtraction has not wrapped
  have hfirst := huser va (Nat.le_refl _) (by omega)
  have hlast := huser (va + buf.length - 1) (by omega) (by omega)
  have hend : va + buf.length ≤ sp ∧ sp - 4 < va + buf.length ∧
      (buf.length % 4 = 0 → va + buf.length = sp) := by omega
  have hin : sz - 4096 ≤ va := by
    by_contra hlt
    -- the last byte is above the guard page, so the bytes would cross it
    exact (huser (sz - 4097) (by omega) (by omega)).2 (by omega)
  obtain ⟨hpd, hbytes⟩ := copyoutLoop_rbyte (h.image.holds_le hfree) (Nat.le_refl _)
    (by omega) hc
  have him := (copyoutLoop_image h.image hc).1
  refine ⟨hin, hend.1, hend.2.2, ⟨him, hal, h2, fun u hu => ?_⟩, hpd, fun c hcs => ?_⟩
  · rw [hpd]
    exact h.user u hu
  · obtain ⟨hck, -, hv⟩ := h.image.vpn_lt (h.pages_eq.symm ▸ hcs)
    exact hbytes c hck (h.image.mapped hv)

/-! ## 3. The strings -/

/-- **Strings pushed one below the other** from `sp` down to `sp'`, none below `lo`: each is
    aligned and followed by a zero byte. -/
def Pushed (B : Nat → Byte) (lo : Nat) : Nat → List (List Byte) → List Nat → Nat → Prop
  | sp, [], [], sp' => sp' = sp
  | sp, arg :: args, q :: qs, sp' =>
    (q % 4 = 0 ∧ lo ≤ q ∧ q + (arg.length + 1) ≤ sp ∧
      ∀ j, j < arg.length + 1 → B (q + j) = (arg ++ [0]).getD j 0) ∧ Pushed B lo q args qs sp'
  | _, _, _, _ => False

theorem Pushed.le : ∀ {sp sp' : Nat} {qs : List Nat}, Pushed B lo sp args qs sp' → sp' ≤ sp := by
  induction args with
  | nil =>
    intro sp sp' qs h
    cases qs with
    | nil => exact Nat.le_of_eq h
    | cons q qs => exact h.elim
  | cons arg args ih =>
    intro sp sp' qs h
    cases qs with
    | nil => exact h.elim
    | cons q qs =>
      obtain ⟨⟨-, -, h1, -⟩, h2⟩ := h
      have := ih h2
      omega

/-- Bytes below `sp` only matter. -/
theorem Pushed.congr {B' : Nat → Byte} :
    ∀ {sp sp' : Nat} {qs : List Nat}, Pushed B lo sp args qs sp' →
    (∀ c, sp' ≤ c → c < sp → B' c = B c) → Pushed B' lo sp args qs sp' := by
  induction args with
  | nil =>
    intro sp sp' qs h _
    cases qs with
    | nil => exact h
    | cons q qs => exact h.elim
  | cons arg args ih =>
    intro sp sp' qs h hb
    cases qs with
    | nil => exact h.elim
    | cons q qs =>
      obtain ⟨⟨h1, h2, h3, h4⟩, h5⟩ := h
      have hle := h5.le
      refine ⟨⟨h1, h2, h3, fun j hj => ?_⟩, ih h5 fun c hc hlt => hb c hc (by omega)⟩
      rw [hb (q + j) (by omega) (by omega)]
      exact h4 j hj

/-- The string number `i`, and the order of the strings. -/
theorem Pushed.get :
    ∀ {sp sp' : Nat} {qs : List Nat}, Pushed B lo sp args qs sp' → qs.length = args.length ∧
    (∀ i, i < args.length → qs.getD i 0 % 4 = 0 ∧ lo ≤ qs.getD i 0 ∧ sp' ≤ qs.getD i 0 ∧
      qs.getD i 0 + ((args.getD i []).length + 1) ≤ sp ∧
      ∀ j, j < (args.getD i []).length + 1 →
        B (qs.getD i 0 + j) = (args.getD i [] ++ [0]).getD j 0) ∧
    ∀ i j, i < j → j < args.length →
      qs.getD j 0 + ((args.getD j []).length + 1) ≤ qs.getD i 0 := by
  induction args with
  | nil =>
    intro sp sp' qs h
    cases qs with
    | nil => exact ⟨rfl, fun i hi => absurd hi (Nat.not_lt_zero i),
        fun i j _ hj => absurd hj (Nat.not_lt_zero j)⟩
    | cons q qs => exact h.elim
  | cons arg args ih =>
    intro sp sp' qs h
    cases qs with
    | nil => exact h.elim
    | cons q qs =>
      obtain ⟨⟨h1, h2, h3, h4⟩, h5⟩ := h
      obtain ⟨hlen, hall, hord⟩ := ih h5
      have hle := h5.le
      refine ⟨by rw [List.length_cons, List.length_cons, hlen], fun i hi => ?_,
        fun i j hij hj => ?_⟩
      · cases i with
        | zero =>
          simp only [List.getD_cons_zero]
          exact ⟨h1, h2, by omega, h3, h4⟩
        | succ i =>
          simp only [List.getD_cons_succ]
          obtain ⟨a1, a2, a3, a4, a5⟩ := hall i (by simpa using hi)
          exact ⟨a1, a2, a3, by omega, a5⟩
      · cases j with
        | zero => omega
        | succ j =>
          rw [List.length_cons] at hj
          cases i with
          | zero =>
            simp only [List.getD_cons_zero, List.getD_cons_succ]
            exact (hall j (by omega)).2.2.2.1
          | succ i =>
            simp only [List.getD_cons_succ]
            exact hord i j (by omega) (by omega)

/-- **The loop over the arguments.** -/
theorem pushArgs_pushed {cfg : Config} {fuel sz : Nat} {p : Proc} (hfree : ∀ f, m.free f ≤ 1)
    : ∀ {s : Vm} {sp sp' : Nat} {us us' : List Nat}, Stacked m s sz →
    sz - 4096 ≤ sp → sp ≤ sz → sp % 4 = 0 → us.length ≤ maxArg →
    pushArgs cfg fuel args s p sp us = .ok (some (sp', us'), s', p') →
    p' = p ∧ Stacked m s' sz ∧ s'.pd = s.pd ∧ us'.length ≤ maxArg ∧ sp' % 4 = 0 ∧
      sz - 4096 ≤ sp' ∧
      (∃ qs, us' = us ++ qs ∧ Pushed s'.rbyte (sz - 4096) sp args qs sp') ∧
      ∀ c, c < sz → c < sz - 4096 ∨ sp ≤ c → s'.rbyte c = s.rbyte c := by
  induction args with
  | nil =>
    intro s sp sp' us us' h hlo hhi h4 hus hp
    cases hp
    exact ⟨rfl, h, rfl, hus, h4, hlo, ⟨[], (List.append_nil _).symm, rfl⟩, fun _ _ _ => rfl⟩
  | cons arg args ih =>
    intro s sp sp' us us' h hlo hhi h4 hus hp
    unfold pushArgs at hp
    split at hp
    · cases hp
    rename_i hmax
    obtain ⟨⟨r, s1, p1⟩, h1, h2⟩ := Lib.bind_eq_ok.mp hp
    dsimp only at h2
    split at h2
    · cases h2
    rename_i hr
    obtain ⟨hc, rfl⟩ := copyoutUser_nonneg h1 hr
    have hlen : (arg ++ [0]).length = arg.length + 1 := List.length_append
    rw [← hlen] at hc h2
    obtain ⟨hq, hend, -, hs1, hpd, hbytes⟩ := h.push hfree hlo hhi h4 (by omega) hc
    generalize hva : subU sp (arg ++ [0]).length / 4 * 4 = q at *
    obtain ⟨rfl, hs', hpd', hus', h4', hlo', ⟨qs, rfl, hpush⟩, hkeep⟩ :=
      ih hs1 hq (by omega) (by omega) (by
        rw [List.length_append, List.length_singleton]
        omega) h2
    have hle := hpush.le
    refine ⟨rfl, hs', hpd'.trans hpd, hus', h4', hlo', ⟨q :: qs, by simp, ?_⟩,
      fun c hcs hout => ?_⟩
    · refine ⟨⟨by omega, hq, by omega, fun j hj => ?_⟩, hpush⟩
      rw [hkeep (q + j) (by omega) (.inr (by omega)), hbytes (q + j) (by omega),
        if_pos (by omega), Nat.add_sub_cancel_left]
    · rw [hkeep c hcs (by omega), hbytes c hcs, if_neg (by omega)]

/-! ## 4. The words of `ustack` -/

theorem words_getD (l : List Nat) : ∀ {k j : Nat}, k < l.length → j < 4 →
    (l.flatMap fun w => (List.range 4).map (byteOf (BitVec.ofNat 32 w))).getD (4 * k + j) 0 =
      byteOf (BitVec.ofNat 32 (l.getD k 0)) j := by
  induction l with
  | nil => exact fun hk => absurd hk (Nat.not_lt_zero _)
  | cons w l ih =>
    intro k j hk hj
    rw [List.flatMap_cons]
    have hlen : ((List.range 4).map (byteOf (BitVec.ofNat 32 w))).length = 4 := rfl
    cases k with
    | zero =>
      rw [List.getD_append _ _ _ _ (by omega), Nat.mul_zero, Nat.zero_add,
        List.getD_eq_getElem _ _ (by omega), List.getElem_map, List.getElem_range,
        List.getD_cons_zero]
    | succ k =>
      rw [List.getD_append_right _ _ _ _ (by omega), hlen,
        show 4 * (k + 1) + j - 4 = 4 * k + j by omega, List.getD_cons_succ]
      exact ih (Nat.lt_of_succ_lt_succ hk) hj

/-- The words `ws` from `va` on. -/
def WordsAt (B : Nat → Byte) (va : Nat) (ws : List Nat) : Prop :=
  ∀ k j, k < ws.length → j < 4 → B (va + (4 * k + j)) = byteOf (BitVec.ofNat 32 (ws.getD k 0)) j

/-- A word that is read. -/
theorem WordsAt.uword {ws : List Nat} (h : WordsAt (ubyte s) va ws)
    (hva : va + 4 * ws.length ≤ kernBase) {k : Nat} (hk : k < ws.length) :
    uword s (va + 4 * k) = BitVec.ofNat 32 (ws.getD k 0) := by
  have hb : kernBase = 2 ^ 31 := rfl
  unfold Xv6Clock.uword
  refine le32_byteOf fun j hj => ?_
  have haddr : addU (va + 4 * k) (0 + j) = va + (4 * k + j) := by
    unfold addU
    omega
  rw [haddr]
  exact h k j hk hj

/-! ## 5. The commit -/

/-- **The committed image**: its pages are sealed, and its logical bytes are those that were
    stored. -/
theorem execCommit_image {cfg : Config} {p : Proc} {sz : Nat} (h : Image m s sz)
    (hone : ∀ f, m.free f + p.pgdir.holds f ≤ 1)
    (hc : execCommit cfg s p path sz entry sp = .ok (r, m', p')) :
    p'.sz = sz ∧ p'.tf.esp = sp ∧ p'.q.inClock = 0 ∧
    (∀ u, u < pages sz → has (s.pd.pteAt u) pteU = true →
      p'.pgdir.pteAt u = sealEntry (s.pd.pteAt u)) ∧
    (∀ u, has (p'.pgdir.pteAt u) pteU = has (s.pd.pteAt u) pteU) ∧
    ∀ c, c < pages sz * 4096 → ubyte (p'.vm m') c = s.rbyte c := by
  unfold execCommit at hc
  obtain ⟨⟨x, s2⟩, h1, h2⟩ := Lib.bind_eq_ok.mp hc
  obtain ⟨m2, h3, h4⟩ := Lib.bind_eq_ok.mp h2
  cases h4
  have hlen : (if sz % pgSize = 0 then sz / pgSize else sz / pgSize + 1) = pages sz := by
    unfold pages pgSize
    split <;> omega
  rw [hlen] at h1
  have hle := pages_le h.size
  have hflips := mencrypt_flips h.high h1
  have hrec := Flips.recoded hflips
  have hfree : ∀ f, m.free f ≤ 1 := fun f => Nat.le_trans (Nat.le_add_right _ _) (hone f)
  refine ⟨rfl, rfl, rfl, fun u hu hU => ?_, fun u => (hrec.entry u).user, fun c hcs => ?_⟩
  · rcases mencrypt_ok h1 with ⟨-, -, v, -, hv, hn⟩ | ⟨-, henc⟩
    · have hvlt : v < pages sz := by
        by_contra hge
        rw [h.rest v (by omega) (h.high.lt hv), has_zero] at hv
        cases hv
      rw [h.mapped hvlt] at hn
      cases hn
    · exact (henc.sealed u ⟨u, by omega, by omega⟩ hU (h.low u hu).2.1).2
  · obtain ⟨-, -, hv⟩ := h.vpn_lt hcs
    -- the frame came from the free list, so it is none of the old image
    have hheld := h.holds hv
    have hold : p.pgdir.holds (pteFrame (s.pd.pteAt (vpn c))) = 0 := by
      have e1 := h.took.count (pteFrame (s.pd.pteAt (vpn c)))
      have e2 := hone (pteFrame (s.pd.pteAt (vpn c)))
      omega
    have hmem := (freevm_ok h3).2.1 _ hold
    have hlog : Vm.logical ⟨m', s2.pd⟩ (vpn c) = s2.logical (vpn c) := by
      refine Vm.logical_congr rfl rfl ?_
      rw [(hrec.entry (vpn c)).frame]
      exact hmem
    change Vm.logical ⟨m', s2.pd⟩ (vpn c) (c % pgSize) = _
    rw [hlog, hflips.logical (h.holds_le hfree) (by omega) (h.mapped hv),
      Vm.logical_plain (h.low _ hv).2.1]
    rfl

/-! ## 6. exec that succeeds -/

theorem execBad_ret {cfg : Config} {p : Proc} (h : execBad cfg s p = .ok (r, m', p')) : r = -1 := by
  unfold execBad at h
  obtain ⟨m2, -, h2⟩ := Lib.bind_eq_ok.mp h
  cases h2
  rfl

theorem execCommit_ret {cfg : Config} {p : Proc} {sz : Nat}
    (h : execCommit cfg s p path sz entry sp = .ok (r, m', p')) : r = 0 := by
  unfold execCommit at h
  obtain ⟨x, -, h2⟩ := Lib.bind_eq_ok.mp h
  obtain ⟨m2, -, h4⟩ := Lib.bind_eq_ok.mp h2
  cases h4
  rfl

/-- The steps of exec from the stack on. -/
theorem execStack_zero {cfg : Config} {fuel sz : Nat} {p : Proc}
    (h : execStack cfg fuel s p path argv sz entry = .ok (0, m', p')) :
    ∃ sz1 s1 s2 sp us s3 p3 r s4 p4,
      allocuvm cfg s (pgRoundUp sz) (addU (pgRoundUp sz) (2 * pgSize)) = .ok (sz1, s1) ∧
      sz1 ≠ 0 ∧ clearpteu s1 (subU sz1 (2 * pgSize)) = .ok s2 ∧
      pushArgs cfg fuel argv s2 p sz1 [] = .ok (some (sp, us), s3, p3) ∧
      copyoutUser cfg fuel s3 p3 (subU sp (ustackBytes sp us).length) (ustackBytes sp us) =
        .ok (r, s4, p4) ∧ ¬r < 0 ∧
      execCommit cfg s4 p4 path sz1 entry (subU sp (ustackBytes sp us).length) =
        .ok (0, m', p') := by
  unfold execStack at h
  obtain ⟨⟨sz1, s1⟩, h1, h2⟩ := Lib.bind_eq_ok.mp h
  dsimp only at h2
  split at h2
  · exact absurd (execBad_ret h2) (by decide)
  · rename_i h0
    obtain ⟨s2, h3, h4⟩ := Lib.bind_eq_ok.mp h2
    obtain ⟨⟨o, s3, p3⟩, h5, h6⟩ := Lib.bind_eq_ok.mp h4
    cases o with
    | none => exact absurd (execBad_ret h6) (by decide)
    | some x =>
      obtain ⟨sp, us⟩ := x
      obtain ⟨⟨r, s4, p4⟩, h7, h8⟩ := Lib.bind_eq_ok.mp h6
      dsimp only at h8
      split at h8
      · exact absurd (execBad_ret h8) (by decide)
      · rename_i hr
        exact ⟨sz1, s1, s2, sp, us, s3, p3, r, s4, p4, h1, h0, h3, h5, h7, hr, h8⟩

/-- **The steps of exec that returns 0.** -/
theorem exec_zero {cfg : Config} {fuel : Nat} {p : Proc} {ip : Inode}
    (h : exec cfg fuel m p (some ip) path argv = .ok (0, m', p')) :
    ∃ s sz sp us s1 p1 r s2 p2 entry, Built cfg m ip s sz ∧
      pushArgs cfg fuel argv s p sz [] = .ok (some (sp, us), s1, p1) ∧
      copyoutUser cfg fuel s1 p1 (subU sp (ustackBytes sp us).length) (ustackBytes sp us) =
        .ok (r, s2, p2) ∧ ¬r < 0 ∧
      execCommit cfg s2 p2 path sz entry (subU sp (ustackBytes sp us).length) =
        .ok (0, m', p') := by
  unfold exec at h
  dsimp only at h
  split at h
  · cases h
  rename_i elf helf
  split at h
  · cases h
  rename_i hlen
  split at h
  · cases h
  · rename_i hmagic
    obtain ⟨⟨o, m1⟩, h1, h2⟩ := Lib.bind_eq_ok.mp h
    cases o with
    | none => cases h2
    | some pd =>
      obtain ⟨⟨b, s1, sz⟩, h3, h4⟩ := Lib.bind_eq_ok.mp h2
      cases b with
      | false => exact absurd (execBad_ret h4) (by decide)
      | true =>
        obtain ⟨sz1, s2, s3, sp, us, s4, p4, r, s5, p5, hal, h0, hcl, hrest⟩ :=
          execStack_zero h4
        exact ⟨s3, sz1, sp, us, s4, p4, r, s5, p5, field32 elf 24,
          .intro helf (by omega) (by omega) h1 h3 hal h0 hcl, hrest⟩

/-- The two pages of the stack: all bytes of the image stay, and the page below the stack page
    loses PTE_U. -/
theorem stack_ready {cfg : Config} {s1 s2 : Vm} {sz sz1 : Nat} (h : Image m s sz)
    (hfree : ∀ f, m.free f ≤ 1) (hU : ∀ u, u < pages sz → has (s.pd.pteAt u) pteU = true)
    (ha : allocuvm cfg s (pgRoundUp sz) (addU (pgRoundUp sz) (2 * pgSize)) = .ok (sz1, s1))
    (h0 : sz1 ≠ 0) (hc : clearpteu s1 (subU sz1 (2 * pgSize)) = .ok s2) :
    sz1 = pages sz * 4096 + 8192 ∧ Grew s s1 sz sz1 ∧ Stacked m s2 sz1 ∧
      ∀ c, c < sz1 → s2.rbyte c = s1.rbyte c := by
  have hk := h.size
  have hkb : kernBase = 2 ^ 31 := rfl
  have hle := pages_le hk
  have hr : pgRoundUp sz = pages sz * 4096 := pgRoundUp_pages (Nat.le_of_lt hk)
  have hnew : addU (pgRoundUp sz) (2 * pgSize) = pages sz * 4096 + 8192 := by
    unfold addU pgSize
    rw [hr]
    omega
  rw [hnew, hr] at ha
  have hcover : sz ≤ pages sz * 4096 ∧ pages (pages sz * 4096) = pages sz := by
    unfold pages
    omega
  obtain ⟨-, -, him, hg⟩ := h.allocuvm_grew hfree (by omega) hcover.1 hcover.2
    (.inr (Nat.le_add_right _ _)) ha h0
  obtain rfl : sz1 = pages sz * 4096 + 8192 := by
    rcases allocuvm_ok (by omega) ha with ⟨-, -, e, -⟩ | ⟨-, hlt, -, -⟩ | ⟨-, e, -⟩ | ⟨-, -, e, -⟩
    · exact e
    · omega
    · exact absurd e h0
    · exact absurd e h0
  generalize hszeq : pages sz * 4096 + 8192 = sz1 at *
  have hpages : pages sz1 = pages sz + 2 := by
    unfold pages at hszeq ⊢
    omega
  have hguard : vpn (subU sz1 (2 * pgSize)) = pages sz := by
    have := him.size
    unfold vpn subU pgSize
    omega
  have him2 := clearpteu_image him (by omega) hc
  unfold clearpteu at hc
  split at hc
  · cases hc
  rename_i pte hw
  obtain ⟨rfl, ht⟩ := PgDir.walk_some hw
  rw [hguard] at hc ht
  cases hc
  have hpte : ∀ u, (s1.mark (pages sz) (s1.pd.pteAt (pages sz) &&& ~~~pteU)).pd.pteAt u =
      if u = pages sz then s1.pd.pteAt (pages sz) &&& ~~~pteU else s1.pd.pteAt u :=
    fun u => PgDir.pteAt_store _ _ ht
  refine ⟨rfl, hg, ⟨him2, by omega, by omega, fun u hu => ?_⟩, fun c _ => ?_⟩
  · rw [hpte u, show sz1 / 4096 - 2 = pages sz by omega]
    by_cases he : u = pages sz
    · rw [if_pos he, has_clear_self]
      exact ⟨fun hf => absurd hf (by decide), fun hne => absurd he hne⟩
    · rw [if_neg he]
      refine ⟨fun _ => he, fun _ => ?_⟩
      by_cases hlt : u < pages sz
      · rw [hg.pte u hlt]
        exact hU u hlt
      · exact hg.user u (by omega) hu
  · unfold Vm.rbyte
    rw [hpte (vpn c)]
    split
    · rename_i he
      rw [pteFrame_clear _ (by decide), he]
      rfl
    · rfl

/-- The loadable segments of an ELF file. -/
def elfSegments (data : Nat → Byte) : List Seg :=
  segments data (field16 ((List.range elfhdrSize).map data) 44)
    (field32 ((List.range elfhdrSize).map data) 28)

/-- **What `main` is called with**: at `esp` a return address, the number of strings, and the
    address of the array of their addresses, which ends with 0 and is followed by the strings. All
    of it is in the stack page, from `lo` to `hi`; the strings are aligned, each ends with a zero
    byte, and no two of them overlap. -/
def ArgsAt (s : Vm) (lo hi esp : Nat) (argv : List (List Byte)) : Prop :=
  ∃ ptrs : List Nat, ptrs.length = argv.length ∧ lo ≤ esp ∧
    uword s esp = 0xffffffff#32 ∧ uword s (esp + 4) = BitVec.ofNat 32 argv.length ∧
    uword s (esp + 8) = BitVec.ofNat 32 (esp + 12) ∧
    (∀ i, i < argv.length → uword s (esp + 12 + 4 * i) = BitVec.ofNat 32 (ptrs.getD i 0)) ∧
    uword s (esp + 12 + 4 * argv.length) = 0#32 ∧
    (∀ i, i < argv.length → ptrs.getD i 0 % 4 = 0 ∧
      esp + 12 + 4 * (argv.length + 1) ≤ ptrs.getD i 0 ∧
      ptrs.getD i 0 + ((argv.getD i []).length + 1) ≤ hi ∧
      ∀ j, j < (argv.getD i []).length + 1 →
        ubyte s (ptrs.getD i 0 + j) = (argv.getD i [] ++ [0]).getD j 0) ∧
    ∀ i j, i < j → j < argv.length →
      ptrs.getD j 0 + ((argv.getD j []).length + 1) ≤ ptrs.getD i 0

/-- **The image when exec comes to the arguments**, if no page belongs to two segments. -/
theorem built_loaded {cfg : Config} {size sz : Nat} {data : Nat → Byte}
    (hfree : ∀ f, m.free f ≤ 1) (hapart : (elfSegments data).Pairwise Seg.Apart)
    (h : Built cfg m (.file size data) s sz) :
    Stacked m s sz ∧ ∀ g ∈ elfSegments data, g.vaddr + g.memsz ≤ sz - 8192 ∧
      ∀ i, i < g.memsz → s.rbyte (g.vaddr + i) = g.byte data i := by
  obtain ⟨hr, hlen, -, hkvm, hload, hal, h0, hcl⟩ := h
  rename_i elf pd m1 s1 s2 sz0
  have hhdr : elf = (List.range elfhdrSize).map data := by
    have h1 := (readi_full (by decide) (by decide) hr hlen).2
    simpa using h1
  rw [hhdr] at hload
  have hstart : Image m ⟨m1, pd⟩ 0 := by
    rcases setupkvm_ok cfg hkvm with ⟨e, -⟩ | ⟨d, e, hd, ht⟩
    · cases e
    · cases e
      exact hd.image ht
  have hz : pages 0 = 0 := by decide
  have hnone : Loaded data [] ⟨m1, pd⟩ 0 :=
    ⟨fun g hg => absurd hg List.not_mem_nil, fun g hg => absurd hg List.not_mem_nil,
      fun c hc => by omega⟩
  obtain ⟨him, hU, hld⟩ := execLoad_loaded hfree hstart (fun u hu => by omega) hnone
    (BitVec.isLt _) hapart hload
  rw [List.nil_append] at hld
  obtain ⟨hsz, hg, hst, hkeep⟩ := stack_ready him hfree hU hal h0 hcl
  refine ⟨hst, fun g hgm => ?_⟩
  have hfit := (hld.fits g hgm).2.2
  have hcover : sz0 ≤ pages sz0 * 4096 := by
    unfold pages
    omega
  refine ⟨by omega, fun i hi => ?_⟩
  rw [hkeep _ (by omega), hg.old _ (by omega)]
  exact hld.bytes g hgm i hi

/-- The words and strings, as stored before the commit. -/
theorem argsAt_stored {s4 : Vm} {hi esp : Nat} {qs : List Nat} (hhi : hi < kernBase)
    (hub : ∀ c, c < hi → ubyte s c = s4.rbyte c) (hpush : Pushed s4.rbyte lo hi argv qs sp)
    (hlo : lo ≤ esp) (hesp : esp + 4 * (qs.length + 4) = sp)
    (hwords : ∀ j, j < 4 * (qs.length + 4) → s4.rbyte (esp + j) = (ustackBytes sp qs).getD j 0) :
    ArgsAt s lo hi esp argv := by
  have hkb : kernBase = 2 ^ 31 := rfl
  obtain ⟨hlen, hstr, hord⟩ := hpush.get
  have hle := hpush.le
  have hav : subU sp ((qs.length + 1) * 4) = esp + 12 := by
    unfold subU
    omega
  have hwl : ([0xffffffff, qs.length, subU sp ((qs.length + 1) * 4)] ++ qs ++ [0]).length =
      qs.length + 4 := by simp
  have hws : WordsAt (ubyte s) esp
      ([0xffffffff, qs.length, subU sp ((qs.length + 1) * 4)] ++ qs ++ [0]) := fun k j hk hj => by
    rw [hub _ (by omega), hwords _ (by omega)]
    exact words_getD _ hk hj
  have hword := fun {k : Nat} hk => hws.uword (k := k) (by omega) hk
  have hget : ∀ i, i < qs.length →
      ([0xffffffff, qs.length, subU sp ((qs.length + 1) * 4)] ++ qs ++ [0]).getD (3 + i) 0 =
        qs.getD i 0 := fun i hi => by
    rw [List.getD_append _ _ _ _ (by simp; omega), List.getD_append_right _ _ _ _ (by simp)]
    simp
  have hzero : ([0xffffffff, qs.length, subU sp ((qs.length + 1) * 4)] ++ qs ++ [0]).getD
      (3 + qs.length) 0 = 0 := by
    rw [List.getD_append_right _ _ _ _ (by simp; omega)]
    simp
  refine ⟨qs, hlen, hlo, hword (k := 0) (by omega), ?_, ?_, fun i hi => ?_, ?_, fun i hi => ?_,
    hord⟩
  · rw [← hlen]
    exact hword (k := 1) (by omega)
  · rw [← hav]
    exact hword (k := 2) (by omega)
  · have h := hword (k := 3 + i) (by omega)
    rw [hget i (by omega), show esp + 4 * (3 + i) = esp + 12 + 4 * i by omega] at h
    exact h
  · have h := hword (k := 3 + qs.length) (by omega)
    rw [hzero, show esp + 4 * (3 + qs.length) = esp + 12 + 4 * qs.length by omega, hlen] at h
    exact h
  · obtain ⟨a1, -, a3, a4, a5⟩ := hstr i hi
    refine ⟨a1, by omega, a4, fun j hj => ?_⟩
    rw [hub _ (by omega)]
    exact a5 j hj

/-- **The image of a successful exec.** If no page belongs to two loadable segments of the file,
    then in the new address space every page is encrypted, not present and the user's, except the
    guard page below the stack, which is not the user's; the clock queue is empty; each segment
    has its bytes of the file and then zeros; and the stack has the arguments. -/
theorem exec_image {cfg : Config} {fuel size : Nat} {p p' : Proc} {data : Nat → Byte}
    {path : List Byte} {argv : List (List Byte)} (hone : ∀ f, m.free f + p.pgdir.holds f ≤ 1)
    (hapart : (elfSegments data).Pairwise Seg.Apart)
    (h : exec cfg fuel m p (some (.file size data)) path argv = .ok (0, m', p')) :
    p'.sz % 4096 = 0 ∧ 8192 ≤ p'.sz ∧ p'.q.inClock = 0 ∧
    (∀ u, u < pages p'.sz → u ≠ p'.sz / 4096 - 2 → has (p'.pgdir.pteAt u) pteE = true ∧
      has (p'.pgdir.pteAt u) pteU = true ∧ has (p'.pgdir.pteAt u) pteP = false) ∧
    has (p'.pgdir.pteAt (p'.sz / 4096 - 2)) pteU = false ∧
    (∀ g ∈ elfSegments data, g.vaddr + g.memsz ≤ p'.sz - 8192 ∧
      ∀ i, i < g.memsz → ubyte (p'.vm m') (g.vaddr + i) = g.byte data i) ∧
    ArgsAt (p'.vm m') (p'.sz - 4096) p'.sz p'.tf.esp argv := by
  have hfree : ∀ f, m.free f ≤ 1 := fun f => Nat.le_trans (Nat.le_add_right _ _) (hone f)
  obtain ⟨s, sz, sp, us, s1, p1, r, s2, p2, entry, hb, hargs, hcopy, hr, hcommit⟩ := exec_zero h
  obtain ⟨hst, hsegs⟩ := built_loaded hfree hapart hb
  -- the strings, and the words below them
  have hal := hst.aligned
  obtain ⟨rfl, hst1, -, hus, h4, hlo, ⟨qs, hqs, hpush⟩, hkeep⟩ := pushArgs_pushed hfree hst
    (Nat.sub_le _ _) (Nat.le_refl _) (by omega) (Nat.zero_le _) hargs
  obtain rfl : us = qs := hqs
  obtain ⟨hcopy', rfl⟩ := copyoutUser_nonneg hcopy hr
  have hul := ustackBytes_length sp us
  have halign : subU sp (ustackBytes sp us).length =
      subU sp (ustackBytes sp us).length / 4 * 4 := by
    unfold subU
    omega
  rw [halign] at hcopy' hcommit
  have hsp := hpush.le
  obtain ⟨hlo2, -, hexact, hst2, -, hbytes⟩ := hst1.push hfree hlo hsp h4 (by omega) hcopy'
  generalize subU sp (ustackBytes sp us).length / 4 * 4 = esp at *
  have hexact := hexact (by omega)
  -- the commit
  obtain ⟨hsz', hesp', hq', hseal, huser, hub⟩ := execCommit_image hst2.image hone hcommit
  have hpages := hst2.pages_eq
  rw [hpages] at hub
  have h8 := hst2.two
  rw [hsz', hesp']
  refine ⟨hal, h8, hq', fun u hu hne => ?_, ?_, fun g hgm => ⟨(hsegs g hgm).1, fun i hi => ?_⟩, ?_⟩
  · have hU := (hst2.user u hu).mpr hne
    rw [hseal u hu hU]
    unfold sealEntry
    rw [has_enc_E, has_enc_P, has_enc_U, has_clearRef _ (by decide), has_setRef_U]
    exact ⟨rfl, hU, rfl⟩
  · have hguard := hst2.user (sz / 4096 - 2) (by omega)
    rw [huser, ← Bool.not_eq_true]
    exact fun hU => hguard.mp hU rfl
  · -- the strings and words are above the segments
    obtain ⟨hfit, hseg⟩ := hsegs g hgm
    rw [hub _ (by omega), hbytes _ (by omega), if_neg (by omega), hkeep _ (by omega) (by omega)]
    exact hseg i hi
  · have hpush2 : Pushed s2.rbyte (sz - 4096) sz argv us sp := by
      refine hpush.congr fun c h1 h2 => ?_
      rw [hbytes c h2, if_neg (by omega)]
    refine argsAt_stored hst2.image.size hub hpush2 hlo2 (by omega) fun j hj => ?_
    rw [hbytes _ (by omega), if_pos (by omega), Nat.add_sub_cancel_left]

/-! ## 6. Arguments that fit -/

/-- `copyout` of bytes that fit into a page of the user. -/
theorem copyout_page (va : Nat) (buf : List Byte) (hm : mapped (s.pd.pteAt (vpn va)) = true)
    (hU : has (s.pd.pteAt (vpn va)) pteU = true) (hfit : va % pgSize + buf.length ≤ pgSize) :
    ∃ s', copyout s va buf = .ok (0, s') := by
  unfold copyout
  cases hn : buf.length with
  | zero => exact ⟨s, rfl⟩
  | succ n =>
    have htab : s.pd.tabAt (vpn (pgRoundDown va)) = true := by
      rw [vpn_pgRoundDown]
      exact PgDir.tabAt_of_mapped hm
    have hoff : va - pgRoundDown va = va % pgSize := by
      unfold pgRoundDown pgSize
      omega
    unfold copyoutLoop
    rw [if_neg (by omega)]
    simp only [uva2ka_tab htab, vpn_pgRoundDown, hm, hU, Bool.and_self, if_true, Lib.ok_bind, hoff]
    rw [Nat.min_eq_right (by omega), List.drop_length]
    cases n with
    | zero => exact ⟨_, rfl⟩
    | succ n => exact ⟨_, rfl⟩

section
variable {cfg : Config} {fuel sz : Nat} {p : Proc}

/-- Bytes in the stack page. -/
theorem Stacked.copy (cfg : Config) (fuel : Nat) (p : Proc) (h : Stacked m s sz)
    (hlo : sz - 4096 ≤ va) (hpos : 0 < buf.length) (hhi : va + buf.length ≤ sz) :
    ∃ s', copyoutUser cfg fuel s p va buf = .ok (0, s', p) ∧ Stacked m s' sz := by
  have hal := h.aligned
  have h8 := h.two
  have hk := h.image.size
  unfold kernBase at hk
  have hv : vpn va = sz / 4096 - 1 := by
    unfold vpn
    omega
  have hlt : vpn va < pages sz := by
    unfold pages
    omega
  obtain ⟨s', hs⟩ := copyout_page (s := s) va buf (h.image.mapped hlt)
    ((h.user _ hlt).mpr (by omega)) (by unfold pgSize; omega)
  obtain ⟨him, hpd⟩ := copyoutLoop_image h.image hs
  refine ⟨s', ?_, him, hal, h8, hpd ▸ h.user⟩
  unfold copyoutUser
  rw [hs]

/-- **Strings that fit into the stack page are pushed.** -/
theorem pushArgs_fits (cfg : Config) (fuel : Nat) (p : Proc) :
    ∀ {s : Vm} {sp : Nat} {us : List Nat}, Stacked m s sz → sp ≤ sz →
    sz - 4096 + (args.map (·.length + 4)).sum ≤ sp →
    us.length + args.length ≤ maxArg →
    ∃ sp' us' s', pushArgs cfg fuel args s p sp us = .ok (some (sp', us'), s', p) ∧
      Stacked m s' sz ∧ sp ≤ sp' + (args.map (·.length + 4)).sum ∧ sp' ≤ sp ∧
      us'.length = us.length + args.length := by
  induction args with
  | nil =>
    exact fun {s sp us} h _ _ _ => ⟨sp, us, s, rfl, h, Nat.le_add_right _ _, Nat.le_refl _, rfl⟩
  | cons arg args ih =>
    intro s sp us h hsp hfit hn
    have hk := h.image.size
    unfold kernBase at hk
    rw [List.map_cons, List.sum_cons] at hfit
    rw [List.length_cons] at hn
    obtain ⟨sp1, hsp1⟩ : ∃ sp1, sp1 = subU sp (arg.length + 1) / 4 * 4 := ⟨_, rfl⟩
    have hle : sp1 + (arg.length + 1) ≤ sp ∧ sp ≤ sp1 + (arg.length + 4) := by
      rw [hsp1]
      unfold subU
      omega
    have hlen : (arg ++ [0]).length = arg.length + 1 := by simp
    obtain ⟨s1, hc, h1⟩ := h.copy cfg fuel p (show sz - 4096 ≤ sp1 by omega)
      (show 0 < (arg ++ [0]).length by omega) (by omega)
    obtain ⟨sp', us', s', hrest, h2, h3, h4, h5⟩ := ih h1 (show sp1 ≤ sz by omega) (by omega)
      (show (us ++ [sp1]).length + args.length ≤ maxArg by simp; omega)
    refine ⟨sp', us', s', ?_, h2, ?_, by omega, ?_⟩
    · unfold pushArgs
      rw [if_neg (by omega)]
      simp only [← hsp1, hc, Lib.ok_bind, Int.lt_irrefl, if_false, hrest]
    · rw [List.map_cons, List.sum_cons]
      omega
    · rw [h5, List.length_append, List.length_singleton, List.length_cons]
      omega

/-- **exec succeeds** if the image can be built and the arguments fit into the stack page. -/
theorem exec_fits (fuel : Nat) (path : List Byte) {ip : Inode} (hm : AllManaged cfg m p.pgdir)
    (hb : Built cfg m ip s sz) (hst : Stacked m s sz) (hn : argv.length ≤ maxArg)
    (hfit : (argv.map (·.length + 4)).sum + 4 * (argv.length + 4) ≤ 4096) :
    ∃ m' p', exec cfg fuel m p (some ip) path argv = .ok (0, m', p') := by
  have hk := hst.image.size
  have h8 := hst.two
  unfold kernBase at hk
  obtain ⟨sp, us, s1, hpush, hst1, hle, hsp, hus⟩ := pushArgs_fits cfg fuel p hst (Nat.le_refl sz)
    (show sz - 4096 + (argv.map (·.length + 4)).sum ≤ sz by omega)
    (show ([] : List Nat).length + argv.length ≤ maxArg by simpa using hn)
  rw [List.length_nil, Nat.zero_add] at hus
  have hul := ustackBytes_length sp us
  have hva : subU sp (ustackBytes sp us).length + (ustackBytes sp us).length = sp := by
    unfold subU
    omega
  obtain ⟨s2, hcopy, hst2⟩ := hst1.copy cfg fuel p
    (show sz - 4096 ≤ subU sp (ustackBytes sp us).length by omega)
    (show 0 < (ustackBytes sp us).length by omega) (by omega)
  obtain ⟨hr, hlen, hmagic, hkv, hl, ha, h0, hc⟩ := hb
  rename_i elf pd m1 sa sb sz0
  obtain ⟨⟨r, m', p'⟩, hcommit⟩ := execCommit_total path (field32 elf 24)
    (subU sp (ustackBytes sp us).length) hst2.image hm
  obtain rfl := execCommit_ret hcommit
  refine ⟨m', p', ?_⟩
  simp only [exec, hr, hlen, hmagic, ne_eq, not_true_eq_false, if_false, hkv, hl, Lib.ok_bind,
    Bool.not_true, Bool.false_eq_true, execStack, ha, h0, hc, hpush, hcopy, Int.lt_irrefl, hcommit]

end

/-! ## 7. A file with a segment -/

/-- A program header behind the ELF header: a segment at address 0, whose first 16 of 32 bytes are
    the first of the file. -/
def segData (i : Nat) : Byte :=
  (([(0, 0x7F), (1, 0x45), (2, 0x4C), (3, 0x46), (28, 52), (44, 1), (52, 1), (68, 16), (72, 32)] :
    List (Nat × Byte)).lookup i).getD 0

def segFile : Inode := .file 84 segData

theorem roomyKmem_fresh (n : Nat) (f : Frame) :
    roomyKmem.free f + (freshProc n).pgdir.holds f ≤ 1 := by
  have hn : roomyKmem.freelist.Nodup := by decide +kernel
  have hf : (roomyKmem.freelist.all fun g => decide (0x3400 ≤ g.toNat)) = true := by decide +kernel
  exact freshDir_one hn (fun g hg => of_decide_eq_true (List.all_eq_true.mp hf g hg)) f

theorem roomyKmem_managed (n : Nat) : AllManaged xv6 roomyKmem (freshProc n).pgdir := by
  have hall : (roomyKmem.freelist.all fun f => decide (managed xv6 f)) = true := by decide +kernel
  intro f hf
  by_cases hfree : 0 < roomyKmem.free f
  · exact of_decide_eq_true (List.all_eq_true.mp hall f (List.count_pos_iff.mp hfree))
  · have hfr := freshDir_frame (n := n) (f := f)
      (by change 1 ≤ _ + (freshDir n).holds f at hf; omega)
    change 0x11a ≤ f.toNat ∧ f.toNat < 0xe000
    omega

/-- The segment is loaded, and the stack is above it. -/
theorem built_segFile : ∃ s, Built xv6 roomyKmem segFile s 12288 := by
  have hm := roomyKmem_managed 2
  obtain ⟨d, m1, h1, hd, ht, h2⟩ := setupkvm_room xv6 (m := roomyKmem) (by decide)
  have h100 : roomyKmem.freelist.length = 100 := by decide
  have hp : pages 32 = 1 := by decide
  have hp0 : pages 0 = 0 := by decide
  have hab := absent_le 1 d
  have him := hd.image ht
  obtain ⟨s1, ha, hroom⟩ := allocuvm_room xv6 (D := fun x => decide (x < 1)) (s := ⟨m1, d⟩) 0 32
    (by decide) (by decide) (him.frames hm)
    (fun u h3 h4 => by rw [him.rest u h3 (by omega), mapped_zero])
    (fun u _ h4 => decide_eq_true (by omega)) (by simp only [hp, hp0]; omega)
  have him1 : Image roomyKmem s1 32 :=
    ((him.allocuvm xv6 ha).resolve_left fun hc => by cases hc.1).2.2
  have hw : s1.pd.walk (addU 0 0) = some 0 :=
    PgDir.walk_of_tabAt (PgDir.tabAt_of_mapped (mapped_of_P (him1.low 0 (by omega)).1))
  -- one round copies the first 16 bytes of the file
  have hload : ∃ m2 : Kmem, m2.freelist = s1.m.freelist ∧
      loaduvm segFile 2 s1 0 0 16 = .ok (true, 3, m2) := by
    obtain ⟨f, hf⟩ : ∃ f, f = pteFrame (s1.pd.pteAt 0) := ⟨_, rfl⟩
    refine ⟨s1.m.setPage f (overlay (s1.m.mem f) 0 ((List.range 16).map fun i => segData (0 + i))),
      rfl, ?_⟩
    rw [hf]
    unfold loaduvm
    rw [if_neg (by decide)]
    change loaduvmLoop segFile 0 0 16 1 2 s1 0 = _
    unfold loaduvmLoop
    rw [if_neg (by decide), hw]
    rfl
  obtain ⟨m2, hlist, hload⟩ := hload
  have hexec : execLoad xv6 segFile 1 ⟨m1, d⟩ 0 52 1 = .ok (true, ⟨m2, s1.pd⟩, 32) := by
    obtain ⟨ph, hdef⟩ : ∃ ph, ph = (List.range 32).map fun i => segData (52 + i) := ⟨_, rfl⟩
    have hph : readi segFile 1 52 proghdrSize = some ph := by rw [hdef]; rfl
    have hlen : ph.length = proghdrSize := by rw [hdef]; rfl
    have htype : field32 ph 0 = 1 := by rw [hdef]; decide +kernel
    have hoff : field32 ph 4 = 0 := by rw [hdef]; decide +kernel
    have hva : field32 ph 8 = 0 := by rw [hdef]; decide +kernel
    have hfsz : field32 ph 16 = 16 := by rw [hdef]; decide +kernel
    have hmsz : field32 ph 20 = 32 := by rw [hdef]; decide +kernel
    have hend : addU 0 32 = 32 := by decide
    unfold execLoad
    simp only [hph, hlen, htype, hoff, hva, hfsz, hmsz, hend, ne_eq, not_true_eq_false, if_false,
      Nat.not_lt_zero, ha, hload, Lib.ok_bind, Nat.zero_mod, Bool.not_true, Bool.false_eq_true,
      show ¬ 32 < 16 by decide, show ¬ 32 = 0 by decide]
    rfl
  have hr : readi segFile 0 0 elfhdrSize =
      some ((List.range 52).map fun i => segData (0 + i)) := rfl
  refine built_room hm hr rfl (by decide +kernel) h1 (by decide +kernel) (by decide +kernel) hexec
    (by decide) ?_
  simp only [hp, hp0] at hroom
  dsimp only
  rw [hlist]
  omega

/-- **exec of a file with a segment and with two arguments**, by a process of two pages. -/
theorem exec_image_segFile : ∃ m' p', exec xv6 0 roomyKmem (freshProc 2) (some segFile) []
      [[0x61, 0x62], [0x63]] = .ok (0, m', p') ∧ elfSegments segData = [⟨0, 0, 16, 32⟩] ∧
    (∀ i, i < 32 → ubyte (p'.vm m') i = if i < 16 then segData i else 0) ∧
    ArgsAt (p'.vm m') (p'.sz - 4096) p'.sz p'.tf.esp [[0x61, 0x62], [0x63]] := by
  have hsegs : elfSegments segData = [⟨0, 0, 16, 32⟩] := by decide +kernel
  have hapart : (elfSegments segData).Pairwise Seg.Apart := by
    rw [hsegs]
    exact List.pairwise_singleton _ _
  obtain ⟨s, hb⟩ := built_segFile
  have hst := (built_loaded (fun f => Nat.le_trans (Nat.le_add_right _ _) (roomyKmem_fresh 2 f))
    hapart hb).1
  obtain ⟨m', p', h⟩ := exec_fits 0 [] (roomyKmem_managed 2) hb hst
    (show [[0x61, 0x62], [(0x63 : Byte)]].length ≤ maxArg by decide) (by decide)
  obtain ⟨-, -, -, -, -, hseg, hargs⟩ := exec_image (roomyKmem_fresh 2) hapart h
  refine ⟨m', p', h, hsegs, fun i hi => ?_, hargs⟩
  have hbyte := (hseg ⟨0, 0, 16, 32⟩ (by rw [hsegs]; exact List.mem_singleton.mpr rfl)).2 i hi
  simpa [Seg.byte] using hbyte

end

end Xv6Clock
