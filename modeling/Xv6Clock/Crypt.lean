/-
  File:      Xv6Clock/Crypt.lean
  Subject:   Encrypting and decrypting pages (vm.c): `uva2ka`, `translate_and_set`, `mencrypt`,
             and the part of `mdecrypt` before the clock.

  Both functions reach the user page through its virtual address, so the MMU marks the page as
  referenced while they flip its bytes. Everything they do to the page table is a sequence of
  four small steps (`Flip`): mark a page referenced or not referenced, encrypt a page (bytes and
  flag together), decrypt a page (bytes and flag together). The exception is the `-1` exit of
  `mdecrypt` that has changed the flags already (`halfDec`).
-/
import Mathlib.Logic.Relation
import Xv6Clock.Copyuvm

namespace Xv6Clock

/-! ## 1. Flag changes -/

/-- `*pte | PTE_E`, then `& ~PTE_P` (`translate_and_set`). -/
def encEntry (w : Word) : Word := (w ||| pteE) &&& ~~~pteP

/-- `*pte & ~PTE_E`, then `| PTE_P` (`mdecrypt`). -/
def decEntry (w : Word) : Word := (w &&& ~~~pteE) ||| pteP

/-- The MMU on an access. -/
def setRef (w : Word) : Word := w ||| pteA

/-- `*pte & ~PTE_A`. -/
def clearRef (w : Word) : Word := w &&& ~~~pteA

/-- `b ^ 0xFF`, over a page. -/
def xorPage (pg : Page) : Page := fun i => pg i ^^^ 0xFF

@[simp] theorem xorPage_xorPage (pg : Page) : xorPage (xorPage pg) = pg := by
  funext i
  unfold xorPage
  rw [BitVec.xor_assoc, BitVec.xor_self, BitVec.xor_zero]

theorem flip_ne (b : Byte) : b ^^^ 0xFF ≠ b := by
  intro h
  have hx : b ^^^ (b ^^^ 0xFF) = b ^^^ b := congrArg (b ^^^ ·) h
  rw [← BitVec.xor_assoc, BitVec.xor_self, BitVec.zero_xor] at hx
  exact absurd hx (by decide)

variable {m c w : Word} {v k n : Nat} {pd : PgDir} {s s' : Vm}

/-- Masks without a common bit. -/
theorem and_not_of_disjoint (h : m &&& c = 0#32) : m &&& ~~~c = m := by
  apply BitVec.eq_of_getLsbD_eq
  intro i hi
  have hb := congrArg (fun z : Word => z.getLsbD i) h
  simp only [BitVec.getLsbD_and, BitVec.getLsbD_zero] at hb
  simp only [BitVec.getLsbD_and, BitVec.getLsbD_not, hi, decide_true, Bool.true_and]
  cases hm : m.getLsbD i with
  | false => rfl
  | true =>
    rw [hm, Bool.true_and] at hb
    rw [hb]
    rfl

theorem has_clear_of (h : m &&& c = 0#32) : has (w &&& ~~~c) m = has w m := by
  rw [has_clear, and_not_of_disjoint h]

theorem has_or_of (h : m &&& c = 0#32) : has (w ||| c) m = has w m := by
  have hc : has c m = false := by
    unfold has
    rw [BitVec.and_comm, h]
    rfl
  rw [has_or, hc, Bool.or_false]

theorem has_clear_self (w c : Word) : has (w &&& ~~~c) c = false := by
  rw [has_clear, BitVec.and_not_self]
  exact has_none w

theorem has_or_self (w : Word) (h : c ≠ 0#32) : has (w ||| c) c = true := by
  have hc : has c c = true := by
    rw [has_eq_true, BitVec.and_self]
    exact h
  rw [has_or, hc, Bool.or_true]

@[simp] theorem has_enc_E (w : Word) : has (encEntry w) pteE = true := by
  rw [encEntry, has_clear_of (by decide), has_or_self w (by decide)]

@[simp] theorem has_enc_P (w : Word) : has (encEntry w) pteP = false := has_clear_self _ _

theorem has_enc (w : Word) (hE : m &&& pteE = 0#32) (hP : m &&& pteP = 0#32) :
    has (encEntry w) m = has w m := by
  rw [encEntry, has_clear_of hP, has_or_of hE]

@[simp] theorem has_dec_P (w : Word) : has (decEntry w) pteP = true := has_or_self _ (by decide)

@[simp] theorem has_dec_E (w : Word) : has (decEntry w) pteE = false := by
  rw [decEntry, has_or_of (by decide), has_clear_self]

theorem has_dec (w : Word) (hE : m &&& pteE = 0#32) (hP : m &&& pteP = 0#32) :
    has (decEntry w) m = has w m := by
  rw [decEntry, has_or_of hP, has_clear_of hE]

@[simp] theorem has_setRef_A (w : Word) : has (setRef w) pteA = true := has_or_self _ (by decide)

theorem setRef_setRef (w : Word) : setRef (setRef w) = setRef w := by
  unfold setRef
  rw [BitVec.or_assoc, BitVec.or_self]

theorem has_setRef (w : Word) (h : m &&& pteA = 0#32) : has (setRef w) m = has w m :=
  has_or_of h

@[simp] theorem has_clearRef_A (w : Word) : has (clearRef w) pteA = false := has_clear_self _ _

theorem has_clearRef (w : Word) (h : m &&& pteA = 0#32) :
    has (clearRef w) m = has w m := has_clear_of h

@[simp] theorem has_enc_U (w : Word) : has (encEntry w) pteU = has w pteU :=
  has_enc w (by decide) (by decide)

@[simp] theorem has_dec_U (w : Word) : has (decEntry w) pteU = has w pteU :=
  has_dec w (by decide) (by decide)

@[simp] theorem has_setRef_U (w : Word) : has (setRef w) pteU = has w pteU :=
  has_setRef w (by decide)

@[simp] theorem has_setRef_P (w : Word) : has (setRef w) pteP = has w pteP :=
  has_setRef w (by decide)

@[simp] theorem has_setRef_E (w : Word) : has (setRef w) pteE = has w pteE :=
  has_setRef w (by decide)

@[simp] theorem has_clearRef_U (w : Word) : has (clearRef w) pteU = has w pteU :=
  has_clearRef w (by decide)

@[simp] theorem has_clearRef_P (w : Word) : has (clearRef w) pteP = has w pteP :=
  has_clearRef w (by decide)

@[simp] theorem has_clearRef_E (w : Word) : has (clearRef w) pteE = has w pteE :=
  has_clearRef w (by decide)

@[simp] theorem pteFrame_enc (w : Word) : pteFrame (encEntry w) = pteFrame w := by
  rw [encEntry, pteFrame_clear _ (by decide), pteFrame_or _ (by decide)]

@[simp] theorem pteFrame_dec (w : Word) : pteFrame (decEntry w) = pteFrame w := by
  rw [decEntry, pteFrame_or _ (by decide), pteFrame_clear _ (by decide)]

@[simp] theorem pteFrame_setRef (w : Word) : pteFrame (setRef w) = pteFrame w :=
  pteFrame_or _ (by decide)

@[simp] theorem pteFrame_clearRef (w : Word) : pteFrame (clearRef w) = pteFrame w :=
  pteFrame_clear _ (by decide)

@[simp] theorem mapped_enc (w : Word) : mapped (encEntry w) = true := by simp [mapped_eq]

@[simp] theorem mapped_dec (w : Word) : mapped (decEntry w) = true := by simp [mapped_eq]

@[simp] theorem mapped_setRef (w : Word) : mapped (setRef w) = mapped w := by simp [mapped_eq]

@[simp] theorem mapped_clearRef (w : Word) : mapped (clearRef w) = mapped w := by
  simp [mapped_eq]

/-! ## 2. The functions -/

/-- `uva2ka`: the frame of a mapped user page, or null. -/
def uva2ka (pd : PgDir) (uva : Nat) : Except Err (Option Frame) :=
  match pd.walk uva with
  | none => .error .nullPte
  | some pte =>
    if !mapped (pd.pteAt pte) then .ok none else
    if !has (pd.pteAt pte) pteU then .ok none else
    .ok (some (pteFrame (pd.pteAt pte)))

/-- `translate_and_set`; `none` when it returns null. -/
def translateAndSet (pd : PgDir) (uva : Nat) : Except Err (Option PgDir) :=
  match pd.walk uva with
  | none => .error .nullPte
  | some pte =>
    if !has (pd.pteAt pte) pteP && !has (pd.pteAt pte) pteE then .ok none else
    if has (pd.pteAt pte) pteE then .ok none else
    if !has (pd.pteAt pte) pteU then .ok none else
    .ok (some (pd.store pte (encEntry (pd.pteAt pte))))

/-- The first loop of `mencrypt` over `n` pages; `false` when it returns -1. -/
def mencryptCheck : Nat → PgDir → Nat → Except Err Bool
  | 0, _, _ => .ok true
  | n + 1, pd, slider =>
    match pd.walk slider with
    | none => .error .nullPte
    | some pte =>
      if !has (pd.pteAt pte) pteU then mencryptCheck n pd (addU slider pgSize) else do
      let kvp ← uva2ka pd slider
      if kvp.isNone then .ok false else mencryptCheck n pd (addU slider pgSize)

/-- Flip the bytes of page `pte` through its virtual address. A page that is not present faults
    inside the kernel; it is not encrypted either, so `mdecrypt` refuses it and `trap` panics. -/
def flipBytes (s : Vm) (pte : Nat) : Except Err Vm :=
  if !has (s.pd.pteAt pte) pteP then .error (.panic .trap) else
  .ok ⟨s.m.setPage (pteFrame (s.pd.pteAt pte)) (xorPage (s.m.mem (pteFrame (s.pd.pteAt pte)))),
    s.pd.store pte (setRef (s.pd.pteAt pte))⟩

/-- The second loop of `mencrypt`. -/
def mencryptPages : Nat → Vm → Nat → Except Err (Int × Vm)
  | 0, s, _ => .ok (0, s)
  | n + 1, s, slider =>
    match s.pd.walk slider with
    | none => .error .nullPte
    | some pte =>
      if !has (s.pd.pteAt pte) pteU then mencryptPages n s (addU slider pgSize) else
      if has (s.pd.pteAt pte) pteE then mencryptPages n s (addU slider pgSize) else do
      let s ← flipBytes s pte
      let pd := s.pd.store pte (clearRef (s.pd.pteAt pte))
      match ← translateAndSet pd slider with
      | none => .ok (-1, ⟨s.m, pd⟩)
      | some pd => mencryptPages n ⟨s.m, pd⟩ (addU slider pgSize)

/-- `mencrypt`. -/
def mencrypt (s : Vm) (va : Nat) (len : Int) : Except Err (Int × Vm) := do
  let va := pgRoundDown va
  let good ← mencryptCheck len.toNat s.pd va
  if !good then .ok (-1, s) else mencryptPages len.toNat s va

/-- `mdecrypt` up to the clock: the flags, the test of the first byte, the bytes. -/
def mdecryptPage (s : Vm) (va : Nat) : Except Err (Int × Vm) :=
  match s.pd.walk va with
  | none => .error .nullPte
  | some pte =>
    if !has (s.pd.pteAt pte) pteE then .ok (-1, s) else
    if !has (s.pd.pteAt pte) pteU then .ok (-1, s) else
    if s.pd.pteAt pte = 0#32 then .ok (-1, s) else do
    let pd := s.pd.store pte (decEntry (s.pd.pteAt pte))
    let _ ← uva2ka pd va
    match ← uva2ka pd (pgRoundDown va) with
    | none => .ok (-1, ⟨s.m, pd⟩)
    | some kvp =>
      if s.m.mem kvp 0 = 0#8 then .ok (-1, ⟨s.m, pd⟩) else do
      let s ← flipBytes ⟨s.m, pd⟩ (vpn (pgRoundDown va))
      .ok (0, s)

/-! ## 3. Small steps -/

theorem PgDir.store_store (pd : PgDir) (v : Nat) (a b : Word) :
    (pd.store v a).store v b = pd.store v b := by
  cases h : pd.pde (v / 1024) with
  | none => simp [PgDir.store, h]
  | some t =>
    have h1 : pd.store v a =
        pd.setTab (v / 1024) ⟨t.frame, Function.update t.pte (v % 1024) a⟩ := by
      simp [PgDir.store, h]
    have h2 : (pd.setTab (v / 1024) ⟨t.frame, Function.update t.pte (v % 1024) a⟩).pde (v / 1024) =
        some ⟨t.frame, Function.update t.pte (v % 1024) a⟩ := by
      rw [PgDir.setTab_pde, if_pos rfl]
    rw [h1]
    unfold PgDir.store
    rw [h2, h]
    simp only [PgDir.setTab, Function.update_idem]

/-- Page `v` with its bytes flipped and its entry replaced. -/
def Vm.flip (s : Vm) (v : Nat) (w : Word) : Vm :=
  ⟨s.m.setPage (pteFrame (s.pd.pteAt v)) (xorPage (s.m.mem (pteFrame (s.pd.pteAt v)))),
    s.pd.store v w⟩

theorem Vm.flip_mem_self (s : Vm) (v : Nat) (w : Word) :
    (s.flip v w).m.mem (pteFrame (s.pd.pteAt v)) = xorPage (s.m.mem (pteFrame (s.pd.pteAt v))) :=
  Function.update_self ..

theorem Vm.flip_mem_ne (s : Vm) (w : Word) {f : Frame} (h : f ≠ pteFrame (s.pd.pteAt v)) :
    (s.flip v w).m.mem f = s.m.mem f := Function.update_of_ne h ..

/-- Page `v` with its entry replaced. -/
def Vm.mark (s : Vm) (v : Nat) (w : Word) : Vm := ⟨s.m, s.pd.store v w⟩

/-- **One small step**: the reference bit, or bytes and PTE_E together. -/
inductive Flip (s : Vm) : Vm → Prop
  | ref {v : Nat} (hv : v < 2 ^ 20) (hm : mapped (s.pd.pteAt v) = true) :
      Flip s (s.mark v (setRef (s.pd.pteAt v)))
  | unref {v : Nat} (hv : v < 2 ^ 20) (ht : s.pd.tabAt v = true) :
      Flip s (s.mark v (clearRef (s.pd.pteAt v)))
  | enc {v : Nat} (hv : v < 2 ^ 19) (hU : has (s.pd.pteAt v) pteU = true)
      (hP : has (s.pd.pteAt v) pteP = true) (hE : has (s.pd.pteAt v) pteE = false) :
      Flip s (s.flip v (encEntry (s.pd.pteAt v)))
  | dec {v : Nat} (hv : v < 2 ^ 19) (hU : has (s.pd.pteAt v) pteU = true)
      (hE : has (s.pd.pteAt v) pteE = true) : Flip s (s.flip v (decEntry (s.pd.pteAt v)))

/-- A sequence of small steps. -/
abbrev Flips : Vm → Vm → Prop := Relation.ReflTransGen Flip

/-- The exit of `mdecrypt` that has set the flags and left the bytes. -/
def halfDec (s : Vm) (v : Nat) : Vm := s.mark v (decEntry (s.pd.pteAt v))

/-- What a changed entry keeps: its frame, PTE_U and PTE_W; whether it is mapped; exactly one of
    PTE_P and PTE_E if it had exactly one; everything if it is not the user's; zero if it was
    zero. -/
structure EntryOk (w w' : Word) : Prop where
  frame : pteFrame w' = pteFrame w
  user : has w' pteU = has w pteU
  write : has w' pteW = has w pteW
  map : mapped w' = mapped w
  one : (has w pteP != has w pteE) = true → (has w' pteP != has w' pteE) = true
  nonUser : has w pteU = false → has w' pteP = has w pteP ∧ has w' pteE = has w pteE
  zero : w = 0#32 → w' = 0#32

theorem EntryOk.refl (w : Word) : EntryOk w w :=
  ⟨rfl, rfl, rfl, rfl, fun h => h, fun _ => ⟨rfl, rfl⟩, fun h => h⟩

theorem EntryOk.trans {w' w'' : Word} (h1 : EntryOk w w') (h2 : EntryOk w' w'') :
    EntryOk w w'' where
  frame := h2.frame.trans h1.frame
  user := h2.user.trans h1.user
  write := h2.write.trans h1.write
  map := h2.map.trans h1.map
  one h := h2.one (h1.one h)
  nonUser h := by
    have h3 := h1.nonUser h
    have h4 := h2.nonUser (h1.user.trans h)
    exact ⟨h4.1.trans h3.1, h4.2.trans h3.2⟩
  zero h := h2.zero (h1.zero h)

/-- **What flags and bytes changes cannot do** to a page table: page-table pages and frames stay
    where they are. -/
structure PdRecoded (pd pd' : PgDir) : Prop where
  tab : ∀ u, pd'.tabAt u = pd.tabAt u
  entry : ∀ u, EntryOk (pd.pteAt u) (pd'.pteAt u)

theorem PdRecoded.refl (pd : PgDir) : PdRecoded pd pd := ⟨fun _ => rfl, fun _ => EntryOk.refl _⟩

theorem PdRecoded.trans {pd' pd'' : PgDir} (h1 : PdRecoded pd pd') (h2 : PdRecoded pd' pd'') :
    PdRecoded pd pd'' :=
  ⟨fun u => (h2.tab u).trans (h1.tab u), fun u => (h1.entry u).trans (h2.entry u)⟩

/-- The same with the allocator, which such changes do not touch, and the contents of frames the
    page table does not use. -/
structure Recoded (s s' : Vm) : Prop extends PdRecoded s.pd s'.pd where
  list : s'.m.freelist = s.m.freelist
  twice : s'.m.twice = s.m.twice
  dir : s'.pd.frame = s.pd.frame
  holds : ∀ f, s'.pd.holds f = s.pd.holds f
  mem : ∀ f, s.pd.holds f = 0 → s'.m.mem f = s.m.mem f

theorem Recoded.refl (s : Vm) : Recoded s s :=
  ⟨PdRecoded.refl _, rfl, rfl, rfl, fun _ => rfl, fun _ _ => rfl⟩

theorem Recoded.trans {s'' : Vm} (h1 : Recoded s s') (h2 : Recoded s' s'') : Recoded s s'' where
  toPdRecoded := h1.toPdRecoded.trans h2.toPdRecoded
  list := h2.list.trans h1.list
  twice := h2.twice.trans h1.twice
  dir := h2.dir.trans h1.dir
  holds f := (h2.holds f).trans (h1.holds f)
  mem f h := (h2.mem f ((h1.holds f).trans h)).trans (h1.mem f h)

theorem entryOk_setRef (h : mapped w = true) : EntryOk w (setRef w) where
  frame := pteFrame_setRef w
  user := has_setRef_U w
  write := has_setRef w (by decide)
  map := mapped_setRef w
  one h := by simpa using h
  nonUser _ := ⟨has_setRef_P w, has_setRef_E w⟩
  zero h0 := by rw [h0, mapped_zero] at h; cases h

theorem entryOk_clearRef (w : Word) : EntryOk w (clearRef w) where
  frame := pteFrame_clearRef w
  user := has_clearRef_U w
  write := has_clearRef w (by decide)
  map := mapped_clearRef w
  one h := by simpa using h
  nonUser _ := ⟨has_clearRef_P w, has_clearRef_E w⟩
  zero h0 := by rw [h0, clearRef, BitVec.zero_and]

theorem entryOk_enc (hU : has w pteU = true) (hP : has w pteP = true) : EntryOk w (encEntry w) where
  frame := pteFrame_enc w
  user := has_enc_U w
  write := has_enc w (by decide) (by decide)
  map := by rw [mapped_enc, mapped_eq, hP, Bool.true_or]
  one _ := by simp
  nonUser h := by rw [hU] at h; cases h
  zero h0 := by rw [h0, has_zero] at hU; cases hU

theorem entryOk_dec (hU : has w pteU = true) (hE : has w pteE = true) : EntryOk w (decEntry w) where
  frame := pteFrame_dec w
  user := has_dec_U w
  write := has_dec w (by decide) (by decide)
  map := by rw [mapped_dec, mapped_eq, hE, Bool.or_true]
  one _ := by simp
  nonUser h := by rw [hU] at h; cases h
  zero h0 := by rw [h0, has_zero] at hU; cases hU

/-- New flags in an entry leave the frame count alone. -/
theorem PgDir.holds_store_same (hm : mapped w = mapped (pd.pteAt v))
    (hf : pteFrame w = pteFrame (pd.pteAt v)) (hv : v < 2 ^ 20) (f : Frame) :
    (pd.store v w).holds f = pd.holds f := by
  cases ht : pd.tabAt v with
  | true =>
    have h1 := PgDir.holds_store w ht hv f
    have h2 : userHolds v w f = userHolds v (pd.pteAt v) f := by
      unfold userHolds pteHolds
      rw [hm, hf]
    omega
  | false =>
    have hn : pd.pde (v / 1024) = none := by simpa [PgDir.tabAt] using ht
    simp [PgDir.store, hn]

theorem recoded_mark (hv : v < 2 ^ 20) (ht : s.pd.tabAt v = true) (h : EntryOk (s.pd.pteAt v) w) :
    Recoded s (s.mark v w) := by
  refine ⟨⟨fun u => PgDir.tabAt_store _ _ _ _, fun u => ?_⟩, rfl, rfl, PgDir.store_frame _ _ _,
    PgDir.holds_store_same h.map h.frame hv, fun _ _ => rfl⟩
  unfold Vm.mark
  rw [PgDir.pteAt_store w u ht]
  split
  · rename_i hu
    rw [hu]
    exact h
  · exact EntryOk.refl _

theorem recoded_flip (hv : v < 2 ^ 19) (hm : mapped (s.pd.pteAt v) = true)
    (h : EntryOk (s.pd.pteAt v) w) : Recoded s (s.flip v w) := by
  have h1 : Recoded s (s.mark v w) :=
    recoded_mark (by omega) (PgDir.tabAt_of_mapped hm) h
  refine { h1 with mem := fun f hf => Kmem.setPage_mem_ne _ _ ?_ }
  rintro rfl
  have := PgDir.one_le_holds hm hv
  omega

theorem mapped_of_P (h : has w pteP = true) : mapped w = true := by
  rw [mapped_eq, h, Bool.true_or]

theorem mapped_of_E (h : has w pteE = true) : mapped w = true := by
  rw [mapped_eq, h, Bool.or_true]

theorem Flip.recoded (h : Flip s s') : Recoded s s' := by
  cases h with
  | ref hv hm => exact recoded_mark hv (PgDir.tabAt_of_mapped hm) (entryOk_setRef hm)
  | unref hv ht => exact recoded_mark hv ht (entryOk_clearRef _)
  | enc hv hU hP hE => exact recoded_flip hv (mapped_of_P hP) (entryOk_enc hU hP)
  | dec hv hU hE => exact recoded_flip hv (mapped_of_E hE) (entryOk_dec hU hE)

theorem Flips.recoded (h : Flips s s') : Recoded s s' := by
  induction h with
  | refl => exact Recoded.refl s
  | tail _ hs ih => exact ih.trans hs.recoded

theorem recoded_halfDec (hv : v < 2 ^ 20) (hU : has (s.pd.pteAt v) pteU = true)
    (hE : has (s.pd.pteAt v) pteE = true) : Recoded s (halfDec s v) :=
  recoded_mark hv (PgDir.tabAt_of_mapped (mapped_of_E hE)) (entryOk_dec hU hE)

/-! ## 4. `mencrypt` -/

/-- Nothing above KERNBASE is the user's or encrypted. -/
def KernHigh (pd : PgDir) : Prop :=
  ∀ u, 2 ^ 19 ≤ u → has (pd.pteAt u) pteU = false ∧ has (pd.pteAt u) pteE = false

theorem PdRecoded.kernHigh {pd' : PgDir} (h : PdRecoded pd pd') (hk : KernHigh pd) :
    KernHigh pd' := by
  intro u hu
  obtain ⟨h1, h2⟩ := hk u hu
  exact ⟨(h.entry u).user.trans h1, ((h.entry u).nonUser h1).2.trans h2⟩

theorem KernHigh.lt (h : KernHigh pd) {u : Nat} (hU : has (pd.pteAt u) pteU = true) :
    u < 2 ^ 19 := by
  by_contra hn
  rw [(h u (by omega)).1] at hU
  cases hU

/-- Page `u` is among the `n` pages from page `k` on, with the wrap of the address space. -/
def InRange (k n u : Nat) : Prop := ∃ i, i < n ∧ u = (k + i) % 2 ^ 20

theorem inRange_zero (k u : Nat) : ¬ InRange k 0 u := by
  rintro ⟨i, hi, -⟩
  omega

theorem inRange_succ (k n u : Nat) :
    InRange k (n + 1) u ↔ u = k % 2 ^ 20 ∨ InRange ((k + 1) % 2 ^ 20) n u := by
  constructor
  · rintro ⟨i, hi, hu⟩
    cases i with
    | zero => exact Or.inl hu
    | succ i => exact Or.inr ⟨i, by omega, by omega⟩
  · rintro (hu | ⟨i, hi, hu⟩)
    · exact ⟨0, by omega, by omega⟩
    · exact ⟨i + 1, by omega, by omega⟩

theorem inRange_one (k u : Nat) : InRange k 1 u ↔ u = k % 2 ^ 20 := by
  rw [inRange_succ]
  exact or_iff_left (inRange_zero _ u)

theorem addU_page (k : Nat) : addU (k * 4096) pgSize = ((k + 1) % 2 ^ 20) * 4096 := by
  unfold addU pgSize
  omega

theorem vpn_mul (k : Nat) : vpn (k * 4096) = k % 2 ^ 20 := by
  unfold vpn
  omega

/-- The entry of a page that `mencrypt` has encrypted. -/
def sealEntry (w : Word) : Word := encEntry (clearRef (setRef w))

/-- **The pages that `mencrypt` encrypts**: those of its range that are the user's and not
    encrypted yet; the lookups it made all found a page-table page. -/
structure EncRange (s s' : Vm) (k n : Nat) : Prop where
  sealed : ∀ u, InRange k n u → has (s.pd.pteAt u) pteU = true → has (s.pd.pteAt u) pteE = false →
    has (s.pd.pteAt u) pteP = true ∧ s'.pd.pteAt u = sealEntry (s.pd.pteAt u)
  same : ∀ u, ¬ (InRange k n u ∧ has (s.pd.pteAt u) pteU = true ∧
    has (s.pd.pteAt u) pteE = false) → s'.pd.pteAt u = s.pd.pteAt u
  tabs : ∀ u, InRange k n u → s.pd.tabAt u = true
  flips : KernHigh s.pd → Flips s s'

theorem walk_page_of (h : pd.tabAt (k % 2 ^ 20) = true) :
    pd.walk (k * 4096) = some (k % 2 ^ 20) := by
  rw [← vpn_mul] at h ⊢
  exact PgDir.walk_of_tabAt h

theorem walk_page_no (h : pd.tabAt (k % 2 ^ 20) = false) : pd.walk (k * 4096) = none := by
  rw [← vpn_mul] at h
  exact PgDir.walk_of_no_tab h

/-- `uva2ka` on a page. -/
theorem uva2ka_page (h : pd.tabAt (k % 2 ^ 20) = true) :
    uva2ka pd (k * 4096) = .ok (if mapped (pd.pteAt (k % 2 ^ 20)) &&
      has (pd.pteAt (k % 2 ^ 20)) pteU then some (pteFrame (pd.pteAt (k % 2 ^ 20))) else none) := by
  unfold uva2ka
  rw [walk_page_of h]
  simp only
  cases mapped (pd.pteAt (k % 2 ^ 20)) <;> cases has (pd.pteAt (k % 2 ^ 20)) pteU <;> rfl

/-- `translate_and_set` on a present, plain user page. -/
theorem translateAndSet_page (ht : pd.tabAt (k % 2 ^ 20) = true)
    (hU : has (pd.pteAt (k % 2 ^ 20)) pteU = true) (hP : has (pd.pteAt (k % 2 ^ 20)) pteP = true)
    (hE : has (pd.pteAt (k % 2 ^ 20)) pteE = false) :
    translateAndSet pd (k * 4096) =
      .ok (some (pd.store (k % 2 ^ 20) (encEntry (pd.pteAt (k % 2 ^ 20))))) := by
  unfold translateAndSet
  rw [walk_page_of ht]
  simp only [hU, hP, hE, Bool.not_true, Bool.false_and, Bool.false_eq_true, if_false]

/-- The flips of one encrypted page. -/
theorem flips_seal (hv : v < 2 ^ 19) (hU : has (s.pd.pteAt v) pteU = true)
    (hP : has (s.pd.pteAt v) pteP = true) (hE : has (s.pd.pteAt v) pteE = false) :
    Flips s (s.flip v (sealEntry (s.pd.pteAt v))) := by
  have hm := mapped_of_P hP
  have ht := PgDir.tabAt_of_mapped hm
  let s1 := s.mark v (setRef (s.pd.pteAt v))
  have e1 : s1.pd.pteAt v = setRef (s.pd.pteAt v) := PgDir.pteAt_store_self _ ht
  have ht1 : s1.pd.tabAt v = true := (PgDir.tabAt_store _ _ _ _).trans ht
  let s2 := s1.mark v (clearRef (s1.pd.pteAt v))
  have e2 : s2.pd.pteAt v = clearRef (setRef (s.pd.pteAt v)) := by
    rw [← e1]
    exact PgDir.pteAt_store_self _ ht1
  have f1 : Flip s s1 := Flip.ref (by omega) hm
  have f2 : Flip s1 s2 := Flip.unref (by omega) ht1
  have f3 : Flip s2 (s2.flip v (encEntry (s2.pd.pteAt v))) := by
    refine Flip.enc hv ?_ ?_ ?_
    · rw [e2, has_clearRef_U, has_setRef_U, hU]
    · rw [e2, has_clearRef_P, has_setRef_P, hP]
    · rw [e2, has_clearRef_E, has_setRef_E, hE]
  have e3 : s2.flip v (encEntry (s2.pd.pteAt v)) = s.flip v (sealEntry (s.pd.pteAt v)) := by
    have hf : pteFrame (s2.pd.pteAt v) = pteFrame (s.pd.pteAt v) := by
      rw [e2, pteFrame_clearRef, pteFrame_setRef]
    have hp : s2.pd.store v (sealEntry (s.pd.pteAt v)) =
        s.pd.store v (sealEntry (s.pd.pteAt v)) := by
      simp only [s2, s1, Vm.mark, PgDir.store_store]
    unfold Vm.flip
    rw [hf, e2]
    exact congrArg (Vm.mk _) hp
  rw [e3] at f3
  exact ((Relation.ReflTransGen.single f1).tail f2).tail f3

/-- One page of the second loop of `mencrypt`. -/
theorem mencryptPages_seal (ht : s.pd.tabAt (k % 2 ^ 20) = true)
    (hU : has (s.pd.pteAt (k % 2 ^ 20)) pteU = true)
    (hE : has (s.pd.pteAt (k % 2 ^ 20)) pteE = false)
    (hP : has (s.pd.pteAt (k % 2 ^ 20)) pteP = true) :
    mencryptPages (n + 1) s (k * 4096) =
      mencryptPages n (s.flip (k % 2 ^ 20) (sealEntry (s.pd.pteAt (k % 2 ^ 20))))
        ((k + 1) % 2 ^ 20 * 4096) := by
  -- the three stores go to one entry, so only the last is left
  have e1 : ∀ w, (s.pd.store (k % 2 ^ 20) w).pteAt (k % 2 ^ 20) = w :=
    fun w => PgDir.pteAt_store_self w ht
  have hts : translateAndSet (s.pd.store (k % 2 ^ 20)
      (clearRef (setRef (s.pd.pteAt (k % 2 ^ 20))))) (k * 4096) =
      .ok (some (s.pd.store (k % 2 ^ 20) (sealEntry (s.pd.pteAt (k % 2 ^ 20))))) := by
    rw [translateAndSet_page (by rw [PgDir.tabAt_store]; exact ht)
      (by rw [e1, has_clearRef_U, has_setRef_U, hU])
      (by rw [e1, has_clearRef_P, has_setRef_P, hP])
      (by rw [e1, has_clearRef_E, has_setRef_E, hE]), PgDir.store_store, e1]
    rfl
  conv_lhs => unfold mencryptPages
  rw [walk_page_of ht]
  simp only [hU, hE, hP, flipBytes, Bool.not_true, Bool.false_eq_true, if_false, Lib.ok_bind,
    PgDir.store_store, e1, hts, addU_page]
  rfl

/-- A page the second loop of `mencrypt` passes over. -/
theorem mencryptPages_skip (ht : s.pd.tabAt (k % 2 ^ 20) = true)
    (h : ¬ (has (s.pd.pteAt (k % 2 ^ 20)) pteU = true ∧
      has (s.pd.pteAt (k % 2 ^ 20)) pteE = false)) :
    mencryptPages (n + 1) s (k * 4096) = mencryptPages n s ((k + 1) % 2 ^ 20 * 4096) := by
  conv_lhs => unfold mencryptPages
  rw [walk_page_of ht]
  cases hU : has (s.pd.pteAt (k % 2 ^ 20)) pteU with
  | false => simp only [hU, Bool.not_false, if_true, addU_page]
  | true =>
    cases hE : has (s.pd.pteAt (k % 2 ^ 20)) pteE with
    | false => exact absurd ⟨hU, hE⟩ h
    | true => simp only [hU, hE, Bool.not_true, Bool.false_eq_true, if_false, if_true, addU_page]

theorem EncRange.refl (s : Vm) (k : Nat) : EncRange s s k 0 where
  sealed u hu := absurd hu (inRange_zero k u)
  same _ _ := rfl
  tabs u hu := absurd hu (inRange_zero k u)
  flips _ := Relation.ReflTransGen.refl

theorem EncRange.skip (ht : s.pd.tabAt (k % 2 ^ 20) = true)
    (h : ¬ (has (s.pd.pteAt (k % 2 ^ 20)) pteU = true ∧
      has (s.pd.pteAt (k % 2 ^ 20)) pteE = false))
    (hr : EncRange s s' ((k + 1) % 2 ^ 20) n) : EncRange s s' k (n + 1) where
  sealed u hu hU hE := by
    rcases (inRange_succ k n u).mp hu with rfl | hu
    · exact absurd ⟨hU, hE⟩ h
    · exact hr.sealed u hu hU hE
  same u hu := hr.same u fun ⟨h1, h2⟩ => hu ⟨(inRange_succ k n u).mpr (Or.inr h1), h2⟩
  tabs u hu := by
    rcases (inRange_succ k n u).mp hu with rfl | hu
    · exact ht
    · exact hr.tabs u hu
  flips := hr.flips

theorem EncRange.seal (hU : has (s.pd.pteAt (k % 2 ^ 20)) pteU = true)
    (hE : has (s.pd.pteAt (k % 2 ^ 20)) pteE = false)
    (hP : has (s.pd.pteAt (k % 2 ^ 20)) pteP = true)
    (hr : EncRange (s.flip (k % 2 ^ 20) (sealEntry (s.pd.pteAt (k % 2 ^ 20)))) s'
      ((k + 1) % 2 ^ 20) n) : EncRange s s' k (n + 1) := by
  have ht := PgDir.tabAt_of_mapped (mapped_of_P hP)
  generalize hv : k % 2 ^ 20 = v at *
  have hself : (s.flip v (sealEntry (s.pd.pteAt v))).pd.pteAt v = sealEntry (s.pd.pteAt v) :=
    PgDir.pteAt_store_self _ ht
  have hne : ∀ u, u ≠ v → (s.flip v (sealEntry (s.pd.pteAt v))).pd.pteAt u = s.pd.pteAt u :=
    fun u hu => PgDir.pteAt_store_ne _ _ hu
  -- page `v` is encrypted now: should the range come back to it, it is passed over
  have hvs : s'.pd.pteAt v = sealEntry (s.pd.pteAt v) := by
    rw [hr.same v (fun hc => by rw [hself, sealEntry, has_enc_E] at hc; cases hc.2.2), hself]
  refine ⟨fun u hu hU' hE' => ?_, fun u hu => ?_, fun u hu => ?_, fun hk => ?_⟩
  · by_cases huv : u = v
    · rw [huv]
      exact ⟨hP, hvs⟩
    · rcases (inRange_succ k n u).mp hu with h1 | h1
      · exact absurd (h1.trans hv) huv
      · have h2 := hr.sealed u h1 (by rw [hne u huv]; exact hU') (by rw [hne u huv]; exact hE')
        rwa [hne u huv] at h2
  · have huv : u ≠ v := by
      rintro rfl
      exact hu ⟨(inRange_succ k n u).mpr (Or.inl hv.symm), hU, hE⟩
    rw [hr.same u (fun hc => ?_), hne u huv]
    rw [hne u huv] at hc
    exact hu ⟨(inRange_succ k n u).mpr (Or.inr hc.1), hc.2⟩
  · rcases (inRange_succ k n u).mp hu with h1 | h1
    · rw [h1, hv]
      exact ht
    · have h2 := hr.tabs u h1
      exact (PgDir.tabAt_store _ _ _ _).symm.trans h2
  · have hf := flips_seal (hk.lt hU) hU hP hE
    exact hf.trans (hr.flips (hf.recoded.kernHigh hk))

/-- **The second loop of `mencrypt`**, when it returns. -/
theorem mencryptPages_ok : ∀ {s s' : Vm} {k : Nat} {r : Int},
    mencryptPages n s (k * 4096) = .ok (r, s') → r = 0 ∧ EncRange s s' k n := by
  induction n with
  | zero =>
    intro s s' k r h
    cases h
    exact ⟨rfl, EncRange.refl s k⟩
  | succ n ih =>
    intro s s' k r h
    cases ht : s.pd.tabAt (k % 2 ^ 20) with
    | false =>
      unfold mencryptPages at h
      rw [walk_page_no ht] at h
      cases h
    | true =>
      by_cases hue : has (s.pd.pteAt (k % 2 ^ 20)) pteU = true ∧
          has (s.pd.pteAt (k % 2 ^ 20)) pteE = false
      · obtain ⟨hU, hE⟩ := hue
        cases hP : has (s.pd.pteAt (k % 2 ^ 20)) pteP with
        | false =>
          unfold mencryptPages at h
          rw [walk_page_of ht] at h
          simp only [hU, hE, hP, flipBytes, Bool.not_true, Bool.not_false, Bool.false_eq_true,
            if_false, if_true, Lib.error_bind] at h
          cases h
        | true =>
          rw [mencryptPages_seal ht hU hE hP] at h
          obtain ⟨hr, hs⟩ := ih h
          exact ⟨hr, EncRange.seal hU hE hP hs⟩
      · rw [mencryptPages_skip ht hue] at h
        obtain ⟨hr, hs⟩ := ih h
        exact ⟨hr, EncRange.skip ht hue hs⟩

/-- The second loop of `mencrypt` returns where every lookup finds its page-table page and every
    user page of the range is mapped. -/
theorem mencryptPages_total : ∀ {s : Vm} {k : Nat},
    (∀ u, InRange k n u → s.pd.tabAt u = true) →
    (∀ u, has (s.pd.pteAt u) pteU = true → InRange k n u → mapped (s.pd.pteAt u) = true) →
    ∃ s', mencryptPages n s (k * 4096) = .ok (0, s') := by
  induction n with
  | zero => exact fun {s k} _ _ => ⟨s, rfl⟩
  | succ n ih =>
    intro s k htab hmap
    have hk := (inRange_succ k n (k % 2 ^ 20)).mpr (Or.inl rfl)
    have ht := htab _ hk
    by_cases hue : has (s.pd.pteAt (k % 2 ^ 20)) pteU = true ∧
        has (s.pd.pteAt (k % 2 ^ 20)) pteE = false
    · obtain ⟨hU, hE⟩ := hue
      have hP : has (s.pd.pteAt (k % 2 ^ 20)) pteP = true := by
        have h1 := hmap _ hU hk
        rwa [mapped_eq, hE, Bool.or_false] at h1
      rw [mencryptPages_seal ht hU hE hP]
      refine ih (fun u hu => ?_) (fun u hU' hu => ?_)
      · exact (PgDir.tabAt_store _ _ _ _).trans
          (htab u ((inRange_succ k n u).mpr (Or.inr hu)))
      · by_cases huv : u = k % 2 ^ 20
        · have e : (s.flip (k % 2 ^ 20) (sealEntry (s.pd.pteAt (k % 2 ^ 20)))).pd.pteAt u =
              sealEntry (s.pd.pteAt (k % 2 ^ 20)) := by
            rw [huv]
            exact PgDir.pteAt_store_self _ ht
          rw [e]
          exact mapped_enc _
        · have e : (s.flip (k % 2 ^ 20) (sealEntry (s.pd.pteAt (k % 2 ^ 20)))).pd.pteAt u =
              s.pd.pteAt u := PgDir.pteAt_store_ne _ _ huv
          rw [e] at hU' ⊢
          exact hmap u hU' ((inRange_succ k n u).mpr (Or.inr hu))
    · rw [mencryptPages_skip ht hue]
      exact ih (fun u hu => htab u ((inRange_succ k n u).mpr (Or.inr hu)))
        (fun u hU hu => hmap u hU ((inRange_succ k n u).mpr (Or.inr hu)))

/-- **The first loop of `mencrypt`**: it passes over the range when every lookup succeeds and
    every user page is mapped; it dereferences null, or returns -1, otherwise. -/
theorem mencryptCheck_cases {n : Nat} : ∀ {pd : PgDir} {k : Nat},
    (mencryptCheck n pd (k * 4096) = .ok true ∧ (∀ u, InRange k n u → pd.tabAt u = true) ∧
      ∀ u, has (pd.pteAt u) pteU = true → InRange k n u → mapped (pd.pteAt u) = true) ∨
    (mencryptCheck n pd (k * 4096) = .ok false ∧
      ∃ u, InRange k n u ∧ has (pd.pteAt u) pteU = true ∧ mapped (pd.pteAt u) = false) ∨
    (mencryptCheck n pd (k * 4096) = .error .nullPte ∧
      ∃ u, InRange k n u ∧ pd.tabAt u = false) := by
  induction n with
  | zero =>
    intro pd k
    exact Or.inl ⟨rfl, fun u hu => absurd hu (inRange_zero k u),
      fun u _ hu => absurd hu (inRange_zero k u)⟩
  | succ n ih =>
    intro pd k
    have hk := (inRange_succ k n (k % 2 ^ 20)).mpr (Or.inl rfl)
    have hin : ∀ u, InRange ((k + 1) % 2 ^ 20) n u → InRange k (n + 1) u :=
      fun u hu => (inRange_succ k n u).mpr (Or.inr hu)
    cases ht : pd.tabAt (k % 2 ^ 20) with
    | false =>
      refine Or.inr (Or.inr ⟨?_, _, hk, ht⟩)
      unfold mencryptCheck
      rw [walk_page_no ht]
    | true =>
      have step : ¬ (has (pd.pteAt (k % 2 ^ 20)) pteU = true ∧
          mapped (pd.pteAt (k % 2 ^ 20)) = false) →
          mencryptCheck (n + 1) pd (k * 4096) = mencryptCheck n pd ((k + 1) % 2 ^ 20 * 4096) := by
        intro hn
        conv_lhs => unfold mencryptCheck
        rw [walk_page_of ht, uva2ka_page ht]
        cases hU : has (pd.pteAt (k % 2 ^ 20)) pteU with
        | false => simp only [hU, Bool.not_false, if_true, addU_page]
        | true =>
          cases hm : mapped (pd.pteAt (k % 2 ^ 20)) with
          | false => exact absurd ⟨hU, hm⟩ hn
          | true =>
            simp only [hU, Bool.not_true, Bool.false_eq_true, if_false, Bool.and_self, if_true,
              Lib.ok_bind, Option.isNone_some, addU_page]
      by_cases hbad : has (pd.pteAt (k % 2 ^ 20)) pteU = true ∧
          mapped (pd.pteAt (k % 2 ^ 20)) = false
      · refine Or.inr (Or.inl ⟨?_, _, hk, hbad⟩)
        unfold mencryptCheck
        rw [walk_page_of ht, uva2ka_page ht]
        simp only [hbad.1, hbad.2, Bool.not_true, Bool.false_eq_true, if_false, Bool.false_and,
          Lib.ok_bind, Option.isNone_none, if_true]
      · rw [step hbad]
        rcases @ih pd ((k + 1) % 2 ^ 20) with ⟨h1, h2, h3⟩ | ⟨h1, u, h2, h3⟩ | ⟨h1, u, h2, h3⟩
        · refine Or.inl ⟨h1, fun u hu => ?_, fun u hU hu => ?_⟩
          · rcases (inRange_succ k n u).mp hu with rfl | hu
            · exact ht
            · exact h2 u hu
          · rcases (inRange_succ k n u).mp hu with rfl | hu
            · by_contra hm
              exact hbad ⟨hU, by simpa using hm⟩
            · exact h3 u hU hu
        · exact Or.inr (Or.inl ⟨h1, u, hin u h2, h3⟩)
        · exact Or.inr (Or.inr ⟨h1, u, hin u h2, h3⟩)

/-- The number of a virtual address's page, without the wrap. -/
theorem pgRoundDown_eq (va : Nat) : pgRoundDown va = va / 4096 * 4096 := rfl

/-- **`mencrypt`.** It refuses, it encrypts its range, or a lookup finds no page-table page. -/
theorem mencrypt_cases (s : Vm) (va : Nat) (len : Int) :
    (mencrypt s va len = .ok (-1, s) ∧ ∃ u, InRange (va / 4096) len.toNat u ∧
      has (s.pd.pteAt u) pteU = true ∧ mapped (s.pd.pteAt u) = false) ∨
    (∃ s', mencrypt s va len = .ok (0, s') ∧ EncRange s s' (va / 4096) len.toNat) ∨
    (mencrypt s va len = .error .nullPte ∧
      ∃ u, InRange (va / 4096) len.toNat u ∧ s.pd.tabAt u = false) := by
  unfold mencrypt
  rw [pgRoundDown_eq]
  rcases @mencryptCheck_cases len.toNat s.pd (va / 4096) with
    ⟨h1, h2, h3⟩ | ⟨h1, h2⟩ | ⟨h1, h2⟩
  · obtain ⟨s', hs⟩ := mencryptPages_total h2 h3
    refine Or.inr (Or.inl ⟨s', ?_, (mencryptPages_ok hs).2⟩)
    simp only [h1, Lib.ok_bind, Bool.not_true, Bool.false_eq_true, if_false, hs]
  · refine Or.inl ⟨?_, h2⟩
    simp only [h1, Lib.ok_bind, Bool.not_false, if_true]
  · refine Or.inr (Or.inr ⟨?_, h2⟩)
    simp only [h1, Lib.error_bind]

/-! ## 5. `mdecrypt` up to the clock -/

/-- The entry of a page that `mdecrypt` has decrypted. -/
def openEntry (w : Word) : Word := setRef (decEntry w)

theorem flips_open (hv : v < 2 ^ 19) (hU : has (s.pd.pteAt v) pteU = true)
    (hE : has (s.pd.pteAt v) pteE = true) : Flips s (s.flip v (openEntry (s.pd.pteAt v))) := by
  have ht := PgDir.tabAt_of_mapped (mapped_of_E hE)
  let s1 := s.flip v (decEntry (s.pd.pteAt v))
  have e1 : s1.pd.pteAt v = decEntry (s.pd.pteAt v) := PgDir.pteAt_store_self _ ht
  have f1 : Flip s s1 := Flip.dec hv hU hE
  have f2 : Flip s1 (s1.mark v (setRef (s1.pd.pteAt v))) :=
    Flip.ref (by omega) (by rw [e1, mapped_dec])
  have e2 : s1.mark v (setRef (s1.pd.pteAt v)) = s.flip v (openEntry (s.pd.pteAt v)) := by
    unfold Vm.mark
    rw [e1]
    simp only [s1, Vm.flip, PgDir.store_store, openEntry]
  rw [e2] at f2
  exact (Relation.ReflTransGen.single f1).tail f2

theorem uva2ka_tab {va : Nat} (h : pd.tabAt (vpn va) = true) :
    uva2ka pd va = .ok (if mapped (pd.pteAt (vpn va)) && has (pd.pteAt (vpn va)) pteU then
      some (pteFrame (pd.pteAt (vpn va))) else none) := by
  unfold uva2ka
  rw [PgDir.walk_of_tabAt h]
  simp only
  cases mapped (pd.pteAt (vpn va)) <;> cases has (pd.pteAt (vpn va)) pteU <;> rfl

/-- **`mdecrypt` up to the clock.** -/
theorem mdecryptPage_cases (s : Vm) (va : Nat) :
    (s.pd.tabAt (vpn va) = false ∧ mdecryptPage s va = .error .nullPte) ∨
    (s.pd.tabAt (vpn va) = true ∧
      ¬ (has (s.pd.pteAt (vpn va)) pteE = true ∧ has (s.pd.pteAt (vpn va)) pteU = true) ∧
      mdecryptPage s va = .ok (-1, s)) ∨
    (has (s.pd.pteAt (vpn va)) pteE = true ∧ has (s.pd.pteAt (vpn va)) pteU = true ∧
      s.m.mem (pteFrame (s.pd.pteAt (vpn va))) 0 = 0#8 ∧
      mdecryptPage s va = .ok (-1, halfDec s (vpn va))) ∨
    (has (s.pd.pteAt (vpn va)) pteE = true ∧ has (s.pd.pteAt (vpn va)) pteU = true ∧
      s.m.mem (pteFrame (s.pd.pteAt (vpn va))) 0 ≠ 0#8 ∧
      mdecryptPage s va = .ok (0, s.flip (vpn va) (openEntry (s.pd.pteAt (vpn va))))) := by
  cases ht : s.pd.tabAt (vpn va) with
  | false =>
    refine Or.inl ⟨rfl, ?_⟩
    unfold mdecryptPage PgDir.walk
    rw [ht]
    rfl
  | true =>
    refine Or.inr ?_
    have hw := PgDir.walk_of_tabAt ht
    by_cases hn : has (s.pd.pteAt (vpn va)) pteE = true ∧ has (s.pd.pteAt (vpn va)) pteU = true
    · obtain ⟨hE, hU⟩ := hn
      have h0 : s.pd.pteAt (vpn va) ≠ 0#32 := by
        intro h0
        rw [h0, has_zero] at hE
        cases hE
      have e1 : ∀ w, (s.pd.store (vpn va) w).pteAt (vpn va) = w :=
        fun w => PgDir.pteAt_store_self w ht
      have ht1 : ∀ w, (s.pd.store (vpn va) w).tabAt (vpn va) = true :=
        fun w => (PgDir.tabAt_store _ _ _ _).trans ht
      have hk : ∀ a, vpn a = vpn va →
          uva2ka (s.pd.store (vpn va) (decEntry (s.pd.pteAt (vpn va)))) a =
            .ok (some (pteFrame (s.pd.pteAt (vpn va)))) := by
        intro a ha
        have := @uva2ka_tab (s.pd.store (vpn va) (decEntry (s.pd.pteAt (vpn va)))) a
          (by rw [ha]; exact ht1 _)
        rw [this, ha, e1, mapped_dec, has_dec_U, hU, pteFrame_dec]
        rfl
      right
      by_cases hb : s.m.mem (pteFrame (s.pd.pteAt (vpn va))) 0 = 0#8
      · refine Or.inl ⟨hE, hU, hb, ?_⟩
        unfold mdecryptPage
        rw [hw]
        simp only [hE, hU, h0, Bool.not_true, Bool.false_eq_true, if_false, hk va rfl,
          hk _ (vpn_pgRoundDown va), Lib.ok_bind, hb, if_true]
        rfl
      · refine Or.inr ⟨hE, hU, hb, ?_⟩
        unfold mdecryptPage
        rw [hw]
        simp only [hE, hU, h0, Bool.not_true, Bool.false_eq_true, if_false, hk va rfl,
          hk _ (vpn_pgRoundDown va), Lib.ok_bind, hb, flipBytes, vpn_pgRoundDown, e1, has_dec_P,
          pteFrame_dec, PgDir.store_store]
        rfl
    · refine Or.inl ⟨rfl, hn, ?_⟩
      unfold mdecryptPage
      rw [hw]
      cases hE : has (s.pd.pteAt (vpn va)) pteE with
      | false => simp only [hE, Bool.not_false, if_true]
      | true =>
        cases hU : has (s.pd.pteAt (vpn va)) pteU with
        | false =>
          simp only [hE, hU, Bool.not_true, Bool.not_false, Bool.false_eq_true, if_false, if_true]
        | true => exact absurd ⟨hE, hU⟩ hn

end Xv6Clock
