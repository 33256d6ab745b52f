/-
  File:      Xv6Clock/GetpgtableSnapshot.lean
  Subject:   Do the entries that `getpgtable` (vm.c) has written agree with the page table?

  A store to an encrypted page of the buffer decrypts it, and evicts a page if the queue is full;
  if one of the two is listed already, its entry is out of date, until another fault turns the page
  back. So the entries agree at the return exactly if the faults after the completion of an entry
  turn its page an even number of times (`TurnsEven`).
-/
import Xv6Clock.GetpgtableBounds
import Xv6Clock.GetpgtableList

namespace Xv6Clock

variable (cfg : Config)

/-! ## 1. The property and the condition -/

/-- The page an entry names. -/
def entryPage (s : Vm) (entries t : Nat) : Nat :=
  (field s entries t .pdx).toNat * 1024 + (field s entries t .ptx).toNat

/-- **Entry `t` agrees with the page table** in `present`, `encrypted` and `ppage`. -/
def Agrees (s : Vm) (entries t : Nat) : Prop :=
  ∀ f ∈ [PtField.present, .encrypted, .ppage], field s entries t f =
    f.of (entryPage s entries t * 4096) (s.pd.pteAt (entryPage s entries t))

/-- **A consistent snapshot**: when the call returns, every entry it wrote agrees with the page
    table. -/
def Snapshot (m : Kmem) (p : Proc) (entries : Nat) (num : Int) (wset : Bool) : Prop :=
  ∀ x, Returns cfg m p entries num wset x → ∀ t, t < x.i → Agrees (x.p.vm x.m) entries t

/-- The step from `x` turns page `u`: it faults on `u` and decrypts it, or evicts `u` and encrypts
    it, and not both. -/
def Scan.turns (entries : Nat) (x : Scan) (u : Nat) : Bool :=
  match x.pc with
  | .write f _ _ =>
    match missing x.p (fieldAddr entries x.i f) with
    | some a => (u == vpn a) != (decide (cfg.clockSize ≤ x.p.q.inClock) &&
        u == victimPage cfg x.p.pgdir x.p.q (vpn a) && (u == vpn a || plain (x.p.pgdir.pteAt u)))
    | none => false
  | _ => false

/-- The pages of the complete entries, each with the number of times it was turned since. -/
def Scan.note (entries : Nat) (x : Scan) (l : List (Nat × Nat)) : List (Nat × Nat) :=
  l.map (fun e => (e.1, if x.turns cfg entries e.1 then e.2 + 1 else e.2)) ++
    if x.pc = .read [] then [(vpn x.uva, 0)] else []

/-- Up to `n` steps, with these notes. -/
def Scan.trace (entries : Nat) (num : Int) (wset : Bool) :
    Nat → Scan → List (Nat × Nat) → Except Err (Scan × List (Nat × Nat))
  | 0, x, l => .ok (x, l)
  | n + 1, x, l => do
    let x' ← x.step cfg entries num wset
    trace entries num wset n x' (x.note cfg entries l)

/-- **Every page that is listed is turned an even number of times** (most often not at all) by the
    faults after its entry is complete. -/
def TurnsEven (m : Kmem) (p : Proc) (entries : Nat) (num : Int) (wset : Bool) : Prop :=
  ∀ n x l, Scan.trace cfg entries num wset n (scanStart m p) [] = .ok (x, l) → x.pc = .ret →
    ∀ e ∈ l, e.2 % 2 = 0

/-! ## 2. The invariant -/

/-- Entry `t` describes page `e.1` as it was before the last `e.2` turns. -/
structure Noted (sz : Nat) (s : Vm) (entries t : Nat) (e : Nat × Nat) : Prop where
  low : e.1 < pages sz
  user : has (s.pd.pteAt e.1) pteU = true
  index : ∀ f : PtField, f.word = 0 → field s entries t f = f.of (e.1 * 4096) 0
  frame : field s entries t .ppage = PtField.ppage.of (e.1 * 4096) (s.pd.pteAt e.1)
  present : field s entries t .present =
    if plain (s.pd.pteAt e.1) != decide (e.2 % 2 = 1) then 1 else 0
  encrypted : field s entries t .encrypted =
    if plain (s.pd.pteAt e.1) != decide (e.2 % 2 = 1) then 0 else 1

/-- The process as exec and sbrk leave it, no frame used twice, and the buffer below its size. -/
structure ScanBase (entries : Nat) (num : Int) (x : Scan) : Prop where
  shaped : Shaped x.p
  once : ∀ f, x.p.pgdir.holds f ≤ 1
  range : entries + entrySize * num.toNat ≤ x.p.sz
  aligned : x.uva % 4096 = 0
  bound : x.uva < 2 ^ 32

/-- The entry in the making: the user page it is for, its fields `put`, and the presence of its
    second word. -/
structure SnapPut (entries : Nat) (x : Scan) (put : List PtField) : Prop where
  low : vpn x.uva < pages x.p.sz
  user : has (x.p.pgdir.pteAt (vpn x.uva)) pteU = true
  fields : ∀ f ∈ put, f ≠ .ref → field (x.p.vm x.m) entries x.i f =
    f.of x.uva (x.p.pgdir.pteAt (vpn x.uva))
  here : 2 < put.length → missing x.p (fieldAddr entries x.i .ppage) = none

/-- The entries that are complete. -/
structure SnapOld (sz entries : Nat) (num : Int) (x : Scan) (l : List (Nat × Nat)) : Prop extends
    ScanBase entries num x where
  size : x.p.sz = sz
  len : l.length = x.i
  old : ∀ t e, l[t]? = some e → Noted sz (x.p.vm x.m) entries t e

structure SnapInv (sz entries : Nat) (num : Int) (x : Scan) (l : List (Nat × Nat)) : Prop extends
    SnapOld sz entries num x l where
  read : ∀ fs, x.pc = .read fs → ∃ put, PtField.stored = put ++ fs ∧ SnapPut entries x put
  write : ∀ f val fs, x.pc = .write f val fs → ∃ put, PtField.stored = put ++ f :: fs ∧
    SnapPut entries x put ∧ (f ≠ .ref → val = f.of x.uva (x.p.pgdir.pteAt (vpn x.uva))) ∧
    val &&& Lib.lowMask f.width = val

variable {s : Vm} {t n a : Nat} {f : PtField} {val : Word} {fs : List PtField}

section
variable {cfg} {entries : Nat} {num : Int} {wset : Bool} {x x' : Scan} {l : List (Nat × Nat)}
  {sz : Nat}

/-- The page of an entry, from its indices. -/
theorem entryPage_eq {v : Nat} {w : Word} (hv : v < 2 ^ 20)
    (hd : field s entries t .pdx = PtField.pdx.of (v * 4096) w)
    (ht : field s entries t .ptx = PtField.ptx.of (v * 4096) w) : entryPage s entries t = v := by
  unfold entryPage
  rw [hd, ht]
  change (BitVec.ofNat 32 (pdx (v * 4096))).toNat * 1024 +
    (BitVec.ofNat 32 (ptx (v * 4096))).toNat = v
  rw [BitVec.toNat_ofNat, BitVec.toNat_ofNat]
  unfold pdx ptx
  omega

/-- Fields over the same logical bytes. -/
theorem field_congr {s' : Vm} (hn : entries + entrySize * n ≤ kernBase) (ht : t < n)
    (h : ∀ c, c < entries + entrySize * n → ubyte s' c = ubyte s c) :
    field s' entries t f = field s entries t f := by
  obtain ⟨ea, hea⟩ := @fieldAddr_eq entries t n f hn ht
  unfold kernBase at hn
  unfold field
  refine congrArg (Lib.getBits · f.low f.width) (le32_congr fun j hj => ?_)
  rw [Nat.zero_add, addU_eq (by omega)]
  exact h _ (by omega)

theorem missing_congr {p p' : Proc} (h : ∀ u, has (p'.pgdir.pteAt u) pteP =
    has (p.pgdir.pteAt u) pteP) : missing p' a = missing p a := by
  unfold missing
  rw [h, h]

/-- The word of a store, all its pages present. -/
theorem ScanBase.resident (h : ScanBase entries num x) (hi : (x.i : Int) < num)
    (hm : missing x.p (fieldAddr entries x.i f) = none) :
    Resident x.p.pgdir (fieldAddr entries x.i f) 4 := h.shaped.resident h.range (by omega) hm

/-- A user page below the size has one of the flags, and is in plain text where it is present. -/
theorem Shape.flags {pd : PgDir} {sz u : Nat} (h : Shape pd sz) (hu : u < pages sz)
    (hU : has (pd.pteAt u) pteU = true) : has (pd.pteAt u) pteP = plain (pd.pteAt u) ∧
      has (pd.pteAt u) pteE = !plain (pd.pteAt u) := by
  have hone := (h.low u hu).1
  have hP := h.present hu
  rw [hU, Bool.not_true, Bool.false_or] at hP
  rw [hP] at hone
  refine ⟨hP, ?_⟩
  revert hone
  cases plain (pd.pteAt u) <;> cases has (pd.pteAt u) pteE <;> decide

/-- **Whether an entry agrees** is a matter of the parity. -/
theorem Noted.agrees_iff {e : Nat × Nat} (h : Noted sz s entries t e) (hs : Shape s.pd sz)
    (hsz : sz < kernBase) : Agrees s entries t ↔ e.2 % 2 = 0 := by
  have hlow := h.low
  have hsz19 := pages_le hsz
  have hpage : entryPage s entries t = e.1 :=
    entryPage_eq (by omega) (h.index .pdx rfl) (h.index .ptx rfl)
  obtain ⟨hP, hE⟩ := hs.flags hlow h.user
  unfold Agrees
  simp only [List.mem_cons, List.not_mem_nil, or_false, forall_eq_or_imp, forall_eq]
  rw [hpage, h.present, h.encrypted, h.frame, PtField.of_present, hP,
    show PtField.encrypted.of (e.1 * 4096) (s.pd.pteAt e.1) =
      if has (s.pd.pteAt e.1) pteE then 1 else 0 from rfl, hE]
  rcases Nat.mod_two_eq_zero_or_one e.2 with h2 | h2 <;> rw [h2]
  · cases plain (s.pd.pteAt e.1) <;> simp
  · cases plain (s.pd.pteAt e.1) <;> simp

/-- An entry in a later state: the same fields, and a PTE that was turned or not. -/
theorem Noted.keep {s' : Vm} {e : Nat × Nat} {b : Bool} (h : Noted sz s entries t e)
    (hf : ∀ f, field s' entries t f = field s entries t f)
    (hU : has (s'.pd.pteAt e.1) pteU = has (s.pd.pteAt e.1) pteU)
    (hframe : pteFrame (s'.pd.pteAt e.1) = pteFrame (s.pd.pteAt e.1))
    (hplain : plain (s'.pd.pteAt e.1) = (plain (s.pd.pteAt e.1) != b)) :
    Noted sz s' entries t (e.1, if b then e.2 + 1 else e.2) := by
  have hpar : (plain (s'.pd.pteAt e.1) != decide ((if b then e.2 + 1 else e.2) % 2 = 1)) =
      (plain (s.pd.pteAt e.1) != decide (e.2 % 2 = 1)) := by
    rw [hplain]
    rcases Nat.mod_two_eq_zero_or_one e.2 with h2 | h2
    · have h3 : (e.2 + 1) % 2 = 1 := by omega
      cases b <;> cases plain (s.pd.pteAt e.1) <;> simp [h2, h3]
    · have h3 : (e.2 + 1) % 2 = 0 := by omega
      cases b <;> cases plain (s.pd.pteAt e.1) <;> simp [h2, h3]
  refine ⟨h.low, hU.trans h.user, fun f hw => (hf f).trans (h.index f hw), ?_, ?_, ?_⟩
  · rw [hf, h.frame, PtField.of_ppage, PtField.of_ppage, hframe]
  · rw [hf, h.present, ← hpar]
  · rw [hf, h.encrypted, ← hpar]

/-! ## 3. Steps -/

/-- The loop moves on over the same process. -/
theorem ScanBase.move (h : ScanBase entries num x) (hp : x'.p = x.p) (ha : x'.uva % 4096 = 0)
    (hb : x'.uva < 2 ^ 32) : ScanBase entries num x' := by
  refine ⟨?_, ?_, ?_, ha, hb⟩
  · rw [hp]; exact h.shaped
  · rw [hp]; exact h.once
  · rw [hp]; exact h.range

theorem ScanBase.down (h : ScanBase entries num x) : ScanBase entries num x.down := by
  have ha := h.aligned
  refine h.move (Scan.down_p x) ?_ ?_ <;>
  · rw [Scan.down_uva]
    unfold subU pgSize
    omega

/-- The reference bits after a store. -/
theorem touchWord_refs {p : Proc} (hres : Resident p.pgdir a 4) (u : Nat) :
    (touchWord p a).pgdir.pteAt u = p.pgdir.pteAt u ∨
      (touchWord p a).pgdir.pteAt u = setRef (p.pgdir.pteAt u) := by
  rw [touchWord_pteAt hres]
  split
  · exact .inr rfl
  · exact .inl rfl

section
variable (h : ScanBase entries num x)
include h

/-- A store with all its pages present. -/
theorem ScanBase.stored (hi : (x.i : Int) < num) (hm : missing x.p (fieldAddr entries x.i f) = none)
    (val : Word) (pc : ScanPc) : ScanBase entries num { x.store entries f val with pc := pc } := by
  have hrec := touchWord_recoded (m := x.m) (h.resident hi hm)
  have hshape := hrec.toPdRecoded.shape h.shaped.shape
  exact ⟨⟨⟨hshape.high, h.shaped.size⟩, hshape⟩, fun g => (hrec.holds g).symm ▸ h.once g, h.range,
    h.aligned, h.bound⟩

theorem ScanBase.stored_field (hi : (x.i : Int) < num)
    (hm : missing x.p (fieldAddr entries x.i f) = none) (hfit : val &&& Lib.lowMask f.width = val)
    (g : PtField) (ht : t < num.toNat) :
    field ((x.store entries f val).p.vm (x.store entries f val).m) entries t g =
      if t = x.i ∧ g = f then val else field (x.p.vm x.m) entries t g :=
  store_field h.once (h.shaped.kern h.range) (by omega) ht (h.resident hi hm)
    (fun c _ hc => h.shaped.mapped h.range hc) hfit

/-- A fault leaves what user code reads. -/
theorem ScanBase.faulted {q : ClockQ} (hd : mdecrypt cfg (x.p.vm x.m) x.p.q a = .ok (0, s, q)) :
    ScanBase entries num { x with m := s.m, p := { x.p with pgdir := s.pd, q := q } } ∧
      ∀ t g, t < num.toNat → field s entries t g = field (x.p.vm x.m) entries t g := by
  have hflips := mdecrypt_flips cfg h.shaped.high hd
  have hrec := hflips.recoded
  have hshape := hrec.toPdRecoded.shape h.shaped.shape
  refine ⟨⟨⟨⟨hshape.high, h.shaped.size⟩, hshape⟩, ?_, h.range, h.aligned, h.bound⟩, ?_⟩
  · exact fun g => (hrec.holds g).symm ▸ h.once g
  · have hkern := h.shaped.kern h.range
    refine fun t g ht => field_congr hkern ht fun c hc => ?_
    unfold ubyte
    rw [hflips.logical h.once (vpn_low (by omega)) (h.shaped.mapped h.range hc)]

/-- There is an entry left for the word that is written. -/
theorem ScanBase.lt {p : Proc} (hin : InBounds p entries num x) (hpc : x.pc = .write f val fs) :
    (x.i : Int) < num := by
  obtain ⟨h1, h2⟩ := hin.write f val fs hpc
  have hc := hin.count
  have hr := h.range
  have hsz := h.shaped.size
  have hw := f.word_le
  unfold kernBase at hsz
  unfold fieldAddr entrySize at *
  by_contra hge
  rw [addU_eq (by omega)] at h1 h2
  omega

end

/-- Notes are made where a store faults, and where an entry is complete. -/
theorem note_same
    (h : ∀ f v fs, x.pc = .write f v fs → missing x.p (fieldAddr entries x.i f) = none)
    (hpc : x.pc ≠ .read []) (l : List (Nat × Nat)) : x.note cfg entries l = l := by
  have ht : ∀ u, x.turns cfg entries u = false := fun u => by
    unfold Scan.turns
    split
    · rename_i f v fs hw
      rw [h f v fs hw]
    · rfl
  unfold Scan.note
  rw [if_neg hpc, List.append_nil]
  simp [ht]

/-- **A fault turns pages as noted.** -/
theorem turns_plain {v : Word} {q : ClockQ} (hpc : x.pc = .write f v fs)
    (hm : missing x.p (fieldAddr entries x.i f) = some a)
    (hE : has (x.p.pgdir.pteAt (vpn a)) pteE = true)
    (hd : mdecrypt cfg (x.p.vm x.m) x.p.q a = .ok (0, s, q)) (u : Nat) :
    plain (s.pd.pteAt u) = (plain (x.p.pgdir.pteAt u) != x.turns cfg entries u) := by
  have hnot : u = vpn a → plain (x.p.pgdir.pteAt u) = false := fun hu => by
    rw [hu, plain, hE, Bool.not_true, Bool.and_false]
  unfold Scan.turns
  rw [mdecrypt_plain cfg hd, hpc]
  dsimp only
  rw [hm, Proc.vm_pd]
  dsimp only
  by_cases hu : u = vpn a
  · rw [hnot hu, hu, beq_self_eq_true]
    generalize (decide (cfg.clockSize ≤ x.p.q.inClock) &&
      vpn a == victimPage cfg x.p.pgdir x.p.q (vpn a)) = b
    cases b <;> rfl
  · rw [beq_false_of_ne hu]
    generalize (decide (cfg.clockSize ≤ x.p.q.inClock) &&
      u == victimPage cfg x.p.pgdir x.p.q (vpn a)) = b
    cases b <;> cases plain (x.p.pgdir.pteAt u) <;> rfl

section
variable (h : SnapOld sz entries num x l)
include h

/-- The loop is at another page, or at its end. -/
theorem SnapOld.at (hm : x'.m = x.m) (hp : x'.p = x.p) (hi : x'.i = x.i)
    (hb : ScanBase entries num x') (hpc : x'.pc = .look ∨ x'.pc = .ret) :
    SnapInv sz entries num x' l := by
  have hsz := h.size
  have hold := h.old
  rw [← hp] at hsz
  rw [← hp, ← hm] at hold
  refine ⟨⟨hb, hsz, h.len.trans hi.symm, hold⟩, fun fs hc => ?_, fun f v fs hc => ?_⟩
  · rcases hpc with hpc | hpc <;> rw [hpc] at hc <;> cases hc
  · rcases hpc with hpc | hpc <;> rw [hpc] at hc <;> cases hc

theorem SnapOld.down : SnapInv sz entries num x.down l :=
  h.at (Scan.down_m x) (Scan.down_p x) (Scan.down_i x) h.toScanBase.down (.inl (Scan.down_pc x))

theorem SnapOld.next : SnapInv sz entries num (x.next num) l := by
  unfold Scan.next
  split
  · exact h.at rfl rfl rfl (h.toScanBase.move rfl h.aligned h.bound) (.inr rfl)
  · exact h.down

end

/-- The entry that is complete. -/
theorem SnapPut.noted (h : ScanBase entries num x) (hp : SnapPut entries x PtField.stored) :
    Noted x.p.sz (x.p.vm x.m) entries x.i (vpn x.uva, 0) := by
  have hva : vpn x.uva * 4096 = x.uva := by
    have ha := h.aligned
    have hb := h.bound
    unfold vpn
    omega
  obtain ⟨hP, hE⟩ := h.shaped.shape.flags hp.low hp.user
  have hfield : ∀ f, f ∈ PtField.stored → f ≠ .ref → field (x.p.vm x.m) entries x.i f =
      f.of (vpn x.uva * 4096) (x.p.pgdir.pteAt (vpn x.uva)) := fun f hf hr => by
    rw [hva]
    exact hp.fields f hf hr
  refine ⟨hp.low, hp.user, fun f hw => ?_, hfield .ppage (by decide) (by decide), ?_, ?_⟩
  · rw [hfield f (by revert hw; cases f <;> decide) (by revert hw; cases f <;> decide)]
    exact f.of_word_zero hw _ _ _
  · rw [hfield .present (by decide) (by decide), PtField.of_present, hP]
    simp
  · rw [hfield .encrypted (by decide) (by decide), PtField.of, hE]
    change (if !plain (x.p.pgdir.pteAt (vpn x.uva)) then 1 else 0 : Word) =
      if plain (x.p.pgdir.pteAt (vpn x.uva)) != false then 0 else 1
    cases plain (x.p.pgdir.pteAt (vpn x.uva)) <;> rfl

section
variable (h : SnapInv sz entries num x l)
include h

/-- **An entry is complete.** -/
theorem SnapInv.complete (hpc : x.pc = .read []) :
    SnapInv sz entries num (Scan.next num { x with i := x.i + 1 }) (x.note cfg entries l) := by
  obtain ⟨put, hput, hp⟩ := h.read [] hpc
  rw [List.append_nil] at hput
  rw [← hput] at hp
  have hnew := hp.noted h.toScanBase
  rw [h.size] at hnew
  have hnote : x.note cfg entries l = l ++ [(vpn x.uva, 0)] := by
    unfold Scan.note Scan.turns
    rw [hpc, if_pos rfl]
    simp
  rw [hnote]
  refine SnapOld.next ⟨h.toScanBase.move rfl h.aligned h.bound, h.size, ?_, fun t e hget => ?_⟩
  · rw [List.length_append, h.len]
    rfl
  · by_cases ht : t < l.length
    · rw [List.getElem?_append_left ht] at hget
      exact h.old t e hget
    · rw [List.getElem?_append_right (by omega), List.getElem?_singleton] at hget
      split at hget
      · cases hget
        obtain rfl : t = x.i := by rw [← h.len]; omega
        exact hnew
      · cases hget

/-- **A field is stored.** -/
theorem SnapInv.put (hlt : (x.i : Int) < num) (hpc : x.pc = .write f val fs)
    (hm : missing x.p (fieldAddr entries x.i f) = none) :
    SnapInv sz entries num { x.store entries f val with pc := .read fs } l := by
  obtain ⟨put, hput, hp, hval, hfit⟩ := h.write f val fs hpc
  have hpte := touchWord_refs (h.resident hlt hm)
  have hkeep : ∀ u, has ((touchWord x.p (fieldAddr entries x.i f)).pgdir.pteAt u) pteU =
        has (x.p.pgdir.pteAt u) pteU ∧
      pteFrame ((touchWord x.p (fieldAddr entries x.i f)).pgdir.pteAt u) =
        pteFrame (x.p.pgdir.pteAt u) ∧
      plain ((touchWord x.p (fieldAddr entries x.i f)).pgdir.pteAt u) =
        plain (x.p.pgdir.pteAt u) ∧ ∀ g : PtField, g ≠ .ref →
        g.of x.uva ((touchWord x.p (fieldAddr entries x.i f)).pgdir.pteAt u) =
          g.of x.uva (x.p.pgdir.pteAt u) := fun u => by
    rcases hpte u with h1 | h1 <;> rw [h1]
    · exact ⟨rfl, rfl, rfl, fun _ _ => rfl⟩
    · exact ⟨has_setRef_U _, pteFrame_setRef _, plain_setRef _,
        fun g hr => PtField.of_setRef hr _ _⟩
  have hstored : PtField.stored = (put ++ [f]) ++ fs := by
    rw [hput, List.append_assoc]
    rfl
  refine ⟨⟨h.toScanBase.stored hlt hm val _, h.size, h.len, fun t e hget => ?_⟩,
    fun gs hc => ?_, fun _ _ _ hc => by cases hc⟩
  · have ht := (List.getElem?_eq_some_iff.mp hget).1
    rw [h.len] at ht
    refine (h.old t e hget).keep (b := false) (fun g => ?_) (hkeep _).1 (hkeep _).2.1 ?_
    · refine (h.stored_field (t := t) hlt hm hfit g (by omega)).trans (if_neg fun hc => ?_)
      omega
    · exact (hkeep _).2.2.1.trans (Bool.bne_false _).symm
  · cases hc
    refine ⟨put ++ [f], hstored, hp.low, (hkeep _).1.trans hp.user, fun g hg hr => ?_,
      fun hlen => ?_⟩
    · refine (h.stored_field (t := x.i) hlt hm hfit g (by omega)).trans ?_
      refine Eq.trans ?_ ((hkeep _).2.2.2 g hr).symm
      by_cases hgf : g = f
      · rw [if_pos ⟨rfl, hgf⟩, hgf]
        exact hval (hgf ▸ hr)
      · rw [if_neg fun hc => hgf hc.2]
        exact hp.fields g ((List.mem_append.mp hg).resolve_right fun hc =>
          hgf (List.mem_singleton.mp hc)) hr
    · -- from `ppage` on the fields are in the second word
      rw [List.length_append, List.length_singleton] at hlen
      change missing (touchWord x.p (fieldAddr entries x.i f)) (fieldAddr entries x.i .ppage) = none
      rw [fieldAddr_ppage (PtField.second_word hput (by omega)), ← hm]
      refine missing_congr fun u => ?_
      rcases hpte u with h1 | h1 <;> rw [h1]
      exact has_setRef_P _

/-- **A fault.** -/
theorem SnapInv.fault (hlt : (x.i : Int) < num) (hpc : x.pc = .write f val fs)
    (hm : missing x.p (fieldAddr entries x.i f) = some a) (hs : x.fault cfg a = .ok x') :
    SnapInv sz entries num x' (x.note cfg entries l) := by
  obtain ⟨put, hput, hp, hval, hfit⟩ := h.write f val fs hpc
  obtain ⟨s, q, hd, -, rfl⟩ := Scan.fault_ok hs
  have hrec := (mdecrypt_flips cfg h.shaped.high hd).recoded
  obtain ⟨hbase, hfield⟩ := h.toScanBase.faulted hd
  have henc := h.shaped.missing_encrypted h.range (by omega) hm
  -- only fields of the first word are stored before a fault
  have hshort : put.length ≤ 2 := by
    by_contra hlen
    have hn := hp.here (by omega)
    rw [fieldAddr_ppage (PtField.second_word hput (by omega)), hm] at hn
    cases hn
  have hnote : x.note cfg entries l =
      l.map fun e => (e.1, if x.turns cfg entries e.1 then e.2 + 1 else e.2) := by
    unfold Scan.note
    rw [if_neg (by rw [hpc]; simp), List.append_nil]
  rw [hnote]
  refine ⟨⟨hbase, h.size, (List.length_map _).trans h.len, fun t e hget => ?_⟩,
    fun gs hc => ?_, fun g v gs hc => ?_⟩
  · rw [List.getElem?_map] at hget
    obtain ⟨e0, he0, rfl⟩ := Option.map_eq_some_iff.mp hget
    have ht := (List.getElem?_eq_some_iff.mp he0).1
    rw [h.len] at ht
    exact (h.old t e0 he0).keep (fun g => hfield t g (by omega)) (hrec.entry e0.1).user
      (hrec.entry e0.1).frame (turns_plain hpc hm (encrypted_iff.mp henc).1 hd e0.1)
  · change x.pc = _ at hc
    rw [hpc] at hc
    cases hc
  · cases hpc.symm.trans hc
    refine ⟨put, hput, ⟨hp.low, (hrec.entry _).user.trans hp.user, fun g hg hr => ?_,
      fun hlen => absurd hlen (by omega)⟩, fun hr => ?_, hfit⟩
    · have hw := (PtField.first_word hput hshort).2 hg
      refine (hfield x.i g (by omega)).trans ((hp.fields g hg hr).trans ?_)
      exact g.of_word_zero hw x.uva _ _
    · refine (hval hr).trans ?_
      rcases (PtField.first_word (g := f) hput hshort).1 with hw | rfl
      · exact f.of_word_zero hw x.uva _ _
      · rw [PtField.of_ppage, PtField.of_ppage]
        exact congrArg _ (hrec.entry (vpn x.uva)).frame.symm

/-- The page at which the loop is lies below the size. -/
theorem SnapInv.vpn_lt (hret : x.pc ≠ .ret) (hlook : x.pc = .look → x.uva < pgRoundUp sz) :
    vpn x.uva < pages x.p.sz := by
  cases hpc : x.pc with
  | ret => exact absurd hpc hret
  | look =>
    have hl := hlook hpc
    have hsz := h.shaped.size
    rw [h.size] at hsz ⊢
    rw [pgRoundUp_pages (Nat.le_of_lt hsz)] at hl
    have hv : vpn x.uva ≤ x.uva / 2 ^ 12 := Nat.mod_le _ _
    omega
  | read fs =>
    obtain ⟨put, -, hp⟩ := h.read fs hpc
    exact hp.low
  | write f v fs =>
    obtain ⟨put, -, hp, -⟩ := h.write f v fs hpc
    exact hp.low

end

/-- **Every step of a call in bounds keeps the invariant.** -/
theorem SnapInv.step {p : Proc} (h : SnapInv p.sz entries num x l) (hin : InBounds p entries num x)
    (hs : x.step cfg entries num wset = .ok x') :
    SnapInv p.sz entries num x' (x.note cfg entries l) := by
  by_cases hret : x.pc = .ret
  · unfold Scan.step at hs
    rw [hret] at hs
    cases hs
    rw [note_same (by rw [hret]; simp) (by rw [hret]; simp)]
    exact h
  have hlow := h.vpn_lt hret hin.look
  have hmove : ∀ pc, ScanBase entries num { x with pc := pc } := fun _ =>
    h.toScanBase.move rfl h.aligned h.bound
  have hnote : ∀ {pc}, x.pc = pc → (∀ f v fs, pc ≠ .write f v fs) → pc ≠ .read [] →
      x.note cfg entries l = l := fun hpc h1 h2 =>
    note_same (fun f v fs hw => absurd (hpc.symm.trans hw) (h1 f v fs)) (hpc ▸ h2) l
  cases Scan.stepped (PgDir.tabAt_of_mapped (h.shaped.shape.mapped hlow)) hs with
  | halt hpc => exact absurd hpc hret
  | fault hpc hm hf => exact h.fault (h.lt hin hpc) hpc hm hf
  | skip hpc hw =>
    rw [hnote hpc (by simp) (by simp)]
    exact h.toSnapOld.down
  | pass hpc hU hm hw =>
    rw [hnote hpc (by simp) (by simp)]
    exact h.toSnapOld.next
  | list hpc hU hm hw =>
    rw [hnote hpc (by simp) (by simp)]
    refine ⟨⟨hmove _, h.size, h.len, h.old⟩, fun fs hc => ?_, fun _ _ _ hc => by cases hc⟩
    cases hc
    exact ⟨[], rfl, hlow, hU, fun f hf => absurd hf List.not_mem_nil,
      fun hc => absurd hc (by decide)⟩
  | @value f fs hpc =>
    rw [hnote hpc (by simp) (by simp)]
    obtain ⟨put, h1, h2⟩ := h.read _ hpc
    refine ⟨⟨hmove _, h.size, h.len, h.old⟩, fun _ hc => (by cases hc), fun g v gs hc => ?_⟩
    cases hc
    exact ⟨put, h1, ⟨h2.low, h2.user, h2.fields, h2.here⟩, fun _ => rfl, f.of_fits _ _⟩
  | @put f v fs hpc hm =>
    rw [note_same (fun g w gs hc => ?_) (by rw [hpc]; simp)]
    · exact h.put (h.lt hin hpc) hpc hm
    · cases hpc.symm.trans hc
      exact hm
  | done hpc => exact h.complete hpc

theorem SnapInv.start {m : Kmem} {p : Proc} (hp : Shaped p) (hone : ∀ f, p.pgdir.holds f ≤ 1)
    (hbuf : entries + entrySize * num.toNat ≤ p.sz) :
    SnapInv p.sz entries num (scanStart m p) [] := by
  have hsz := hp.size
  unfold kernBase at hsz
  refine ⟨⟨⟨hp, hone, hbuf, ?_, ?_⟩, rfl, rfl, fun t e hget => by cases hget⟩,
    fun _ hc => (by cases hc), fun _ _ _ hc => by cases hc⟩
  · unfold scanStart subU pgRoundDown pgSize
    dsimp only
    split <;> omega
  · unfold scanStart subU pgRoundDown pgSize
    dsimp only
    split <;> omega

/-- What is kept by every step of a call in bounds holds after any number of them. -/
theorem SnapInv.trace {p : Proc} {x0 y : Scan} {l' : List (Nat × Nat)}
    (hin : ∀ x, ScanReach cfg entries num wset x0 x → InBounds p entries num x) :
    ∀ {x l}, ScanReach cfg entries num wset x0 x → SnapInv p.sz entries num x l →
      Scan.trace cfg entries num wset n x l = .ok (y, l') → SnapInv p.sz entries num y l' := by
  induction n with
  | zero =>
    intro x l _ h ht
    cases ht
    exact h
  | succ n ih =>
    intro x l hx h ht
    obtain ⟨x1, hs, h1⟩ := Lib.bind_eq_ok.mp ht
    exact ih (.step (e := ()) hx hs) (h.step (hin x hx) hs) h1

/-- The notes do not change the run. -/
theorem trace_run : ∀ {x y : Scan} {l : List (Nat × Nat)},
    Scan.run cfg entries num wset n x = .ok y ↔
      ∃ l', Scan.trace cfg entries num wset n x l = .ok (y, l') := by
  induction n with
  | zero =>
    intro x y l
    refine ⟨fun h => ?_, fun h => ?_⟩
    · cases h
      exact ⟨l, rfl⟩
    · obtain ⟨l', h⟩ := h
      cases h
      rfl
  | succ n ih =>
    intro x y l
    unfold Scan.run Scan.trace
    cases x.step cfg entries num wset with
    | error e =>
      refine ⟨fun h => (by cases h), fun h => ?_⟩
      obtain ⟨l', h⟩ := h
      cases h
    | ok x1 => exact ih

end

/-! ## 4. The theorem -/

/-- `InBounds`, computed. -/
def Scan.inside (p : Proc) (entries : Nat) (num : Int) (x : Scan) : Bool :=
  decide ((x.i : Int) ≤ num) &&
  match x.pc with
  | .look => decide (x.uva < pgRoundUp p.sz)
  | .write f _ _ => decide (entries ≤ fieldAddr entries x.i f ∧
      (fieldAddr entries x.i f + 4 : Int) ≤ entries + entrySize * num)
  | _ => true

section
variable {cfg} {m : Kmem} {p : Proc} {entries k : Nat} {num : Int} {wset : Bool}

theorem Scan.inside.inBounds {x : Scan} (h : x.inside p entries num = true) :
    InBounds p entries num x := by
  unfold Scan.inside at h
  obtain ⟨h1, h2⟩ := Bool.and_eq_true_iff.mp h
  refine ⟨fun hpc => ?_, fun f v fs hpc => ?_, of_decide_eq_true h1⟩
  · rw [hpc] at h2
    exact of_decide_eq_true h2
  · rw [hpc] at h2
    exact of_decide_eq_true h2

/-- After the return nothing changes, and nothing is noted. -/
theorem trace_stays {y : Scan} {l' : List (Nat × Nat)} (hret : y.pc = .ret) :
    ∀ {k : Nat} {x : Scan} {l : List (Nat × Nat)}, k ≤ n →
      Scan.trace cfg entries num wset k x l = .ok (y, l') →
      Scan.trace cfg entries num wset n x l = .ok (y, l') := by
  induction n with
  | zero =>
    intro k x l hk h
    rwa [Nat.le_zero.mp hk] at h
  | succ n ih =>
    intro k x l hk h
    cases k with
    | zero =>
      cases h
      have hs : y.step cfg entries num wset = .ok y := by
        unfold Scan.step
        rw [hret]
      unfold Scan.trace
      rw [hs, Lib.ok_bind, note_same (by rw [hret]; simp) (by rw [hret]; simp)]
      exact ih (Nat.zero_le n) rfl
    | succ k =>
      unfold Scan.trace at h ⊢
      obtain ⟨x1, hs, h1⟩ := Lib.bind_eq_ok.mp h
      rw [hs, Lib.ok_bind]
      exact ih (by omega) h1

end

/-- A call in bounds, by computation, and how it returns. -/
theorem inBounds_of_trace (m : Kmem) (p : Proc) (entries : Nat) (num : Int) (wset : Bool) (k : Nat)
    (ok : Scan × List (Nat × Nat) → Bool)
    (h : ∀ n, n ≤ k → Lib.okAnd (Scan.trace cfg entries num wset n (scanStart m p) []) (fun z =>
      z.1.inside p entries num && ((n == k) == (z.1.pc == .ret)) && (n != k || ok z)) = true) :
    (∀ x, ScanReach cfg entries num wset (scanStart m p) x → InBounds p entries num x) ∧
    ∃ y l, Scan.trace cfg entries num wset k (scanStart m p) [] = .ok (y, l) ∧ y.pc = .ret ∧
      ok (y, l) = true := by
  obtain ⟨⟨y, l⟩, hy, hq⟩ := Lib.okAnd_iff.mp (h k (Nat.le_refl k))
  simp only [Bool.and_eq_true, beq_self_eq_true, bne_self_eq_false, Bool.false_or, beq_iff_eq,
    Bool.true_eq] at hq
  refine ⟨fun x hx => ?_, y, l, hy, hq.1.2, hq.2⟩
  obtain ⟨n, hle, hn⟩ := scanReach_le (trace_run.mpr ⟨l, hy⟩) hq.1.2 hx
  obtain ⟨⟨z, l'⟩, hz, hq⟩ := Lib.okAnd_iff.mp (h n hle)
  cases hn.symm.trans (trace_run.mpr ⟨l', hz⟩)
  simp only [Bool.and_eq_true] at hq
  exact Scan.inside.inBounds hq.1.1

end Xv6Clock
