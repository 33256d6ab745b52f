/-
  File:      Xv6Clock/Getpgtable.lean
  Subject:   `getpgtable` (vm.c) and its system call (sysproc.c): the user pages of a process, from
             the highest down, as an array of `struct pt_entry` in user memory.

  The kernel stores the fields one by one to the user's buffer. A store to a page that is not
  present is a page fault in the kernel, which `trap` hands to `mdecrypt`; it may evict a page, also
  one that is listed already. So the call is a machine here whose steps are single reads and stores:
  * `Scan`, `Scan.step`: the loop, with the page faults as steps of their own;
  * `field`: a field of an entry as user code reads it;
  * `store_field`: what a store does to the fields.
-/
import Xv6Clock.Exec
import Xv6Clock.Lib.BitField
import Xv6Clock.Logical

namespace Xv6Clock

variable (cfg : Config)

/-! ## 1. `struct pt_entry` -/

/-- The declared fields. -/
inductive PtField where
  | pdx | ptx | ppage | present | writable | user | encrypted | ref
  deriving DecidableEq, Repr

namespace PtField

/-- The word of the entry a field is in: `ppage` does not fit into what is left of the first. -/
def word : PtField → Nat
  | pdx | ptx => 0
  | _ => 1

/-- Its first bit. -/
def low : PtField → Nat
  | pdx => 0
  | ptx => 10
  | ppage => 0
  | present => 20
  | writable => 21
  | user => 22
  | encrypted => 23
  | ref => 24

def width : PtField → Nat
  | pdx | ptx => 10
  | ppage => 20
  | _ => 1

/-- The part of address `uva` or of its entry `w` that belongs in a field. -/
def of (uva : Nat) (w : Word) : PtField → Word
  | pdx => BitVec.ofNat 32 (Xv6Clock.pdx uva)
  | ptx => BitVec.ofNat 32 (Xv6Clock.ptx uva)
  | ppage => w >>> 12
  | present => w &&& pteP
  | writable => if has w pteW then 1 else 0
  | user => if has w pteU then 1 else 0
  | encrypted => if has w pteE then 1 else 0
  | ref => if has w pteA then 1 else 0

/-- The fields `getpgtable` stores, in its order. -/
def stored : List PtField := [pdx, ptx, ppage, present, writable, encrypted, ref]

end PtField

/-- `sizeof(struct pt_entry)`. -/
def entrySize : Nat := 8

/-- The word of entry `i` that a field is in. -/
def fieldAddr (entries i : Nat) (f : PtField) : Nat := addU entries (entrySize * i + 4 * f.word)

/-! ## 2. Accesses of the kernel to user memory -/

/-- A page that `[va, va + 4)` needs and that is not present, by the address the fault reports. -/
def missing (p : Proc) (va : Nat) : Option Nat :=
  if !has (p.pgdir.pteAt (vpn va)) pteP then some va
  else if !has (p.pgdir.pteAt (vpn (addU va 3))) pteP then some (pgRoundDown (addU va 3))
  else none

/-- The word at `va`. -/
def loadWord (m : Kmem) (p : Proc) (va : Nat) : Word :=
  le32 (fun j => m.mem (p.frameOf (addU va j)) (addU va j % pgSize)) 0

/-- A byte stored at `va`. -/
def storeByte (m : Kmem) (p : Proc) (va : Nat) (b : Byte) : Kmem :=
  m.setPage (p.frameOf va) (Function.update (m.mem (p.frameOf va)) (va % pgSize) b)

/-- A word stored at `va`. -/
def storeWord (m : Kmem) (p : Proc) (va : Nat) (w : Word) : Kmem :=
  (List.range 4).foldl (fun m j => storeByte m p (addU va j) (byteOf w j)) m

/-- Both pages of `[va, va + 4)` are marked referenced. -/
def touchWord (p : Proc) (va : Nat) : Proc := (p.touch va).touch (addU va 3)

/-! ## 3. The loop -/

/-- Where the loop stands: before it looks at a page, with the fields left to store, or with the
    value of a field that is stored next. -/
inductive ScanPc where
  | look
  | read (fs : List PtField)
  | write (f : PtField) (x : Word) (fs : List PtField)
  | ret
  deriving DecidableEq

structure Scan where
  m : Kmem
  p : Proc
  uva : Nat
  i : Nat
  pc : ScanPc

/-- The inner loop of the working-set mode, from node `j` on: is there a node with this PTE? -/
def findNode (pd : PgDir) (q : ClockQ) (pte : Option Nat) : Nat → Nat → Except Err Bool
  | 0, _ => .ok false
  | n + 1, j => do
    let i ← nodeIndex cfg j
    if pd.walk (q.nodes i) = pte then .ok true else findNode pd q pte n (j + 1)

/-- Is the page put on the list? -/
def wanted (wset : Bool) (p : Proc) (pte : Option Nat) : Except Err Bool :=
  if wset then findNode cfg p.pgdir p.q pte p.q.inClock 0 else .ok true

namespace Scan

/-- A page fault of the kernel: the access is made again. -/
def fault (x : Scan) (va : Nat) : Except Err Scan := do
  let (r, m, p) ← pageFault cfg x.m x.p va
  if r ≠ 0 then .error (.panic .trap) else .ok { x with m := m, p := p }

/-- `*pte`, or the address to be faulted in first. A null pointer is user address 0. -/
def deref (x : Scan) : Except Nat (Word × Proc) :=
  match x.p.pgdir.walk x.uva with
  | some v => .ok (x.p.pgdir.pteAt v, x.p)
  | none =>
    match missing x.p 0 with
    | some a => .error a
    | none => .ok (loadWord x.m x.p 0, touchWord x.p 0)

/-- `uva -= PGSIZE`. -/
def down (x : Scan) : Scan := { x with uva := subU x.uva pgSize, pc := .look }

@[simp] theorem down_m (x : Scan) : x.down.m = x.m := by unfold down; rfl

@[simp] theorem down_p (x : Scan) : x.down.p = x.p := by unfold down; rfl

@[simp] theorem down_i (x : Scan) : x.down.i = x.i := by unfold down; rfl

@[simp] theorem down_pc (x : Scan) : x.down.pc = .look := by unfold down; rfl

@[simp] theorem down_uva (x : Scan) : x.down.uva = subU x.uva pgSize := by unfold down; rfl

/-- The test at the end of the body. -/
def next (num : Int) (x : Scan) : Scan :=
  if x.uva = 0 ∨ (x.i : Int) = num then { x with pc := .ret } else x.down

/-- The store of value `v` to field `f` of entry `i`, all its pages present. -/
def store (entries : Nat) (x : Scan) (f : PtField) (v : Word) : Scan :=
  let a := fieldAddr entries x.i f
  { x with
    m := storeWord x.m x.p a (Lib.putBits (loadWord x.m x.p a) f.low f.width v)
    p := touchWord x.p a }

/-- **One step of the loop.** -/
def step (entries : Nat) (num : Int) (wset : Bool) (x : Scan) : Except Err Scan :=
  match x.pc with
  | .ret => .ok x
  | .look =>
    match x.deref with
    | .error a => x.fault cfg a
    | .ok (w, p) =>
      let x := { x with p := p }
      if !has w pteU || !mapped w then .ok x.down else do
      if ← wanted cfg wset p (p.pgdir.walk x.uva) then .ok { x with pc := .read PtField.stored }
      else .ok (x.next num)
  | .read [] => .ok (next num { x with i := x.i + 1 })
  | .read (f :: fs) =>
    if f.word = 0 then .ok { x with pc := .write f (f.of x.uva 0) fs } else
    match x.deref with
    | .error a => x.fault cfg a
    | .ok (w, p) => .ok { x with p := p, pc := .write f (f.of x.uva w) fs }
  | .write f v fs =>
    match missing x.p (fieldAddr entries x.i f) with
    | some a => x.fault cfg a
    | none => .ok { x.store entries f v with pc := .read fs }

/-- Up to `n` steps. -/
def run (entries : Nat) (num : Int) (wset : Bool) : Nat → Scan → Except Err Scan
  | 0, x => .ok x
  | n + 1, x => do
    let x ← x.step cfg entries num wset
    run entries num wset n x

end Scan

/-- The state before the first round. -/
def scanStart (m : Kmem) (p : Proc) : Scan :=
  ⟨m, p, if p.sz % pgSize = 0 then subU p.sz pgSize else pgRoundDown p.sz, 0, .look⟩

/-- `argptr`: does it take `[va, va + size)`? -/
def argptr (p : Proc) (va : Nat) (size : Int) : Bool :=
  !(size < 0 || p.sz ≤ va || p.sz < addU va size.toNat)

/-- `sys_getpgtable`, its arguments fetched: the loop it starts, or none where it returns -1. -/
def sysGetpgtable (m : Kmem) (p : Proc) (entries : Nat) (num wsetOnly : Int) : Option Scan :=
  if !argptr p entries (toI (num * entrySize)) then none else
  if wsetOnly ≠ 0 ∧ wsetOnly ≠ 1 then none else some (scanStart m p)

/-! ## 4. Steps where the page-table pages exist -/

/-- **What a step does** at an address that has a page-table page. -/
inductive ScanStep (entries : Nat) (num : Int) (wset : Bool) (x : Scan) : Scan → Prop where
  | halt (hpc : x.pc = .ret) : ScanStep entries num wset x x
  | fault {x' : Scan} {f : PtField} {v : Word} {fs : List PtField} {a : Nat}
      (hpc : x.pc = .write f v fs) (hm : missing x.p (fieldAddr entries x.i f) = some a)
      (h : x.fault cfg a = .ok x') : ScanStep entries num wset x x'
  | skip (hpc : x.pc = .look)
      (hw : ¬ (has (x.p.pgdir.pteAt (vpn x.uva)) pteU = true ∧
        mapped (x.p.pgdir.pteAt (vpn x.uva)) = true)) : ScanStep entries num wset x x.down
  | pass (hpc : x.pc = .look) (hU : has (x.p.pgdir.pteAt (vpn x.uva)) pteU = true)
      (hm : mapped (x.p.pgdir.pteAt (vpn x.uva)) = true)
      (hw : wanted cfg wset x.p (some (vpn x.uva)) = .ok false) :
      ScanStep entries num wset x (x.next num)
  | list (hpc : x.pc = .look) (hU : has (x.p.pgdir.pteAt (vpn x.uva)) pteU = true)
      (hm : mapped (x.p.pgdir.pteAt (vpn x.uva)) = true)
      (hw : wanted cfg wset x.p (some (vpn x.uva)) = .ok true) :
      ScanStep entries num wset x { x with pc := .read PtField.stored }
  | value {f : PtField} {fs : List PtField} (hpc : x.pc = .read (f :: fs)) :
      ScanStep entries num wset x
        { x with pc := .write f (f.of x.uva (x.p.pgdir.pteAt (vpn x.uva))) fs }
  | put {f : PtField} {v : Word} {fs : List PtField} (hpc : x.pc = .write f v fs)
      (hm : missing x.p (fieldAddr entries x.i f) = none) :
      ScanStep entries num wset x { x.store entries f v with pc := .read fs }
  | done (hpc : x.pc = .read []) :
      ScanStep entries num wset x (Scan.next num { x with i := x.i + 1 })

variable {f : PtField} {a n c : Nat}

section
variable {cfg} {entries : Nat} {num : Int} {wset : Bool} {x x' : Scan}

theorem Scan.deref_of_tab (ht : x.p.pgdir.tabAt (vpn x.uva) = true) :
    x.deref = .ok (x.p.pgdir.pteAt (vpn x.uva), x.p) := by
  unfold Scan.deref
  rw [PgDir.walk_of_tabAt ht]

/-- The fields of the first word are not read from the entry. -/
theorem PtField.of_word_zero (h : f.word = 0) (uva : Nat) (w w' : Word) :
    f.of uva w = f.of uva w' := by
  cases f with
  | pdx => rfl
  | ptx => rfl
  | _ => cases h

theorem Scan.stepped (ht : x.p.pgdir.tabAt (vpn x.uva) = true)
    (h : x.step cfg entries num wset = .ok x') : ScanStep cfg entries num wset x x' := by
  unfold Scan.step at h
  split at h
  · cases h
    exact .halt ‹_›
  · rename_i hpc
    rw [Scan.deref_of_tab ht] at h
    dsimp only at h
    split at h
    · rename_i hw
      cases h
      refine .skip hpc fun hc => ?_
      rw [hc.1, hc.2] at hw
      cases hw
    · rename_i hw
      simp only [Bool.or_eq_true, Bool.not_eq_true', not_or, Bool.not_eq_false] at hw
      obtain ⟨b, hb, h1⟩ := Lib.bind_eq_ok.mp h
      rw [PgDir.walk_of_tabAt ht] at hb
      cases b with
      | true =>
        cases h1
        exact .list hpc hw.1 hw.2 hb
      | false =>
        cases h1
        exact .pass hpc hw.1 hw.2 hb
  · cases h
    exact .done ‹_›
  · rename_i f fs hpc
    split at h
    · rename_i hf
      cases h
      rw [f.of_word_zero hf x.uva 0 (x.p.pgdir.pteAt (vpn x.uva))]
      exact .value hpc
    · rw [Scan.deref_of_tab ht] at h
      cases h
      exact .value hpc
  · rename_i f v fs hpc
    split at h
    · rename_i a ha
      exact .fault hpc ha h
    · rename_i hm
      cases h
      exact .put hpc hm

/-- A fault that comes back has decrypted its page. -/
theorem Scan.fault_ok (h : x.fault cfg a = .ok x') :
    ∃ s q, mdecrypt cfg (x.p.vm x.m) x.p.q a = .ok (0, s, q) ∧
      pageFault cfg x.m x.p a = .ok (0, s.m, { x.p with pgdir := s.pd, q := q }) ∧
      x' = { x with m := s.m, p := { x.p with pgdir := s.pd, q := q } } := by
  obtain ⟨⟨r, m, p⟩, h1, h2⟩ := Lib.bind_eq_ok.mp h
  dsimp only at h2
  split at h2
  · cases h2
  · rename_i hr
    obtain rfl : r = 0 := not_not.mp hr
    cases h2
    have h3 := h1
    unfold pageFault at h3
    obtain ⟨⟨r, s, q⟩, h4, h5⟩ := Lib.bind_eq_ok.mp h3
    cases h5
    exact ⟨s, q, h4, h1, rfl⟩

/-- The node index is always in bounds, so the working-set test has an answer. -/
theorem findNode_ok {pd : PgDir} {q : ClockQ} {pte : Option Nat} {n : Nat} :
    ∀ {j : Nat}, j + n ≤ cfg.clockSize → ∃ b, findNode cfg pd q pte n j = .ok b ∧
      (b = true ↔ ∃ i, j ≤ i ∧ i < j + n ∧ pd.walk (q.nodes i) = pte) := by
  induction n with
  | zero =>
    intro j _
    refine ⟨false, rfl, fun h => (by cases h), fun h => ?_⟩
    obtain ⟨i, h1, h2, -⟩ := h
    omega
  | succ n ih =>
    intro j hj
    have hi : nodeIndex cfg j = .ok j := by
      unfold nodeIndex
      rw [if_pos ⟨by omega, by omega⟩]
      rfl
    unfold findNode
    rw [hi, Lib.ok_bind]
    by_cases hw : pd.walk (q.nodes j) = pte
    · rw [if_pos hw]
      exact ⟨true, rfl, fun _ => ⟨j, Nat.le_refl _, by omega, hw⟩, fun _ => rfl⟩
    · rw [if_neg hw]
      obtain ⟨b, hb, hiff⟩ := @ih (j + 1) (by omega)
      refine ⟨b, hb, hiff.trans ⟨fun h => ?_, fun h => ?_⟩⟩
      · obtain ⟨i, h1, h2, h3⟩ := h
        exact ⟨i, by omega, by omega, h3⟩
      · obtain ⟨i, h1, h2, h3⟩ := h
        have hij : i ≠ j := fun hc => hw (hc ▸ h3)
        exact ⟨i, by omega, by omega, h3⟩

/-- The page is the page of a node. -/
def Queued (q : ClockQ) (v : Nat) : Prop := ∃ j, j < q.inClock ∧ vpn (q.nodes j) = v

instance (q : ClockQ) (v : Nat) : Decidable (Queued q v) :=
  inferInstanceAs (Decidable (∃ j, j < q.inClock ∧ vpn (q.nodes j) = v))

/-- A user page is put on the list in the working-set mode if it is queued, and always otherwise. -/
theorem wanted_ok {p : Proc} {v : Nat} (hq : p.q.inClock ≤ cfg.clockSize)
    (ht : p.pgdir.tabAt v = true) : wanted cfg wset p (some v) =
      .ok (!wset || decide (Queued p.q v)) := by
  unfold wanted
  cases wset with
  | false => rfl
  | true =>
    rw [if_pos rfl]
    obtain ⟨b, hb, hiff⟩ := @findNode_ok cfg p.pgdir p.q (some v) p.q.inClock 0 (by omega)
    have hqd : b = decide (Queued p.q v) := by
      rw [Bool.eq_iff_iff, hiff, decide_eq_true_iff]
      refine ⟨fun h => ?_, fun h => ?_⟩
      · obtain ⟨i, -, h1, h2⟩ := h
        exact ⟨i, by omega, (PgDir.walk_some h2).1.symm⟩
      · obtain ⟨i, h1, h2⟩ := h
        refine ⟨i, Nat.zero_le _, by omega, ?_⟩
        rw [← h2] at ht ⊢
        exact PgDir.walk_of_tabAt ht
    rw [hb, hqd]
    rfl

/-- **There is a next step** wherever nothing is missing. -/
theorem Scan.step_total (ht : x.p.pgdir.tabAt (vpn x.uva) = true)
    (hq : x.p.q.inClock ≤ cfg.clockSize)
    (hm : ∀ f v fs, x.pc = .write f v fs → missing x.p (fieldAddr entries x.i f) = none) :
    ∃ x', x.step cfg entries num wset = .ok x' := by
  unfold Scan.step
  split
  · exact ⟨_, rfl⟩
  · rw [Scan.deref_of_tab ht]
    dsimp only
    split
    · exact ⟨_, rfl⟩
    · rw [PgDir.walk_of_tabAt ht, wanted_ok hq ht, Lib.ok_bind]
      split <;> exact ⟨_, rfl⟩
  · exact ⟨_, rfl⟩
  · split
    · exact ⟨_, rfl⟩
    · rw [Scan.deref_of_tab ht]
      exact ⟨_, rfl⟩
  · rw [hm _ _ _ ‹_›]
    exact ⟨_, rfl⟩

end

/-! ## 5. The entries as user code reads them -/

/-- The byte user code reads at `va`. -/
def ubyte (s : Vm) (va : Nat) : Byte := s.logical (vpn va) (va % pgSize)

/-- The word user code reads at `va`. -/
def uword (s : Vm) (va : Nat) : Word := le32 (fun j => ubyte s (addU va j)) 0

/-- Field `f` of entry `t`. -/
def field (s : Vm) (entries t : Nat) (f : PtField) : Word :=
  Lib.getBits (uword s (fieldAddr entries t f)) f.low f.width

theorem addU_eq (h : a + n < 2 ^ 32) : addU a n = a + n := Nat.mod_eq_of_lt h

theorem le32_congr {pg pg' : Nat → Byte} {o o' : Nat} (h : ∀ j, j < 4 → pg (o + j) = pg' (o' + j)) :
    le32 pg o = le32 pg' o' := by
  unfold le32
  rw [show pg o = pg' o' from h 0 (by decide), h 1 (by decide), h 2 (by decide), h 3 (by decide)]

/-- Addresses below KERNBASE with one page number and offset are equal. -/
theorem addr_inj {b : Nat} (ha : a < kernBase) (hb : b < kernBase) (h : vpn a = vpn b)
    (ho : a % pgSize = b % pgSize) : a = b := by
  unfold kernBase at ha hb
  unfold vpn at h
  unfold pgSize at ho
  omega

theorem vpn_low (h : a < kernBase) : vpn a < 2 ^ 19 := by
  unfold kernBase at h
  unfold vpn
  omega

/-- The buffer `[lo, lo + n)` is resident: user addresses whose pages are present and decrypted. -/
structure Resident (pd : PgDir) (lo n : Nat) : Prop where
  low : lo + n ≤ kernBase
  present : ∀ c, lo ≤ c → c < lo + n → has (pd.pteAt (vpn c)) pteP = true
  open_ : ∀ c, lo ≤ c → c < lo + n → has (pd.pteAt (vpn c)) pteE = false

theorem Resident.mono {pd : PgDir} {lo lo' n' : Nat} (h : Resident pd lo n) (h1 : lo ≤ lo')
    (h2 : lo' + n' ≤ lo + n) : Resident pd lo' n' where
  low := Nat.le_trans h2 h.low
  present c hc hc' := h.present c (by omega) (by omega)
  open_ c hc hc' := h.open_ c (by omega) (by omega)

section
variable {m : Kmem} {p : Proc}

/-- The byte after a store. -/
theorem storeByte_ubyte (hone : ∀ f, p.pgdir.holds f ≤ 1) (ha : a < kernBase) (hc : c < kernBase)
    (hP : has (p.pgdir.pteAt (vpn a)) pteP = true) (hE : has (p.pgdir.pteAt (vpn a)) pteE = false)
    (hm : mapped (p.pgdir.pteAt (vpn c)) = true) (b : Byte) :
    ubyte (p.vm (storeByte m p a b)) c = if c = a then b else ubyte (p.vm m) c := by
  by_cases hv : vpn c = vpn a
  · -- the page that is written
    have hl : ∀ m : Kmem, (p.vm m).logical (vpn c) = m.mem (p.frameOf a) := fun m => by
      rw [hv]
      exact Vm.logical_plain hE
    unfold ubyte
    rw [hl, hl]
    unfold storeByte
    rw [Kmem.setPage_mem_self]
    by_cases hca : c = a
    · rw [if_pos hca, hca, Function.update_self]
    · rw [if_neg hca, Function.update_of_ne fun ho => hca (addr_inj hc ha hv ho)]
  · rw [if_neg fun h => hv (by rw [h])]
    have hf := PgDir.frame_ne hone (vpn_low hc) (vpn_low ha) hm (mapped_of_P hP) hv
    have hl : (p.vm (storeByte m p a b)).logical (vpn c) = (p.vm m).logical (vpn c) :=
      Vm.logical_congr rfl rfl (Kmem.setPage_mem_ne m _ hf)
    unfold ubyte
    rw [hl]

/-- The bytes after a store of a word. -/
theorem storeWord_ubyte (hone : ∀ f, p.pgdir.holds f ≤ 1)
    (hr : Resident p.pgdir a 4) (hc : c < kernBase) (hm : mapped (p.pgdir.pteAt (vpn c)) = true)
    (w : Word) : ubyte (p.vm (storeWord m p a w)) c =
      if a ≤ c ∧ c < a + 4 then byteOf w (c - a) else ubyte (p.vm m) c := by
  have hlow := hr.low
  have hk : kernBase = 2 ^ 31 := rfl
  -- after the first `n` bytes
  have key : ∀ n, n ≤ 4 → ubyte (p.vm ((List.range n).foldl
      (fun m j => storeByte m p (addU a j) (byteOf w j)) m)) c =
      if a ≤ c ∧ c < a + n then byteOf w (c - a) else ubyte (p.vm m) c := by
    intro n
    induction n with
    | zero =>
      intro _
      rw [if_neg (by omega)]
      rfl
    | succ n ih =>
      intro hn
      rw [List.range_succ, List.foldl_concat, addU_eq (by omega), storeByte_ubyte hone (by omega) hc
        (hr.present _ (by omega) (by omega)) (hr.open_ _ (by omega) (by omega)) hm, ih (by omega)]
      by_cases hca : c = a + n
      · rw [if_pos hca, if_pos (by omega), hca, Nat.add_sub_cancel_left]
      · rw [if_neg hca]
        exact if_congr (by omega) rfl rfl
  exact key 4 (Nat.le_refl 4)

/-- The entry of page `u` after the reference bits are set. -/
theorem touchWord_pteAt {u : Nat} (hr : Resident p.pgdir a 4) :
    (touchWord p a).pgdir.pteAt u = if u = vpn a ∨ u = vpn (a + 3) then setRef (p.pgdir.pteAt u)
      else p.pgdir.pteAt u := by
  have hlow := hr.low
  have hk : kernBase = 2 ^ 31 := rfl
  have h3 : addU a 3 = a + 3 := addU_eq (by omega)
  have ht : ∀ c, a ≤ c → c < a + 4 → p.pgdir.tabAt (vpn c) = true := fun c h1 h2 =>
    PgDir.tabAt_of_mapped (mapped_of_P (hr.present c h1 h2))
  have e1 : (p.touch a).pgdir.pteAt u = if u = vpn a then setRef (p.pgdir.pteAt (vpn a))
      else p.pgdir.pteAt u := PgDir.pteAt_store _ _ (ht a (by omega) (by omega))
  have e0 : (p.touch a).pgdir.pteAt (vpn (a + 3)) = if vpn (a + 3) = vpn a then
      setRef (p.pgdir.pteAt (vpn a)) else p.pgdir.pteAt (vpn (a + 3)) :=
    PgDir.pteAt_store _ _ (ht a (by omega) (by omega))
  have e2 : (touchWord p a).pgdir.pteAt u = if u = vpn (a + 3) then
      setRef ((p.touch a).pgdir.pteAt (vpn (a + 3))) else (p.touch a).pgdir.pteAt u := by
    unfold touchWord
    rw [h3]
    refine PgDir.pteAt_store _ _ ?_
    exact (PgDir.tabAt_store _ _ _ _).trans (ht (a + 3) (by omega) (by omega))
  rw [e2, e1, e0]
  by_cases h1 : u = vpn (a + 3)
  · have hor : u = vpn a ∨ u = vpn (a + 3) := .inr h1
    rw [if_pos h1, if_pos hor, ← h1]
    by_cases h2 : u = vpn a
    · rw [if_pos h2, setRef_setRef, h2]
    · rw [if_neg h2]
  · rw [if_neg h1]
    by_cases h2 : u = vpn a
    · have hor : u = vpn a ∨ u = vpn (a + 3) := .inl h2
      rw [if_pos h2, if_pos hor, h2]
    · rw [if_neg h2, if_neg (by simp [h1, h2])]

@[simp] theorem touchWord_tabAt (p : Proc) (a u : Nat) :
    (touchWord p a).pgdir.tabAt u = p.pgdir.tabAt u :=
  (PgDir.tabAt_store _ _ _ _).trans (PgDir.tabAt_store _ _ _ _)

/-- The frames and flags of the page table stay. -/
theorem touchWord_recoded (hr : Resident p.pgdir a 4) :
    Recoded (p.vm m) ((touchWord p a).vm m) := by
  have hlow := hr.low
  unfold kernBase at hlow
  have h1 : Flip (p.vm m) ((p.touch a).vm m) :=
    Flip.ref (vpn_lt a) (mapped_of_P (hr.present a (by omega) (by omega)))
  have h2 : Flip ((p.touch a).vm m) ((touchWord p a).vm m) := by
    refine Flip.ref (vpn_lt (addU a 3)) ?_
    rw [(h1.recoded.entry _).map, addU_eq (by omega)]
    exact mapped_of_P (hr.present (a + 3) (by omega) (by omega))
  exact h1.recoded.trans h2.recoded

/-- A reference bit does not show in what user code reads. -/
theorem logical_of_refs {s s' : Vm} (hm : s'.m = s.m) {u : Nat}
    (h : s'.pd.pteAt u = s.pd.pteAt u ∨ s'.pd.pteAt u = setRef (s.pd.pteAt u)) :
    s'.logical u = s.logical u := by
  rcases h with h | h
  · exact Vm.logical_congr (by rw [h]) (by rw [h]) (by rw [hm])
  · exact Vm.logical_congr (by rw [h, pteFrame_setRef]) (by rw [h, has_setRef_E]) (by rw [hm])

/-- The bytes after a store of a word and its reference bits. -/
theorem stored_ubyte (hone : ∀ f, p.pgdir.holds f ≤ 1) (hr : Resident p.pgdir a 4)
    (hc : c < kernBase) (hm : mapped (p.pgdir.pteAt (vpn c)) = true) (w : Word) :
    ubyte ((touchWord p a).vm (storeWord m p a w)) c =
      if a ≤ c ∧ c < a + 4 then byteOf w (c - a) else ubyte (p.vm m) c := by
  rw [← storeWord_ubyte hone hr hc hm w]
  have hl : ((touchWord p a).vm (storeWord m p a w)).logical (vpn c) =
      (p.vm (storeWord m p a w)).logical (vpn c) := by
    have hmem : ((touchWord p a).vm (storeWord m p a w)).m = (p.vm (storeWord m p a w)).m := rfl
    refine logical_of_refs hmem ?_
    rw [Proc.vm_pd, Proc.vm_pd, touchWord_pteAt hr]
    split
    · exact .inr rfl
    · exact .inl rfl
  unfold ubyte
  rw [hl]

/-- The word the kernel loads is the one user code reads. -/
theorem loadWord_eq (hr : Resident p.pgdir a 4) : loadWord m p a = uword (p.vm m) a := by
  have hlow := hr.low
  have hk : kernBase = 2 ^ 31 := rfl
  refine le32_congr fun j hj => ?_
  rw [Nat.zero_add, addU_eq (by omega)]
  have hl : (p.vm m).logical (vpn (a + j)) = m.mem (p.frameOf (a + j)) :=
    Vm.logical_plain (hr.open_ _ (by omega) (by omega))
  unfold ubyte
  rw [hl]

end

/-! ## 6. Storing a field -/

variable {put fs : List PtField}

namespace PtField

theorem word_le (f : PtField) : f.word ≤ 1 := by
  cases f <;> decide

theorem fits (f : PtField) : f.low + f.width ≤ 32 := by
  cases f <;> decide

/-- Two fields of one word do not meet. -/
theorem apart {g : PtField} (h : f ≠ g) (hw : f.word = g.word) :
    g.low + g.width ≤ f.low ∨ f.low + f.width ≤ g.low := by
  revert h hw
  cases f <;> cases g <;> decide

theorem flag_fits (b : Bool) : (if b then 1 else 0 : Word) &&& Lib.lowMask 1 =
    if b then 1 else 0 := by
  cases b <;> decide

theorem ofNat_fits (h : n < 1024) : BitVec.ofNat 32 n &&& Lib.lowMask 10 = BitVec.ofNat 32 n := by
  apply BitVec.eq_of_getLsbD_eq
  intro i hi
  rw [BitVec.getLsbD_and, Lib.getLsbD_lowMask 10 i hi, BitVec.getLsbD_ofNat]
  by_cases h10 : i < 10
  · simp [h10]
  · have hb : n.testBit i = false := Nat.testBit_lt_two_pow
      (calc n < 2 ^ 10 := h
        _ ≤ 2 ^ i := Nat.pow_le_pow_right (by decide) (by omega))
    simp [hb]

/-- A value fits its field. -/
theorem of_fits (f : PtField) (uva : Nat) (w : Word) :
    f.of uva w &&& Lib.lowMask f.width = f.of uva w := by
  cases f with
  | pdx => exact ofNat_fits (pdx_lt uva)
  | ptx => exact ofNat_fits (ptx_lt uva)
  | ppage =>
    apply BitVec.eq_of_getLsbD_eq
    intro i hi
    change (w >>> 12 &&& Lib.lowMask 20).getLsbD i = (w >>> 12).getLsbD i
    rw [BitVec.getLsbD_and, Lib.getLsbD_lowMask 20 i hi, BitVec.getLsbD_ushiftRight]
    by_cases h20 : i < 20
    · simp [h20]
    · rw [BitVec.getLsbD_of_ge w (12 + i) (by omega), Bool.false_and]
  | present =>
    change w &&& pteP &&& 1#32 = w &&& pteP
    rw [BitVec.and_assoc]
    rfl
  | _ => exact flag_fits _

/-- The bytes of an entry that were stored to, after its first `k` fields. -/
def bytesOf : Nat → Nat
  | 0 => 0
  | 1 | 2 => 4
  | _ => 8

section
variable (h : stored = put ++ f :: fs)
include h

/-- The field after those in `put`, and the bytes of its entry stored to before and after it. -/
theorem stored_at : bytesOf (put.length + 1) = 4 * f.word + 4 ∧
      (bytesOf put.length = 4 * f.word ∨ bytesOf put.length = 4 * f.word + 4) ∧
      (f = .ref → put.length = 6) := by
  have hget : stored[put.length]? = some f := by
    rw [h, List.getElem?_append_right (Nat.le_refl _), Nat.sub_self]
    rfl
  have hlt : put.length < 7 := (List.getElem?_eq_some_iff.mp hget).1
  revert hget
  generalize put.length = k at hlt ⊢
  have hk : k = 0 ∨ k = 1 ∨ k = 2 ∨ k = 3 ∨ k = 4 ∨ k = 5 ∨ k = 6 := by omega
  rcases hk with rfl | rfl | rfl | rfl | rfl | rfl | rfl <;> intro hget <;> cases hget <;> decide

/-- The first two fields are those of the first word. -/
theorem first_word {g : PtField} (hlen : put.length ≤ 2) :
    (f.word = 0 ∨ f = ppage) ∧ (g ∈ put → g.word = 0) := by
  obtain ⟨h1, h2, -⟩ := stored_at h
  refine ⟨?_, fun hg => ?_⟩
  · have hget : stored[put.length]? = some f := by
      rw [h, List.getElem?_append_right (Nat.le_refl _), Nat.sub_self]
      rfl
    revert hget
    generalize put.length = k at hlen ⊢
    have hk : k = 0 ∨ k = 1 ∨ k = 2 := by omega
    rcases hk with rfl | rfl | rfl <;> intro hget <;> cases hget <;> decide
  · have hput : put = stored.take put.length := by
      rw [h, List.take_left]
    have hg2 : g ∈ stored.take 2 := by
      rw [hput] at hg
      exact (List.take_subset_take_left stored hlen) hg
    revert hg2
    cases g <;> decide

theorem second_word (hlen : 2 ≤ put.length) : f.word = 1 := by
  have hb := (stored_at h).1
  have h8 : bytesOf (put.length + 1) = 8 := by
    unfold bytesOf
    split <;> omega
  omega

end

theorem of_ppage (uva : Nat) (w : Word) : ppage.of uva w = (pteFrame w).setWidth 32 := by
  apply BitVec.eq_of_getLsbD_eq
  intro i hi
  change (w >>> 12).getLsbD i = _
  rw [BitVec.getLsbD_ushiftRight, BitVec.getLsbD_setWidth, pteFrame, BitVec.getLsbD_extractLsb']
  by_cases h : i < 20
  · simp [hi, h]
  · simp [h, BitVec.getLsbD_of_ge w (12 + i) (by omega)]

theorem of_present (uva : Nat) (w : Word) : present.of uva w = if has w pteP then 1 else 0 := by
  have hle : (w &&& pteP).toNat ≤ 1 := by
    rw [BitVec.toNat_and]
    exact Nat.and_le_right
  have h : w &&& pteP = 0#32 ∨ w &&& pteP = 1#32 := by
    rcases Nat.le_one_iff_eq_zero_or_eq_one.mp hle with h | h
    · exact .inl (BitVec.eq_of_toNat_eq h)
    · exact .inr (BitVec.eq_of_toNat_eq h)
  rw [of, has]
  rcases h with h | h <;> rw [h] <;> rfl

/-- A field other than `ref` is a matter of the frame and the other flags. -/
theorem of_congr (h : f ≠ ref) (uva : Nat) {w w' : Word} (hf : pteFrame w' = pteFrame w)
    (hb : ∀ b ∈ [pteP, pteW, pteU, pteE], has w' b = has w b) : f.of uva w' = f.of uva w := by
  cases f with
  | pdx => rfl
  | ptx => rfl
  | ppage => rw [of_ppage, of_ppage, hf]
  | present => rw [of_present, of_present, hb pteP (by decide)]
  | writable => rw [of, of, hb pteW (by decide)]
  | user => rw [of, of, hb pteU (by decide)]
  | encrypted => rw [of, of, hb pteE (by decide)]
  | ref => exact absurd rfl h

theorem flags_not_ref : ∀ b ∈ [pteP, pteW, pteU, pteE], b &&& pteA = 0#32 := by
  simp only [List.mem_cons, List.not_mem_nil, or_false, forall_eq_or_imp, forall_eq]
  decide

/-- Only `ref` depends on the reference bit. -/
theorem of_setRef (h : f ≠ ref) (uva : Nat) (w : Word) : f.of uva (setRef w) = f.of uva w := by
  exact of_congr h uva (pteFrame_setRef w) fun b hb => has_setRef w (flags_not_ref b hb)

end PtField

theorem fieldAddr_eq {entries t n : Nat} {f : PtField} (hn : entries + entrySize * n ≤ kernBase)
    (h : t < n) : fieldAddr entries t f = entries + entrySize * t + 4 * f.word ∧
      entries + entrySize * t + 4 * f.word + 4 ≤ entries + entrySize * n := by
  have hw := f.word_le
  unfold entrySize kernBase at *
  refine ⟨?_, by omega⟩
  unfold fieldAddr entrySize
  rw [addU_eq (by omega)]
  omega

/-- All fields of the second word are at one address. -/
theorem fieldAddr_ppage {entries t : Nat} (h : f.word = 1) :
    fieldAddr entries t .ppage = fieldAddr entries t f := by
  unfold fieldAddr
  rw [h]
  rfl

/-- **The fields after a store**: the one that is stored to has the value, every other field of
    the buffer stays. -/
theorem store_field {x : Scan} {entries n t : Nat} {f g : PtField} {v : Word}
    (hone : ∀ f, x.p.pgdir.holds f ≤ 1) (hn : entries + entrySize * n ≤ kernBase) (hi : x.i < n)
    (ht : t < n) (hr : Resident x.p.pgdir (fieldAddr entries x.i f) 4)
    (hm : ∀ c, entries ≤ c → c < entries + entrySize * n →
      mapped (x.p.pgdir.pteAt (vpn c)) = true)
    (hv : v &&& Lib.lowMask f.width = v) :
    field ((x.store entries f v).p.vm (x.store entries f v).m) entries t g =
      if t = x.i ∧ g = f then v else field (x.p.vm x.m) entries t g := by
  obtain ⟨ea, hea⟩ := @fieldAddr_eq entries x.i n f hn hi
  obtain ⟨eb, heb⟩ := @fieldAddr_eq entries t n g hn ht
  have hk : kernBase = 2 ^ 31 := rfl
  have hfw := f.word_le
  have hgw := g.word_le
  -- the bytes of the word that holds field `g` of entry `t`
  have hbytes : ∀ j, j < 4 → ubyte ((x.store entries f v).p.vm (x.store entries f v).m)
      (addU (fieldAddr entries t g) j) = if t = x.i ∧ g.word = f.word then
        byteOf (Lib.putBits (loadWord x.m x.p (fieldAddr entries x.i f)) f.low f.width v) j
      else ubyte (x.p.vm x.m) (addU (fieldAddr entries t g) j) := by
    intro j hj
    have hc : addU (fieldAddr entries t g) j = entries + entrySize * t + 4 * g.word + j := by
      rw [eb, addU_eq (by omega)]
    rw [hc]
    refine (stored_ubyte hone hr (by omega) (hm _ (by omega) (by omega)) _).trans ?_
    rw [ea]
    unfold entrySize
    by_cases hsame : t = x.i ∧ g.word = f.word
    · obtain ⟨rfl, hw⟩ := hsame
      rw [if_pos (by omega), if_pos ⟨rfl, hw⟩, hw]
      congr 1
      omega
    · rw [if_neg (by omega), if_neg hsame]
  by_cases hsame : t = x.i ∧ g.word = f.word
  · obtain ⟨rfl, hw⟩ := hsame
    have ha : fieldAddr entries x.i g = fieldAddr entries x.i f := by
      unfold fieldAddr
      rw [hw]
    have hword : uword ((x.store entries f v).p.vm (x.store entries f v).m)
        (fieldAddr entries x.i g) =
        Lib.putBits (uword (x.p.vm x.m) (fieldAddr entries x.i g)) f.low f.width v := by
      rw [ha, ← loadWord_eq hr, ← ha]
      refine le32_byteOf fun j hj => ?_
      rw [Nat.zero_add, hbytes j hj, if_pos ⟨rfl, hw⟩, ha]
    unfold field
    rw [hword]
    by_cases hgf : g = f
    · rw [if_pos ⟨rfl, hgf⟩, hgf, Lib.getBits_putBits f.fits hv]
    · rw [if_neg fun h => hgf h.2, Lib.getBits_putBits_ne g.fits
        (PtField.apart (fun h => hgf h.symm) hw.symm)]
  · rw [if_neg fun h => hsame ⟨h.1, by rw [h.2]⟩]
    unfold field
    congr 1
    refine le32_congr fun j hj => ?_
    rw [Nat.zero_add, hbytes j hj, if_neg hsame]

/-! ## 7. Runs -/

/-- A call from memory `m` and process `p` returns in state `x`. -/
def Returns (m : Kmem) (p : Proc) (entries : Nat) (num : Int) (wset : Bool) (x : Scan) : Prop :=
  x.pc = .ret ∧ ∃ n, Scan.run cfg entries num wset n (scanStart m p) = .ok x

/-- How far the rest of an entry is. -/
def ScanPc.rank : ScanPc → Nat
  | .look => 30
  | .read fs => 4 * fs.length + 1
  | .write _ _ fs => 4 * fs.length + 2
  | .ret => 0

/-- How many pages a store still has to bring in. -/
def Scan.absent (entries : Nat) (x : Scan) : Nat :=
  match x.pc with
  | .write f _ _ =>
    (if has (x.p.pgdir.pteAt (vpn (fieldAddr entries x.i f))) pteP then 0 else 1) +
    (if has (x.p.pgdir.pteAt (vpn (addU (fieldAddr entries x.i f) 3))) pteP then 0 else 1)
  | _ => 0

/-- **What the loop has left to do.** -/
def Scan.left (entries : Nat) (x : Scan) : Nat :=
  x.uva / 4096 * 64 + x.pc.rank + x.absent entries

section
variable {cfg} {entries : Nat} {num : Int} {wset : Bool} {x x' y : Scan}

theorem Scan.absent_of_pc (h : ∀ f v fs, x.pc ≠ .write f v fs) : x.absent entries = 0 := by
  unfold Scan.absent
  split
  · exact absurd ‹_› (h _ _ _)
  · rfl

theorem Scan.absent_le (entries : Nat) (x : Scan) : x.absent entries ≤ 2 := by
  unfold Scan.absent
  split
  · split <;> split <;> decide
  · decide

/-- The next page down. -/
theorem Scan.left_down (h0 : x.uva ≠ 0) (ha : x.uva % 4096 = 0) (hlt : x.uva < 2 ^ 32) :
    x.down.left entries + 64 = x.uva / 4096 * 64 + 30 := by
  have habs : x.down.absent entries = 0 := Scan.absent_of_pc fun f v fs => by
    rw [Scan.down_pc]
    intro h
    cases h
  unfold Scan.left
  rw [habs, Scan.down_uva, Scan.down_pc]
  simp only [ScanPc.rank]
  unfold subU pgSize
  omega

theorem Scan.left_next (ha : x.uva % 4096 = 0) (hlt : x.uva < 2 ^ 32) :
    (x.next num).left entries ≤ x.uva / 4096 * 64 := by
  unfold Scan.next
  split
  · unfold Scan.left
    rw [Scan.absent_of_pc fun _ _ _ h => (by cases h)]
    exact Nat.le_refl _
  · rename_i h
    have hd := @Scan.left_down entries x (fun h0 => h (.inl h0)) ha hlt
    omega

/-- **Every step but a fault has less left.** -/
theorem ScanStep.left_lt (hs : ScanStep cfg entries num wset x x') (hret : x.pc ≠ .ret)
    (hm : ∀ f v fs, x.pc = .write f v fs → missing x.p (fieldAddr entries x.i f) = none)
    (ha : x.uva % 4096 = 0) (hlt : x.uva < 2 ^ 32)
    (hskip : x.pc = .look → ¬ (has (x.p.pgdir.pteAt (vpn x.uva)) pteU = true ∧
      mapped (x.p.pgdir.pteAt (vpn x.uva)) = true) → x.uva ≠ 0) :
    x'.left entries < x.left entries := by
  have hrank : x.uva / 4096 * 64 + x.pc.rank ≤ x.left entries := Nat.le_add_right _ _
  cases hs with
  | halt hpc => exact absurd hpc hret
  | fault hpc hmiss _ =>
    rw [hm _ _ _ hpc] at hmiss
    cases hmiss
  | skip hpc hw =>
    have hd := @Scan.left_down entries x (hskip hpc hw) ha hlt
    rw [hpc] at hrank
    simp only [ScanPc.rank] at hrank
    omega
  | pass hpc hU hm hw =>
    rw [hpc] at hrank
    have hn := @Scan.left_next entries num x ha hlt
    simp only [ScanPc.rank] at hrank
    omega
  | list hpc hU hm hw =>
    rw [hpc] at hrank
    refine Nat.lt_of_lt_of_le ?_ hrank
    unfold Scan.left
    rw [Scan.absent_of_pc fun _ _ _ h => (by cases h)]
    change x.uva / 4096 * 64 + 29 + 0 < x.uva / 4096 * 64 + 30
    omega
  | @value f fs hpc =>
    rw [hpc] at hrank
    refine Nat.lt_of_lt_of_le ?_ hrank
    have habs := Scan.absent_le entries
      { x with pc := .write f (f.of x.uva (x.p.pgdir.pteAt (vpn x.uva))) fs }
    change x.uva / 4096 * 64 + (4 * fs.length + 2) + Scan.absent entries _ <
      x.uva / 4096 * 64 + (4 * (f :: fs).length + 1)
    rw [List.length_cons]
    omega
  | @put f v fs hpc hmiss =>
    rw [hpc] at hrank
    refine Nat.lt_of_lt_of_le ?_ hrank
    unfold Scan.left
    rw [Scan.absent_of_pc fun _ _ _ h => (by cases h)]
    change x.uva / 4096 * 64 + (4 * fs.length + 1) + 0 < x.uva / 4096 * 64 + (4 * fs.length + 2)
    omega
  | done hpc =>
    rw [hpc] at hrank
    have hn := @Scan.left_next entries num { x with i := x.i + 1 } ha hlt
    simp only [ScanPc.rank] at hrank
    change _ ≤ x.uva / 4096 * 64 at hn
    omega

/-- **The loop ends** if every state that keeps the invariant has a step that keeps it and has a
    smaller measure; it ends in a state that keeps the invariant. -/
theorem Scan.run_ends {I : Scan → Prop} (μ : Scan → Nat)
    (hstep : ∀ x, I x → x.pc ≠ .ret → ∃ x', x.step cfg entries num wset = .ok x' ∧ I x' ∧
      μ x' < μ x) (h : I x) :
    ∃ n y, Scan.run cfg entries num wset n x = .ok y ∧ y.pc = .ret ∧ I y := by
  generalize hk : μ x = k
  induction k using Nat.strong_induction_on generalizing x with
  | _ k ih =>
    by_cases hret : x.pc = .ret
    · exact ⟨0, x, rfl, hret, h⟩
    · obtain ⟨x1, hs, h1, hlt⟩ := hstep x h hret
      obtain ⟨n, y, hr, hy⟩ := ih _ (by omega) h1 rfl
      refine ⟨n + 1, y, ?_, hy⟩
      unfold Scan.run
      rw [hs, Lib.ok_bind, hr]

/-- What every step keeps holds at the end. -/
theorem Scan.run_inv {I : Scan → Prop}
    (hstep : ∀ {x x'}, I x → x.step cfg entries num wset = .ok x' → I x') :
    ∀ {x y : Scan}, I x → Scan.run cfg entries num wset n x = .ok y → I y := by
  induction n with
  | zero =>
    intro x y h hr
    cases hr
    exact h
  | succ n ih =>
    intro x y h hr
    unfold Scan.run at hr
    obtain ⟨x1, hs, hr1⟩ := Lib.bind_eq_ok.mp hr
    exact ih (hstep h hs) hr1

theorem Scan.run_ret (n : Nat) (h : x.pc = .ret) : Scan.run cfg entries num wset n x = .ok x := by
  induction n with
  | zero => rfl
  | succ n ih =>
    have hs : x.step cfg entries num wset = .ok x := by
      unfold Scan.step
      rw [h]
    unfold Scan.run
    rw [hs, Lib.ok_bind, ih]

theorem Scan.run_error {e : Err} (k : Nat) : ∀ {x : Scan},
    Scan.run cfg entries num wset n x = .error e →
    Scan.run cfg entries num wset (n + k) x = .error e := by
  induction n with
  | zero =>
    intro x h
    cases h
  | succ n ih =>
    intro x h
    rw [Nat.succ_add]
    unfold Scan.run at h ⊢
    cases hs : x.step cfg entries num wset with
    | error e1 =>
      rw [hs] at h
      exact h
    | ok x1 =>
      rw [hs] at h
      exact ih h

theorem Scan.run_add (k : Nat) : ∀ {x : Scan},
    Scan.run cfg entries num wset n x = .ok y →
    Scan.run cfg entries num wset (n + k) x = Scan.run cfg entries num wset k y := by
  induction n with
  | zero =>
    intro x h
    cases h
    rw [Nat.zero_add]
  | succ n ih =>
    intro x h
    obtain ⟨x1, hs, h1⟩ := Lib.bind_eq_ok.mp h
    have hr : Scan.run cfg entries num wset (n + k + 1) x =
        Scan.run cfg entries num wset (n + k) x1 := by
      rw [Scan.run, hs, Lib.ok_bind]
    rw [Nat.succ_add, ← ih h1]
    exact hr

/-- A call that returns has no step that fails. -/
theorem Returns.ok {m : Kmem} {p : Proc} (hx : Returns cfg m p entries num wset x) (k : Nat) :
    ∃ y, Scan.run cfg entries num wset k (scanStart m p) = .ok y := by
  obtain ⟨hret, n, hn⟩ := hx
  have hadd := Scan.run_add k hn
  rw [Scan.run_ret k hret, Nat.add_comm] at hadd
  cases hk : Scan.run cfg entries num wset k (scanStart m p) with
  | ok y => exact ⟨y, rfl⟩
  | error e =>
    rw [Scan.run_error n hk] at hadd
    cases hadd

end

end Xv6Clock
