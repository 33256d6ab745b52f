/-
  File:      Xv6Clock/GetpgtableList.lean
  Subject:   What `getpgtable` (vm.c) lists, when the pages of its buffer are decrypted: the user
             pages from the highest down, and how much of the old buffer is left in the entries.

  Nothing faults then, and the page table changes in the reference bits of the buffer's pages only.
  The invariant `ListInv` says for each place of the loop how far the list has come; every step
  keeps it (`ListInv.step`), and every step makes `Scan.left` smaller (`step_left`).
-/
import Xv6Clock.Getpgtable
import Xv6Clock.Follow
import Xv6Clock.Room

namespace Xv6Clock

variable (cfg : Config)

/-! ## 1. The list -/

/-- A page that is listed: a user page, present or encrypted, and queued in the working-set mode. -/
def listable (wset : Bool) (p : Proc) (v : Nat) : Bool :=
  has (p.pgdir.pteAt v) pteU && mapped (p.pgdir.pteAt v) && (!wset || decide (Queued p.q v))

/-- Those below page `n`, from the highest down. -/
def listedBelow (wset : Bool) (p : Proc) (n : Nat) : List Nat :=
  (List.range n).reverse.filter (listable wset p)

/-- Those below PGROUNDUP(sz). -/
def listed (wset : Bool) (p : Proc) : List Nat := listedBelow wset p (pages p.sz)

/-- How many of them fit. -/
def listCount (num : Int) (wset : Bool) (p : Proc) : Nat := min num.toNat (listed wset p).length

/-- The page of entry `t`. -/
def listedPage (wset : Bool) (p : Proc) (t : Nat) : Nat := (listed wset p).getD t 0

/-- A byte of the first `n` of the buffer lies in page `u`. -/
def WrittenIn (entries n u : Nat) : Prop := ∃ j, j < n ∧ vpn (entries + j) = u

instance (entries n u : Nat) : Decidable (WrittenIn entries n u) :=
  inferInstanceAs (Decidable (∃ j, j < n ∧ vpn (entries + j) = u))

/-- The entry of page `v` after the first `n` bytes of the buffer were stored to. -/
def touchedPte (p : Proc) (entries n v : Nat) : Word :=
  if WrittenIn entries n v then setRef (p.pgdir.pteAt v) else p.pgdir.pteAt v

/-- What entry `t` says in field `f`: the part of the page's PTE, as it is when the last field of
    the entry is stored. -/
def entryValue (wset : Bool) (p : Proc) (entries t : Nat) (f : PtField) : Word :=
  f.of (listedPage wset p t * 4096)
    (touchedPte p entries (entrySize * (t + 1)) (listedPage wset p t))

variable {v n : Nat} {l : List Nat} {fs : List PtField} {f : PtField} {val : Word} {k : Kernel}

section
variable {wset : Bool} {p : Proc} {entries : Nat}

theorem mem_listed : v ∈ listed wset p ↔
    v < pages p.sz ∧ has (p.pgdir.pteAt v) pteU = true ∧ mapped (p.pgdir.pteAt v) = true ∧
      (wset = true → Queued p.q v) := by
  unfold listed listedBelow listable
  rw [List.mem_filter, List.mem_reverse, List.mem_range]
  cases wset <;> simp [and_assoc]

/-- **The pages stand in strictly decreasing order**, each once. -/
theorem listed_sorted (wset : Bool) (p : Proc) : (listed wset p).Pairwise (· > ·) := by
  refine List.Pairwise.filter _ ?_
  rw [List.pairwise_reverse]
  exact List.pairwise_lt_range

theorem listedBelow_succ (v : Nat) : listedBelow wset p (v + 1) =
    if listable wset p v then v :: listedBelow wset p v else listedBelow wset p v := by
  unfold listedBelow
  rw [List.range_succ, List.reverse_append, List.reverse_singleton, List.singleton_append,
    List.filter_cons]

theorem writtenIn_add_four {n u : Nat} : WrittenIn entries (n + 4) u ↔
    WrittenIn entries n u ∨ u = vpn (entries + n) ∨ u = vpn (entries + n + 3) := by
  constructor
  · intro h
    obtain ⟨j, hj, rfl⟩ := h
    by_cases hn : j < n
    · exact .inl ⟨j, hn, rfl⟩
    · -- the four bytes lie in the pages of the first and the last
      right
      unfold vpn
      omega
  · intro h
    rcases h with ⟨j, hj, rfl⟩ | rfl | rfl
    · exact ⟨j, by omega, rfl⟩
    · exact ⟨n, by omega, rfl⟩
    · exact ⟨n + 3, by omega, rfl⟩

end

/-! ## 2. The invariant -/

section
variable (m : Kmem) (p : Proc) (entries : Nat) (num : Int) (wset : Bool)

/-- The buffer and the page table, with the fields `put` of entry `i` stored. -/
structure Filled (x : Scan) (put : List PtField) : Prop where
  sz : x.p.sz = p.sz
  q : x.p.q = p.q
  tab : ∀ u, x.p.pgdir.tabAt u = p.pgdir.tabAt u
  holds : ∀ f, x.p.pgdir.holds f = p.pgdir.holds f
  pte : ∀ u, x.p.pgdir.pteAt u =
    touchedPte p entries (entrySize * x.i + PtField.bytesOf put.length) u
  fields : ∀ t f, t < listCount num wset p → field (x.p.vm x.m) entries t f =
    if t < x.i ∧ f ∈ PtField.stored ∨ t = x.i ∧ f ∈ put then entryValue wset p entries t f
    else field (p.vm m) entries t f

/-- The loop is at page `v`, and the pages `ahead` are still to come. -/
structure AtPage (x : Scan) (v : Nat) (ahead : List Nat) : Prop where
  lt : v < pages p.sz
  uva : x.uva = v * 4096
  split : ∃ dn, listed wset p = dn ++ ahead ∧ dn.length = x.i
  num : (x.i : Int) < num

/-- **The invariant.** -/
def ListInv (x : Scan) : Prop :=
  match x.pc with
  | .look => ∃ v, AtPage p num wset x v (listedBelow wset p (v + 1)) ∧
      Filled m p entries num wset x []
  | .read fs => ∃ v put, AtPage p num wset x v (v :: listedBelow wset p v) ∧
      PtField.stored = put ++ fs ∧ Filled m p entries num wset x put
  | .write f val fs => ∃ v put, AtPage p num wset x v (v :: listedBelow wset p v) ∧
      PtField.stored = put ++ f :: fs ∧ Filled m p entries num wset x put ∧
      val = entryValue wset p entries x.i f
  | .ret => x.i = listCount num wset p ∧ Filled m p entries num wset x []

/-- **What the call needs**: a process whose pages below its size have page-table pages, page 0
    being one of the user's, no frame used twice, and a buffer whose pages are decrypted. -/
structure ListReady : Prop where
  pos : 0 < p.sz
  size : p.sz ≤ kernBase
  tabs : ∀ u, u < pages p.sz → p.pgdir.tabAt u = true
  zero : has (p.pgdir.pteAt 0) pteU = true ∧ mapped (p.pgdir.pteAt 0) = true
  once : ∀ f, p.pgdir.holds f ≤ 1
  queue : p.q.inClock ≤ cfg.clockSize
  buffer : Resident p.pgdir entries (entrySize * listCount num wset p)

end

/-! ## 3. Steps -/

section
variable {cfg} {m : Kmem} {p : Proc} {entries : Nat} {num : Int} {wset : Bool} {x x' : Scan}

theorem has_touchedPte {b : Word} (hb : b &&& pteA = 0#32) :
    has (touchedPte p entries n v) b = has (p.pgdir.pteAt v) b := by
  unfold touchedPte
  split
  · exact has_setRef _ hb
  · rfl

theorem mapped_touchedPte : mapped (touchedPte p entries n v) = mapped (p.pgdir.pteAt v) :=
  has_touchedPte (by decide)

theorem AtPage.vpn (h : AtPage p num wset x v l) (hr : ListReady cfg p entries num wset) :
    vpn x.uva = v := by
  have hlt := h.lt
  have hsz := hr.size
  unfold pages at hlt
  unfold kernBase at hsz
  rw [h.uva]
  exact vpn_page (by omega)

theorem Filled.tabAt {put : List PtField} (h : Filled m p entries num wset x put)
    (hr : ListReady cfg p entries num wset) (hv : v < pages p.sz) : x.p.pgdir.tabAt v = true := by
  rw [h.tab]
  exact hr.tabs v hv

/-- The page at which the loop is has its page-table page. -/
theorem ListInv.tab (hr : ListReady cfg p entries num wset) (h : ListInv m p entries num wset x)
    (hpc : x.pc ≠ .ret) : x.p.pgdir.tabAt (Xv6Clock.vpn x.uva) = true := by
  unfold ListInv at h
  split at h
  · obtain ⟨v, h1, h2⟩ := h
    rw [h1.vpn hr]
    exact h2.tabAt hr h1.lt
  · obtain ⟨v, put, h1, -, h2⟩ := h
    rw [h1.vpn hr]
    exact h2.tabAt hr h1.lt
  · obtain ⟨v, put, h1, -, h2, -⟩ := h
    rw [h1.vpn hr]
    exact h2.tabAt hr h1.lt
  · exact absurd ‹_› hpc

/-- The test of the loop, on the page table as it is now. -/
theorem Filled.wanted {put : List PtField} (h : Filled m p entries num wset x put)
    (hr : ListReady cfg p entries num wset) (hv : v < pages p.sz) :
    wanted cfg wset x.p (some v) = .ok (!wset || decide (Queued p.q v)) := by
  rw [wanted_ok (by rw [h.q]; exact hr.queue) (h.tabAt hr hv), h.q]

theorem Filled.listable {put : List PtField} (h : Filled m p entries num wset x put) :
    listable wset p v = (has (x.p.pgdir.pteAt v) pteU && mapped (x.p.pgdir.pteAt v) &&
      (!wset || decide (Queued p.q v))) := by
  rw [h.pte, has_touchedPte (by decide), mapped_touchedPte]
  rfl

/-- There is an entry left for the page at which the loop is. -/
theorem AtPage.lt_count (h : AtPage p num wset x v (v :: l)) :
    x.i < listCount num wset p ∧ listedPage wset p x.i = v := by
  obtain ⟨dn, hd, hi⟩ := h.split
  have hnum := h.num
  unfold listCount listedPage
  rw [hd, ← hi]
  refine ⟨?_, ?_⟩
  · rw [List.length_append, List.length_cons]
    omega
  · rw [List.getD_eq_getElem?_getD, List.getElem?_append_right (Nat.le_refl _), Nat.sub_self]
    rfl

theorem ListInv.of_look (hpc : x.pc = .look)
    (h1 : AtPage p num wset x v (listedBelow wset p (v + 1)))
    (h2 : Filled m p entries num wset x []) : ListInv m p entries num wset x := by
  unfold ListInv
  rw [hpc]
  exact ⟨v, h1, h2⟩

theorem ListInv.of_read {put : List PtField} (hpc : x.pc = .read fs)
    (h1 : AtPage p num wset x v (v :: listedBelow wset p v)) (h2 : PtField.stored = put ++ fs)
    (h3 : Filled m p entries num wset x put) : ListInv m p entries num wset x := by
  unfold ListInv
  rw [hpc]
  exact ⟨v, put, h1, h2, h3⟩

theorem ListInv.of_write {put : List PtField} (hpc : x.pc = .write f val fs)
    (h1 : AtPage p num wset x v (v :: listedBelow wset p v)) (h2 : PtField.stored = put ++ f :: fs)
    (h3 : Filled m p entries num wset x put) (h4 : val = entryValue wset p entries x.i f) :
    ListInv m p entries num wset x := by
  unfold ListInv
  rw [hpc]
  exact ⟨v, put, h1, h2, h3, h4⟩

theorem ListInv.of_ret (hpc : x.pc = .ret) (h1 : x.i = listCount num wset p)
    (h2 : Filled m p entries num wset x []) : ListInv m p entries num wset x := by
  unfold ListInv
  rw [hpc]
  exact ⟨h1, h2⟩

theorem Filled.congr {put : List PtField} (h : Filled m p entries num wset x put)
    (hm : x'.m = x.m) (hp : x'.p = x.p) (hi : x'.i = x.i) :
    Filled m p entries num wset x' put := by
  refine ⟨?_, ?_, ?_, ?_, ?_, ?_⟩
  · rw [hp]; exact h.sz
  · rw [hp]; exact h.q
  · rw [hp]; exact h.tab
  · rw [hp]; exact h.holds
  · rw [hp, hi]; exact h.pte
  · rw [hp, hm, hi]; exact h.fields

/-- The loop goes on to the page below. -/
theorem ListInv.down (hpos : 0 < v) (hlt : v < pages p.sz) (huva : x.uva = v * 4096)
    (hsz : p.sz ≤ kernBase) {dn : List Nat} (hd : listed wset p = dn ++ listedBelow wset p v)
    (hi : dn.length = x.i) (hnum : (x.i : Int) < num) (hf : Filled m p entries num wset x []) :
    ListInv m p entries num wset x.down := by
  refine .of_look (Scan.down_pc x) (v := v - 1) ⟨by omega, ?_, ⟨dn, ?_, ?_⟩, ?_⟩
    (hf.congr (Scan.down_m x) (Scan.down_p x) (Scan.down_i x))
  · unfold pages at hlt
    unfold kernBase at hsz
    rw [Scan.down_uva, huva]
    unfold subU pgSize
    omega
  · rw [Nat.sub_add_cancel hpos]
    exact hd
  · rw [Scan.down_i, hi]
  · rw [Scan.down_i]
    exact hnum

/-- The end of the body. -/
theorem ListInv.next (hlt : v < pages p.sz) (huva : x.uva = v * 4096) (hsz : p.sz ≤ kernBase)
    {dn : List Nat} (hd : listed wset p = dn ++ listedBelow wset p v) (hi : dn.length = x.i)
    (hnum : (x.i : Int) ≤ num) (hf : Filled m p entries num wset x []) :
    ListInv m p entries num wset (x.next num) := by
  unfold Scan.next
  split
  · rename_i hc
    refine .of_ret rfl ?_ (hf.congr rfl rfl rfl)
    change x.i = listCount num wset p
    unfold listCount
    rw [hd, List.length_append, hi]
    rcases hc with hc | hc
    · -- page 0 was the last
      obtain rfl : v = 0 := by omega
      change x.i = min num.toNat (x.i + 0)
      omega
    · omega
  · rename_i hc
    rw [not_or] at hc
    exact ListInv.down (by omega) hlt huva hsz hd hi (by omega) hf

/-- The bytes of the buffer, from the field that is stored. -/
theorem Filled.resident {put : List PtField} (h : Filled m p entries num wset x put)
    (hr : ListReady cfg p entries num wset) (hi : x.i < listCount num wset p) (f : PtField) :
    Resident x.p.pgdir (fieldAddr entries x.i f) 4 := by
  obtain ⟨ea, hea⟩ := @fieldAddr_eq entries x.i _ f hr.buffer.low hi
  have hb : Resident p.pgdir (fieldAddr entries x.i f) 4 :=
    hr.buffer.mono (by omega) (by omega)
  refine ⟨hb.low, fun c h1 h2 => ?_, fun c h1 h2 => ?_⟩
  · rw [h.pte, has_touchedPte (by decide)]
    exact hb.present c h1 h2
  · rw [h.pte, has_touchedPte (by decide)]
    exact hb.open_ c h1 h2

theorem Resident.missing {a : Nat} (h : Resident p.pgdir a 4) : missing p a = none := by
  have hlow := h.low
  unfold kernBase at hlow
  unfold Xv6Clock.missing
  rw [addU_eq (by omega), h.present a (by omega) (by omega),
    h.present (a + 3) (by omega) (by omega)]
  rfl

/-- The value read for a field is the one the list is to have. -/
theorem Filled.value {put : List PtField} (h : Filled m p entries num wset x put)
    (hat : AtPage p num wset x v (v :: l)) (hput : PtField.stored = put ++ f :: fs) :
    f.of (v * 4096) (x.p.pgdir.pteAt v) = entryValue wset p entries x.i f := by
  unfold entryValue
  rw [hat.lt_count.2, h.pte]
  by_cases hf : f = .ref
  · -- the whole entry was stored to by now
    subst hf
    rw [(PtField.stored_at hput).2.2 rfl]
    rfl
  · have hof : ∀ n, f.of (v * 4096) (touchedPte p entries n v) =
        f.of (v * 4096) (p.pgdir.pteAt v) := fun n => by
      unfold touchedPte
      split
      · exact PtField.of_setRef hf _ _
      · rfl
    rw [hof, hof]

/-- **A field is stored.** -/
theorem Filled.put {put : List PtField} (h : Filled m p entries num wset x put)
    (hr : ListReady cfg p entries num wset) (hat : AtPage p num wset x v (v :: l))
    (hput : PtField.stored = put ++ f :: fs) (hval : val = entryValue wset p entries x.i f) :
    Filled m p entries num wset { x.store entries f val with pc := .read fs } (put ++ [f]) := by
  obtain ⟨hi, hpage⟩ := hat.lt_count
  have hres := h.resident hr hi f
  obtain ⟨ea, hea⟩ := @fieldAddr_eq entries x.i _ f hr.buffer.low hi
  obtain ⟨hb1, hb2, -⟩ := PtField.stored_at hput
  refine ⟨h.sz, h.q, fun u => (touchWord_tabAt _ _ _).trans (h.tab u), fun g => ?_, fun u => ?_,
    fun t g ht => ?_⟩
  · exact ((touchWord_recoded (m := x.m) hres).holds g).trans (h.holds g)
  · -- the pages of the word join those stored to
    change (touchWord x.p (fieldAddr entries x.i f)).pgdir.pteAt u =
      touchedPte p entries (entrySize * x.i + PtField.bytesOf (put ++ [f]).length) u
    rw [touchWord_pteAt hres, h.pte, List.length_append, List.length_singleton, hb1, ea]
    have hnew := @writtenIn_add_four entries (entrySize * x.i + 4 * f.word) u
    have hold : WrittenIn entries (entrySize * x.i + 4 * f.word + 4) u ↔
        WrittenIn entries (entrySize * x.i + PtField.bytesOf put.length) u ∨
          u = vpn (entries + entrySize * x.i + 4 * f.word) ∨
          u = vpn (entries + entrySize * x.i + 4 * f.word + 3) := by
      rw [← Nat.add_assoc] at hnew
      rcases hb2 with hb | hb
      · rw [hb]
        exact hnew
      · rw [hb]
        exact ⟨.inl, fun hc => hc.elim id fun h2 => hnew.mpr (.inr h2)⟩
    unfold touchedPte
    rw [← Nat.add_assoc]
    by_cases ht : WrittenIn entries (entrySize * x.i + PtField.bytesOf put.length) u
    · rw [if_pos ht, if_pos (hold.mpr (.inl ht)), setRef_setRef, ite_self]
    · rw [if_neg ht]
      exact if_congr (by rw [hold]; simp [ht]) rfl rfl
  · have hstore := @store_field x entries _ t f g val (fun f => by rw [h.holds]; exact hr.once f)
      hr.buffer.low hi ht hres (fun c h1 h2 => by
        rw [h.pte, mapped_touchedPte]
        exact mapped_of_P (hr.buffer.present c h1 h2)) (by rw [hval]; exact f.of_fits _ _)
    refine hstore.trans ?_
    rw [h.fields t g ht]
    change _ = if t < x.i ∧ g ∈ PtField.stored ∨ t = x.i ∧ g ∈ put ++ [f] then _ else _
    by_cases hnew : t = x.i ∧ g = f
    · rw [if_pos hnew, if_pos (.inr ⟨hnew.1, by simp [hnew.2]⟩), hval, hnew.1, hnew.2]
    · rw [if_neg hnew]
      refine if_congr ?_ rfl rfl
      rw [List.mem_append, List.mem_singleton]
      constructor
      · exact fun hc => hc.imp_right fun h1 => ⟨h1.1, .inl h1.2⟩
      · exact fun hc => hc.imp_right fun h1 => ⟨h1.1, h1.2.resolve_right fun h2 => hnew ⟨h1.1, h2⟩⟩

/-- An entry is complete. -/
theorem Filled.complete (h : Filled m p entries num wset x PtField.stored) :
    Filled m p entries num wset { x with i := x.i + 1 } [] := by
  refine ⟨h.sz, h.q, h.tab, h.holds, fun u => (h.pte u).trans ?_, fun t f ht => ?_⟩
  · change touchedPte p entries (entrySize * x.i + 8) u =
      touchedPte p entries (entrySize * (x.i + 1) + 0) u
    rw [Nat.mul_add, Nat.add_zero, Nat.mul_one, entrySize]
  · refine (h.fields t f ht).trans (if_congr ?_ rfl rfl)
    change _ ↔ t < x.i + 1 ∧ f ∈ PtField.stored ∨ t = x.i + 1 ∧ f ∈ []
    simp only [List.not_mem_nil, and_false, or_false, ← or_and_right]
    exact and_congr_left' (by omega)

/-- **Every step keeps the invariant.** -/
theorem ListInv.step (hr : ListReady cfg p entries num wset) (h : ListInv m p entries num wset x)
    (hs : x.step cfg entries num wset = .ok x') : ListInv m p entries num wset x' := by
  by_cases hret : x.pc = .ret
  · unfold Scan.step at hs
    rw [hret] at hs
    cases hs
    exact h
  have hi := h
  unfold ListInv at hi
  cases Scan.stepped (h.tab hr hret) hs with
  | halt hpc => exact h
  | @fault _ f v fs a hpc hm _ =>
    rw [hpc] at hi
    obtain ⟨v, put, hat, -, hf, -⟩ := hi
    rw [(hf.resident hr hat.lt_count.1 f).missing] at hm
    cases hm
  | skip hpc hw =>
    rw [hpc] at hi
    obtain ⟨v, hat, hf⟩ := hi
    obtain ⟨dn, hd, hlen⟩ := hat.split
    have hnot : listable wset p v = false := by
      rw [hf.listable, ← hat.vpn hr]
      cases hl : has (x.p.pgdir.pteAt (Xv6Clock.vpn x.uva)) pteU &&
          mapped (x.p.pgdir.pteAt (Xv6Clock.vpn x.uva)) with
      | false => rfl
      | true => exact absurd (Bool.and_eq_true_iff.mp hl) hw
    rw [listedBelow_succ, if_neg (by rw [hnot]; decide)] at hd
    -- page 0 is the user's
    have hpos : 0 < v := by
      rcases Nat.eq_zero_or_pos v with rfl | hpos
      · refine absurd ?_ hw
        rw [hat.vpn hr, hf.pte, has_touchedPte (by decide), mapped_touchedPte]
        exact hr.zero
      · exact hpos
    exact ListInv.down hpos hat.lt hat.uva hr.size hd hlen hat.num hf
  | pass hpc hU hm hw =>
    rw [hpc] at hi
    obtain ⟨v, hat, hf⟩ := hi
    obtain ⟨dn, hd, hlen⟩ := hat.split
    rw [hat.vpn hr, hf.wanted hr hat.lt] at hw
    have hnot : listable wset p v = false := by
      rw [hf.listable, Except.ok.inj hw, Bool.and_false]
    rw [listedBelow_succ, if_neg (by rw [hnot]; decide)] at hd
    exact ListInv.next hat.lt hat.uva hr.size hd hlen (Int.le_of_lt hat.num) hf
  | list hpc hU hm hw =>
    rw [hpc] at hi
    obtain ⟨v, hat, hf⟩ := hi
    obtain ⟨dn, hd, hlen⟩ := hat.split
    rw [hat.vpn hr] at hU hm hw
    rw [hf.wanted hr hat.lt] at hw
    have hyes : listable wset p v = true := by
      rw [hf.listable, hU, hm, Except.ok.inj hw]
      rfl
    rw [listedBelow_succ, if_pos hyes] at hd
    exact .of_read rfl ⟨hat.lt, hat.uva, ⟨dn, hd, hlen⟩, hat.num⟩ (List.nil_append _).symm
      (hf.congr rfl rfl rfl)
  | @value f fs hpc =>
    rw [hpc] at hi
    obtain ⟨v, put, hat, hput, hf⟩ := hi
    refine .of_write rfl ⟨hat.lt, hat.uva, hat.split, hat.num⟩ hput (hf.congr rfl rfl rfl) ?_
    rw [hat.vpn hr, hat.uva]
    exact hf.value hat hput
  | @put f val fs hpc hm =>
    rw [hpc] at hi
    obtain ⟨v, put, hat, hput, hf, hval⟩ := hi
    refine .of_read rfl ⟨hat.lt, hat.uva, hat.split, hat.num⟩ ?_
      (hf.put hr hat hput hval)
    rw [hput, List.append_assoc]
    rfl
  | done hpc =>
    rw [hpc] at hi
    obtain ⟨v, put, hat, hput, hf⟩ := hi
    rw [List.append_nil] at hput
    rw [← hput] at hf
    obtain ⟨dn, hd, hlen⟩ := hat.split
    have hnum := hat.num
    have hd' : listed wset p = (dn ++ [v]) ++ listedBelow wset p v := by
      rw [hd, List.append_assoc]
      rfl
    refine ListInv.next hat.lt hat.uva hr.size hd' ?_ ?_ hf.complete
    · rw [List.length_append, hlen]
      rfl
    · change ((x.i + 1 : Nat) : Int) ≤ num
      omega

/-- The first page. -/
theorem ListInv.start (m : Kmem) (hnum : 1 ≤ num) (hr : ListReady cfg p entries num wset) :
    ListInv m p entries num wset (scanStart m p) := by
  have hsz := hr.size
  have hpos := hr.pos
  unfold kernBase at hsz
  have hpages : pages p.sz - 1 + 1 = pages p.sz := by
    unfold pages
    omega
  refine .of_look rfl (v := pages p.sz - 1) ⟨by omega, ?_, ⟨[], ?_, rfl⟩, ?_⟩
    ⟨rfl, rfl, fun _ => rfl, fun _ => rfl, fun u => ?_, fun t f _ => ?_⟩
  · unfold scanStart pages
    dsimp only
    split
    · unfold subU pgSize at *
      omega
    · unfold pgRoundDown pgSize at *
      omega
  · rw [hpages]
    rfl
  · exact Int.lt_of_lt_of_le Int.zero_lt_one hnum
  · unfold touchedPte
    rw [if_neg fun h => ?_]
    · rfl
    · obtain ⟨j, hj, -⟩ := h
      exact absurd hj (Nat.not_lt_zero j)
  · rw [if_neg fun h => ?_]
    · rfl
    · rcases h with h | h
      · exact absurd h.1 (Nat.not_lt_zero t)
      · exact absurd h.2 List.not_mem_nil

section
variable (hr : ListReady cfg p entries num wset)
include hr

theorem ListInv.aligned (h : ListInv m p entries num wset x) (hret : x.pc ≠ .ret) :
    x.uva % 4096 = 0 ∧ x.uva < 2 ^ 32 := by
  have key : ∀ {v : Nat} {l : List Nat}, AtPage p num wset x v l →
      x.uva % 4096 = 0 ∧ x.uva < 2 ^ 32 := fun hat => by
    have hlt := hat.lt
    have hsz := hr.size
    unfold pages at hlt
    unfold kernBase at hsz
    rw [hat.uva]
    omega
  unfold ListInv at h
  split at h
  · obtain ⟨v, h1, -⟩ := h
    exact key h1
  · obtain ⟨v, put, h1, -⟩ := h
    exact key h1
  · obtain ⟨v, put, h1, -⟩ := h
    exact key h1
  · exact absurd ‹_› hret

/-- Nothing is missing. -/
theorem ListInv.missing (h : ListInv m p entries num wset x) (hpc : x.pc = .write f val fs) :
    Xv6Clock.missing x.p (fieldAddr entries x.i f) = none := by
  unfold ListInv at h
  rw [hpc] at h
  obtain ⟨v, put, hat, -, hf, -⟩ := h
  exact (hf.resident hr hat.lt_count.1 f).missing

/-- **Every state of the loop has a next one, with less left to do.** -/
theorem ListInv.progress (h : ListInv m p entries num wset x) (hret : x.pc ≠ .ret) :
    ∃ x', x.step cfg entries num wset = .ok x' ∧ ListInv m p entries num wset x' ∧
      x'.left entries < x.left entries := by
  have htab := h.tab hr hret
  have hi := h
  unfold ListInv at hi
  have hmiss : ∀ f v fs, x.pc = .write f v fs →
      Xv6Clock.missing x.p (fieldAddr entries x.i f) = none := fun f v fs hpc => h.missing hr hpc
  have hqueue : x.p.q.inClock ≤ cfg.clockSize := by
    have hq : x.p.q = p.q := by
      split at hi
      · obtain ⟨v, -, hf⟩ := hi
        exact hf.q
      · obtain ⟨v, put, -, -, hf⟩ := hi
        exact hf.q
      · obtain ⟨v, put, -, -, hf, -⟩ := hi
        exact hf.q
      · exact hi.2.q
    rw [hq]
    exact hr.queue
  have hskip : x.pc = .look → ¬ (has (x.p.pgdir.pteAt (Xv6Clock.vpn x.uva)) pteU = true ∧
      mapped (x.p.pgdir.pteAt (Xv6Clock.vpn x.uva)) = true) → x.uva ≠ 0 := by
    intro hpc hw h0
    rw [hpc] at hi
    obtain ⟨v, hat, hf⟩ := hi
    refine hw ?_
    rw [h0, hf.pte, has_touchedPte (by decide), mapped_touchedPte]
    exact hr.zero
  obtain ⟨x', hs⟩ := @Scan.step_total cfg entries num wset x htab hqueue hmiss
  obtain ⟨ha, hlt⟩ := h.aligned hr hret
  exact ⟨x', hs, h.step hr hs, (Scan.stepped htab hs).left_lt hret hmiss ha hlt hskip⟩

end

/-! ## 4. The theorems -/

/-- The fields at the return. -/
theorem ListInv.fields (h : ListInv m p entries num wset x) (hret : x.pc = .ret) :
    x.i = listCount num wset p ∧ ∀ t f, t < x.i → field (x.p.vm x.m) entries t f =
      if f ∈ PtField.stored then entryValue wset p entries t f else field (p.vm m) entries t f := by
  unfold ListInv at h
  rw [hret] at h
  refine ⟨h.1, fun t f ht => ?_⟩
  rw [h.2.fields t f (by rw [← h.1]; exact ht)]
  refine if_congr ?_ rfl rfl
  simp [ht]

theorem PtField.mem_stored : f ∈ PtField.stored ↔ f ≠ .user := by
  cases f <;> decide


/-- The calls of a process that is ready for them return. -/
theorem ListReady.returns (hr : ListReady cfg p entries num wset) (hnum : 1 ≤ num) (m : Kmem) :
    ∃ x, Returns cfg m p entries num wset x ∧ ListInv m p entries num wset x := by
  obtain ⟨n, x, hrun, hret, hinv⟩ := Scan.run_ends (Scan.left entries)
    (fun x h hret => h.progress hr hret) (ListInv.start m hnum hr)
  exact ⟨x, ⟨hret, n, hrun⟩, hinv⟩

end

/-- **`getpgtable` lists the user pages from the highest down.** It returns the smaller of `num` and
    their number, and entry `t` describes the `t`th of them: `pdx` and `ptx` its address, the other
    fields its PTE. (The kernel's own stores set the reference bits of the buffer's pages, which
    `touchedPte` accounts for.) -/
theorem getpgtable_lists (m : Kmem) (p : Proc) (entries : Nat) (num : Int) (wset : Bool)
    (hnum : 1 ≤ num) (hr : ListReady cfg p entries num wset) :
    (listed wset p).Pairwise (· > ·) ∧
    (∀ v, v ∈ listed wset p ↔ v < pages p.sz ∧ has (p.pgdir.pteAt v) pteU = true ∧
      mapped (p.pgdir.pteAt v) = true ∧ (wset = true → Queued p.q v)) ∧
    ∃ x, Returns cfg m p entries num wset x ∧
      x.i = min num.toNat (listed wset p).length ∧
      ∀ t f, t < x.i → f ≠ .user → field (x.p.vm x.m) entries t f =
        f.of (listedPage wset p t * 4096)
          (touchedPte p entries (entrySize * (t + 1)) (listedPage wset p t)) := by
  refine ⟨listed_sorted wset p, fun v => mem_listed, ?_⟩
  obtain ⟨x, hx, hinv⟩ := hr.returns hnum m
  obtain ⟨hi, hf⟩ := hinv.fields hx.1
  refine ⟨x, hx, hi, fun t f ht hu => ?_⟩
  rw [hf t f ht, if_pos (PtField.mem_stored.mpr hu)]
  rfl

/-- The first process, with its one page as the buffer. -/
theorem firstProc_listReady (hb : boot cfg 0 [] = .ok k) (hf : FirstProc k n) :
    ListReady cfg (k.proc 0) 0 1 false := by
  obtain ⟨ha, hs⟩ := boot_ok cfg hb
  have hu : (k.proc 0).state ≠ .unused := by
    rw [hf.run]
    decide
  obtain ⟨f, hp⟩ := hf.page
  have hflags : ∀ b : Word, IsFlags b → has ((k.proc 0).pgdir.pteAt 0) b =
      has (pteW ||| pteU ||| pteP) b := fun b hb => by
    rw [hp]
    exact has_allocEntry f hb
  have hzero : ∀ c, c < 8 → vpn c = 0 := fun c hc => by
    unfold vpn
    omega
  have hcount : listCount 1 false (k.proc 0) ≤ 1 := Nat.min_le_left _ _
  refine ⟨?_, ?_, fun u hu => ?_, ⟨?_, ?_⟩, fun f => ?_, ?_, ?_, fun c _ hc => ?_, fun c _ hc => ?_⟩
  · rw [hf.size]
    decide
  · rw [hf.size]
    decide
  · rw [hf.size] at hu
    obtain rfl : u = 0 := Nat.lt_one_iff.mp hu
    refine PgDir.tabAt_of_mapped ?_
    rw [mapped, hflags _ (by decide)]
    decide
  · rw [hflags _ (by decide)]
    decide
  · rw [mapped, hflags _ (by decide)]
    decide
  · have h := ha.proc_le cfg (i := 0) (by decide) hu f
    omega
  · rw [(hs 0 hu).empty]
    exact Nat.zero_le _
  · unfold entrySize kernBase
    omega
  · rw [hzero c (by unfold entrySize at hc; omega), hflags _ (by decide)]
    decide
  · rw [hzero c (by unfold entrySize at hc; omega), hflags _ (by decide)]
    decide

theorem firstProc_listCount (hb : boot cfg 0 [] = .ok k) (hf : FirstProc k n) :
    listCount 1 false (k.proc 0) = 1 := by
  have hr := firstProc_listReady cfg hb hf
  have hmem : 0 ∈ listed false (k.proc 0) := mem_listed.mpr ⟨by rw [hf.size]; decide,
    hr.zero.1, hr.zero.2, fun hc => (by cases hc)⟩
  have hlen := List.length_pos_of_mem hmem
  unfold listCount
  omega

/-- Page 2 is the guard page; pages 1 and 3 are decrypted and on the clock queue. -/
def guardedProc : Proc :=
  { freshProc 4 with
    pgdir := (((freshDir 4).store 1 (frameAddr 0x3001 ||| (pteW ||| pteU ||| pteP))).store 2
      (frameAddr 0x3002 ||| (pteW ||| pteP))).store 3
      (frameAddr 0x3003 ||| (pteW ||| pteU ||| pteP))
    q := ⟨fun i => [3 * 4096, 1 * 4096].getD i 0, 2, 1⟩ }

theorem guardedProc_once (f : Frame) : guardedProc.pgdir.holds f ≤ 1 := by
  have h : guardedProc.pgdir.holds f = (freshDir 4).holds f := by
    refine (PgDir.holds_store_same ?_ ?_ (by decide) f).trans
      ((PgDir.holds_store_same ?_ ?_ (by decide) f).trans
        (PgDir.holds_store_same ?_ ?_ (by decide) f)) <;> rfl
  rw [h]
  exact freshDir_once 4 f

theorem guardedProc_count : listCount 3 true guardedProc = 2 := by decide

/-- Its decrypted page is the buffer. -/
theorem guardedProc_listReady : ListReady xv6 guardedProc (3 * 4096) 3 true := by
  have hpage : ∀ c, 3 * 4096 ≤ c → c < 3 * 4096 + entrySize * 2 → vpn c = 3 := fun c h1 h2 => by
    unfold entrySize at h2
    unfold vpn
    omega
  refine ⟨by decide, by decide, by decide, by decide, guardedProc_once, by decide, by decide,
    fun c h1 h2 => ?_, fun c h1 h2 => ?_⟩
  · rw [hpage c h1 (guardedProc_count ▸ h2)]
    decide
  · rw [hpage c h1 (guardedProc_count ▸ h2)]
    decide

/-- Pages 3 and 1 are listed: the guard page is not the user's, and page 0 is not queued. -/
theorem getpgtable_lists_guarded : listed true guardedProc = [3, 1] ∧
    ∃ x, Returns xv6 (freshKernel 4).kmem guardedProc (3 * 4096) 3 true x ∧ x.i = 2 ∧
      ∀ t f, t < x.i → f ≠ .user → field (x.p.vm x.m) (3 * 4096) t f =
        f.of (listedPage true guardedProc t * 4096)
          (touchedPte guardedProc (3 * 4096) (entrySize * (t + 1))
            (listedPage true guardedProc t)) := by
  obtain ⟨-, -, x, hx, hi, hf⟩ := getpgtable_lists xv6 (freshKernel 4).kmem guardedProc (3 * 4096) 3
    true (by decide) guardedProc_listReady
  exact ⟨by decide, x, hx, hi.trans (by decide), hf⟩

/-! ## 5. What is left of the old buffer -/

/-- Two calls return the same count, and entries that agree in every declared field. -/
def SameOutput (m m' : Kmem) (p p' : Proc) (entries : Nat) (num : Int) (wset : Bool) : Prop :=
  ∃ x x', Returns cfg m p entries num wset x ∧ Returns cfg m' p' entries num wset x' ∧
    x'.i = x.i ∧ ∀ t f, t < x.i →
      field (x'.p.vm x'.m) entries t f = field (x.p.vm x.m) entries t f

section
variable {cfg} {m m' : Kmem} {p p' : Proc} {entries : Nat} {num : Int} {wset : Bool}
  (hpd : p'.pgdir = p.pgdir) (hsz : p'.sz = p.sz) (hq : p'.q = p.q)
include hpd hsz hq

/-- The list is a matter of the page table, the size and the queue. -/
theorem listed_congr : listed wset p' = listed wset p := by
  unfold listed listedBelow listable
  simp only [hpd, hsz, hq]

theorem entryValue_congr (t : Nat) (f : PtField) :
    entryValue wset p' entries t f = entryValue wset p entries t f := by
  unfold entryValue listedPage touchedPte
  rw [listed_congr hpd hsz hq, hpd]

theorem ListReady.congr (h : ListReady cfg p entries num wset) :
    ListReady cfg p' entries num wset where
  pos := by rw [hsz]; exact h.pos
  size := by rw [hsz]; exact h.size
  tabs := by rw [hsz, hpd]; exact h.tabs
  zero := by rw [hpd]; exact h.zero
  once := by rw [hpd]; exact h.once
  queue := by rw [hq]; exact h.queue
  buffer := by
    unfold listCount
    rw [listed_congr hpd hsz hq, hpd]
    exact h.buffer

omit hpd hsz hq in
theorem Returns.listInv (hr : ListReady cfg p entries num wset) (hnum : 1 ≤ num) {x : Scan}
    (h : Returns cfg m p entries num wset x) : ListInv m p entries num wset x := by
  obtain ⟨-, n, hrun⟩ := h
  exact Scan.run_inv (fun h hs => h.step hr hs) (ListInv.start m hnum hr) hrun

/-- Entries that agree have the same old `user` bit. -/
theorem SameOutput.old (hr : ListReady cfg p entries num wset) (hnum : 1 ≤ num)
    (h : SameOutput cfg m m' p p' entries num wset) {t : Nat} (ht : t < listCount num wset p) :
    field (p'.vm m') entries t .user = field (p.vm m) entries t .user := by
  obtain ⟨x, x', hx, hx', hi, hf⟩ := h
  obtain ⟨h1, h2⟩ := (hx.listInv hr hnum).fields hx.1
  obtain ⟨h3, h4⟩ := (hx'.listInv (hr.congr hpd hsz hq) hnum).fields hx'.1
  have e := hf t .user (by omega)
  rw [h2 t _ (by omega), h4 t _ (by omega), if_neg (by decide), if_neg (by decide)] at e
  exact e

end

/-- **The output depends on the old buffer through the `user` bits**, which are never stored, and
    through nothing else: two calls with the same page table, size and queue agree exactly if the
    `user` bits that stood in the entries agree. -/
theorem sameOutput_iff (m m' : Kmem) (p p' : Proc) (entries : Nat) (num : Int) (wset : Bool)
    (hpd : p'.pgdir = p.pgdir) (hsz : p'.sz = p.sz) (hq : p'.q = p.q) (hnum : 1 ≤ num)
    (hr : ListReady cfg p entries num wset) :
    SameOutput cfg m m' p p' entries num wset ↔ ∀ t, t < listCount num wset p →
      field (p'.vm m') entries t .user = field (p.vm m) entries t .user := by
  refine ⟨fun h t ht => h.old hpd hsz hq hr hnum ht, fun h => ?_⟩
  obtain ⟨x, hx, hinv⟩ := hr.returns hnum m
  obtain ⟨x', hx', hinv'⟩ := (hr.congr hpd hsz hq).returns hnum m'
  obtain ⟨h1, h2⟩ := hinv.fields hx.1
  obtain ⟨h3, h4⟩ := hinv'.fields hx'.1
  have hcount : listCount num wset p' = listCount num wset p := by
    unfold listCount
    rw [listed_congr hpd hsz hq]
  refine ⟨x, x', hx, hx', by omega, fun t f ht => ?_⟩
  rw [h2 t f ht, h4 t f (by omega)]
  by_cases hu : f = .user
  · subst hu
    rw [if_neg (by decide), if_neg (by decide)]
    exact h t (by omega)
  · rw [if_pos (PtField.mem_stored.mpr hu), if_pos (PtField.mem_stored.mpr hu),
      entryValue_congr hpd hsz hq]

/-- The old `user` bit of an entry in a page that is filled with one byte. -/
theorem field_filled {p : Proc} {a entries t : Nat} (m : Kmem) (b : Byte)
    (hopen : has (p.pgdir.pteAt (vpn a)) pteE = false)
    (ha : ∀ j, j < 4 → vpn (addU (fieldAddr entries t .user) (0 + j)) = vpn a) :
    field (p.vm (m.setPage (p.frameOf a) (fill b))) entries t .user =
      Lib.getBits (le32 (fill b) 0) 22 1 := by
  have hl : (p.vm (m.setPage (p.frameOf a) (fill b))).logical (vpn a) = fill b :=
    (Vm.logical_plain hopen).trans (Kmem.setPage_mem_self _ _ _)
  unfold field
  refine congrArg (Lib.getBits · 22 1) (le32_congr fun j hj => ?_)
  unfold ubyte
  rw [ha j hj, hl]
  rfl

/-- Two buffers that differ in most bits give the same entries, their `user` bits being the same. -/
theorem sameOutput_iff_guarded :
    SameOutput xv6 ((freshKernel 4).kmem.setPage (guardedProc.frameOf (3 * 4096)) (fill 0x40))
      ((freshKernel 4).kmem.setPage (guardedProc.frameOf (3 * 4096)) (fill 0xFF)) guardedProc
      guardedProc (3 * 4096) 3 true := by
  refine (sameOutput_iff xv6 _ _ guardedProc guardedProc (3 * 4096) 3 true rfl rfl rfl (by decide)
    guardedProc_listReady).mpr fun t ht => ?_
  rw [guardedProc_count] at ht
  have ha : ∀ t, t < 2 → ∀ j, j < 4 →
      vpn (addU (fieldAddr (3 * 4096) t .user) (0 + j)) = vpn (3 * 4096) := by decide
  rw [field_filled _ _ (by decide) (ha t ht), field_filled _ _ (by decide) (ha t ht)]
  decide

/-- **A buffer of zeros and one of ones give different entries** for the same process. -/
theorem oldUserBit_shows : ∃ k, boot xv6 0 [] = .ok k ∧ ListReady xv6 (k.proc 0) 0 1 false ∧
    ¬ SameOutput xv6 (k.kmem.setPage ((k.proc 0).frameOf 0) (fill 0x00))
      (k.kmem.setPage ((k.proc 0).frameOf 0) (fill 0xFF)) (k.proc 0) (k.proc 0) 0 1 false := by
  obtain ⟨k, hb, hf⟩ := boot_total xv6 0 [] (by decide)
  have hr := firstProc_listReady xv6 hb hf
  refine ⟨k, hb, hr, fun h => ?_⟩
  have e := h.old (t := 0) rfl rfl rfl hr (Int.le_refl 1)
    (by rw [firstProc_listCount xv6 hb hf]; decide)
  have hopen : has ((k.proc 0).pgdir.pteAt (vpn 0)) pteE = false := by
    obtain ⟨f, hp⟩ := hf.page
    rw [show vpn 0 = 0 from rfl, hp, has_allocEntry f (by decide)]
    decide
  rw [field_filled _ _ hopen (by decide), field_filled _ _ hopen (by decide)] at e
  revert e
  decide

end Xv6Clock
