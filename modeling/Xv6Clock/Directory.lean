/-
  File:      Xv6Clock/Directory.lean
  Subject:   Directories: `namecmp`, `dirlookup`, `dirlink` (fs.c), `strncmp` and `strncpy`
             (string.c), and the entry that `sys_unlink` zeroes (sysfile.c).

  The process has the directory locked. Its content is a list of entries of 16 bytes, and the
  entries are the slots of a finite map from names to inode numbers (`Lib.slotOf`).
  * `strncmp_eq_zero`, `cstr_strncpy`: names are compared and copied up to 14 bytes;
  * `dirlookup_eq`: what `dirlookup` finds;
  * `writeDe_ok`: an entry is written;
  * `dirlink_map`: the map that a directory is.
-/
import Xv6Clock.Icache
import Xv6Clock.FileChunks
import Xv6Clock.Lib.Slots

namespace Xv6Clock.Dir

open Mkfs (Dinode Superblock bsize maxfile dirsiz blocks)
open FileData (Fs FsOf readi writei need replaced Refused)
open Lib (Bytes digit getLE slotOf KeysDistinct putSlot cstr bytesOf bytesOf_tail range_bytesOf)

def tDir : Nat := 1

/-! ## 1. Names -/

/-- `strncmp`. -/
def strncmp : Nat → Bytes → Bytes → Int
  | 0, _, _ => 0
  | n + 1, p, q =>
    if p 0 ≠ 0 ∧ p 0 = q 0 then strncmp n (fun j => p (j + 1)) (fun j => q (j + 1))
    else (p 0).toNat - (q 0).toNat

/-- `strncpy`: the `n` bytes it stores. -/
def strncpy : Nat → Bytes → List Byte
  | 0, _ => []
  | n + 1, t => t 0 :: if t 0 = 0 then List.replicate n 0 else strncpy n fun j => t (j + 1)

/-- `namecmp`. -/
def namecmp (s t : Bytes) : Int := strncmp dirsiz s t

/-- **Names are equal** when the strings in their fields are. -/
theorem strncmp_eq_zero {n : Nat} : ∀ {p q : Bytes}, strncmp n p q = 0 ↔ cstr n p = cstr n q := by
  induction n with
  | zero => exact fun {p q} => ⟨fun _ => rfl, fun _ => rfl⟩
  | succ n ih =>
    intro p q
    have hsub : ((p 0).toNat : Int) - (q 0).toNat = 0 ↔ p 0 = q 0 := by
      rw [BitVec.toNat_eq]
      omega
    unfold strncmp cstr
    by_cases hp : p 0 = 0
    · rw [if_neg fun h => h.1 hp, if_pos hp, hsub, hp]
      refine ⟨fun h => (if_pos h.symm).symm, fun h => ?_⟩
      split at h
      · exact Eq.symm ‹q 0 = 0›
      · cases h
    · by_cases he : p 0 = q 0
      · rw [if_pos ⟨hp, he⟩, if_neg hp, if_neg (he ▸ hp), ih, he, List.cons_inj_right]
      · rw [if_neg fun h => he h.2, if_neg hp, hsub]
        refine ⟨fun h => absurd h he, fun h => ?_⟩
        split at h
        · cases h
        · exact (List.cons.inj h).1

theorem length_strncpy (n : Nat) : ∀ t : Bytes, (strncpy n t).length = n := by
  induction n with
  | zero => exact fun _ => rfl
  | succ n ih =>
    intro t
    unfold strncpy
    split <;> simp [ih]

/-- **A copied name is the name.** -/
theorem cstr_strncpy (n : Nat) : ∀ t : Bytes, cstr n (bytesOf (strncpy n t)) = cstr n t := by
  induction n with
  | zero => exact fun _ => rfl
  | succ n ih =>
    intro t
    unfold strncpy cstr
    rw [bytesOf_tail]
    change (if t 0 = 0 then _ else t 0 :: _) = _
    by_cases h : t 0 = 0
    · rw [if_pos h, if_pos h]
    · rw [if_neg h, if_neg h, if_neg h, ih]

/-! ## 2. The calls -/

/-- `de.inum` of an entry. -/
def deInum (de : List Byte) : Nat := getLE 2 (bytesOf de) 0

/-- `de.name` of an entry. -/
def deName (de : List Byte) : Bytes := fun j => bytesOf de (2 + j)

/-- The entry that `dirlink` makes; the number is cut to the 16 bits of its field. -/
def mkDe (name : Bytes) (inum : Nat) : List Byte :=
  digit inum 0 :: digit inum 1 :: strncpy dirsiz name

section
variable (sb : Superblock)

/-- An entry is read into `de`. -/
def readDe (k : Kfs) (dp off : Nat) : Except Stop (List Byte × Kfs) :=
  match readi sb k.fs (k.ino dp) off 16 with
  | some (some de, s, d) =>
    if de.length = 16 then
      .ok (de, { k with
        fs := s
        ino := Function.update k.ino dp d })
    else .error .panic
  | _ => .error .panic

/-- An entry is written from `de`. -/
def writeDe (k : Kfs) (dp off : Nat) (de : List Byte) : Except Stop Kfs :=
  match writei sb k.fs dp (k.ino dp) (bytesOf de) off 16 with
  | some (n, s, d) =>
    if n = 16 then
      .ok { k with
        fs := s
        ino := Function.update k.ino dp d }
    else .error .panic
  | none => .error .panic

/-- The loop of `dirlookup`. -/
def dirlookupLoop (dp : Nat) (name : Bytes) :
    Nat → Kfs → Nat → Except Stop (Option (Nat × Nat) × Kfs)
  | 0, k, _ => .ok (none, k)
  | fuel + 1, k, off =>
    if off < (k.ino dp).size then do
      let (de, k) ← readDe sb k dp off
      if deInum de = 0 then dirlookupLoop dp name fuel k (off + 16)
      else if namecmp name (deName de) = 0 then do
        let k ← iget k (deInum de)
        .ok (some (deInum de, off), k)
      else dirlookupLoop dp name fuel k (off + 16)
    else .ok (none, k)

/-- `dirlookup`: the inode with the name, and the offset of its entry. -/
def dirlookup (k : Kfs) (dp : Nat) (name : Bytes) : Except Stop (Option (Nat × Nat) × Kfs) :=
  if (k.ino dp).type ≠ tDir then .error .panic
  else dirlookupLoop sb dp name (k.ino dp).size k 0

/-- The loop of `dirlink`, for an entry that is free. -/
def emptyLoop (dp : Nat) : Nat → Kfs → Nat → Except Stop (Nat × Kfs)
  | 0, k, off => .ok (off, k)
  | fuel + 1, k, off =>
    if off < (k.ino dp).size then do
      let (de, k) ← readDe sb k dp off
      if deInum de = 0 then .ok (off, k) else emptyLoop dp fuel k (off + 16)
    else .ok (off, k)

/-- `dirlink`. -/
def dirlink (k : Kfs) (dp : Nat) (name : Bytes) (inum : Nat) : Except Stop (Int × Kfs) := do
  match ← dirlookup sb k dp name with
  | (some (ip, _), k) =>
    let k ← iput k ip
    .ok (-1, k)
  | (none, k) =>
    let (off, k) ← emptyLoop sb dp (k.ino dp).size k 0
    let k ← writeDe sb k dp off (mkDe name inum)
    .ok (0, k)

/-- The entry at the offset is zeroed, as by `sys_unlink`. -/
def clearDe (k : Kfs) (dp off : Nat) : Except Stop Kfs :=
  writeDe sb k dp off (List.replicate 16 0)

end

/-! ## 3. Entries -/

/-- The entries in the content of a directory. -/
def entriesOf (c : List Byte) : List (List Byte) :=
  (List.range (c.length / 16)).map fun j => (c.drop (16 * j)).take 16

/-- The entry is in use. -/
def live (de : List Byte) : Bool := deInum de != 0

/-- The name of an entry. -/
def key (de : List Byte) : List Byte := cstr dirsiz (deName de)

section
variable {c de : List Byte} {i j : Nat}

@[simp] theorem length_entriesOf (c : List Byte) : (entriesOf c).length = c.length / 16 := by
  simp [entriesOf]

theorem entriesOf_get? (c : List Byte) (j : Nat) :
    (entriesOf c)[j]? = if j < c.length / 16 then some ((c.drop (16 * j)).take 16) else none := by
  unfold entriesOf
  by_cases h : j < c.length / 16
  · rw [if_pos h, List.getElem?_map, List.getElem?_range h]
    rfl
  · rw [if_neg h, List.getElem?_eq_none]
    simpa using h

/-- **An entry is written**: the entries are the slots. -/
theorem entriesOf_replaced (hc : 16 ∣ c.length) (hde : de.length = 16) (hj : 16 * j ≤ c.length) :
    entriesOf (replaced c de (16 * j)) = putSlot (entriesOf c) j de := by
  obtain ⟨n, hn⟩ := hc
  refine List.ext_getElem? fun i => ?_
  have hjn : j ≤ n := by omega
  have hlen : (replaced c de (16 * j)).length = 16 * max n (j + 1) := by
    unfold replaced
    simp
    omega
  have htake : (c.take (16 * j)).length = 16 * j := List.length_take_of_le hj
  rw [Lib.getElem?_putSlot (by rw [length_entriesOf]; omega), entriesOf_get?, entriesOf_get?, hlen,
    hn, Nat.mul_div_cancel_left _ (by decide), Nat.mul_div_cancel_left _ (by decide)]
  unfold replaced
  rcases Nat.lt_trichotomy i j with h | h | h
  · rw [if_pos (by omega), if_neg (by omega), if_pos (by omega), List.append_assoc,
      List.drop_append_of_le_length (by omega), List.take_append_of_le_length (by simp; omega),
      List.drop_take, List.take_take, min_eq_left (by omega)]
  · rw [if_pos (by omega), if_pos h, h, List.append_assoc, List.drop_append, htake, Nat.sub_self,
      List.drop_eq_nil_of_le (by omega), List.nil_append, List.drop_zero, ← hde,
      List.take_left]
  · by_cases hi : i < n
    · have hfront : (c.take (16 * j) ++ de).length = 16 * (j + 1) := by
        rw [List.length_append, htake, hde]
        omega
      rw [if_pos (by omega), if_neg (by omega), if_pos hi, List.drop_append, hfront,
        List.drop_eq_nil_of_le (by omega), List.nil_append, List.drop_drop, hde]
      congr 3
      omega
    · rw [if_neg (by omega), if_neg (by omega), if_neg hi]

theorem entriesOf_get (h : (entriesOf c)[j]? = some de) :
    j < c.length / 16 ∧ de = (c.drop (16 * j)).take 16 ∧ de.length = 16 := by
  rw [entriesOf_get?] at h
  split at h
  · rename_i hj
    cases h
    refine ⟨hj, rfl, ?_⟩
    rw [List.length_take, List.length_drop]
    omega
  · cases h

theorem length_mkDe (name : Bytes) (inum : Nat) : (mkDe name inum).length = 16 := by
  unfold mkDe
  rw [List.length_cons, List.length_cons, length_strncpy]
  rfl

/-- The number that is stored. -/
theorem deInum_mkDe (name : Bytes) (inum : Nat) : deInum (mkDe name inum) = inum % 2 ^ 16 := by
  refine Lib.getLE_digits fun m hm => ?_
  rcases (by omega : m = 0 ∨ m = 1) with rfl | rfl <;> rfl

theorem key_mkDe (name : Bytes) (inum : Nat) : key (mkDe name inum) = cstr dirsiz name := by
  have hname : deName (mkDe name inum) = bytesOf (strncpy dirsiz name) := by
    funext j
    unfold deName mkDe bytesOf
    rw [Nat.add_comm 2 j]
    rfl
  unfold key
  rw [hname, cstr_strncpy]

theorem live_iff : live de = true ↔ deInum de ≠ 0 := bne_iff_ne

end

/-! ## 4. What the calls do -/

/-- The entries of a directory. -/
def Core.entries (c : Core) (dp : Nat) : List (List Byte) :=
  entriesOf (c.fs.content (c.fs.din dp))

/-- The directory is whole, and the copy in the cache is what is on the disk. -/
structure OpenDir (sb : Superblock) (k : Kfs) (dp : Nat) : Prop where
  sound : k.fs.image.Sound sb
  type : (k.fs.din dp).type = tDir
  whole : 16 ∣ (k.fs.din dp).size
  sync : k.ino dp = k.fs.din dp

section
variable {sb : Superblock} {k : Kfs} {dp j : Nat} {de : List Byte}

section
variable (h : OpenDir sb k dp)
include h

theorem OpenDir.allocated : (k.fs.din dp).type ≠ 0 := by
  rw [h.type]
  decide

theorem OpenDir.noHoles : Inode.NoHoles k.fs.blk (k.fs.din dp) :=
  h.sound.noHoles dp h.allocated

theorem OpenDir.length : 16 * (k.entries dp).length = (k.fs.din dp).size := by
  have hw := h.whole
  unfold Core.entries
  rw [length_entriesOf, FileData.length_content]
  omega

/-- **Reading an entry.** -/
theorem readDe_ok (hde : (k.entries dp)[j]? = some de) : readDe sb k dp (16 * j) = .ok (de, k) := by
  obtain ⟨hj, hde, hlen⟩ := entriesOf_get hde
  rw [FileData.length_content] at hj
  have hmax := FileData.noHoles_size h.noHoles
  change (k.fs.din dp).size ≤ 140 * 512 at hmax
  unfold readDe
  rw [h.sync, FileData.readi_content h.noHoles (by omega) (by omega), ← hde]
  dsimp only
  rw [if_pos hlen, ← h.sync, Function.update_eq_self]

end

/-- What `dirlookup` returns for the slot of a name. -/
def lookedUp (k : Kfs) (dp : Nat) : Option Nat → Except Stop (Option (Nat × Nat) × Kfs)
  | none => .ok (none, k)
  | some j => do
    let inum := deInum ((k.entries dp).getD j [])
    let k ← iget k inum
    .ok (some (inum, 16 * j), k)

theorem lookedUp_some (hde : (k.entries dp)[j]? = some de) : lookedUp k dp (some j) =
    (do let k ← iget k (deInum de)
        .ok (some (deInum de, 16 * j), k)) := by
  have hget : (k.entries dp).getD j [] = de := by rw [List.getD_eq_getElem?_getD, hde]; rfl
  unfold lookedUp
  dsimp only
  rw [hget]

/-- The scan from entry `j` on. -/
theorem dirlookupLoop_eq (h : OpenDir sb k dp) (name : Bytes) {fuel : Nat} :
    ∀ {j : Nat}, (k.entries dp).length ≤ j + fuel →
    dirlookupLoop sb dp name fuel k (16 * j) = lookedUp k dp
      ((slotOf live key ((k.entries dp).drop j) (cstr dirsiz name)).map (j + ·)) := by
  have hsize := h.length
  induction fuel with
  | zero =>
    intro j hj
    rw [List.drop_eq_nil_of_le (by omega)]
    rfl
  | succ fuel ih =>
    intro j hj
    unfold dirlookupLoop
    rw [h.sync]
    by_cases hlt : j < (k.entries dp).length
    · have hde : (k.entries dp)[j]? = some (k.entries dp)[j] := List.getElem?_eq_getElem hlt
      have hnext := ih (j := j + 1) (by omega)
      rw [show 16 * (j + 1) = 16 * j + 16 by omega] at hnext
      rw [if_pos (by omega), readDe_ok h hde, Lib.ok_bind, List.drop_eq_getElem_cons hlt]
      generalize hx : (k.entries dp)[j] = de at hde ⊢
      unfold slotOf at hnext ⊢
      rw [List.findIdx?_cons]
      have hshift : ∀ x : Option Nat, (x.map (· + 1)).map (j + ·) = x.map (j + 1 + ·) := by
        intro x
        rw [Option.map_map]
        congr 1
        funext m
        change j + (m + 1) = j + 1 + m
        omega
      dsimp only
      by_cases h0 : deInum de = 0
      · have hdead : live de = false := by simp [live, h0]
        rw [if_pos h0, hnext, hdead, Bool.false_and, if_neg (by decide), hshift]
      · have hlive : live de = true := live_iff.mpr h0
        rw [if_neg h0, hlive, Bool.true_and]
        by_cases hn : namecmp name (deName de) = 0
        · have hk : key de = cstr dirsiz name := (strncmp_eq_zero.mp hn).symm
          rw [if_pos hn, if_pos (decide_eq_true hk)]
          exact (lookedUp_some hde).symm
        · have hk : key de ≠ cstr dirsiz name := fun e => hn (strncmp_eq_zero.mpr e.symm)
          rw [if_neg hn, if_neg (by simpa using hk), hnext, hshift]
    · rw [if_neg (by omega), List.drop_eq_nil_of_le (by omega)]
      rfl

/-- **What `dirlookup` finds**: the first entry in use that has the name. -/
theorem dirlookup_eq (h : OpenDir sb k dp) (name : Bytes) :
    dirlookup sb k dp name =
      lookedUp k dp (slotOf live key (k.entries dp) (cstr dirsiz name)) := by
  have hsize := h.length
  unfold dirlookup
  rw [h.sync, if_neg (not_not.mpr h.type)]
  have hloop : dirlookupLoop sb dp name (k.fs.din dp).size k (16 * 0) = _ :=
    dirlookupLoop_eq h name (by omega)
  rw [Nat.mul_zero, List.drop_zero] at hloop
  rw [hloop]
  congr 1
  cases slotOf live key (k.entries dp) (cstr dirsiz name) with
  | none => rfl
  | some m => exact congrArg some (Nat.zero_add m)

/-- The first entry that is not in use, or the end. -/
def emptySlot (es : List (List Byte)) : Nat := es.findIdx fun e => !live e

theorem emptyLoop_eq (h : OpenDir sb k dp) {fuel : Nat} :
    ∀ {j : Nat}, j ≤ (k.entries dp).length → (k.entries dp).length ≤ j + fuel →
    emptyLoop sb dp fuel k (16 * j) = .ok (16 * (j + emptySlot ((k.entries dp).drop j)), k) := by
  have hsize := h.length
  induction fuel with
  | zero =>
    intro j _ hj
    rw [List.drop_eq_nil_of_le (by omega)]
    rfl
  | succ fuel ih =>
    intro j hle hj
    unfold emptyLoop
    rw [h.sync]
    by_cases hlt : j < (k.entries dp).length
    · have hde : (k.entries dp)[j]? = some (k.entries dp)[j] := List.getElem?_eq_getElem hlt
      have hnext := ih (j := j + 1) (by omega) (by omega)
      rw [show 16 * (j + 1) = 16 * j + 16 by omega] at hnext
      rw [if_pos (by omega), readDe_ok h hde, Lib.ok_bind, List.drop_eq_getElem_cons hlt]
      generalize hx : (k.entries dp)[j] = de at hde ⊢
      unfold emptySlot at hnext ⊢
      rw [List.findIdx_cons]
      dsimp only
      by_cases h0 : deInum de = 0
      · have hdead : live de = false := by simp [live, h0]
        rw [if_pos h0, hdead]
        rfl
      · have hlive : live de = true := live_iff.mpr h0
        rw [if_neg h0, hnext, hlive]
        change Except.ok (16 * (j + 1 + _), k) = .ok (16 * (j + (_ + 1)), k)
        congr 3
        omega
    · rw [if_neg (by omega), List.drop_eq_nil_of_le (by omega)]
      rfl

/-- A file without holes misses no block below its size. -/
theorem need_eq_zero {s : Fs} {d : Dinode} {m : Nat} (h : Inode.NoHoles s.blk d)
    (hm : m ≤ blocks d.size) : need s d m = 0 := by
  unfold need
  rw [Finset.sum_eq_zero fun c hc => ?_, Nat.zero_add]
  · split
    · rename_i hlt
      have h1 := (h Mkfs.ndirect (by omega)).2
      refine FileData.noIndirect_some fun h0 => h1 ?_
      unfold Inode.blockOf
      rw [if_neg (Nat.lt_irrefl _), if_pos h0]
    · rfl
  · exact if_neg (h c (Nat.lt_of_lt_of_le (Finset.mem_range.mp hc) hm)).2

/-- There is room for an entry. -/
def Room (sb : Superblock) (c : Core) (dp : Nat) : Prop :=
  (∃ e ∈ c.entries dp, live e = false) ∨
    ((c.fs.din dp).size + 16 ≤ maxfile * bsize ∧
      need c.fs (c.fs.din dp) (blocks ((c.fs.din dp).size + 16)) ≤ c.fs.free sb)

/-- Entry `j` is written, and nothing else. -/
structure Wrote (sb : Superblock) (k : Kfs) (dp j : Nat) (de : List Byte) (k' : Kfs) :
    Prop where
  isOpen : OpenDir sb k' dp
  entries : k'.entries dp = putSlot (k.entries dp) j de
  data : FileData.Replaced sb dp k.fs k'.fs (16 * j) de
  core : k'.toCore = { k.toCore with fs := k'.fs }
  valid : k'.valid = k.valid
  ino : ∀ i, i ≠ dp → k'.ino i = k.ino i

/-- **Writing an entry.** -/
theorem writeDe_ok (hsz : sb.size ≤ 2 ^ 32) (h : OpenDir sb k dp) (hlen : de.length = 16)
    (hj : j ≤ (k.entries dp).length) (hroom : j < (k.entries dp).length ∨
      ((k.fs.din dp).size + 16 ≤ maxfile * bsize ∧
        need k.fs (k.fs.din dp) (blocks ((k.fs.din dp).size + 16)) ≤ k.fs.free sb)) :
    ∃ k', writeDe sb k dp (16 * j) de = .ok k' ∧ Wrote sb k dp j de k' := by
  have hsize := h.length
  have hmax := FileData.noHoles_size h.noHoles
  have hmaxv : maxfile * bsize = 71680 := rfl
  have hok : ¬Refused (k.fs.din dp) (16 * j) 16 := by
    unfold Refused
    omega
  have hneed : need k.fs (k.fs.din dp) (blocks (16 * j + 16)) ≤ k.fs.free sb := by
    by_cases hlt : j < (k.entries dp).length
    · rw [need_eq_zero h.noHoles]
      · exact Nat.zero_le _
      · change (16 * j + 16 + (512 - 1)) / 512 ≤ ((k.fs.din dp).size + (512 - 1)) / 512
        omega
    · have hend : 16 * j = (k.fs.din dp).size := by omega
      rw [hend]
      exact (hroom.resolve_left hlt).2
  obtain ⟨s', hcall, hr⟩ :=
    FileData.writei_replaced hsz h.sound h.allocated (bytesOf de) hok hneed
  have hbytes := range_bytesOf de
  rw [hlen] at hbytes
  rw [hbytes] at hr
  obtain ⟨a, hhead⟩ := hr.head
  have hwrite : writeDe sb k dp (16 * j) de = .ok
      { k with
        fs := s'
        ino := Function.update k.ino dp (s'.din dp) } := by
    unfold writeDe
    rw [h.sync, hcall]
    rfl
  refine ⟨_, hwrite, ⟨⟨hr.sound, ?_, ?_, Function.update_self ..⟩, ?_, hr, rfl, rfl,
    fun i hi => Function.update_of_ne hi ..⟩⟩
  · change (s'.din dp).type = tDir
    rw [hhead]
    exact h.type
  · change 16 ∣ (s'.din dp).size
    rw [hhead, hlen]
    have hw := h.whole
    change 16 ∣ max (k.fs.din dp).size (16 * j + 16)
    omega
  · change entriesOf (s'.content (s'.din dp)) = _
    rw [hr.content]
    refine entriesOf_replaced ?_ hlen ?_
    · rw [FileData.length_content]
      exact h.whole
    · rw [FileData.length_content]
      omega

end

/-! ## 5. The map -/

/-- No two entries in use have one name. -/
def Core.Distinct (c : Core) (dp : Nat) : Prop := KeysDistinct live key (c.entries dp)

/-- An entry in use has the name. -/
def Core.Has (c : Core) (dp : Nat) (name : Bytes) (e : List Byte) : Prop :=
  e ∈ c.entries dp ∧ live e = true ∧ namecmp name (deName e) = 0

/-- What `dirlookup` returns, without the state. -/
def found (x : Except Stop (Option (Nat × Nat) × Kfs)) : Except Stop (Option (Nat × Nat)) :=
  x.map Prod.fst

/-- Every other name is looked up as before. -/
def SameElsewhere (sb : Superblock) (k k' : Kfs) (dp : Nat) (name : Bytes) : Prop :=
  ∀ name', namecmp name' name ≠ 0 →
    found (dirlookup sb k' dp name') = found (dirlookup sb k dp name')

/-- **A directory is a finite map** for `dirlink`, `dirlookup` and the zeroing of an entry. -/
structure ActsAsMap (sb : Superblock) (k : Kfs) (dp : Nat) (name : Bytes) (inum : Nat) :
    Prop where
  present : ∀ e, k.Has dp name e →
    ∃ k', dirlink sb k dp name inum = .ok (-1, k') ∧ k'.toCore = k.toCore
  absent : (∀ e, ¬k.Has dp name e) → ∃ k', dirlink sb k dp name inum = .ok (0, k') ∧
    (∃ off, found (dirlookup sb k' dp name) = .ok (some (inum, off))) ∧
    SameElsewhere sb k k' dp name ∧ k'.Distinct dp
  cleared : ∀ i off k1, dirlookup sb k dp name = .ok (some (i, off), k1) →
    ∃ k2, clearDe sb k1 dp off = .ok k2 ∧ found (dirlookup sb k2 dp name) = .ok none ∧
      SameElsewhere sb k1 k2 dp name ∧ k2.Distinct dp

section
variable {sb : Superblock} {k k' : Kfs} {dp j inum : Nat} {name : Bytes} {de : List Byte}

theorem slotOf_of_has {e : List Byte} (h : k.Has dp name e) (hd : k.Distinct dp) :
    ∃ j, slotOf live key (k.entries dp) (cstr dirsiz name) = some j ∧
      (k.entries dp)[j]? = some e := by
  obtain ⟨j, hj⟩ := List.mem_iff_getElem?.mp h.1
  exact ⟨j, (Lib.slotOf_eq_some hd).mpr ⟨e, hj, h.2.1, (strncmp_eq_zero.mp h.2.2).symm⟩, hj⟩

theorem slotOf_none_iff : slotOf live key (k.entries dp) (cstr dirsiz name) = none ↔
    ∀ e, ¬k.Has dp name e := by
  rw [Lib.slotOf_eq_none]
  refine ⟨fun h e he => ?_, fun h i e hi hl hk => h e ⟨List.mem_of_getElem? hi, hl, ?_⟩⟩
  · obtain ⟨i, hi⟩ := List.mem_iff_getElem?.mp he.1
    exact h i e hi he.2.1 (strncmp_eq_zero.mp he.2.2).symm
  · exact strncmp_eq_zero.mpr hk.symm

section
variable (h : OpenDir sb k dp) (hj : slotOf live key (k.entries dp) (cstr dirsiz name) = some j)
  (he : (k.entries dp)[j]? = some de)
include h hj he

/-- A name that an entry has is found where the cache has an entry for the inode. -/
theorem dirlookup_found (hs : k.Spare (deInum de)) :
    dirlookup sb k dp name = .ok (some (deInum de, 16 * j), k.got (deInum de)) := by
  rw [dirlookup_eq h, hj, lookedUp_some he, iget_ok hs]
  rfl

theorem dirlookup_full (hs : ¬k.Spare (deInum de)) : dirlookup sb k dp name = .error .panic := by
  rw [dirlookup_eq h, hj, lookedUp_some he, iget_full hs]
  rfl

/-! ### `dirlink` -/

variable (inum) in
theorem dirlink_present (hs : k.Spare (deInum de)) (hlock : k.lock (deInum de) = false) :
    ∃ k', dirlink sb k dp name inum = .ok (-1, k') ∧ k'.toCore = k.toCore ∧
      (Sync k → Sync k') := by
  obtain ⟨k', hput, hcore, -, hsync⟩ := iput_got hs hlock
  refine ⟨k', ?_, hcore, hsync⟩
  unfold dirlink
  rw [dirlookup_found h hj he hs, Lib.ok_bind]
  dsimp only
  rw [hput]
  rfl

/-- The name is that of an inode that the process has locked, such as the directory itself. -/
theorem dirlink_deadlock (hs : k.Spare (deInum de)) (hlock : k.lock (deInum de) = true) :
    dirlink sb k dp name inum = .error .deadlock := by
  unfold dirlink
  rw [dirlookup_found h hj he hs, Lib.ok_bind]
  dsimp only
  rw [iput_locked (k := k.got (deInum de)) hlock]
  rfl

theorem dirlink_full (hs : ¬k.Spare (deInum de)) : dirlink sb k dp name inum = .error .panic := by
  unfold dirlink
  rw [dirlookup_full h hj he hs]
  rfl

end

theorem emptySlot_le (es : List (List Byte)) : emptySlot es ≤ es.length :=
  List.findIdx_le_length

/-- The slot is free, or it is the end. -/
theorem emptySlot_dead {es : List (List Byte)} {e : List Byte}
    (h : es[emptySlot es]? = some e) : live e = false := by
  obtain ⟨hlt, he⟩ := List.getElem?_eq_some_iff.mp h
  have hp : (!live (es[emptySlot es])) = true := List.findIdx_getElem (w := hlt)
  rw [he] at hp
  simpa using hp

/-- A name that no entry has goes to the first free entry. -/
theorem dirlink_none (h : OpenDir sb k dp)
    (hj : slotOf live key (k.entries dp) (cstr dirsiz name) = none) : dirlink sb k dp name inum =
      (writeDe sb k dp (16 * emptySlot (k.entries dp)) (mkDe name inum)).map fun k => (0, k) := by
  have hsize := h.length
  have hloop : emptyLoop sb dp (k.fs.din dp).size k (16 * 0) = _ :=
    emptyLoop_eq h (Nat.zero_le _) (by omega)
  rw [Nat.mul_zero, List.drop_zero, Nat.zero_add] at hloop
  have hnone : dirlookup sb k dp name = .ok (none, k) := by
    rw [dirlookup_eq h, hj]
    rfl
  unfold dirlink
  rw [hnone, Lib.ok_bind]
  dsimp only
  rw [h.sync, hloop, Lib.ok_bind]
  dsimp only
  cases writeDe sb k dp (16 * emptySlot (k.entries dp)) (mkDe name inum) <;> rfl

variable (inum) in
theorem dirlink_absent (hsz : sb.size ≤ 2 ^ 32) (h : OpenDir sb k dp) (hroom : Room sb k.toCore dp)
    (hj : slotOf live key (k.entries dp) (cstr dirsiz name) = none) :
    ∃ k', dirlink sb k dp name inum = .ok (0, k') ∧
      Wrote sb k dp (emptySlot (k.entries dp)) (mkDe name inum) k' := by
  have hfits : emptySlot (k.entries dp) < (k.entries dp).length ∨
      ((k.fs.din dp).size + 16 ≤ maxfile * bsize ∧
        need k.fs (k.fs.din dp) (blocks ((k.fs.din dp).size + 16)) ≤ k.fs.free sb) := by
    refine hroom.imp_left fun ⟨e, he, hdead⟩ => ?_
    exact List.findIdx_lt_length_of_exists ⟨e, he, by rw [hdead]; rfl⟩
  obtain ⟨k', hwrite, hw⟩ :=
    writeDe_ok hsz h (length_mkDe name inum) (emptySlot_le _) hfits
  exact ⟨k', by rw [dirlink_none h hj, hwrite]; rfl, hw⟩

/-- A directory of the largest size with all entries in use: `writei` refuses, and `dirlink`
    panics. -/
theorem dirlink_noRoom (h : OpenDir sb k dp)
    (hj : slotOf live key (k.entries dp) (cstr dirsiz name) = none)
    (hfull : ∀ e ∈ k.entries dp, live e = true)
    (hmax : maxfile * bsize < (k.fs.din dp).size + 16) :
    dirlink sb k dp name inum = .error .panic := by
  have hsize := h.length
  have hle := FileData.noHoles_size h.noHoles
  have hmaxv : maxfile * bsize = 71680 := rfl
  have hend : emptySlot (k.entries dp) = (k.entries dp).length :=
    List.findIdx_eq_length.mpr fun e he => by rw [hfull e he]; rfl
  have hrefused : Refused (k.fs.din dp) (k.fs.din dp).size 16 := .inr (.inr hmax)
  have hwrite : writeDe sb k dp (k.fs.din dp).size (mkDe name inum) = .error .panic := by
    unfold writeDe
    rw [h.sync, FileData.writei_refused _ (by omega) (by decide) hrefused]
    rfl
  rw [dirlink_none h hj, hend, hsize, hwrite]
  rfl

/-! ### After an entry is written -/

section
variable (h : Wrote sb k dp j de k')
include h

theorem Wrote.ref : k'.ref = k.ref := by rw [h.core]

theorem Wrote.free : k'.free = k.free := by rw [h.core]

theorem Wrote.nlink (i : Nat) : (k'.fs.din i).nlink = (k.fs.din i).nlink := by
  by_cases hi : i = dp
  · obtain ⟨a, ha⟩ := h.data.head
    rw [hi, ha]
  · rw [h.data.din i hi]

theorem Wrote.sync (hs : Sync k) : Sync k' := by
  intro i href hv
  by_cases hi : i = dp
  · rw [hi, h.isOpen.sync]
  · rw [h.ino i hi, h.data.din i hi]
    exact hs i (h.ref ▸ href) (h.valid ▸ hv)

theorem Wrote.spare (i : Nat) : k'.Spare i ↔ k.Spare i := by
  unfold Core.Spare
  rw [h.ref, h.free]

end

/-- **The other names.** The entry had this name or no name, and it has this name or no name. -/
theorem Wrote.sameElsewhere (hw : Wrote sb k dp j de k') (h : OpenDir sb k dp)
    (hj : j ≤ (k.entries dp).length) (hd : k.Distinct dp) (hd' : k'.Distinct dp)
    (hnew : live de = true → key de = cstr dirsiz name)
    (hold : ∀ b, (k.entries dp)[j]? = some b → live b = true → key b = cstr dirsiz name) :
    SameElsewhere sb k k' dp name := by
  intro name' hne
  have hkey : cstr dirsiz name ≠ cstr dirsiz name' := fun e => hne (strncmp_eq_zero.mpr e.symm)
  have hd2 : KeysDistinct live key (putSlot (k.entries dp) j de) := hw.entries ▸ hd'
  have hslot := Lib.slotOf_other (k := cstr dirsiz name') hd hd2 hj
    (fun hl => by rw [hnew hl]; exact hkey) (fun b hb hl => by rw [hold b hb hl]; exact hkey)
  rw [← hw.entries] at hslot
  rw [dirlookup_eq h, dirlookup_eq hw.isOpen, hslot]
  cases hs : slotOf live key (k.entries dp) (cstr dirsiz name') with
  | none => rfl
  | some m =>
    obtain ⟨e, he, hl, hk⟩ := Lib.slotOf_some hs
    have hmj : m ≠ j := by
      intro hmj
      rw [hmj] at he
      exact hkey ((hold e he hl).symm.trans hk)
    have he' : (k'.entries dp)[m]? = some e := by
      rw [hw.entries, Lib.getElem?_putSlot hj, if_neg hmj]
      exact he
    rw [lookedUp_some he, lookedUp_some he']
    by_cases hsp : k.Spare (deInum e)
    · rw [iget_ok hsp, iget_ok ((hw.spare _).mpr hsp)]
      rfl
    · rw [iget_full hsp, iget_full (mt (hw.spare _).mp hsp)]

/-- A name that no entry has is linked: the map has one name more, when the number fits into
    its field. -/
theorem Wrote.linked (hw : Wrote sb k dp (emptySlot (k.entries dp)) (mkDe name inum) k')
    (h : OpenDir sb k dp) (hd : k.Distinct dp)
    (hj : slotOf live key (k.entries dp) (cstr dirsiz name) = none) :
    k'.Distinct dp ∧ SameElsewhere sb k k' dp name := by
  have hle := emptySlot_le (k.entries dp)
  have hd' : k'.Distinct dp := by
    unfold Core.Distinct
    rw [hw.entries]
    refine Lib.distinct_put hd hle fun _ i b _ hb hl => ?_
    rw [key_mkDe]
    exact Lib.slotOf_eq_none.mp hj i b hb hl
  refine ⟨hd', hw.sameElsewhere h hle hd hd' (fun _ => key_mkDe ..) fun b hb hl => ?_⟩
  rw [emptySlot_dead hb] at hl
  cases hl

/-- What the new name is looked up as. -/
theorem Wrote.found_iff (hw : Wrote sb k dp (emptySlot (k.entries dp)) (mkDe name inum) k')
    (hd' : k'.Distinct dp) (hinum : inum ≠ 0) :
    (∃ off, found (dirlookup sb k' dp name) = .ok (some (inum, off))) ↔
      inum < 2 ^ 16 ∧ k.Spare inum := by
  have hle := emptySlot_le (k.entries dp)
  have hnum := deInum_mkDe name inum
  have hget : (k'.entries dp)[emptySlot (k.entries dp)]? = some (mkDe name inum) := by
    rw [hw.entries, Lib.getElem?_putSlot hle, if_pos rfl]
  refine ⟨fun ⟨off, hoff⟩ => ?_, fun ⟨hlt, hs⟩ => ⟨16 * emptySlot (k.entries dp), ?_⟩⟩
  · rw [dirlookup_eq hw.isOpen] at hoff
    cases hslot : slotOf live key (k'.entries dp) (cstr dirsiz name) with
    | none =>
      rw [hslot] at hoff
      cases hoff
    | some m =>
      obtain ⟨e, he, hl, hk⟩ := Lib.slotOf_some hslot
      rw [hslot, lookedUp_some he] at hoff
      by_cases hsp : k'.Spare (deInum e)
      · rw [iget_ok hsp] at hoff
        have he1 : deInum e = inum := by cases hoff; rfl
        have hlt : deInum e < 256 ^ 2 := Lib.getLE_lt ..
        rw [he1] at hsp hlt
        exact ⟨hlt, (hw.spare _).mp hsp⟩
      · rw [iget_full hsp] at hoff
        cases hoff
  · rw [Nat.mod_eq_of_lt hlt] at hnum
    have hlive : live (mkDe name inum) = true := live_iff.mpr (by rw [hnum]; exact hinum)
    have hslot := (Lib.slotOf_eq_some hd').mpr ⟨_, hget, hlive, key_mkDe name inum⟩
    have hsp : k'.Spare (deInum (mkDe name inum)) := by
      rw [hnum]
      exact (hw.spare _).mpr hs
    rw [dirlookup_found hw.isOpen hslot hget hsp, hnum]
    rfl

/-- The entry that `dirlookup` reports is zeroed. -/
theorem clearDe_map (hsz : sb.size ≤ 2 ^ 32) (h : OpenDir sb k dp) (hd : k.Distinct dp)
    {i off : Nat} {k1 : Kfs} (hk : dirlookup sb k dp name = .ok (some (i, off), k1)) :
    ∃ k2, clearDe sb k1 dp off = .ok k2 ∧ found (dirlookup sb k2 dp name) = .ok none ∧
      SameElsewhere sb k1 k2 dp name ∧ k2.Distinct dp := by
  rw [dirlookup_eq h] at hk
  cases hslot : slotOf live key (k.entries dp) (cstr dirsiz name) with
  | none =>
    rw [hslot] at hk
    cases hk
  | some j =>
    obtain ⟨e, he, hl, hkey⟩ := Lib.slotOf_some hslot
    have hlt : j < (k.entries dp).length := (List.getElem?_eq_some_iff.mp he).1
    rw [hslot, lookedUp_some he] at hk
    by_cases hsp : k.Spare (deInum e)
    · rw [iget_ok hsp] at hk
      cases hk
      have h1 : OpenDir sb (k.got (deInum e)) dp := ⟨h.sound, h.type, h.whole, h.sync⟩
      have hd1 : (k.got (deInum e)).Distinct dp := hd
      have hzero : (List.replicate 16 (0 : Byte)).length = 16 := rfl
      obtain ⟨k2, hclear, hw⟩ := writeDe_ok hsz h1 hzero (Nat.le_of_lt hlt) (.inl hlt)
      have hdead : live (List.replicate 16 0) = false := by decide
      have hd2 : k2.Distinct dp := by
        unfold Core.Distinct
        rw [hw.entries]
        refine Lib.distinct_put hd1 (Nat.le_of_lt hlt) fun hl2 => ?_
        rw [hdead] at hl2
        cases hl2
      refine ⟨k2, hclear, ?_, hw.sameElsewhere h1 (Nat.le_of_lt hlt) hd1 hd2 (fun hl2 => ?_)
        (fun b hb _ => ?_), hd2⟩
      · rw [dirlookup_eq hw.isOpen, hw.entries,
          Lib.slotOf_remove hd1 hslot (Nat.le_of_lt hlt) hdead]
        rfl
      · rw [hdead] at hl2
        cases hl2
      · have hbe : b = e := Option.some.inj (hb.symm.trans he)
        rw [hbe]
        exact hkey
    · rw [iget_full hsp] at hk
      cases hk

/-- **A directory is a finite map**, unless `dirlink` finds the name on an inode that the process
    has locked, stores a number of more than 16 bits, or the cache is full. -/
theorem dirlink_map (hsz : sb.size ≤ 2 ^ 32) (h : OpenDir sb k dp) (hd : k.Distinct dp)
    (hroom : Room sb k.toCore dp) (hinum : inum ≠ 0) :
    ActsAsMap sb k dp name inum ↔
      (∀ e, k.Has dp name e → k.Spare (deInum e) ∧ k.lock (deInum e) = false) ∧
      ((∀ e, ¬k.Has dp name e) → inum < 2 ^ 16 ∧ k.Spare inum) := by
  refine ⟨fun hmap => ⟨fun e he => ?_, fun hno => ?_⟩, fun ⟨hpresent, habsent⟩ =>
    ⟨fun e he => ?_, fun hno => ?_, fun i off k1 hk => clearDe_map hsz h hd hk⟩⟩
  · obtain ⟨j, hj, hget⟩ := slotOf_of_has he hd
    obtain ⟨k', hlink, -⟩ := hmap.present e he
    have hs : k.Spare (deInum e) := by
      by_contra hfull
      rw [dirlink_full h hj hget hfull] at hlink
      cases hlink
    refine ⟨hs, ?_⟩
    by_contra hlock
    rw [dirlink_deadlock h hj hget hs (by simpa using hlock)] at hlink
    cases hlink
  · have hj := slotOf_none_iff.mpr hno
    obtain ⟨k', hlink, hw⟩ := dirlink_absent inum hsz h hroom hj
    obtain ⟨k'', hlink', hfound, -, hd'⟩ := hmap.absent hno
    rw [hlink] at hlink'
    cases hlink'
    exact (hw.found_iff hd' hinum).mp hfound
  · obtain ⟨j, hj, hget⟩ := slotOf_of_has he hd
    obtain ⟨hs, hlock⟩ := hpresent e he
    obtain ⟨k', hlink, hcore, -⟩ := dirlink_present inum h hj hget hs hlock
    exact ⟨k', hlink, hcore⟩
  · have hj := slotOf_none_iff.mpr hno
    obtain ⟨k', hlink, hw⟩ := dirlink_absent inum hsz h hroom hj
    obtain ⟨hd', helse⟩ := hw.linked h hd hj
    exact ⟨k', hlink, (hw.found_iff hd' hinum).mpr (habsent hno), helse, hd'⟩

end

/-! ### Small disks -/

/-- A file of at most one block. -/
structure SmallFile where
  type : Nat
  nlink : Nat
  data : List Byte

/-- Inode `i`, and nothing where the list has no file for it. -/
def smallAt (files : List SmallFile) (i : Nat) : SmallFile := files.getD i ⟨0, 0, []⟩

/-- The disk of mkfs.c with the files; inode `i` has its data in the `i`th data block. -/
def smallFs (files : List SmallFile) : Fs where
  bit b := decide (b < Inode.nmeta Mkfs.sb) ||
    !(smallAt files (b - Inode.nmeta Mkfs.sb)).data.isEmpty
  sec b := if b < Inode.nmeta Mkfs.sb then Mkfs.zeroes
    else bytesOf (smallAt files (b - Inode.nmeta Mkfs.sb)).data
  din i :=
    let f := smallAt files i
    ⟨f.type, 0, 0, f.nlink, f.data.length,
      fun j => if j = 0 ∧ f.data ≠ [] then Inode.nmeta Mkfs.sb + i else 0⟩
  log := ()

/-- The files are small, and an inode that is not allocated has no data. -/
def Small (files : List SmallFile) : Prop :=
  files.length ≤ 100 ∧ ∀ f ∈ files, f.data.length ≤ 512 ∧ (f.type = 0 → f.data = [])

instance (files : List SmallFile) : Decidable (Small files) :=
  inferInstanceAs (Decidable (_ ∧ _))

section
variable {files : List SmallFile} {i j : Nat}

theorem smallAt_spec (h : Small files) (i : Nat) : (smallAt files i).data.length ≤ 512 ∧
    ((smallAt files i).type = 0 → (smallAt files i).data = []) ∧
    ((smallAt files i).data ≠ [] → i < 100) := by
  unfold smallAt
  by_cases hi : i < files.length
  · rw [List.getD_eq_getElem _ _ hi]
    obtain ⟨h1, h2⟩ := h.2 files[i] (List.getElem_mem hi)
    exact ⟨h1, h2, fun _ => Nat.lt_of_lt_of_le hi h.1⟩
  · rw [List.getD_eq_default _ _ (Nat.le_of_not_lt hi)]
    exact ⟨Nat.zero_le _, fun _ => rfl, fun h => absurd rfl h⟩

theorem smallFs_slot (files : List SmallFile) (i j : Nat) :
    Inode.slot (smallFs files).blk ((smallFs files).din i) j =
      if j = 0 ∧ (smallAt files i).data ≠ [] then Inode.nmeta Mkfs.sb + i else 0 := by
  have haddr : ((smallFs files).din i).addrs Mkfs.ndirect = 0 := by simp [smallFs, Mkfs.ndirect]
  unfold Inode.slot Inode.blockOf
  by_cases hj : j < Mkfs.ndirect
  · rw [if_pos (Nat.lt_trans hj (by decide)), if_pos hj]
    rfl
  · have h0 : ¬(j = 0 ∧ (smallAt files i).data ≠ []) := fun h => hj (h.1 ▸ by decide)
    rw [if_neg h0, if_neg hj, if_pos haddr, haddr]
    split
    · rfl
    · split <;> rfl

theorem smallFs_sound (h : Small files) : (smallFs files).image.Sound Mkfs.sb := by
  have hslot : ∀ i j, Inode.slot (smallFs files).image.blk ((smallFs files).image.din i) j = _ :=
    smallFs_slot files
  have hmeta : Inode.nmeta Mkfs.sb + 100 ≤ Mkfs.sb.size := by decide
  have hpos : 0 < Inode.nmeta Mkfs.sb := by decide
  refine ⟨fun i j _ h0 => ?_, fun i l j c _ _ h0 he => ?_, fun b _ => ?_, fun i _ bn hbn => ?_⟩
  · rw [hslot] at h0 ⊢
    split at h0
    · rename_i hc
      rw [if_pos hc]
      have := (smallAt_spec h i).2.2 hc.2
      omega
    · exact absurd rfl h0
  · rw [hslot] at h0
    rw [hslot, hslot] at he
    split at h0
    · rename_i hc
      rw [if_pos hc] at he
      split at he
      · rename_i hc'
        exact ⟨by omega, hc.1.trans hc'.1.symm⟩
      · omega
    · exact absurd rfl h0
  · change (decide (b < Inode.nmeta Mkfs.sb) ||
      !(smallAt files (b - Inode.nmeta Mkfs.sb)).data.isEmpty) = true ↔ _
    rw [Bool.or_eq_true, decide_eq_true_eq, Bool.not_eq_true', List.isEmpty_eq_false_iff]
    refine ⟨fun hb => ?_, fun hb => ?_⟩
    · by_cases hlt : b < Inode.nmeta Mkfs.sb
      · exact .inl hlt
      · have hne := hb.resolve_left hlt
        refine .inr ⟨b - Inode.nmeta Mkfs.sb, 0, mt (smallAt_spec h _).2.1 hne, ?_⟩
        rw [hslot, if_pos ⟨rfl, hne⟩]
        omega
    · rcases hb with hb | ⟨i, j, -, hb⟩
      · exact .inl hb
      · rw [hslot] at hb
        split at hb
        · rename_i hc
          refine .inr ?_
          rw [← hb, Nat.add_sub_cancel_left]
          exact hc.2
        · exact .inl (hb ▸ hpos)
  · have hlen := (smallAt_spec h i).1
    change bn < (((smallAt files i).data).length + (512 - 1)) / 512 at hbn
    have hbn0 : bn = 0 := by omega
    subst hbn0
    have hne : (smallAt files i).data ≠ [] := fun e => by
      rw [e] at hbn
      exact absurd hbn (by decide)
    refine ⟨by decide, ?_⟩
    rw [← Inode.slot_block (by decide), hslot, if_pos ⟨rfl, hne⟩]
    omega

/-- The content of a file. -/
theorem smallFs_content (h : Small files) (i : Nat) :
    (smallFs files).content ((smallFs files).din i) = (smallAt files i).data := by
  have hlen := (smallAt_spec h i).1
  conv => rhs; rw [← range_bytesOf (smallAt files i).data]
  refine List.map_congr_left fun c hc => ?_
  have hc : c < (smallAt files i).data.length := List.mem_range.mp hc
  have hne : (smallAt files i).data ≠ [] := fun e => by
    rw [e] at hc
    exact absurd hc (Nat.not_lt_zero c)
  have hblock : Inode.blockOf (smallFs files).blk ((smallFs files).din i) 0 =
      Inode.nmeta Mkfs.sb + i := by
    rw [← Inode.slot_block (by decide), smallFs_slot, if_pos ⟨rfl, hne⟩]
  have hdiv : c / bsize = 0 := Nat.div_eq_of_lt (show c < 512 by omega)
  have hmod : c % bsize = c := Nat.mod_eq_of_lt (show c < 512 by omega)
  unfold FsOf.byte
  rw [hdiv, hmod, hblock]
  change (if _ then _ else bytesOf _) c = _
  rw [if_neg (by omega), Nat.add_sub_cancel_left]

end

/-- An empty root directory. -/
def rootFile : SmallFile :=
  ⟨tDir, 1, Mkfs.dirent 1 [Mkfs.dot] ++ Mkfs.dirent 1 [Mkfs.dot, Mkfs.dot]⟩

/-- The process has the root directory locked, and nothing else is in the cache. -/
def rootKfs : Kfs where
  fs := smallFs [⟨0, 0, []⟩, rootFile]
  ref i := if i = 1 then 1 else 0
  free := 49
  lock i := decide (i = 1)
  valid i := decide (i = 1)
  ino := (smallFs [⟨0, 0, []⟩, rootFile]).din

theorem rootKfs_small : Small [⟨0, 0, []⟩, rootFile] := by decide

theorem rootKfs_entries : rootKfs.entries 1 =
    [Mkfs.dirent 1 [Mkfs.dot], Mkfs.dirent 1 [Mkfs.dot, Mkfs.dot]] := by
  refine (congrArg entriesOf (smallFs_content rootKfs_small 1)).trans ?_
  decide

theorem rootKfs_open : OpenDir Mkfs.sb rootKfs 1 :=
  ⟨smallFs_sound rootKfs_small, rfl, by decide, rfl⟩

theorem rootKfs_distinct : rootKfs.Distinct 1 := by
  unfold Core.Distinct
  rw [rootKfs_entries]
  intro i j a b ha hb _ _ hk
  have hi := (List.getElem?_eq_some_iff.mp ha).1
  have hj := (List.getElem?_eq_some_iff.mp hb).1
  change i < 2 at hi
  change j < 2 at hj
  rcases (by omega : i = 0 ∨ i = 1) with rfl | rfl <;>
    rcases (by omega : j = 0 ∨ j = 1) with rfl | rfl
  · rfl
  · cases ha
    cases hb
    exact absurd hk (by decide)
  · cases ha
    cases hb
    exact absurd hk (by decide)
  · rfl

theorem rootKfs_room : Room Mkfs.sb rootKfs.toCore 1 := by
  refine .inr ⟨by decide, ?_⟩
  rw [need_eq_zero rootKfs_open.noHoles (by decide)]
  exact Nat.zero_le _

theorem dirlink_map_root : ActsAsMap Mkfs.sb rootKfs 1 (bytesOf [97]) 2 := by
  have hno : ∀ e, ¬rootKfs.Has 1 (bytesOf [97]) e := by
    intro e ⟨he, hl, hn⟩
    rw [rootKfs_entries] at he
    have hall : ∀ e ∈ [Mkfs.dirent 1 [Mkfs.dot], Mkfs.dirent 1 [Mkfs.dot, Mkfs.dot]],
        namecmp (bytesOf [97]) (deName e) ≠ 0 := by decide
    exact hall e he hn
  exact (dirlink_map (by decide) rootKfs_open rootKfs_distinct rootKfs_room (by decide)).mpr
    ⟨fun e he => absurd he (hno e), fun _ => ⟨by decide, .inr (by decide)⟩⟩

/-- **The name `.` is not refused**: the process waits for the lock of the directory, which it
    holds. -/
theorem dirlink_dot : OpenDir Mkfs.sb rootKfs 1 ∧ rootKfs.Distinct 1 ∧
    Room Mkfs.sb rootKfs.toCore 1 ∧ rootKfs.Has 1 (bytesOf [Mkfs.dot]) (Mkfs.dirent 1 [Mkfs.dot]) ∧
    dirlink Mkfs.sb rootKfs 1 (bytesOf [Mkfs.dot]) 2 = .error .deadlock := by
  have hhas : rootKfs.Has 1 (bytesOf [Mkfs.dot]) (Mkfs.dirent 1 [Mkfs.dot]) :=
    ⟨by rw [rootKfs_entries]; exact List.mem_cons_self .., by decide, by decide⟩
  obtain ⟨j, hj, hget⟩ := slotOf_of_has hhas rootKfs_distinct
  exact ⟨rootKfs_open, rootKfs_distinct, rootKfs_room, hhas,
    dirlink_deadlock rootKfs_open hj hget (.inl (by decide)) (by decide)⟩

end Xv6Clock.Dir
