/-
  File:      Xv6Clock/FileData.lean
  Subject:   The bytes of files: `balloc`, `bmap`, `readi` and `writei` (fs.c), called by the
             process that has the inode locked.

  Here the data blocks have their bytes, and the calls run from start to end. The inode in memory
  may be ahead of its copy on the disk until `iupdate`; the disk is sound in the sense of
  `Inode.Image.Sound` when the copy is replaced by the inode in memory (`FsOf.with`).
  A state also keeps what was given to `log_write`: nothing here (`Fs`), the list in FileLog.lean.
  * `Sound.insert`: a free block gets into an empty slot;
  * `bmap_present`, `bmap_absent`: what `bmap` does.
-/
import Xv6Clock.Inode
import Xv6Clock.Mmu
import Xv6Clock.Lib.Count
import Mathlib.Data.List.GetD

namespace Xv6Clock.FileData

open Mkfs (Dinode Superblock Block bsize ndirect nindirect maxfile blocks zeroes setAddr_self
  setAddr_other)
open Inode (slot blockOf slot_block slot_indirect slot_congr nmeta Image)
open Lib (Bytes words getLE putLE splice)

/-! ## 1. The calls -/

/-- What `log_write` is called with: the bitmap block that has the bit of `b`, block `b`, the block
    of inode `i`. -/
inductive LogBlock where
  | bitmap (b : Nat)
  | block (b : Nat)
  | inode (i : Nat)

/-- What is kept of the calls of `log_write`. -/
class Journal (L : Type) where
  add : L → LogBlock → L

/-- The disk: the bitmap, the blocks with their bytes, and the inodes. -/
structure FsOf (L : Type) where
  bit : Nat → Bool
  sec : Nat → Block
  din : Nat → Dinode
  log : L

instance : Journal Unit := ⟨fun _ _ => ()⟩

abbrev Fs := FsOf Unit

section
variable {L : Type} [Journal L]

/-- A block is written. -/
def FsOf.setSec (s : FsOf L) (b : Nat) (x : Block) : FsOf L :=
  { s with sec := Function.update s.sec b x, log := Journal.add s.log (.block b) }

/-- The block is marked in the bitmap, and zeroed by `bzero`. -/
def FsOf.take (s : FsOf L) (b : Nat) : FsOf L :=
  ⟨Function.update s.bit b true, Function.update s.sec b zeroes, s.din,
    Journal.add (Journal.add s.log (.bitmap b)) (.block b)⟩

variable (sb : Superblock)

/-- `balloc`; none where it panics. -/
def balloc (s : FsOf L) : Option (Nat × FsOf L) :=
  match (List.range sb.size).find? fun b => !s.bit b with
  | some b => some (b, s.take b)
  | none => none

/-- The indirect block of `bmap`. -/
def indirectBlock (s : FsOf L) (d : Dinode) : Option (Nat × FsOf L × Dinode) :=
  if d.addrs ndirect = 0 then do
    let (b, s) ← balloc sb s
    some (b, s, d.setAddr ndirect b)
  else some (d.addrs ndirect, s, d)

/-- `bmap`. -/
def bmap (s : FsOf L) (d : Dinode) (bn : Nat) : Option (Nat × FsOf L × Dinode) :=
  if bn < ndirect then
    if d.addrs bn = 0 then do
      let (b, s) ← balloc sb s
      some (b, s, d.setAddr bn b)
    else some (d.addrs bn, s, d)
  else if bn - ndirect < nindirect then do
    let (ib, s, d) ← indirectBlock sb s d
    let a := words (s.sec ib) (bn - ndirect)
    if a = 0 then do
      let (b, s) ← balloc sb s
      some (b, s.setSec ib (putLE 4 (s.sec ib) (4 * (bn - ndirect)) b), d)
    else some (a, s, d)
  else none

/-- The loop of `readi`, with the bytes it copies; a round copies a byte at least. -/
def readiLoop : Nat → FsOf L → Dinode → Nat → Nat → Option (List Byte × FsOf L × Dinode)
  | fuel + 1, s, d, off, n + 1 => do
    let (b, s, d) ← bmap sb s d (off / bsize)
    let m := min (n + 1) (bsize - off % bsize)
    let data := (List.range m).map fun j => s.sec b (off % bsize + j)
    let (rest, s, d) ← readiLoop fuel s d (off + m) (n + 1 - m)
    some (data ++ rest, s, d)
  | _, s, d, _, _ => some ([], s, d)

/-- `readi` of a file that is not a device: its bytes, or none for -1. -/
def readi (s : FsOf L) (d : Dinode) (off n : Nat) :
    Option (Option (List Byte) × FsOf L × Dinode) :=
  if d.size < off ∨ (off + n) % 2 ^ 32 < off then some (none, s, d)
  else do
    let n := if d.size < (off + n) % 2 ^ 32 then d.size - off else n
    let (data, s, d) ← readiLoop sb n s d off n
    some (some data, s, d)

/-- The loop of `writei`; `src` is what is left of the data. -/
def writeiLoop : Nat → FsOf L → Dinode → Nat → Nat → Bytes → Option (FsOf L × Dinode)
  | fuel + 1, s, d, off, n + 1, src => do
    let (b, s, d) ← bmap sb s d (off / bsize)
    let m := min (n + 1) (bsize - off % bsize)
    let data := (List.range m).map src
    writeiLoop fuel (s.setSec b (splice (s.sec b) (off % bsize) data)) d (off + m) (n + 1 - m)
      fun j => src (m + j)
  | _, s, d, _, _, _ => some (s, d)

/-- `iupdate`. -/
def iupdate (s : FsOf L) (i : Nat) (d : Dinode) : FsOf L :=
  { s with din := Function.update s.din i d, log := Journal.add s.log (.inode i) }

/-- `writei` to a file that is not a device. -/
def writei (s : FsOf L) (i : Nat) (d : Dinode) (src : Bytes) (off n : Nat) :
    Option (Int × FsOf L × Dinode) :=
  if d.size < off ∨ (off + n) % 2 ^ 32 < off then some (-1, s, d)
  else if maxfile * bsize < (off + n) % 2 ^ 32 then some (-1, s, d)
  else do
    let (s, d) ← writeiLoop sb n s d off n src
    if 0 < n ∧ d.size < off + n then
      let d := { d with size := off + n }
      some (n, iupdate s i d, d)
    else some (n, s, d)

end

/-! ## 2. Sound disks -/

variable {L : Type} (sb : Superblock)

/-- The blocks as arrays of words. -/
def FsOf.blk (s : FsOf L) : Nat → Inode.Words := fun b => words (s.sec b)

/-- The disk with the inode in memory in place of its copy. -/
def FsOf.with (s : FsOf L) (i : Nat) (d : Dinode) : Image :=
  ⟨s.bit, s.blk, Function.update s.din i d⟩

@[simp] theorem with_self (s : FsOf L) (i : Nat) (d : Dinode) : (s.with i d).din i = d :=
  Function.update_self ..

@[simp] theorem with_other (s : FsOf L) (d : Dinode) {i j : Nat} (h : j ≠ i) :
    (s.with i d).din j = s.din j := Function.update_of_ne h ..

/-- The number of free blocks. -/
def FsOf.free (s : FsOf L) : Nat := ∑ b ∈ Finset.range sb.size, if s.bit b then 0 else 1

section
variable {sb} {img img' : Image} {i k b : Nat}

/-- A free block is a data block that is in no slot. -/
theorem sound_free (h : img.Sound sb) (hb : b < sb.size) (hbit : img.bit b = false) :
    nmeta sb ≤ b ∧ b ≠ 0 ∧ ∀ j c, (img.din j).type ≠ 0 → slot img.blk (img.din j) c ≠ b := by
  have hnot := mt (h.bitmap b hb).mpr (by rw [hbit]; decide)
  rw [not_or] at hnot
  have hpos : 0 < nmeta sb := Nat.succ_pos _
  exact ⟨by omega, by omega, fun j c ht he => hnot.2 ⟨j, c, ht, he⟩⟩

/-- **A free block gets into an empty slot** of inode `i`. -/
theorem Sound.insert (h : img.Sound sb) (ht : (img.din i).type ≠ 0)
    (hk : slot img.blk (img.din i) k = 0) (hb : b < sb.size) (hbit : img.bit b = false)
    (hbits : img'.bit = Function.update img.bit b true)
    (htype : ∀ j, (img'.din j).type = (img.din j).type)
    (hsize : ∀ j, (img'.din j).size = (img.din j).size)
    (hself : ∀ c, slot img'.blk (img'.din i) c = if c = k then b else slot img.blk (img.din i) c)
    (hother : ∀ j, j ≠ i → (img.din j).type ≠ 0 → ∀ c,
      slot img'.blk (img'.din j) c = slot img.blk (img.din j) c) : img'.Sound sb := by
  obtain ⟨hmeta, h0, hfree⟩ := sound_free h hb hbit
  -- what is in a slot now: the new block, or what was in it
  have hslot : ∀ j c, (img.din j).type ≠ 0 → (j = i ∧ c = k ∧ slot img'.blk (img'.din j) c = b) ∨
      ((j ≠ i ∨ c ≠ k) ∧ slot img'.blk (img'.din j) c = slot img.blk (img.din j) c) :=
    fun j c hj => by
      by_cases hji : j = i
      · subst hji
        rw [hself]
        by_cases hck : c = k
        · exact .inl ⟨rfl, hck, if_pos hck⟩
        · exact .inr ⟨.inr hck, if_neg hck⟩
      · exact .inr ⟨.inl hji, hother j hji hj c⟩
  refine ⟨fun j c hj hne => ?_, fun j l c e hj hl hne he => ?_, fun a ha => ?_, fun j hj => ?_⟩
  · rw [htype] at hj
    rcases hslot j c hj with ⟨-, -, e⟩ | ⟨-, e⟩ <;> rw [e]
    · exact ⟨hmeta, hb⟩
    · exact h.data j c hj (e ▸ hne)
  · rw [htype] at hj hl
    rcases hslot j c hj with ⟨h1, h2, e1⟩ | ⟨h1, e1⟩ <;>
      rcases hslot l e hl with ⟨h3, h4, e2⟩ | ⟨h3, e2⟩ <;> rw [e1, e2] at he
    · exact ⟨h1.trans h3.symm, h2.trans h4.symm⟩
    · exact absurd he.symm (hfree l e hl)
    · exact absurd he (hfree j c hj)
    · exact h.once j l c e hj hl (e1 ▸ hne) he
  · rw [hbits]
    by_cases hab : a = b
    · rw [hab, Function.update_self]
      refine ⟨fun _ => .inr ⟨i, k, by rw [htype]; exact ht, ?_⟩, fun _ => rfl⟩
      rw [hself, if_pos rfl]
    rw [Function.update_of_ne hab, h.bitmap a ha]
    refine ⟨fun hused => ?_, fun hused => hused.imp_right fun hex => ?_⟩
    · rcases hused with hm | ⟨j, c, hj, rfl⟩
      · exact .inl hm
      · by_cases hjc : j = i ∧ c = k
        · rw [hjc.1, hjc.2, hk]
          exact .inl (Nat.succ_pos _)
        · refine .inr ⟨j, c, by rw [htype]; exact hj, ?_⟩
          rcases hslot j c hj with ⟨h1, h2, -⟩ | ⟨-, e⟩
          · exact absurd ⟨h1, h2⟩ hjc
          · exact e
    · obtain ⟨j, c, hj, rfl⟩ := hex
      rw [htype] at hj
      rcases hslot j c hj with ⟨-, -, e⟩ | ⟨-, e⟩
      · exact absurd e hab
      · exact ⟨j, c, hj, e.symm⟩
  · rw [htype] at hj
    intro bn hbn
    rw [hsize] at hbn
    obtain ⟨hmax, hne⟩ := h.noHoles j hj bn hbn
    refine ⟨hmax, ?_⟩
    rw [← slot_block hmax] at hne ⊢
    rcases hslot j bn hj with ⟨-, -, e⟩ | ⟨-, e⟩ <;> rw [e]
    · exact h0
    · exact hne

end

/-! ## 3. `balloc` -/

/-- **A free block is found while there is one.** -/
theorem balloc_some [Journal L] (s : FsOf L) (h : 0 < s.free sb) :
    ∃ b, b < sb.size ∧ s.bit b = false ∧ balloc sb s = some (b, s.take b) := by
  obtain ⟨b0, hb0, hpos⟩ := Lib.exists_of_sum_pos _ h
  have hbit : s.bit b0 = false := by
    cases hb : s.bit b0 with
    | false => rfl
    | true =>
      rw [hb] at hpos
      cases hpos
  cases hf : (List.range sb.size).find? fun b => !s.bit b with
  | none =>
    have hnone := List.find?_eq_none.mp hf b0 (List.mem_range.mpr hb0)
    rw [hbit] at hnone
    exact absurd rfl hnone
  | some b =>
    have hmem := List.mem_of_find?_eq_some hf
    have hfree := List.find?_some hf
    refine ⟨b, List.mem_range.mp hmem, by simpa using hfree, ?_⟩
    unfold balloc
    rw [hf]

section
variable {sb} {s : FsOf L} [Journal L]

/-- One block less is free. -/
theorem free_take {b : Nat} (hb : b < sb.size) (hbit : s.bit b = false) :
    (s.take b).free sb + 1 = s.free sb := by
  have h := Lib.sum_update_entry (fun _ (x : Bool) => if x then 0 else 1) s.bit hb true
  rw [hbit] at h
  unfold FsOf.free FsOf.take
  simpa using h

theorem free_setSec (s : FsOf L) (b : Nat) (x : Block) : (s.setSec b x).free sb = s.free sb := rfl

end

/-! ## 4. `bmap` -/

/-- **The inode gets blocks**: from disk `s` with inode `d` to `s'` with `d'`. Slots that are in use
    stay, with the bytes of their blocks, in this inode and in every other. -/
structure Grown (sb : Superblock) (i : Nat) (s : FsOf L) (d : Dinode) (s' : FsOf L) (d' : Dinode) :
    Prop where
  sound : (s'.with i d').Sound sb
  din : s'.din = s.din
  head : d' = { d with addrs := d'.addrs }
  keep : ∀ k, slot s.blk d k ≠ 0 → slot s'.blk d' k = slot s.blk d k
  bytes : ∀ k, k < maxfile → slot s.blk d k ≠ 0 →
    s'.sec (slot s.blk d k) = s.sec (slot s.blk d k)
  slots : ∀ j, j ≠ i → (s.din j).type ≠ 0 → ∀ k, slot s'.blk (s.din j) k = slot s.blk (s.din j) k
  others : ∀ j, j ≠ i → (s.din j).type ≠ 0 → ∀ k, k < maxfile → slot s.blk (s.din j) k ≠ 0 →
    s'.sec (slot s.blk (s.din j) k) = s.sec (slot s.blk (s.din j) k)

section
variable {sb} {i k b : Nat} {s s' s'' : FsOf L} {d d' d'' : Dinode}

theorem Grown.refl (h : (s.with i d).Sound sb) : Grown sb i s d s d :=
  ⟨h, rfl, rfl, fun _ _ => rfl, fun _ _ _ => rfl, fun _ _ _ _ => rfl, fun _ _ _ _ _ _ => rfl⟩

theorem Grown.type (h : Grown sb i s d s' d') : d'.type = d.type := by rw [h.head]

theorem Grown.trans (h1 : Grown sb i s d s' d') (h2 : Grown sb i s' d' s'' d'') :
    Grown sb i s d s'' d'' where
  sound := h2.sound
  din := h2.din.trans h1.din
  head := by
    rw [h2.head, h1.head]
  keep k hk := by
    have e := h1.keep k hk
    exact (h2.keep k (e ▸ hk)).trans e
  bytes k hk h0 := by
    have e := h1.keep k h0
    have h := h2.bytes k hk (e ▸ h0)
    rw [e] at h
    exact h.trans (h1.bytes k hk h0)
  slots j hj ht k := by
    have h := h2.slots j hj (h1.din ▸ ht) k
    rw [h1.din] at h
    exact h.trans (h1.slots j hj ht k)
  others j hj ht k hk h0 := by
    have e := h1.slots j hj ht k
    have h := h2.others j hj (h1.din ▸ ht) k hk (by rw [h1.din, e]; exact h0)
    rw [h1.din, e] at h
    exact h.trans (h1.others j hj ht k hk h0)

/-- **A free block `b` gets into slot `k`.** Beside `b` only the indirect block may change. -/
theorem Grown.take (h : (s.with i d).Sound sb) (ht : d.type ≠ 0) (hk : slot s.blk d k = 0)
    (hb : b < sb.size) (hbit : s.bit b = false) (hbits : s'.bit = Function.update s.bit b true)
    (hdin : s'.din = s.din) (hhead : d' = { d with addrs := d'.addrs })
    (hself : ∀ c, slot s'.blk d' c = if c = k then b else slot s.blk d c)
    (hsec : ∀ a, a ≠ b → a ≠ d.addrs ndirect → s'.sec a = s.sec a) : Grown sb i s d s' d' := by
  obtain ⟨-, h0, hfree⟩ := sound_free h hb hbit
  have hti : ((s.with i d).din i).type ≠ 0 := by rw [with_self]; exact ht
  -- a block of a slot is not `b`, and not the indirect block of `i` unless it is in that slot
  have hself' : ∀ c, c < maxfile → slot s.blk d c ≠ 0 →
      s'.sec (slot s.blk d c) = s.sec (slot s.blk d c) := fun c hc hne => by
    have hb' := hfree i c hti
    rw [with_self] at hb'
    refine hsec _ hb' fun he => ?_
    rw [← slot_indirect s.blk d] at he
    have honce := h.once i i c maxfile hti hti
    rw [with_self] at honce
    have := (honce hne he).2
    omega
  have hblock : ∀ j, j ≠ i → (s.din j).type ≠ 0 → ∀ c, slot s.blk (s.din j) c ≠ 0 →
      s'.sec (slot s.blk (s.din j) c) = s.sec (slot s.blk (s.din j) c) := fun j hj htj c hne => by
    have htj' : ((s.with i d).din j).type ≠ 0 := by rw [with_other _ _ hj]; exact htj
    have hb' := hfree j c htj'
    rw [with_other _ _ hj] at hb'
    refine hsec _ hb' fun he => ?_
    rw [← slot_indirect s.blk d] at he
    have honce := h.once j i c maxfile htj' hti
    rw [with_self, with_other _ _ hj] at honce
    exact hj (honce hne he).1
  have hother : ∀ j, j ≠ i → (s.din j).type ≠ 0 → ∀ c,
      slot s'.blk (s.din j) c = slot s.blk (s.din j) c := fun j hj htj c => by
    refine (slot_congr rfl (fun hne => ?_) c).symm
    have hind := hblock j hj htj maxfile (by rw [slot_indirect]; exact hne)
    rw [slot_indirect] at hind
    unfold FsOf.blk
    rw [hind]
  refine ⟨?_, hdin, hhead, fun c hc => ?_, hself', hother, fun j hj htj c _ => hblock j hj htj c⟩
  · have hdin' : ∀ j, j ≠ i → (s'.with i d').din j = (s.with i d).din j := fun j hj => by
      rw [with_other _ _ hj, with_other _ _ hj, hdin]
    refine Sound.insert (i := i) (k := k) h hti ?_ hb hbit hbits (fun j => ?_) (fun j => ?_) ?_
      fun j hj htj c => ?_
    · rw [with_self]
      exact hk
    · by_cases hj : j = i
      · rw [hj, with_self, with_self, hhead]
      · rw [hdin' j hj]
    · by_cases hj : j = i
      · rw [hj, with_self, with_self, hhead]
      · rw [hdin' j hj]
    · rw [with_self, with_self]
      exact hself
    · rw [hdin' j hj, with_other _ _ hj]
      rw [with_other _ _ hj] at htj
      exact hother j hj htj c
  · rw [hself, if_neg fun (e : c = k) => hc (e ▸ hk)]

/-- The indirect block is not free. -/
theorem indirect_ne (h : (s.with i d).Sound sb) (ht : d.type ≠ 0) (hb : b < sb.size)
    (hbit : s.bit b = false) : d.addrs ndirect ≠ b := by
  have hfree := (sound_free h hb hbit).2.2 i maxfile
  rw [with_self, ← slot_indirect s.blk d] at *
  exact hfree ht

/-- A word of a block is set. -/
theorem words_putLE (x : Block) {a : Nat} (j : Nat) (ha : a < 2 ^ 32) :
    words (putLE 4 x (4 * j) a) = Function.update (words x) j a := by
  funext e
  unfold words
  by_cases he : e = j
  · rw [he, Function.update_self]
    exact Lib.getLE_putLE ha
  · rw [Function.update_of_ne he]
    exact Lib.getLE_putLE_other (by omega)

/-- 1 if there is no indirect block yet. -/
def noIndirect (d : Dinode) : Nat := if d.addrs ndirect = 0 then 1 else 0

theorem noIndirect_eq (h : d'.addrs ndirect = d.addrs ndirect) : noIndirect d' = noIndirect d := by
  unfold noIndirect
  rw [h]

theorem noIndirect_some (h : d.addrs ndirect ≠ 0) : noIndirect d = 0 := if_neg h

variable [Journal L]

/-- A block that is not the indirect block may change. -/
theorem slot_take (s : FsOf L) (hb : d.addrs ndirect = 0 ∨ d.addrs ndirect ≠ b) (c : Nat) :
    slot (s.take b).blk d c = slot s.blk d c := by
  refine slot_congr rfl (fun h0 => ?_) c
  unfold FsOf.blk FsOf.take
  dsimp only
  rw [Function.update_of_ne (hb.resolve_left h0)]

theorem take_sec (s : FsOf L) {a : Nat} (h : a ≠ b) : (s.take b).sec a = s.sec a :=
  Function.update_of_ne h ..

/-- A direct block. -/
theorem grown_direct (h : (s.with i d).Sound sb) (ht : d.type ≠ 0) (hk : k < ndirect)
    (h0 : d.addrs k = 0) (hb : b < sb.size) (hbit : s.bit b = false) :
    Grown sb i s d (s.take b) (d.setAddr k b) ∧ slot (s.take b).blk (d.setAddr k b) k = b := by
  have hmax : k < maxfile := Nat.lt_of_lt_of_le hk (Nat.le_add_right _ _)
  have hslot : ∀ c, slot (s.take b).blk (d.setAddr k b) c = if c = k then b else slot s.blk d c :=
    fun c => by
      rw [Inode.slot_setDirect hk, slot_take s (.inr (indirect_ne h ht hb hbit))]
  refine ⟨Grown.take h ht ?_ hb hbit rfl rfl rfl hslot fun a ha _ => take_sec s ha, ?_⟩
  · rw [slot_block hmax, Inode.blockOf_direct hk, h0]
  · rw [hslot, if_pos rfl]

/-- The indirect block. -/
theorem grown_indirect (h : (s.with i d).Sound sb) (ht : d.type ≠ 0) (h0 : d.addrs ndirect = 0)
    (hb : b < sb.size) (hbit : s.bit b = false) :
    Grown sb i s d (s.take b) (d.setAddr ndirect b) ∧
      ∀ c, c < maxfile → slot (s.take b).blk (d.setAddr ndirect b) c = slot s.blk d c := by
  have hz : ∀ j, (s.take b).blk b j = 0 := fun j => by
    unfold FsOf.blk FsOf.take
    dsimp only
    rw [Function.update_self]
    exact Mkfs.zeroes_words j
  have hslot : ∀ c, slot (s.take b).blk (d.setAddr ndirect b) c =
      if c = maxfile then b else slot s.blk d c := fun c => by
    rw [Inode.slot_setIndirect h0 hz, slot_take s (.inl h0)]
  refine ⟨Grown.take h ht ?_ hb hbit rfl rfl rfl hslot fun a ha _ => take_sec s ha, fun c hc => ?_⟩
  · rw [slot_indirect, h0]
  · rw [hslot, if_neg (Nat.ne_of_lt hc)]

theorem setSec_blk (s : FsOf L) (b : Nat) (x : Block) :
    (s.setSec b x).blk = Function.update s.blk b (words x) := by
  funext a
  unfold FsOf.blk FsOf.setSec
  dsimp only
  by_cases ha : a = b
  · rw [ha, Function.update_self, Function.update_self]
  · rw [Function.update_of_ne ha, Function.update_of_ne ha]

/-- A block of the indirect range. -/
theorem grown_entry (h : (s.with i d).Sound sb) (ht : d.type ≠ 0) (hsz : sb.size ≤ 2 ^ 32)
    (hind : d.addrs ndirect ≠ 0) {j : Nat} (hj : j < nindirect)
    (h0 : words (s.sec (d.addrs ndirect)) j = 0) (hb : b < sb.size) (hbit : s.bit b = false) :
    Grown sb i s d ((s.take b).setSec (d.addrs ndirect)
        (putLE 4 ((s.take b).sec (d.addrs ndirect)) (4 * j) b)) d ∧
      slot ((s.take b).setSec (d.addrs ndirect)
        (putLE 4 ((s.take b).sec (d.addrs ndirect)) (4 * j) b)).blk d (ndirect + j) = b := by
  have hmax : ndirect + j < maxfile := Nat.add_lt_add_left hj _
  have hne := indirect_ne h ht hb hbit
  have hslot : ∀ c, slot ((s.take b).setSec (d.addrs ndirect)
      (putLE 4 ((s.take b).sec (d.addrs ndirect)) (4 * j) b)).blk d c =
        if c = ndirect + j then b else slot s.blk d c := fun c => by
    rw [setSec_blk, words_putLE _ j (by omega), ← slot_take s (.inr hne)]
    exact Inode.slot_setEntry hind hj b c
  refine ⟨Grown.take h ht ?_ hb hbit rfl rfl rfl hslot fun a ha hi => ?_, ?_⟩
  · rw [slot_block hmax, Inode.blockOf_entry hind]
    exact h0
  · exact (Function.update_of_ne hi _ _).trans (take_sec s ha)
  · rw [hslot, if_pos rfl]

/-- The indirect block is there then. -/
theorem indirectBlock_spec (h : (s.with i d).Sound sb) (ht : d.type ≠ 0)
    (hroom : noIndirect d ≤ s.free sb) :
    ∃ ib s' d', indirectBlock sb s d = some (ib, s', d') ∧ Grown sb i s d s' d' ∧
      (∀ c, c < maxfile → slot s'.blk d' c = slot s.blk d c) ∧ d'.addrs ndirect = ib ∧ ib ≠ 0 ∧
      s'.free sb + noIndirect d = s.free sb := by
  unfold indirectBlock
  by_cases h0 : d.addrs ndirect = 0
  · have h1 : noIndirect d = 1 := if_pos h0
    obtain ⟨b, hb, hbit, hal⟩ := balloc_some sb s (by omega)
    obtain ⟨hgrown, hslot⟩ := grown_indirect h ht h0 hb hbit
    rw [if_pos h0, hal]
    refine ⟨b, _, _, rfl, hgrown, hslot, setAddr_self d ndirect b,
      (sound_free h hb hbit).2.1, ?_⟩
    rw [h1]
    exact free_take hb hbit
  · rw [if_neg h0]
    exact ⟨_, s, d, rfl, Grown.refl h, fun _ _ => rfl, rfl, h0, by rw [noIndirect_some h0]; rfl⟩

/-- `bmap` of an index that has a block. -/
theorem bmap_present {bn : Nat} (hbn : bn < maxfile) (h : blockOf s.blk d bn ≠ 0) :
    bmap sb s d bn = some (blockOf s.blk d bn, s, d) := by
  have hmax : maxfile = ndirect + nindirect := rfl
  unfold bmap
  by_cases hdir : bn < ndirect
  · rw [Inode.blockOf_direct hdir] at h ⊢
    rw [if_pos hdir, if_neg h]
  · have hblk : blockOf s.blk d bn =
        if d.addrs ndirect = 0 then 0 else words (s.sec (d.addrs ndirect)) (bn - ndirect) :=
      if_neg hdir
    have hind : d.addrs ndirect ≠ 0 := fun h0 => h (by rw [hblk, if_pos h0])
    rw [hblk, if_neg hind] at h
    unfold indirectBlock
    rw [hblk, if_neg hdir, if_pos (by omega), if_neg hind, if_neg hind]
    dsimp only [Option.bind_eq_bind, Option.bind_some]
    rw [if_neg h]

/-- **`bmap` of an index without a block**: it gets one, and if the indirect block is missing that
    is taken too. -/
theorem bmap_absent (h : (s.with i d).Sound sb) (ht : d.type ≠ 0) (hsz : sb.size ≤ 2 ^ 32)
    {bn : Nat} (hbn : bn < maxfile) (h0 : blockOf s.blk d bn = 0)
    (hroom : 1 + (if ndirect ≤ bn then noIndirect d else 0) ≤ s.free sb) :
    ∃ b s' d', bmap sb s d bn = some (b, s', d') ∧ Grown sb i s d s' d' ∧ b ≠ 0 ∧
      slot s'.blk d' bn = b ∧
      s'.free sb + 1 + (if ndirect ≤ bn then noIndirect d else 0) = s.free sb ∧
      noIndirect d' = if ndirect ≤ bn then 0 else noIndirect d := by
  have hmax : maxfile = ndirect + nindirect := rfl
  unfold bmap
  by_cases hdir : bn < ndirect
  · have hlt : ¬ndirect ≤ bn := by omega
    rw [Inode.blockOf_direct hdir] at h0
    rw [if_neg hlt] at hroom ⊢
    obtain ⟨b, hb, hbit, hal⟩ := balloc_some sb s (by omega)
    obtain ⟨hgrown, hself⟩ := grown_direct h ht hdir h0 hb hbit
    rw [if_pos hdir, if_pos h0, hal, if_neg hlt]
    exact ⟨b, _, _, rfl, hgrown, (sound_free h hb hbit).2.1, hself, free_take hb hbit,
      noIndirect_eq (setAddr_other d b (Nat.ne_of_gt hdir))⟩
  · have hle : ndirect ≤ bn := by omega
    have hj : bn - ndirect < nindirect := by omega
    rw [if_pos hle] at hroom ⊢
    obtain ⟨ib, s1, d1, hib, hg1, hsame, rfl, hib0, hfree1⟩ := indirectBlock_spec h ht (by omega)
    have ht1 : d1.type ≠ 0 := by rw [hg1.type]; exact ht
    -- the new indirect block is zero, so the index has no block yet
    have hword : words (s1.sec (d1.addrs ndirect)) (bn - ndirect) = 0 := by
      rw [← h0, ← slot_block hbn, ← hsame bn hbn, slot_block hbn]
      unfold blockOf
      rw [if_neg hdir, if_neg hib0]
      rfl
    obtain ⟨b, hb, hbit, hal⟩ := balloc_some sb s1 (by omega)
    obtain ⟨hgrown, hself⟩ := grown_entry hg1.sound ht1 hsz hib0 hj hword hb hbit
    rw [Nat.add_sub_cancel' hle] at hself
    have hfree2 := free_take hb hbit
    rw [if_neg hdir, if_pos hj, hib, if_pos hle]
    dsimp only [Option.bind_eq_bind, Option.bind_some]
    rw [if_pos hword, hal]
    refine ⟨b, _, _, rfl, hg1.trans hgrown, (sound_free hg1.sound hb hbit).2.1, hself, ?_,
      noIndirect_some hib0⟩
    rw [free_setSec]
    dsimp only
    omega

end

end Xv6Clock.FileData
