/-
  File:      Xv6Clock/Inode.lean
  Subject:   The blocks of an inode, and disks on which every block has one owner (fs.c).
-/
import Xv6Clock.Mkfs

namespace Xv6Clock.Inode

open Mkfs (Dinode Superblock bsize ndirect nindirect maxfile blocks setAddr_self setAddr_other)

/-! ## 1. Slots -/

/-- A block, as an array of words. -/
abbrev Words := Nat → Nat

/-- The block at index `bn`, or 0. -/
def blockOf (blk : Nat → Words) (d : Dinode) (bn : Nat) : Nat :=
  if bn < ndirect then d.addrs bn
  else if d.addrs ndirect = 0 then 0 else blk (d.addrs ndirect) (bn - ndirect)

/-- One slot for each index, and the last one for the indirect block. -/
def slot (blk : Nat → Words) (d : Dinode) (k : Nat) : Nat :=
  if k < maxfile then blockOf blk d k else if k = maxfile then d.addrs ndirect else 0

variable {blk blk' : Nat → Words} {d d' : Dinode} {k b : Nat}

theorem slot_block (hk : k < maxfile) : slot blk d k = blockOf blk d k := if_pos hk

theorem slot_indirect (blk : Nat → Words) (d : Dinode) : slot blk d maxfile = d.addrs ndirect := by
  unfold slot
  rw [if_neg (Nat.lt_irrefl _), if_pos rfl]

theorem blockOf_direct (hk : k < ndirect) : blockOf blk d k = d.addrs k := if_pos hk

theorem blockOf_entry (h0 : d.addrs ndirect ≠ 0) (j : Nat) :
    blockOf blk d (ndirect + j) = blk (d.addrs ndirect) j := by
  unfold blockOf
  rw [if_neg (by omega), if_neg h0, Nat.add_sub_cancel_left]

theorem slot_congr (ha : d.addrs = d'.addrs)
    (hb : d.addrs ndirect ≠ 0 → blk (d.addrs ndirect) = blk' (d.addrs ndirect)) (k : Nat) :
    slot blk d k = slot blk' d' k := by
  unfold slot blockOf
  rw [← ha]
  by_cases h0 : d.addrs ndirect = 0
  · rw [if_pos h0, if_pos h0]
  · rw [hb h0]

/-- A direct entry is set. -/
theorem slot_setDirect (hk : k < ndirect) (a c : Nat) :
    slot blk (d.setAddr k a) c = if c = k then a else slot blk d c := by
  have hmax : k < maxfile := Nat.lt_of_lt_of_le hk (Nat.le_add_right _ _)
  have hind := setAddr_other d a (Nat.ne_of_gt hk)
  by_cases hc : c = k
  · rw [if_pos hc, hc, slot_block hmax, blockOf_direct hk, setAddr_self]
  · rw [if_neg hc]
    unfold slot blockOf
    rw [hind, setAddr_other d a hc]

/-- A zeroed block becomes the indirect block. -/
theorem slot_setIndirect (h0 : d.addrs ndirect = 0) {a : Nat} (ha : ∀ j, blk a j = 0) (c : Nat) :
    slot blk (d.setAddr ndirect a) c = if c = maxfile then a else slot blk d c := by
  have hself := setAddr_self d ndirect a
  by_cases hc : c = maxfile
  · rw [if_pos hc, hc, slot_indirect, hself]
  · rw [if_neg hc]
    unfold slot blockOf
    rw [if_neg hc, if_neg hc, hself, ha, h0, if_pos rfl, ite_self]
    by_cases hcd : c < ndirect
    · rw [if_pos hcd, if_pos hcd, setAddr_other d a (Nat.ne_of_lt hcd)]
    · rw [if_neg hcd, if_neg hcd]

/-- An entry of the indirect block is set. -/
theorem slot_setEntry (h0 : d.addrs ndirect ≠ 0) {j : Nat} (hj : j < nindirect) (a c : Nat) :
    slot (Function.update blk (d.addrs ndirect) (Function.update (blk (d.addrs ndirect)) j a)) d c =
      if c = ndirect + j then a else slot blk d c := by
  have hmax : maxfile = ndirect + nindirect := rfl
  unfold slot blockOf
  rw [Function.update_self, if_neg h0, if_neg h0]
  by_cases hcm : c < maxfile
  · rw [if_pos hcm, if_pos hcm]
    by_cases hcd : c < ndirect
    · rw [if_pos hcd, if_pos hcd, if_neg (by omega)]
    · rw [if_neg hcd, if_neg hcd]
      by_cases hck : c = ndirect + j
      · rw [if_pos hck, hck, Nat.add_sub_cancel_left, Function.update_self]
      · rw [if_neg hck, Function.update_of_ne (by omega)]
  · have hck : c ≠ ndirect + j := by omega
    rw [if_neg hcm, if_neg hck, if_neg hcm]

/-! ## 2. Sound disks -/

/-- `BPB`: the bits of a block of the bitmap. -/
def bpb : Nat := bsize * 8

/-- The blocks before the data: boot block, super block, log, inodes and bitmap. -/
def nmeta (sb : Superblock) : Nat := sb.bmapstart + sb.size / bpb + 1

/-- Every index of the file has a block. -/
def NoHoles (blk : Nat → Words) (d : Dinode) : Prop :=
  ∀ bn, bn < blocks d.size → bn < maxfile ∧ blockOf blk d bn ≠ 0

/-- A disk: its bitmap, its blocks and its inodes. -/
structure Image where
  bit : Nat → Bool
  blk : Nat → Words
  din : Nat → Dinode

/-- **A sound disk**: every block in a slot of an allocated inode is a data block and is in no
    other slot, the bitmap has exactly these and the metadata, and no file has a hole. -/
structure Image.Sound (sb : Superblock) (img : Image) : Prop where
  data : ∀ i k, (img.din i).type ≠ 0 → slot img.blk (img.din i) k ≠ 0 →
    nmeta sb ≤ slot img.blk (img.din i) k ∧ slot img.blk (img.din i) k < sb.size
  once : ∀ i j k c, (img.din i).type ≠ 0 → (img.din j).type ≠ 0 →
    slot img.blk (img.din i) k ≠ 0 →
    slot img.blk (img.din i) k = slot img.blk (img.din j) c → i = j ∧ k = c
  bitmap : ∀ b, b < sb.size → (img.bit b = true ↔
    b < nmeta sb ∨ ∃ i k, (img.din i).type ≠ 0 ∧ slot img.blk (img.din i) k = b)
  noHoles : ∀ i, (img.din i).type ≠ 0 → NoHoles img.blk (img.din i)

end Xv6Clock.Inode
