/-
  File:      Xv6Clock/Mkfs.lean
  Subject:   The layout of the disk that mkfs chooses (mkfs.c, fs.h, param.h).
-/
import Xv6Clock.Lib.Bytes

namespace Xv6Clock.Mkfs

open Lib (Bytes words digit)

/-! ## 1. The layout -/

def bsize : Nat := 512
def ndirect : Nat := 12
def nindirect : Nat := bsize / 4
def maxfile : Nat := ndirect + nindirect
def dirsiz : Nat := 14
def fssize : Nat := 1000
def logsize : Nat := 30
def ninodes : Nat := 200
def dinodeSize : Nat := 64
def ipb : Nat := bsize / dinodeSize
def rootino : Nat := 1
def nbitmap : Nat := fssize / (bsize * 8) + 1
def ninodeblocks : Nat := ninodes / ipb + 1
def nlog : Nat := logsize
def nmeta : Nat := 2 + nlog + ninodeblocks + nbitmap
def nblocks : Nat := fssize - nmeta

structure Superblock where
  size : Nat
  nblocks : Nat
  ninodes : Nat
  nlog : Nat
  logstart : Nat
  inodestart : Nat
  bmapstart : Nat

def sb : Superblock where
  size := fssize
  nblocks := nblocks
  ninodes := ninodes
  nlog := nlog
  logstart := 2
  inodestart := 2 + nlog
  bmapstart := 2 + nlog + ninodeblocks

abbrev Block := Bytes

def zeroes : Block := fun _ => 0

/-- `struct dinode`; `addrs` has entries up to `ndirect`, and 0 beyond them. -/
@[ext]
structure Dinode where
  type : Nat
  major : Nat
  minor : Nat
  nlink : Nat
  size : Nat
  addrs : Nat → Nat

def Dinode.setAddr (d : Dinode) (k a : Nat) : Dinode :=
  { d with addrs := Function.update d.addrs k a }

theorem zeroes_words (k : Nat) : words zeroes k = 0 := Lib.getLE_zero fun _ _ _ => rfl

@[simp] theorem setAddr_self (d : Dinode) (k a : Nat) : (d.setAddr k a).addrs k = a := by
  unfold Dinode.setAddr
  dsimp only
  rw [Function.update_self]

theorem setAddr_other (d : Dinode) (a : Nat) {k c : Nat} (h : c ≠ k) :
    (d.setAddr k a).addrs c = d.addrs c := by
  unfold Dinode.setAddr
  dsimp only
  rw [Function.update_of_ne h]

/-- The number of blocks of a file of `n` bytes. -/
def blocks (n : Nat) : Nat := (n + (bsize - 1)) / bsize

/-- Bytes that fit into the rest of a block are in that block. -/
theorem same_block {o c n : Nat} (h1 : o ≤ c) (h2 : c < o + n)
    (hfit : o % bsize + n ≤ bsize) :
    c / bsize = o / bsize ∧ c % bsize = o % bsize + (c - o) := by
  change o % 512 + n ≤ 512 at hfit
  change c / 512 = o / 512 ∧ c % 512 = o % 512 + (c - o)
  omega

/-! ## 2. Directory entries -/

/-- `struct dirent`; `strncpy` fills up with zeroes. -/
def dirent (inum : Nat) (name : List (BitVec 8)) : List (BitVec 8) :=
  [digit inum 0, digit inum 1] ++
    (name.take dirsiz ++ List.replicate (dirsiz - (name.take dirsiz).length) 0)

def slash : BitVec 8 := 47
def dot : BitVec 8 := 46

end Xv6Clock.Mkfs
