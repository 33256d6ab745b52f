/-
  File:      Xv6Clock/Icache.lean
  Subject:   The inode cache as one process sees it: `iget`, `idup`, `ilock`, `iunlock`, `iput` and
             `itrunc` (fs.c).

  The other processes are not in a call of the file system. A lock that is held is then held by
  this process, and waiting for it never ends (`Stop.deadlock`).
  Here the inodes are indexed by their number, since one device holds them all.
  * `iget_ok`, `iget_full`, `ilock_eq`, `iunlock_eq`, `iput_eq`: what each call does;
  * `Sync`: the cache has what is on the disk.
-/
import Xv6Clock.FileArray
import Xv6Clock.Lib.Result

namespace Xv6Clock.Dir

open Mkfs (Dinode Superblock ndirect nindirect)
open FileData (Fs iupdate)
open Lib (words)

/-! ## 1. The calls -/

/-- Why a call does not return. -/
inductive Stop where
  | panic
  /-- The process waits for a lock that it holds itself. -/
  | deadlock
  deriving DecidableEq

/-- The disk, the references to the entries of the cache, the number of entries that are not in
    use, and the locks. -/
structure Core where
  fs : Fs
  ref : Nat → Nat
  free : Nat
  lock : Nat → Bool

/-- The cache, with its copies of inodes and their `valid` flags. -/
structure Kfs extends Core where
  valid : Nat → Bool
  ino : Nat → Dinode

/-- One reference more. -/
def Core.hold (c : Core) (i : Nat) : Core :=
  { c with
    ref := Function.update c.ref i (c.ref i + 1)
    free := if c.ref i = 0 then c.free - 1 else c.free }

/-- One reference less. -/
def Core.drop (c : Core) (i : Nat) : Core :=
  { c with
    ref := Function.update c.ref i (c.ref i - 1)
    free := if c.ref i = 1 then c.free + 1 else c.free }

def Core.setLock (c : Core) (i : Nat) (b : Bool) : Core :=
  { c with lock := Function.update c.lock i b }

/-- `iget`: the entry with the number, or one that is not in use. -/
def iget (k : Kfs) (i : Nat) : Except Stop Kfs :=
  if 0 < k.ref i then .ok { k with toCore := k.toCore.hold i }
  else if k.free = 0 then .error .panic
  else
    .ok { k with
      toCore := k.toCore.hold i
      valid := Function.update k.valid i false }

/-- `idup`. -/
def idup (k : Kfs) (i : Nat) : Kfs := { k with toCore := k.toCore.hold i }

/-- `ilock`; the inode is read from the disk where it is not valid. -/
def ilock (k : Kfs) (i : Nat) : Except Stop Kfs :=
  if k.ref i < 1 then .error .panic
  else if k.lock i then .error .deadlock
  else
    let k := { k with toCore := k.toCore.setLock i true }
    if k.valid i then .ok k
    else if (k.fs.din i).type = 0 then .error .panic
    else
      .ok { k with
        ino := Function.update k.ino i (k.fs.din i)
        valid := Function.update k.valid i true }

/-- `iunlock`. -/
def iunlock (k : Kfs) (i : Nat) : Except Stop Kfs :=
  if k.lock i = false ∨ k.ref i < 1 then .error .panic
  else .ok { k with toCore := k.toCore.setLock i false }

/-- `bfree`. -/
def bfree (s : Fs) (b : Nat) : Except Stop Fs :=
  if s.bit b then .ok { s with bit := Function.update s.bit b false } else .error .panic

/-- A loop over block numbers, with `bfree` for those that are not 0. -/
def bfreeAll (a : Nat → Nat) (n : Nat) (s : Fs) : Except Stop Fs :=
  (List.range n).foldlM (fun s j => if a j = 0 then .ok s else bfree s (a j)) s

/-- `itrunc`. -/
def itrunc (s : Fs) (i : Nat) (d : Dinode) : Except Stop (Fs × Dinode) := do
  let s ← bfreeAll d.addrs ndirect s
  let s ← if d.addrs ndirect = 0 then .ok s else do
    let s ← bfreeAll (words (s.sec (d.addrs ndirect))) nindirect s
    bfree s (d.addrs ndirect)
  let d : Dinode :=
    { d with
      addrs := fun j => if j ≤ ndirect then 0 else d.addrs j
      size := 0 }
  .ok (iupdate s i d, d)

/-- `iput`: an inode without links is freed with its last reference. -/
def iput (k : Kfs) (i : Nat) : Except Stop Kfs :=
  if k.lock i then .error .deadlock
  else do
    let k ← if k.valid i = true ∧ (k.ino i).nlink = 0 ∧ k.ref i = 1 then do
        let (s, d) ← itrunc k.fs i (k.ino i)
        let d := { d with type := 0 }
        .ok { k with
          fs := iupdate s i d
          ino := Function.update k.ino i d
          valid := Function.update k.valid i false }
      else .ok k
    .ok { k with toCore := k.toCore.drop i }

/-- `iunlockput`. -/
def iunlockput (k : Kfs) (i : Nat) : Except Stop Kfs := do
  let k ← iunlock k i
  iput k i

/-! ## 2. The states after the calls -/

section
variable {k : Kfs} {i j : Nat}

theorem hold_ref (c : Core) (i j : Nat) :
    (c.hold i).ref j = c.ref j + if j = i then 1 else 0 := by
  unfold Core.hold
  dsimp only
  by_cases h : j = i
  · rw [h, Function.update_self, if_pos rfl]
  · rw [Function.update_of_ne h, if_neg h, Nat.add_zero]

theorem drop_hold {c : Core} (h : 0 < c.ref i ∨ 0 < c.free) : (c.hold i).drop i = c := by
  have href : (c.hold i).ref i = c.ref i + 1 := by rw [hold_ref, if_pos rfl]
  unfold Core.drop
  rw [href]
  unfold Core.hold
  cases c with
  | mk fs ref free lock =>
    dsimp only at h ⊢
    rw [Function.update_idem, Nat.add_sub_cancel, Function.update_eq_self]
    congr 1
    by_cases h0 : ref i = 0
    · rw [if_pos (by omega), if_pos h0]
      omega
    · rw [if_neg (by omega), if_neg h0]

theorem setLock_setLock (c : Core) (i : Nat) (b : Bool) :
    (c.setLock i b).setLock i (c.lock i) = c := by
  unfold Core.setLock
  cases c
  simp

/-- The state after `iget`. -/
def Kfs.got (k : Kfs) (i : Nat) : Kfs :=
  { k with
    toCore := k.toCore.hold i
    valid := if k.ref i = 0 then Function.update k.valid i false else k.valid }

/-- There is an entry for the inode. -/
def Core.Spare (c : Core) (i : Nat) : Prop := 0 < c.ref i ∨ 0 < c.free

theorem iget_ok (h : k.Spare i) : iget k i = .ok (k.got i) := by
  unfold iget Kfs.got
  by_cases h0 : 0 < k.ref i
  · rw [if_pos h0, if_neg (by omega)]
  · have hf : k.free ≠ 0 := Nat.ne_of_gt (h.resolve_left h0)
    rw [if_neg h0, if_neg hf, if_pos (by omega)]

theorem iget_full (h : ¬k.Spare i) : iget k i = .error .panic := by
  obtain ⟨h0, hf⟩ := not_or.mp h
  unfold iget
  rw [if_neg h0, if_pos (by omega)]

/-- The state after `ilock`. -/
def Kfs.locked (k : Kfs) (i : Nat) : Kfs where
  toCore := k.toCore.setLock i true
  valid := Function.update k.valid i true
  ino := if k.valid i then k.ino else Function.update k.ino i (k.fs.din i)

theorem ilock_eq (href : 0 < k.ref i) (hlock : k.lock i = false)
    (ht : (k.fs.din i).type ≠ 0) : ilock k i = .ok (k.locked i) := by
  unfold ilock Kfs.locked
  rw [if_neg (by omega), if_neg (by rw [hlock]; decide)]
  dsimp only
  by_cases hv : k.valid i = true
  · rw [if_pos hv, if_pos hv, ← hv, Function.update_eq_self]
  · rw [if_neg hv, if_neg hv]
    exact if_neg ht

theorem iunlock_eq (href : 0 < k.ref i) (hlock : k.lock i = true) :
    iunlock k i = .ok { k with toCore := k.toCore.setLock i false } := by
  refine if_neg fun h => ?_
  rw [hlock] at h
  rcases h with h | h
  · cases h
  · omega

/-- `iput` of a reference that is not the last one of an inode without links. -/
theorem iput_eq (hlock : k.lock i = false)
    (h : ¬(k.valid i = true ∧ (k.ino i).nlink = 0 ∧ k.ref i = 1)) :
    iput k i = .ok { k with toCore := k.toCore.drop i } := by
  unfold iput
  rw [if_neg (by rw [hlock]; decide), if_neg h]
  rfl

theorem iput_locked (h : k.lock i = true) : iput k i = .error .deadlock := if_pos h

/-! ## 3. The copies -/

/-- **The copies in use are what is on the disk.** -/
def Sync (k : Kfs) : Prop := ∀ i, 0 < k.ref i → k.valid i = true → k.ino i = k.fs.din i

theorem Sync.got (h : Sync k) (i : Nat) : Sync (k.got i) := by
  intro j href hv
  have hr : (k.got i).ref j = k.ref j + if j = i then 1 else 0 := hold_ref ..
  unfold Kfs.got at hv
  dsimp only at hv
  by_cases h0 : k.ref i = 0
  · rw [if_pos h0] at hv
    by_cases hj : j = i
    · rw [hj, Function.update_self] at hv
      cases hv
    · rw [Function.update_of_ne hj] at hv
      rw [if_neg hj] at hr
      exact h j (by omega) hv
  · rw [if_neg h0] at hv
    refine h j ?_ hv
    by_cases hj : j = i
    · rw [hj]
      omega
    · rw [if_neg hj] at hr
      omega

theorem Sync.locked (h : Sync k) (i : Nat) : Sync (k.locked i) := by
  intro j href hv
  change 0 < k.ref j at href
  change (if k.valid i then k.ino else Function.update k.ino i (k.fs.din i)) j = k.fs.din j
  unfold Kfs.locked at hv
  dsimp only at hv
  by_cases hvi : k.valid i = true
  · rw [if_pos hvi]
    exact h j href (by rw [← hv, ← hvi, Function.update_eq_self])
  · rw [if_neg hvi]
    by_cases hj : j = i
    · rw [hj, Function.update_self]
    · rw [Function.update_of_ne hj] at hv ⊢
      exact h j href hv

/-- The copy of a locked inode. -/
theorem Sync.ino_locked (h : Sync k) (href : 0 < k.ref i) : (k.locked i).ino i = k.fs.din i :=
  h.locked i i href (Function.update_self ..)

theorem Sync.setLock (h : Sync k) (i : Nat) (b : Bool) :
    Sync { k with toCore := k.toCore.setLock i b } := h

theorem Sync.drop (h : Sync k) (i : Nat) : Sync { k with toCore := k.toCore.drop i } := by
  intro j href hv
  refine h j ?_ hv
  change 0 < Function.update k.ref i (k.ref i - 1) j at href
  by_cases hj : j = i
  · rw [hj, Function.update_self] at href
    rw [hj]
    omega
  · rwa [Function.update_of_ne hj] at href

/-- A reference that `iget` took is given back. -/
theorem iput_got (hs : k.Spare i) (hlock : k.lock i = false) :
    ∃ k', iput (k.got i) i = .ok k' ∧ k'.toCore = k.toCore ∧ k'.ino = k.ino ∧
      (Sync k → Sync k') := by
  refine ⟨_, iput_eq (k := k.got i) hlock fun h => ?_, drop_hold hs, rfl, fun h =>
    (h.got i).drop i⟩
  obtain ⟨hv, -, hone⟩ := h
  have href : (k.got i).ref i = k.ref i + 1 := (hold_ref ..).trans (by rw [if_pos rfl])
  have h0 : k.ref i = 0 := by omega
  have hvalid : (k.got i).valid i = false := by
    unfold Kfs.got
    dsimp only
    rw [if_pos h0, Function.update_self]
  rw [hvalid] at hv
  cases hv

end

end Xv6Clock.Dir
