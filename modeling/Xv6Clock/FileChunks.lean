/-
  File:      Xv6Clock/FileChunks.lean
  Subject:   `filewrite` (file.c): writing in chunks is writing at once.

  `filewrite` cuts the data into chunks that fit a transaction of the log, and calls `writei` for
  each. A chunk may end in the middle of a block; the next call finds the block in place and writes
  on behind it. So two calls of `writei`, one behind the other, leave the disk that one call for all
  the bytes leaves (`writei_append`), and by induction so does the loop (`filewrite_chunks`).
-/
import Xv6Clock.FileArray
import Xv6Clock.Log

namespace Xv6Clock.FileData

open Mkfs (Dinode Superblock Block bsize ndirect nindirect maxfile blocks)
open Inode (slot blockOf slot_block Image NoHoles)
open Lib (Bytes splice)

/-! ## 1. The function -/

/-- `struct file`, of an inode. -/
structure File where
  writable : Bool
  ip : Nat
  off : Nat

/-- The `max` of `filewrite`: the bytes of one chunk. -/
def chunk : Nat := (Log.maxOpBlocks - 1 - 1 - 2) / 2 * 512

section
variable (sb : Superblock)

/-- The loop of `filewrite`, with the inode in memory and the offset; a round writes a byte at
    least. `none` where `balloc` panics, or `filewrite` itself ("short filewrite"). -/
def filewriteLoop : Nat → Fs → Dinode → File → Bytes → Nat → Nat →
    Option (Nat × Fs × Dinode × File)
  | 0, s, d, f, _, i, _ => some (i, s, d, f)
  | fuel + 1, s, d, f, src, i, n =>
    if i < n then do
      let n1 := if n - i > chunk then chunk else n - i
      let (r, s, d) ← writei sb s f.ip d (fun j => src (i + j)) f.off n1
      let f := if r > 0 then { f with off := (f.off + r.toNat) % 2 ^ 32 } else f
      if r < 0 then some (i, s, d, f)
      else if r ≠ n1 then none
      else filewriteLoop fuel s d f src (i + r.toNat) n
    else some (i, s, d, f)

/-- `filewrite` to a file that is not a pipe. `ilock` gives the inode as it is on the disk. -/
def filewrite (s : Fs) (f : File) (src : Bytes) (n : Nat) : Option (Int × Fs × File) :=
  if !f.writable then some (-1, s, f) else do
  let (i, s, _, f) ← filewriteLoop sb n s (s.din f.ip) f src 0 n
  some (if i = n then n else -1, s, f)

end

/-! ## 2. `bmap`, when it returns -/

variable {b fuel off n m a k : Nat} {src : Bytes} {r : Int}

section
variable {sb : Superblock} {i : Nat} {s s' s1 s2 : Fs} {d d' d1 d2 : Dinode}

theorem balloc_free {x : Nat × Fs} (h : balloc sb s = some x) : 0 < s.free sb := by
  unfold balloc at h
  split at h
  · rename_i b hf
    have hb := List.mem_range.mp (List.mem_of_find?_eq_some hf)
    have hbit : s.bit b = false := by simpa using List.find?_some hf
    have : (s.take b).free sb + 1 = s.free sb := free_take hb hbit
    omega
  · cases h

/-- A call of `bmap` that returned had the room it needed. -/
theorem bmap_had_room {bn : Nat} {x : Nat × Fs × Dinode} (h : (s.with i d).Sound sb)
    (ht : d.type ≠ 0) (h0 : blockOf s.blk d bn = 0) (hx : bmap sb s d bn = some x) :
    bn < maxfile ∧ 1 + (if ndirect ≤ bn then noIndirect d else 0) ≤ s.free sb := by
  have hmax : maxfile = ndirect + nindirect := rfl
  unfold bmap at hx
  by_cases hdir : bn < ndirect
  · rw [if_pos hdir] at hx
    rw [Inode.blockOf_direct hdir] at h0
    rw [if_pos h0] at hx
    obtain ⟨y, hy, -⟩ := Option.bind_eq_some_iff.mp hx
    have := balloc_free hy
    rw [if_neg (by omega)]
    omega
  · rw [if_neg hdir] at hx
    split at hx
    · rename_i hj
      obtain ⟨⟨ib, s1, d1⟩, hib, hx⟩ := Option.bind_eq_some_iff.mp hx
      dsimp only at hx
      have hroom : noIndirect d ≤ s.free sb := by
        unfold noIndirect
        split
        · rename_i hz
          unfold indirectBlock at hib
          rw [if_pos hz] at hib
          obtain ⟨y, hy, -⟩ := Option.bind_eq_some_iff.mp hib
          exact balloc_free hy
        · exact Nat.zero_le _
      obtain ⟨ib', s1', d1', hib', hg, hsame, hd1, hne, hfree⟩ := indirectBlock_spec h ht hroom
      rw [hib'] at hib
      cases hib
      have hlt : bn < maxfile := by omega
      have hword : Lib.words (s1.sec ib) (bn - ndirect) = 0 := by
        have e := hsame bn hlt
        rw [slot_block hlt, slot_block hlt, h0] at e
        unfold blockOf at e
        rw [if_neg hdir, hd1, if_neg hne] at e
        exact e
      rw [if_pos hword] at hx
      obtain ⟨y, hy, -⟩ := Option.bind_eq_some_iff.mp hx
      have := balloc_free hy
      rw [if_pos (by omega)]
      omega
    · cases hx

/-- **`bmap`, when it returns**: the index has the block, and had it if nothing changed. -/
theorem bmap_ok {bn : Nat} (h : (s.with i d).Sound sb) (ht : d.type ≠ 0) (hsz : sb.size ≤ 2 ^ 32)
    (hbn : bn < maxfile) (hx : bmap sb s d bn = some (b, s', d')) :
    Grown sb i s d s' d' ∧ b ≠ 0 ∧ blockOf s'.blk d' bn = b ∧
      (blockOf s.blk d bn ≠ 0 → s' = s ∧ d' = d) := by
  by_cases h0 : blockOf s.blk d bn = 0
  · obtain ⟨b', s1, d1, hmap, hg, hb, hslot, -⟩ :=
      bmap_absent h ht hsz hbn h0 (bmap_had_room h ht h0 hx).2
    rw [hmap] at hx
    cases hx
    rw [slot_block hbn] at hslot
    exact ⟨hg, hb, hslot, fun hne => absurd h0 hne⟩
  · rw [bmap_present hbn h0] at hx
    cases hx
    exact ⟨Grown.refl h, h0, rfl, fun _ => ⟨rfl, rfl⟩⟩

/-! ## 3. The loop of `writei`, cut in two -/

/-- The rounds left do not matter, when they are enough. -/
theorem writeiLoop_fuel : ∀ {fuel' n off : Nat} {s : Fs} {d : Dinode} {src : Bytes},
    n ≤ fuel → n ≤ fuel' →
    writeiLoop sb fuel s d off n src = writeiLoop sb fuel' s d off n src := by
  induction fuel with
  | zero =>
    intro fuel' n off s d src h h'
    obtain rfl : n = 0 := Nat.le_zero.mp h
    cases fuel' <;> rfl
  | succ fuel ih =>
    intro fuel' n off s d src h h'
    cases n with
    | zero => cases fuel' <;> rfl
    | succ n =>
      obtain ⟨fuel', rfl⟩ : ∃ k, fuel' = k + 1 := ⟨fuel' - 1, by omega⟩
      have hpos := round_pos off n
      unfold writeiLoop
      congr 1
      funext x
      exact ih (by omega) (by omega)

/-- One round of the loop. -/
theorem writeiLoop_round (hn : 0 < n) (hfuel : n ≤ fuel) :
    writeiLoop sb fuel s d off n src = (bmap sb s d (off / bsize)).bind fun x =>
      writeiLoop sb (n - min n (bsize - off % bsize))
        (x.2.1.setSec x.1 (splice (x.2.1.sec x.1) (off % bsize)
          ((List.range (min n (bsize - off % bsize))).map src))) x.2.2
        (off + min n (bsize - off % bsize)) (n - min n (bsize - off % bsize))
        (fun j => src (min n (bsize - off % bsize) + j)) := by
  obtain ⟨n, rfl⟩ : ∃ k, n = k + 1 := ⟨n - 1, by omega⟩
  obtain ⟨fuel, rfl⟩ : ∃ k, fuel = k + 1 := ⟨fuel - 1, by omega⟩
  have hpos := round_pos off n
  conv_lhs => unfold writeiLoop
  rcases bmap sb s d (off / bsize) with _ | ⟨b, s1, d1⟩
  · rfl
  · exact writeiLoop_fuel (by omega) (Nat.le_refl _)

/-- **The loop of `writei`, when it returns.** -/
theorem writeiLoop_ok (hsz : sb.size ≤ 2 ^ 32) (src : Bytes) (h : (s.with i d).Sound sb)
    (ht : d.type ≠ 0) (hmax : off + n ≤ maxfile * bsize)
    (hx : writeiLoop sb n s d off n src = some (s', d')) : Written sb i s d s' d' off n src := by
  induction n using Nat.strongRecOn generalizing off s d src with
  | ind n ih =>
    rcases Nat.eq_zero_or_pos n with rfl | hn
    · cases hx
      exact Written.nothing h off src
    rw [writeiLoop_round hn (Nat.le_refl n)] at hx
    obtain ⟨⟨b, s1, d1⟩, hmap, hrest⟩ := Option.bind_eq_some_iff.mp hx
    dsimp only at hrest
    have hidx := holds_index (c := off) (by omega) hmax
    obtain ⟨hg, hb, rfl, hsame⟩ := bmap_ok h ht hsz hidx hmap
    have hpos : 0 < min n (bsize - off % bsize) := by
      have := round_pos off (n - 1)
      rwa [Nat.sub_add_cancel hn] at this
    have hround := Written.round src ht hg hidx (round_fits off n) hpos hb fun hne => (hsame hne).2
    have hle : min n (bsize - off % bsize) ≤ n := Nat.min_le_left _ _
    generalize hk : min n (bsize - off % bsize) = k at *
    have hw := ih _ (by omega) (fun j => src (k + j)) hround.sound (by rw [hround.type]; exact ht)
      (by omega) hrest
    have htr := hround.trans (by omega) hw
    rwa [Nat.add_sub_cancel' hle] at htr

/-- Two pieces of data, one behind the other. -/
theorem splice_append (x : Bytes) (o : Nat) (u v : List Byte) :
    splice (splice x o u) (o + u.length) v = splice x o (u ++ v) := by
  funext j
  unfold splice
  rw [List.length_append]
  by_cases h1 : o + u.length ≤ j ∧ j < o + u.length + v.length
  · rw [if_pos h1, if_pos (by omega), List.getD_append_right _ _ _ _ (by omega)]
    congr 1
    omega
  · rw [if_neg h1]
    by_cases h2 : o ≤ j ∧ j < o + u.length
    · rw [if_pos h2, if_pos (by omega), List.getD_append _ _ _ _ (by omega)]
    · rw [if_neg h2, if_neg (by omega)]

theorem range_map_append (src : Bytes) (a b : Nat) :
    (List.range a).map src ++ (List.range b).map (fun j => src (a + j)) =
      (List.range (a + b)).map src := by
  rw [List.range_add, List.map_append, List.map_map]
  rfl

theorem setSec_twice (s : Fs) (b : Nat) (x y : Block) :
    (s.setSec b x).setSec b y = s.setSec b y := by
  unfold FsOf.setSec
  simp

@[simp] theorem setSec_sec {L : Type} [Journal L] (s : FsOf L) (b : Nat) (x : Block) :
    (s.setSec b x).sec b = x := Function.update_self ..

theorem setSec_other {L : Type} [Journal L] (s : FsOf L) (h : a ≠ b) (x : Block) :
    (s.setSec b x).sec a = s.sec a := Function.update_of_ne h ..

theorem same_block_add (h : off % bsize + a < bsize) :
    (off + a) / bsize = off / bsize ∧ (off + a) % bsize = off % bsize + a := by
  change off % 512 + a < 512 at h
  change (off + a) / 512 = off / 512 ∧ (off + a) % 512 = off % 512 + a
  omega

/-- Writing into a block of the file moves no block. -/
theorem blockOf_setSec (h : (s.with i d).Sound sb) (ht : d.type ≠ 0) (hk : k < maxfile)
    (h0 : blockOf s.blk d k ≠ 0) (x : Block) :
    blockOf (s.setSec (blockOf s.blk d k) x).blk d k = blockOf s.blk d k := by
  have hti : ((s.with i d).din i).type ≠ 0 := by rw [with_self]; exact ht
  rw [← slot_block hk] at h0
  have hslot := slot_setSec h ht hk h0 x hti k
  rwa [with_self, slot_block hk, slot_block hk] at hslot

/-- **Writing on behind**: the loop for `a` bytes and the loop for the next `b` bytes are the loop
    for all of them. -/
theorem writeiLoop_append (hsz : sb.size ≤ 2 ^ 32) (src : Bytes) (h : (s.with i d).Sound sb)
    (ht : d.type ≠ 0) (hmax : off + (a + b) ≤ maxfile * bsize)
    (hx : writeiLoop sb a s d off a src = some (s1, d1)) :
    writeiLoop sb (a + b) s d off (a + b) src =
      writeiLoop sb b s1 d1 (off + a) b fun j => src (a + j) := by
  induction a using Nat.strongRecOn generalizing off s d src with
  | ind a ih =>
    rcases Nat.eq_zero_or_pos a with rfl | ha
    · cases hx
      simp only [Nat.zero_add, Nat.add_zero]
    rcases Nat.eq_zero_or_pos b with rfl | hb
    · rw [Nat.add_zero, hx]
      rfl
    rw [writeiLoop_round ha (Nat.le_refl a)] at hx
    obtain ⟨⟨c, s2, d2⟩, hmap, hrest⟩ := Option.bind_eq_some_iff.mp hx
    dsimp only at hrest
    have hidx := holds_index (c := off) (by omega) hmax
    obtain ⟨hg, hc, hcb, hsame⟩ := bmap_ok h ht hsz hidx hmap
    rw [writeiLoop_round (by omega) (Nat.le_refl _), hmap, Option.bind_some]
    have hbs : off % bsize < bsize := Nat.mod_lt _ (by decide)
    by_cases hcut : bsize - off % bsize ≤ a
    · -- the first round is the same
      have e1 : min a (bsize - off % bsize) = bsize - off % bsize := Nat.min_eq_right hcut
      have e2 : min (a + b) (bsize - off % bsize) = bsize - off % bsize :=
        Nat.min_eq_right (by omega)
      rw [e1] at hrest
      rw [e2]
      have hround := Written.round src ht hg hidx (m := bsize - off % bsize) (by omega) (by omega)
        (by rw [hcb]; exact hc) fun hne => (hsame hne).2
      rw [hcb] at hround
      generalize hk : bsize - off % bsize = k at *
      have hnext := ih _ (by omega) (fun j => src (k + j)) hround.sound
        (by rw [hround.type]; exact ht) (by omega) hrest
      rw [show a + b - k = a - k + b by omega, hnext]
      congr 1
      · omega
      · funext j
        congr 1
        omega
    · -- the block is written in two parts
      have e1 : min a (bsize - off % bsize) = a := Nat.min_eq_left (by omega)
      rw [e1, Nat.sub_self] at hrest
      cases hrest
      have hdiv : (off + a) / bsize = off / bsize ∧ (off + a) % bsize = off % bsize + a :=
        same_block_add (by omega)
      have hblk := blockOf_setSec hg.sound (by rw [hg.type]; exact ht) hidx
        (by rw [hcb]; exact hc) (splice (s2.sec c) (off % bsize) ((List.range a).map src))
      rw [hcb] at hblk
      have hagain : bmap sb _ _ _ = _ := bmap_present hidx (by rw [hblk]; exact hc)
      rw [hblk, ← hdiv.1] at hagain
      rw [writeiLoop_round hb (Nat.le_refl b), hagain, Option.bind_some, hdiv.2, setSec_sec,
        setSec_twice]
      have hmin : min (a + b) (bsize - off % bsize) = a + min b (bsize - (off % bsize + a)) := by
        omega
      generalize min b (bsize - (off % bsize + a)) = k at hmin ⊢
      have hsp := splice_append (s2.sec c) (off % bsize) ((List.range a).map src)
        ((List.range k).map fun j => src (a + j))
      rw [List.length_map, List.length_range, range_map_append] at hsp
      rw [hmin, hsp, Nat.add_sub_add_left, Nat.add_assoc]
      congr 1
      funext j
      rw [Nat.add_assoc]

/-- A loop that returns has returned for its first bytes. -/
theorem writeiLoop_prefix {x : Fs × Dinode}
    (hx : writeiLoop sb (a + b) s d off (a + b) src = some x) :
    ∃ y, writeiLoop sb a s d off a src = some y := by
  induction a using Nat.strongRecOn generalizing off s d src with
  | ind a ih =>
    rcases Nat.eq_zero_or_pos a with rfl | ha
    · exact ⟨(s, d), rfl⟩
    rw [writeiLoop_round (by omega) (Nat.le_refl _)] at hx
    obtain ⟨⟨c, s2, d2⟩, hmap, hrest⟩ := Option.bind_eq_some_iff.mp hx
    dsimp only at hrest
    rw [writeiLoop_round ha (Nat.le_refl a), hmap, Option.bind_some]
    have hbs : off % bsize < bsize := Nat.mod_lt _ (by decide)
    by_cases hcut : bsize - off % bsize ≤ a
    · rw [Nat.min_eq_right (show bsize - off % bsize ≤ a + b by omega)] at hrest
      rw [Nat.min_eq_right hcut]
      have hk0 : 0 < bsize - off % bsize := by omega
      generalize bsize - off % bsize = k at *
      rw [show a + b - k = a - k + b by omega] at hrest
      exact ih _ (by omega) hrest
    · rw [Nat.min_eq_left (show a ≤ bsize - off % bsize by omega), Nat.sub_self]
      exact ⟨_, rfl⟩

/-! ## 4. The inode on the disk and its size are not read -/

theorem balloc_iupdate (s : Fs) (x : Dinode) :
    balloc sb (iupdate s i x) = (balloc sb s).map fun y => (y.1, iupdate y.2 i x) := by
  unfold balloc
  have hbit : (fun b => !(iupdate s i x).bit b) = fun b => !s.bit b := rfl
  rw [hbit]
  cases (List.range sb.size).find? fun b => !s.bit b <;> rfl

/-- The inode with another size. -/
def Dinode.resize (d : Dinode) (z : Nat) : Dinode := { d with size := z }

@[simp] theorem Dinode.resize_addrs (d : Dinode) (z : Nat) :
    (Dinode.resize d z).addrs = d.addrs := rfl

@[simp] theorem iupdate_sec (s : Fs) (x : Dinode) : (iupdate s i x).sec = s.sec := rfl

theorem indirectBlock_iupdate (s : Fs) (d x : Dinode) (z : Nat) :
    indirectBlock sb (iupdate s i x) (Dinode.resize d z) =
      (indirectBlock sb s d).map fun y => (y.1, iupdate y.2.1 i x, Dinode.resize y.2.2 z) := by
  unfold indirectBlock
  rw [Dinode.resize_addrs, balloc_iupdate]
  split
  · cases balloc sb s <;> rfl
  · rfl

theorem bmap_iupdate (s : Fs) (d x : Dinode) (z bn : Nat) :
    bmap sb (iupdate s i x) (Dinode.resize d z) bn =
      (bmap sb s d bn).map fun y => (y.1, iupdate y.2.1 i x, Dinode.resize y.2.2 z) := by
  unfold bmap
  rw [Dinode.resize_addrs, balloc_iupdate, indirectBlock_iupdate]
  split
  · split
    · cases balloc sb s <;> rfl
    · rfl
  · split
    · rcases indirectBlock sb s d with _ | ⟨ib, s1, d1⟩
      · rfl
      · dsimp only [Option.map_some, Option.bind_eq_bind, Option.bind_some]
        rw [iupdate_sec, balloc_iupdate]
        split
        · cases balloc sb s1 <;> rfl
        · rfl
    · rfl

theorem writeiLoop_iupdate (x : Dinode) (z : Nat) :
    ∀ {s : Fs} {d : Dinode} {off n : Nat} {src : Bytes},
    writeiLoop sb fuel (iupdate s i x) (Dinode.resize d z) off n src =
      (writeiLoop sb fuel s d off n src).map fun y => (iupdate y.1 i x, Dinode.resize y.2 z) := by
  induction fuel with
  | zero =>
    intro s d off n src
    cases n <;> rfl
  | succ fuel ih =>
    intro s d off n src
    cases n with
    | zero => rfl
    | succ n =>
      unfold writeiLoop
      rw [bmap_iupdate]
      rcases bmap sb s d (off / bsize) with _ | ⟨b, s1, d1⟩
      · rfl
      · exact ih (s := s1.setSec b _) (d := d1)

/-! ## 5. `writei`, cut in two -/

/-- The end of `writei`: the size, if it grew. -/
def finish (s : Fs) (i : Nat) (d : Dinode) (m : Nat) : Fs × Dinode :=
  if d.size < m then (iupdate s i (Dinode.resize d m), Dinode.resize d m) else (s, d)

theorem writei_eq (src : Bytes) (hoff : off ≤ d.size)
    (hmax : off + n ≤ maxfile * bsize) : writei sb s i d src off n =
      (writeiLoop sb n s d off n src).map fun y => (↑n, finish y.1 i y.2 (off + n)) := by
  have hwrap : off + n < 2 ^ 32 := by
    change off + n ≤ 140 * 512 at hmax
    omega
  unfold writei finish
  rw [Nat.mod_eq_of_lt hwrap, if_neg (by omega), if_neg (by omega)]
  cases n with
  | zero =>
    have hloop : writeiLoop sb 0 s d off 0 src = some (s, d) := rfl
    rw [hloop]
    dsimp only [Option.map_some, Option.bind_eq_bind, Option.bind_some]
    rw [if_neg fun hc => absurd hc.1 (Nat.lt_irrefl 0), if_neg (by omega)]
  | succ n =>
    rcases writeiLoop sb (n + 1) s d off (n + 1) src with _ | ⟨s1, d1⟩
    · rfl
    · dsimp only [Option.map_some, Option.bind_eq_bind, Option.bind_some]
      by_cases hlt : d1.size < off + (n + 1)
      · rw [if_pos ⟨Nat.succ_pos n, hlt⟩, if_pos hlt]
        rfl
      · rw [if_neg fun hc => hlt hc.2, if_neg hlt]

/-- A call that was not refused. -/
theorem writei_accepted (hoff : off < 2 ^ 32) (hn : n < 2 ^ 32)
    (h : writei sb s i d src off n = some (r, s', d')) (hr : 0 ≤ r) :
    off ≤ d.size ∧ off + n ≤ maxfile * bsize := by
  by_cases href : Refused d off n
  · rw [writei_refused src hoff hn href] at h
    cases h
    omega
  · unfold Refused at href
    omega

/-- What was written lies below the size. -/
theorem writei_size (hoff : off ≤ d.size) (hmax : off + n ≤ maxfile * bsize)
    (h : writei sb s i d src off n = some (r, s', d')) : r = n ∧ off + n ≤ d'.size := by
  rw [writei_eq src hoff hmax] at h
  obtain ⟨⟨t, e⟩, -, he⟩ := Option.map_eq_some_iff.mp h
  unfold finish at he
  dsimp only at he
  split at he
  · cases he
    exact ⟨rfl, Nat.le_refl _⟩
  · rename_i hlt
    cases he
    exact ⟨rfl, by omega⟩

/-- **Two calls of `writei`, one behind the other, are one.** -/
theorem writei_append (hsz : sb.size ≤ 2 ^ 32) (h : (s.with i d).Sound sb) (ht : d.type ≠ 0)
    (src : Bytes) (hoff : off ≤ d.size) (hmax : off + (a + b) ≤ maxfile * bsize)
    (h1 : writei sb s i d src off a = some (↑a, s1, d1)) :
    writei sb s i d src off (a + b) =
      (writei sb s1 i d1 (fun j => src (a + j)) (off + a) b).map fun y => (↑(a + b), y.2) := by
  have hmax1 : off + a ≤ maxfile * bsize := by omega
  rw [writei_eq src hoff hmax1] at h1
  rw [writei_eq src hoff hmax]
  obtain ⟨⟨t1, e1⟩, hl1, he⟩ := Option.map_eq_some_iff.mp h1
  have hw1 := writeiLoop_ok hsz src h ht hmax1 hl1
  have hsize1 := hw1.size
  rw [writeiLoop_append hsz src h ht hmax hl1]
  have hfin : finish t1 i e1 (off + a) = (s1, d1) := by
    simpa using he
  unfold finish at hfin
  split at hfin
  · rename_i hgrow
    cases hfin
    rw [writei_eq _ (show off + a ≤ (Dinode.resize e1 (off + a)).size from Nat.le_refl _)
      (by omega), writeiLoop_iupdate]
    rcases hl2 : writeiLoop sb b t1 e1 (off + a) b (fun j => src (a + j)) with _ | ⟨t2, e2⟩
    · rfl
    have hw2 := writeiLoop_ok hsz _ hw1.sound (by rw [hw1.type]; exact ht)
      (by omega) hl2
    have hsize2 := hw2.size
    dsimp only [Option.map_some]
    unfold finish
    rw [if_pos (show e2.size < off + (a + b) by omega)]
    rcases Nat.eq_zero_or_pos b with rfl | hb
    · cases hl2
      rw [if_neg (show ¬ (Dinode.resize e1 (off + a)).size < off + a + 0 from Nat.lt_irrefl _)]
      rfl
    · rw [if_pos (show (Dinode.resize e2 (off + a)).size < off + a + b by
        unfold Dinode.resize; dsimp only; omega), ← Nat.add_assoc]
      unfold iupdate
      rw [Function.update_idem]
      rfl
  · rename_i hgrow
    cases hfin
    rw [writei_eq _ (by omega) (by omega)]
    rcases writeiLoop sb b s1 d1 (off + a) b (fun j => src (a + j)) with _ | ⟨t2, e2⟩
    · rfl
    · dsimp only [Option.map_some]
      rw [Nat.add_assoc]

/-- The inode in memory is the one on the disk then. -/
theorem writei_din (hsz : sb.size ≤ 2 ^ 32) (h : s.image.Sound sb) (ht : (s.din i).type ≠ 0)
    (src : Bytes) (hoff : off ≤ (s.din i).size) (hmax : off + n ≤ maxfile * bsize)
    (hx : writei sb s i (s.din i) src off n = some (↑n, s', d')) : d' = s'.din i := by
  have hholes : NoHoles s.blk (s.din i) := h.noHoles i ht
  rw [← with_din s i] at h
  rw [writei_eq src hoff hmax] at hx
  obtain ⟨⟨t, e⟩, hl, he⟩ := Option.map_eq_some_iff.mp hx
  have hw := writeiLoop_ok hsz src h ht hmax hl
  have hfin : finish t i e (off + n) = (s', d') := by simpa using he
  unfold finish at hfin
  split at hfin
  · cases hfin
    have hself : (iupdate t i (Dinode.resize e (off + n))).din i = Dinode.resize e (off + n) :=
      Function.update_self ..
    exact hself.symm
  · rename_i hsize
    cases hfin
    rw [hw.size] at hsize
    rw [hw.din]
    exact hw.same fun c _ hc => (noHoles_byte hholes (by omega)).2

theorem noHoles_size (h : NoHoles s.blk d) : d.size ≤ maxfile * bsize := by
  by_contra hlt
  have hblocks : maxfile < blocks d.size := by
    change ¬ d.size ≤ 140 * 512 at hlt
    change 140 < (d.size + (512 - 1)) / 512
    omega
  exact Nat.lt_irrefl _ (h maxfile hblocks).1

/-- A refused call changes nothing. -/
theorem writei_negative (h : writei sb s i d src off n = some (r, s', d')) (hr : r < 0) :
    s' = s ∧ d' = d := by
  unfold writei at h
  split at h
  · cases h
    exact ⟨rfl, rfl⟩
  · split at h
    · cases h
      exact ⟨rfl, rfl⟩
    · obtain ⟨y, -, h⟩ := Option.bind_eq_some_iff.mp h
      dsimp only at h
      split at h
      · cases h
        omega
      · cases h
        omega

/-! ## 6. `filewrite` -/

theorem chunk_eq : chunk = 1536 := rfl

/-- The bytes so far are whole chunks, or all. -/
theorem chunk_whole {i n1 : Nat} (hi : i ≠ n) (h : chunk ∣ i ∨ i = n)
    (hn1 : n1 = chunk ∨ i + n1 = n) : chunk ∣ i + n1 ∨ i + n1 = n := by
  rcases hn1 with he | he
  · rw [he]
    exact Or.inl (Nat.dvd_add (h.resolve_right hi) (Nat.dvd_refl chunk))
  · exact Or.inr he

/-- What `filewrite` has done when it has written `k` bytes. -/
structure Sent (sb : Superblock) (s : Fs) (f : File) (src : Bytes) (n k : Nat) (s' : Fs)
    (d' : Dinode) (f' : File) : Prop where
  le : k ≤ n
  call : writei sb s f.ip (s.din f.ip) src f.off k = some (↑k, s', d')
  file : f' = { f with off := f.off + k }
  whole : chunk ∣ k ∨ k = n

theorem next_chunk {i n1 : Nat} (hlt : i < n)
    (hn1 : (if n - i > chunk then chunk else n - i) = n1) :
    0 < n1 ∧ i + n1 ≤ n ∧ (n1 = chunk ∨ i + n1 = n) := by
  rw [chunk_eq] at hn1 ⊢
  split at hn1 <;> omega

/-- One round: the bytes up to the end of the next chunk. -/
theorem Sent.next {f : File} {i n1 : Nat}
    (hsent : Sent sb s f src n i s1 d1 { f with off := f.off + i })
    (hlt : i < n) (hn1 : (if n - i > chunk then chunk else n - i) = n1)
    (hmax : f.off + (i + n1) ≤ maxfile * bsize)
    (hcall : writei sb s f.ip (s.din f.ip) src f.off (i + n1) = some (↑(i + n1), s2, d2)) :
    Sent sb s f src n (i + n1) s2 d2 (if (n1 : Int) > 0 then
      { f with off := (f.off + i + (n1 : Int).toNat) % 2 ^ 32 }
      else { f with off := f.off + i }) := by
  have hmaxv : maxfile * bsize = 71680 := rfl
  obtain ⟨hpos, hle, hend⟩ := next_chunk hlt hn1
  refine ⟨hle, hcall, ?_, chunk_whole (by omega) hsent.whole hend⟩
  rw [if_pos (by omega), Int.toNat_natCast, Nat.mod_eq_of_lt (by omega), Nat.add_assoc]

/-- **The loop of `filewrite`**: after each round the bytes so far are written as by one call. -/
theorem filewriteLoop_sent (hsz : sb.size ≤ 2 ^ 32) (h : s.image.Sound sb) {f : File}
    (ht : (s.din f.ip).type ≠ 0) (hoff : f.off ≤ (s.din f.ip).size) (src : Bytes) (hn : n < 2 ^ 31)
    {s' : Fs} {d' : Dinode} {f' : File} :
    ∀ {s1 : Fs} {d1 : Dinode} {f1 : File} {i : Nat}, n ≤ i + fuel →
    Sent sb s f src n i s1 d1 f1 →
    filewriteLoop sb fuel s1 d1 f1 src i n = some (k, s', d', f') →
    Sent sb s f src n k s' d' f' := by
  have hholes : NoHoles s.blk (s.din f.ip) := h.noHoles f.ip ht
  have hsize := noHoles_size hholes
  have hs : (s.with f.ip (s.din f.ip)).Sound sb := by rw [with_din]; exact h
  induction fuel with
  | zero =>
    intro s1 d1 f1 i hi hsent hx
    cases hx
    exact hsent
  | succ fuel ih =>
    intro s1 d1 f1 i hi hsent hx
    unfold filewriteLoop at hx
    split at hx
    · rename_i hlt
      generalize hn1 : (if n - i > chunk then chunk else n - i) = n1 at hx
      dsimp only at hx
      obtain ⟨⟨r, s2, d2⟩, hcall, hrest⟩ := Option.bind_eq_some_iff.mp hx
      have hf1 := hsent.file
      subst hf1
      have hpos := next_chunk hlt hn1
      have hmaxv : maxfile * bsize = 71680 := rfl
      dsimp only at hrest hcall
      by_cases hneg : r < 0
      · obtain ⟨rfl, rfl⟩ := writei_negative hcall hneg
        rw [if_pos hneg, if_neg (by omega)] at hrest
        cases hrest
        exact hsent
      · rw [if_neg hneg] at hrest
        split at hrest
        · cases hrest
        · rename_i hr
          have hr' : r = n1 := by omega
          subst hr'
          have hi2 := hsent.le
          have hbound : f.off + i < 2 ^ 32 := by omega
          obtain ⟨-, hmax⟩ := writei_accepted hbound (by omega) hcall (by omega)
          have happ := writei_append hsz hs ht src (b := n1) hoff (by omega) hsent.call
          rw [hcall] at happ
          exact ih (by omega) (hsent.next hlt hn1 (by omega) happ) hrest
    · cases hx
      exact hsent

/-- The first bytes of a call that goes through go through. -/
theorem writei_first (src : Bytes) {x : Int × Fs × Dinode} (hk : k ≤ n) (hoff : off ≤ d.size)
    (hmax : off + n ≤ maxfile * bsize) (h : writei sb s i d src off n = some x) :
    ∃ s' d', writei sb s i d src off k = some (↑k, s', d') := by
  rw [writei_eq src hoff hmax] at h
  rw [writei_eq src hoff (by omega)]
  obtain ⟨y, hy, -⟩ := Option.map_eq_some_iff.mp h
  obtain ⟨b, rfl⟩ := Nat.exists_eq_add_of_le hk
  obtain ⟨z, hz⟩ := writeiLoop_prefix hy
  rw [hz]
  exact ⟨_, _, rfl⟩

/-- **While one call would go through, the loop goes on to the end.** -/
theorem filewriteLoop_total (hsz : sb.size ≤ 2 ^ 32) (h : s.image.Sound sb) {f : File}
    (ht : (s.din f.ip).type ≠ 0) (hoff : f.off ≤ (s.din f.ip).size) (src : Bytes)
    (hmax : f.off + n ≤ maxfile * bsize) {x : Int × Fs × Dinode}
    (hall : writei sb s f.ip (s.din f.ip) src f.off n = some x) :
    ∀ {s1 : Fs} {d1 : Dinode} {f1 : File} {i : Nat}, n ≤ i + fuel →
    Sent sb s f src n i s1 d1 f1 →
    ∃ s' d' f', filewriteLoop sb fuel s1 d1 f1 src i n = some (n, s', d', f') := by
  have hs : (s.with f.ip (s.din f.ip)).Sound sb := by rw [with_din]; exact h
  have hmaxv : maxfile * bsize = 71680 := rfl
  induction fuel with
  | zero =>
    intro s1 d1 f1 i hi hsent
    have := hsent.le
    obtain rfl : i = n := by omega
    exact ⟨s1, d1, f1, rfl⟩
  | succ fuel ih =>
    intro s1 d1 f1 i hi hsent
    unfold filewriteLoop
    split
    · rename_i hlt
      generalize hn1 : (if n - i > chunk then chunk else n - i) = n1
      have hf1 := hsent.file
      subst hf1
      have hpos := next_chunk hlt hn1
      -- one call for the bytes up to the end of this chunk is the call of this round
      obtain ⟨s2, d2, hfirst⟩ := writei_first src hpos.2.1 hoff hmax hall
      have happ := writei_append hsz hs ht src (b := n1) hoff (by omega) hsent.call
      rw [hfirst] at happ
      obtain ⟨⟨r, y⟩, hcall, hy⟩ := Option.map_eq_some_iff.mp happ.symm
      have hsize := (writei_size hoff (by omega) hsent.call).2
      have hr := (writei_size hsize (by omega) hcall).1
      cases hy
      subst hr
      dsimp only
      rw [hcall]
      dsimp only [Option.bind_eq_bind, Option.bind_some]
      rw [if_neg (by omega), if_neg (by simp)]
      exact ih (by omega) (hsent.next hlt hn1 (by omega) hfirst)
    · have := hsent.le
      obtain rfl : i = n := by omega
      exact ⟨s1, d1, f1, rfl⟩

theorem Sent.start (f : File) (src : Bytes) (n : Nat) (hoff : f.off ≤ (s.din f.ip).size)
    (hmax : f.off ≤ maxfile * bsize) : Sent sb s f src n 0 s (s.din f.ip) f where
  le := Nat.zero_le n
  call := by
    rw [writei_eq src hoff (by omega)]
    have hloop : writeiLoop sb 0 s (s.din f.ip) f.off 0 src = some (s, s.din f.ip) := rfl
    rw [hloop]
    unfold finish
    dsimp only [Option.map_some]
    rw [if_neg (by omega)]
  file := rfl
  whole := Or.inl (Nat.dvd_zero chunk)

/-- **Chunked writes equal one write.** `filewrite` returns `n` and leaves the disk and the offset
    that one `writei` of all the bytes leaves, or -1 and those of one `writei` of the first so many
    whole chunks. -/
theorem filewrite_chunks (hsz : sb.size ≤ 2 ^ 32) (h : s.image.Sound sb) (f : File)
    (ht : (s.din f.ip).type = tFile) (hoff : f.off ≤ (s.din f.ip).size) (src : Bytes) {n : Nat}
    (hn : n < 2 ^ 31) {ret : Int} {f' : File}
    (hcall : filewrite sb s f src n = some (ret, s', f')) :
    (ret = n ∧ writei sb s f.ip (s.din f.ip) src f.off n = some (↑n, s', s'.din f.ip) ∧
      f' = { f with off := f.off + n }) ∨
    (ret = -1 ∧ ∃ k, chunk ∣ k ∧ k ≤ n ∧
      writei sb s f.ip (s.din f.ip) src f.off k = some (↑k, s', s'.din f.ip) ∧
      f' = { f with off := f.off + k }) := by
  have ht0 : (s.din f.ip).type ≠ 0 := by rw [ht]; decide
  have hholes : NoHoles s.blk (s.din f.ip) := h.noHoles f.ip ht0
  have hsize := noHoles_size hholes
  have hmaxv : maxfile * bsize = 71680 := rfl
  have hstart : Sent sb s f src n 0 s (s.din f.ip) f := Sent.start f src n hoff (by omega)
  unfold filewrite at hcall
  split at hcall
  · cases hcall
    exact Or.inr ⟨rfl, 0, Nat.dvd_zero chunk, Nat.zero_le n, hstart.call, rfl⟩
  · obtain ⟨⟨k, s1, d1, f1⟩, hloop, hret⟩ := Option.bind_eq_some_iff.mp hcall
    cases hret
    have hsent := filewriteLoop_sent hsz h ht0 hoff src hn (by omega) hstart hloop
    have hmax := (writei_accepted (by omega) (by have := hsent.le; omega) hsent.call (by omega)).2
    have hdin := writei_din hsz h ht0 src hoff hmax hsent.call
    have hwrite := hsent.call
    rw [hdin] at hwrite
    by_cases hk : k = n
    · subst hk
      exact Or.inl ⟨if_pos rfl, hwrite, hsent.file⟩
    · exact Or.inr ⟨if_neg hk, k, hsent.whole.resolve_right hk, hsent.le, hwrite, hsent.file⟩

/-- **`filewrite` returns `n`** when the bytes fit into the file and the missing blocks are free. -/
theorem filewrite_returns (hsz : sb.size ≤ 2 ^ 32) (h : s.image.Sound sb) (f : File)
    (ht : (s.din f.ip).type ≠ 0) (hw : f.writable = true) (src : Bytes)
    (hok : ¬ Refused (s.din f.ip) f.off n)
    (hroom : need s (s.din f.ip) (blocks (f.off + n)) ≤ s.free sb) :
    ∃ s' f', filewrite sb s f src n = some (↑n, s', f') := by
  obtain ⟨s1, d1, -, hall⟩ := writei_written hsz src h ht hok hroom
  unfold Refused at hok
  have hstart : Sent sb s f src n 0 s (s.din f.ip) f := Sent.start f src n (by omega) (by omega)
  obtain ⟨s', d', f', hloop⟩ :=
    filewriteLoop_total hsz h ht (by omega) src (by omega) hall (show n ≤ 0 + n by omega) hstart
  refine ⟨s', f', ?_⟩
  unfold filewrite
  rw [hw, hloop]
  simp

theorem oneFile_free : 4 ≤ oneFile.free Mkfs.sb := by decide +kernel

/-- Two thousand bytes go to the empty file in two chunks. -/
theorem filewrite_chunks_oneFile : ∃ s' f',
    filewrite Mkfs.sb oneFile ⟨true, 1, 0⟩ (fun j => BitVec.ofNat 8 j) 2000 =
      some (2000, s', f') ∧
    writei Mkfs.sb oneFile 1 (oneFile.din 1) (fun j => BitVec.ofNat 8 j) 0 2000 =
      some (2000, s', s'.din 1) ∧ f' = ⟨true, 1, 2000⟩ := by
  have hneed : need oneFile (oneFile.din 1) (blocks (0 + 2000)) = 4 := by decide
  have hok : ¬Refused (oneFile.din 1) 0 2000 := by unfold Refused; decide
  obtain ⟨s', f', hcall⟩ := filewrite_returns (by decide) oneFile_sound ⟨true, 1, 0⟩ (by decide) rfl
    (fun j => BitVec.ofNat 8 j) hok (hneed ▸ oneFile_free)
  rcases filewrite_chunks (by decide) oneFile_sound ⟨true, 1, 0⟩ rfl (Nat.zero_le _)
    (fun j => BitVec.ofNat 8 j) (by decide) hcall with ⟨-, h1, h2⟩ | ⟨h1, -⟩
  · exact ⟨s', f', hcall, h1, h2⟩
  · exact absurd h1 (by decide)

end

end Xv6Clock.FileData
