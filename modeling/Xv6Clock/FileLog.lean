/-
  File:      Xv6Clock/FileLog.lean
  Subject:   The blocks that one `writei` (fs.c) gives to `log_write`, and the reservation of
             `filewrite` (file.c).

  The functions of FileData.lean over a disk that keeps the list of the blocks passed to
  `log_write`: the bitmap block and the new block in `balloc`, the indirect block in `bmap`,
  the data block in `writei`, the block of the inode in `iupdate`.
  * `Counted`: what a call may add, in data blocks, bitmap blocks and the indirect block;
  * `writei_fits`: a chunk of `filewrite` stays within MAXOPBLOCKS.
-/
import Xv6Clock.FileChunks

namespace Xv6Clock.FileData

open Mkfs (Dinode Superblock Block bsize ndirect nindirect maxfile blocks ipb setAddr_other)
open Inode (slot blockOf slot_block Image NoHoles nmeta bpb)
open Lib (Bytes words putLE splice)

/-! ## 1. The blocks -/

/-- `BBLOCK`. -/
def bblock (sb : Superblock) (b : Nat) : Nat := b / bpb + sb.bmapstart

/-- `IBLOCK`. -/
def iblock (sb : Superblock) (i : Nat) : Nat := i / ipb + sb.inodestart

/-- The number of the block that is logged. -/
def LogBlock.no (sb : Superblock) : LogBlock → Nat
  | .bitmap b => bblock sb b
  | .block b => b
  | .inode i => iblock sb i

instance : Journal (List LogBlock) := ⟨fun l x => l ++ [x]⟩

/-- The disk, with the blocks that were given to `log_write`. -/
abbrev LogFs := FsOf (List LogBlock)

/-- **From `s` to `s'`, at most `n` different blocks were logged.** -/
def LogsAtMost (sb : Superblock) (n : Nat) (s s' : LogFs) : Prop :=
  ∃ l, s'.log = s.log ++ l ∧ (l.map (LogBlock.no sb)).toFinset.card ≤ n

variable {sb : Superblock} {r c b bn : Nat} {s s' s'' : LogFs} {d d' d'' : Dinode}

theorem take_log (s : LogFs) (b : Nat) : (s.take b).log = s.log ++ [.bitmap b, .block b] :=
  List.append_assoc ..

theorem setSec_log (s : LogFs) (b : Nat) (x : Block) : (s.setSec b x).log = s.log ++ [.block b] :=
  rfl

/-! ## 2. Counting -/

/-- The indirect block, if there is one. -/
def indList (d : Dinode) : List LogBlock :=
  if d.addrs ndirect = 0 then [] else [.block (d.addrs ndirect)]

/-- **What was logged while the inode went from `d` to `d'`**: `r` data blocks, a bitmap block for
    each of `c` new data blocks and for the indirect block if it is new, and the indirect block. -/
structure Counted (r c : Nat) (s : LogFs) (d : Dinode) (s' : LogFs) (d' : Dinode) : Prop where
  parts : ∃ l D B, s'.log = s.log ++ l ∧ l ⊆ D ++ (B ++ indList d') ∧ D.length ≤ r ∧
    B.length + noIndirect d' ≤ c + noIndirect d
  keep : d.addrs ndirect ≠ 0 → d'.addrs ndirect = d.addrs ndirect

theorem Counted.nil (s : LogFs) (d : Dinode) : Counted 0 0 s d s d :=
  ⟨⟨[], [], [], (List.append_nil _).symm, List.nil_subset _, Nat.le_refl 0, by simp⟩, fun _ => rfl⟩

theorem indList_subset (h : d.addrs ndirect ≠ 0 → d'.addrs ndirect = d.addrs ndirect) :
    indList d ⊆ indList d' := by
  unfold indList
  by_cases h0 : d.addrs ndirect = 0
  · rw [if_pos h0]
    exact List.nil_subset _
  · rw [if_neg h0, h h0, if_neg h0]
    exact List.Subset.refl _

/-- **Steps add up.** -/
theorem Counted.trans {r' c' : Nat} (h1 : Counted r c s d s' d')
    (h2 : Counted r' c' s' d' s'' d'') : Counted (r + r') (c + c') s d s'' d'' := by
  obtain ⟨l, D, B, hl, hs, hD, hB⟩ := h1.parts
  obtain ⟨l', D', B', hl', hs', hD', hB'⟩ := h2.parts
  have hind := indList_subset h2.keep
  refine ⟨⟨l ++ l', D ++ D', B ++ B', ?_, fun x hx => ?_, ?_, ?_⟩, fun h0 => ?_⟩
  · rw [hl', hl, List.append_assoc]
  · simp only [List.mem_append] at hx ⊢
    rcases hx with hx | hx
    · have hx' := hs hx
      simp only [List.mem_append] at hx'
      rcases hx' with h | h | h
      · exact .inl (.inl h)
      · exact .inr (.inl (.inl h))
      · exact .inr (.inr (hind h))
    · have hx' := hs' hx
      simp only [List.mem_append] at hx'
      rcases hx' with h | h | h
      · exact .inl (.inr h)
      · exact .inr (.inl (.inr h))
      · exact .inr (.inr h)
  · rw [List.length_append]
    omega
  · rw [List.length_append]
    omega
  · rw [h2.keep (by rw [h1.keep h0]; exact h0), h1.keep h0]

/-- The number of different blocks. -/
theorem Counted.card (h : Counted r c s d s' d') : LogsAtMost sb (r + (c + 1) + 1) s s' := by
  obtain ⟨l, D, B, hl, hs, hD, hB⟩ := h.parts
  have hind : (indList d').length ≤ 1 := by
    unfold indList
    split <;> simp
  have hno : noIndirect d ≤ 1 := by
    unfold noIndirect
    split <;> omega
  refine ⟨l, hl, ?_⟩
  calc (l.map (LogBlock.no sb)).toFinset.card
      ≤ ((D ++ (B ++ indList d')).map (LogBlock.no sb)).toFinset.card := by
        refine Finset.card_le_card fun x hx => ?_
        rw [List.mem_toFinset] at hx ⊢
        exact List.map_subset _ hs hx
    _ ≤ (D ++ (B ++ indList d')).length := by
        rw [← List.length_map]
        exact List.toFinset_card_le _
    _ ≤ r + (c + 1) + 1 := by
        rw [List.length_append, List.length_append]
        omega

theorem Counted.mono {r' c' : Nat} (h : Counted r c s d s' d') (hr : r ≤ r') (hc : c ≤ c') :
    Counted r' c' s d s' d' := by
  obtain ⟨l, D, B, hl, hs, hD, hB⟩ := h.parts
  exact ⟨⟨l, D, B, hl, hs, by omega, by omega⟩, h.keep⟩

/-- A data block is written. -/
theorem Counted.write (s : LogFs) (d : Dinode) (b : Nat) (x : Block) :
    Counted 1 0 s d (s.setSec b x) d :=
  ⟨⟨[.block b], [.block b], [], rfl, by simp, Nat.le_refl 1, by simp⟩, fun _ => rfl⟩

theorem balloc_inv (h : balloc sb s = some (b, s')) : s.bit b = false ∧ s' = s.take b := by
  unfold balloc at h
  split at h
  · rename_i a hf
    cases h
    exact ⟨by simpa using List.find?_some hf, rfl⟩
  · cases h

/-- A block in use is not given out. -/
theorem balloc_ne (h : balloc sb s = some (b, s')) {a : Nat} (ha : s.bit a = true) :
    b ≠ a ∧ s'.bit a = true := by
  obtain ⟨hb, rfl⟩ := balloc_inv h
  have hne : b ≠ a := by
    rintro rfl
    rw [ha] at hb
    cases hb
  exact ⟨hne, (Function.update_of_ne hne.symm _ _).trans ha⟩

theorem indirectBlock_counted {ib : Nat} (h0 : s.bit 0 = true)
    (h : indirectBlock sb s d = some (ib, s', d')) :
    s'.bit 0 = true ∧ Counted 0 0 s d s' d' ∧ indList d' = [.block ib] := by
  unfold indirectBlock at h
  split at h
  · rename_i hz
    obtain ⟨⟨b1, s1⟩, hal, he⟩ := Option.bind_eq_some_iff.mp h
    cases he
    obtain ⟨-, rfl⟩ := balloc_inv hal
    obtain ⟨hne, hbit⟩ := balloc_ne hal h0
    have hself := Mkfs.setAddr_self d ndirect ib
    have hind : indList (d.setAddr ndirect ib) = [.block ib] := by
      unfold indList
      rw [hself, if_neg hne]
    refine ⟨hbit, ⟨⟨_, [], [.bitmap ib], take_log s ib, ?_, Nat.le_refl 0, ?_⟩,
      fun hc => absurd hz hc⟩, hind⟩
    · rw [hind]
      exact List.Subset.refl _
    · rw [noIndirect_some (by rw [hself]; exact hne), show noIndirect d = 1 from if_pos hz]
      exact Nat.le_refl 1
  · rename_i hz
    cases h
    exact ⟨h0, Counted.nil .., if_neg hz⟩

/-- **One call of `bmap`**, and the block that is written then. -/
theorem bmap_counted (h0 : s.bit 0 = true) (h : bmap sb s d bn = some (b, s', d')) (x : Block) :
    s'.bit 0 = true ∧ Counted 1 1 s d (s'.setSec b x) d' := by
  unfold bmap at h
  split at h
  · rename_i hdir
    split at h
    · obtain ⟨⟨b1, s1⟩, hal, he⟩ := Option.bind_eq_some_iff.mp h
      cases he
      obtain ⟨-, rfl⟩ := balloc_inv hal
      have hind := setAddr_other d b (Nat.ne_of_gt hdir)
      refine ⟨(balloc_ne hal h0).2, ⟨[.bitmap b, .block b] ++ [.block b], [.block b], [.bitmap b],
        ?_, ?_, Nat.le_refl 1, ?_⟩, fun _ => hind⟩
      · rw [setSec_log, take_log, List.append_assoc]
      · simp
      · rw [noIndirect_eq hind]
        exact Nat.le_refl _
    · cases h
      exact ⟨h0, (Counted.write s d _ x).mono (Nat.le_refl 1) (Nat.zero_le 1)⟩
  · split at h
    · obtain ⟨⟨ib, s1, d1⟩, hib, h⟩ := Option.bind_eq_some_iff.mp h
      obtain ⟨hbit, hcount, hind⟩ := indirectBlock_counted h0 hib
      dsimp only at h
      split at h
      · obtain ⟨⟨b2, s2⟩, hal, he⟩ := Option.bind_eq_some_iff.mp h
        cases he
        obtain ⟨-, rfl⟩ := balloc_inv hal
        have hnew : Counted 1 1 s1 d' (((s1.take b2).setSec ib (putLE 4 ((s1.take b2).sec ib)
            (4 * (bn - ndirect)) b2)).setSec b2 x) d' := by
          refine ⟨⟨[.bitmap b2, .block b2] ++ [.block ib] ++ [.block b2], [.block b2], [.bitmap b2],
            ?_, ?_, Nat.le_refl 1, Nat.le_refl _⟩, fun _ => rfl⟩
          · rw [setSec_log, setSec_log, take_log, List.append_assoc, List.append_assoc,
              List.append_assoc]
          · rw [hind]
            simp
        exact ⟨(balloc_ne hal hbit).2, hcount.trans hnew⟩
      · cases h
        exact ⟨hbit, (hcount.trans (Counted.write s' d' _ x)).mono (Nat.le_refl 1) (Nat.zero_le 1)⟩
    · cases h

/-! ## 3. The loop -/

/-- The number of blocks that `[off, off + n)` meets. -/
def span (off n : Nat) : Nat := if n = 0 then 0 else (off + n - 1) / bsize - off / bsize + 1

/-- The rounds after the first. -/
theorem span_succ (off n : Nat) : span off (n + 1) =
    1 + span (off + min (n + 1) (bsize - off % bsize))
      (n + 1 - min (n + 1) (bsize - off % bsize)) := by
  unfold span
  have hb : bsize = 512 := rfl
  rw [hb]
  split
  · omega
  · split <;> omega

/-- **The loop of `writei`.** -/
theorem writeiLoop_counted {fuel : Nat} : ∀ {s : LogFs} {d : Dinode} {off n : Nat} {src : Bytes},
    s.bit 0 = true → n ≤ fuel → writeiLoop sb fuel s d off n src = some (s', d') →
    Counted (span off n) (span off n) s d s' d' := by
  induction fuel with
  | zero =>
    intro s d off n src h0 hn h
    obtain rfl : n = 0 := Nat.le_zero.mp hn
    cases h
    exact Counted.nil ..
  | succ fuel ih =>
    intro s d off n src h0 hn h
    cases n with
    | zero =>
      cases h
      exact Counted.nil ..
    | succ n =>
      unfold writeiLoop at h
      obtain ⟨⟨b, s1, d1⟩, hmap, hrest⟩ := Option.bind_eq_some_iff.mp h
      obtain ⟨hbit, hone⟩ := bmap_counted h0 hmap _
      have hpos := round_pos off n
      rw [span_succ]
      exact hone.trans (ih hbit (by omega) hrest)

variable {off n j : Nat}

/-- The first round finds its block, when it starts in the middle of one. -/
theorem writeiLoop_counted_found {src : Bytes} (h0 : s.bit 0 = true) (hbn : off / bsize < maxfile)
    (hb : blockOf s.blk d (off / bsize) ≠ 0)
    (h : writeiLoop sb (n + 1) s d off (n + 1) src = some (s', d')) :
    Counted (span off (n + 1)) (span off (n + 1) - 1) s d s' d' := by
  unfold writeiLoop at h
  rw [bmap_present hbn hb] at h
  have hpos := round_pos off n
  have hsum := (Counted.write s d _ _).trans (writeiLoop_counted h0 (by omega) h)
  rw [← span_succ] at hsum
  refine hsum.mono (Nat.le_refl _) ?_
  rw [span_succ]
  omega

/-! ## 4. One chunk -/

theorem LogsAtMost.mono {m : Nat} (h : LogsAtMost sb n s s') (hnm : n ≤ m) :
    LogsAtMost sb m s s' := by
  obtain ⟨l, hl, hcard⟩ := h
  exact ⟨l, hl, hcard.trans hnm⟩

theorem LogsAtMost.iupdate (h : LogsAtMost sb n s s') (i : Nat) (d : Dinode) :
    LogsAtMost sb (n + 1) s (iupdate s' i d) := by
  obtain ⟨l, hl, hcard⟩ := h
  refine ⟨l ++ [.inode i], ?_, ?_⟩
  · change s'.log ++ [.inode i] = _
    rw [hl, List.append_assoc]
  · rw [List.map_append, List.toFinset_append]
    exact (Finset.card_union_le _ _).trans (Nat.add_le_add hcard (by simp))

/-- An offset in the middle of a block that is not beyond the size. -/
theorem first_block (hh : NoHoles s.blk d) (hoff : off ≤ d.size) (hmid : off % bsize ≠ 0) :
    off / bsize < maxfile ∧ blockOf s.blk d (off / bsize) ≠ 0 := by
  refine hh _ ?_
  change off % 512 ≠ 0 at hmid
  change off / 512 < (d.size + (512 - 1)) / 512
  omega

/-- The loop, for one chunk. -/
theorem writeiLoop_chunk {src : Bytes} (h0 : s.bit 0 = true) (hh : NoHoles s.blk d)
    (hoff : off ≤ d.size) (hn : n ≤ chunk) (h : writeiLoop sb n s d off n src = some (s', d')) :
    LogsAtMost sb 9 s s' := by
  rw [chunk_eq] at hn
  have hbs : bsize = 512 := rfl
  by_cases hmid : off % bsize = 0
  · have hspan : span off n ≤ 3 := by
      unfold span
      rw [hbs] at hmid ⊢
      split <;> omega
    exact (writeiLoop_counted h0 (Nat.le_refl n) h).card.mono (by omega)
  · cases n with
    | zero =>
      cases h
      exact (Counted.nil s d).card.mono (by decide)
    | succ n =>
      obtain ⟨hlt, hne⟩ := first_block hh hoff hmid
      have hspan : span off (n + 1) ≤ 4 ∧ 1 ≤ span off (n + 1) := by
        unfold span
        rw [hbs] at hmid ⊢
        split <;> omega
      exact (writeiLoop_counted_found h0 hlt hne h).card.mono (by omega)

/-- **One chunk fits in one reservation**: on a disk whose metadata blocks are marked in use,
    whatever data blocks are free, `writei` of a chunk at an offset that is not beyond the size of a
    file without holes logs at most MAXOPBLOCKS different blocks. -/
theorem writei_fits (hmeta : ∀ b < nmeta sb, s.bit b = true) (hh : NoHoles s.blk d) (i : Nat)
    (src : Bytes) {off n : Nat} (hoff : off ≤ d.size) (hn : n ≤ chunk) {ret : Int}
    (h : writei sb s i d src off n = some (ret, s', d')) :
    LogsAtMost sb Log.maxOpBlocks s s' := by
  have h0 : s.bit 0 = true := hmeta 0 (Nat.succ_pos _)
  have hnone : LogsAtMost sb Log.maxOpBlocks s s := (Counted.nil s d).card.mono (by decide)
  unfold writei at h
  split at h
  · cases h
    exact hnone
  · split at h
    · cases h
      exact hnone
    · obtain ⟨⟨s1, d1⟩, hloop, h⟩ := Option.bind_eq_some_iff.mp h
      have hcard := writeiLoop_chunk h0 hh hoff hn hloop
      dsimp only at h
      split at h
      · cases h
        exact hcard.iupdate i _
      · cases h
        exact hcard.mono (by decide)

/-- **A chunk that begins in the last direct block**: it needs the indirect block and three data
    blocks. -/
theorem writei_fits_indirect : ∃ s' d',
    writei Mkfs.sb (fileDisk 12 5732 []) 1 ((fileDisk 12 5732 ([] : List LogBlock)).din 1)
      (fun j => BitVec.ofNat 8 j) 5732 chunk = some (↑chunk, s', d') ∧
    need (fileDisk 12 5732 ([] : List LogBlock)) ((fileDisk 12 5732 ([] : List LogBlock)).din 1)
      (blocks (5732 + chunk)) = 4 ∧
    LogsAtMost Mkfs.sb Log.maxOpBlocks (fileDisk 12 5732 []) s' := by
  have hsound := fileDisk_sound ([] : List LogBlock) (n := 12) (Nat.le_refl _)
    (show blocks 5732 = 12 by decide)
  have hholes := hsound.noHoles 1 (by decide)
  have hneed : need (fileDisk 12 5732 ([] : List LogBlock))
      ((fileDisk 12 5732 ([] : List LogBlock)).din 1) (blocks (5732 + chunk)) = 4 := by decide
  have hfree : 4 ≤ (fileDisk 12 5732 ([] : List LogBlock)).free Mkfs.sb := by decide +kernel
  rw [← with_din _ 1] at hsound
  obtain ⟨s1, d1, hloop, hw⟩ := writeiLoop_written (by decide) (fun j => BitVec.ofNat 8 j) hsound
    (by decide) (Nat.le_refl chunk) (show 5732 + chunk ≤ maxfile * bsize by decide)
    (hneed ▸ hfree)
  have hcall : writei Mkfs.sb (fileDisk 12 5732 []) 1
      ((fileDisk 12 5732 ([] : List LogBlock)).din 1) (fun j => BitVec.ofNat 8 j) 5732 chunk =
      some (↑chunk, iupdate s1 1 { d1 with size := 5732 + chunk },
        { d1 with size := 5732 + chunk }) := by
    unfold writei
    rw [if_neg (by decide), if_neg (by decide), hloop]
    dsimp only [Option.bind_eq_bind, Option.bind_some]
    rw [hw.size, if_pos (by decide)]
  exact ⟨_, _, hcall, hneed, writei_fits (fun b hb => decide_eq_true (Nat.lt_add_right 12 hb))
    hholes 1 _ (Nat.le_refl _) (Nat.le_refl _) hcall⟩

/-! ## 5. A free boot block -/

/-- A disk of five bitmap blocks. -/
def wideSb : Superblock := ⟨20480, 20417, 200, 30, 2, 32, 58⟩

/-- The bits when the first block of each of the first `j` bitmap blocks has been taken, and the
    first one of each other is free. -/
def wideBits (j : Nat) : Nat → Bool := fun b => decide (b % 4096 ≠ 0 ∨ b < 4096 * j)

/-- A file that ends in its last direct block. -/
def wideFile : Dinode := ⟨tFile, 0, 0, 1, 11 * 512 + 100, fun k => if k < 12 then 100 + k else 0⟩

/-- The boot block is free. -/
def wide : LogFs := ⟨wideBits 0, fun _ => Mkfs.zeroes, fun _ => wideFile, []⟩

theorem wide_balloc (hj : j < 5) (h : s.bit = wideBits j) :
    balloc wideSb s = some (4096 * j, s.take (4096 * j)) ∧
      (s.take (4096 * j)).bit = wideBits (j + 1) := by
  have hlt : 4096 * j < 20480 := by omega
  have hfind : (List.range wideSb.size).find? (fun b => !s.bit b) = some (4096 * j) := by
    rw [h]
    refine List.find?_range_eq_some.mpr ⟨?_, List.mem_range.mpr hlt, fun a ha => ?_⟩
    · simp [wideBits]
    · have : a % 4096 ≠ 0 ∨ a < 4096 * j := .inr ha
      simp only [wideBits, this, decide_true, Bool.not_true, Bool.not_false]
  refine ⟨?_, ?_⟩
  · unfold balloc
    rw [hfind]
  · change Function.update s.bit (4096 * j) true = _
    rw [h]
    funext b
    by_cases hb : b = 4096 * j
    · have : b % 4096 ≠ 0 ∨ b < 4096 * (j + 1) := .inr (by omega)
      rw [hb, Function.update_self, ← hb]
      exact (decide_eq_true this).symm
    · have : (b % 4096 ≠ 0 ∨ b < 4096 * j) ↔ (b % 4096 ≠ 0 ∨ b < 4096 * (j + 1)) := by omega
      rw [Function.update_of_ne hb]
      exact decide_eq_decide.mpr this

/-- An index without an indirect block takes two blocks from two bitmap blocks. -/
theorem wide_bmap_two (bn : Nat) (hj : j < 4) (h : s.bit = wideBits j) (hd : d.addrs ndirect = 0)
    (hlo : ndirect ≤ bn) (hhi : bn < maxfile) :
    ∃ s', bmap wideSb s d bn = some (4096 * (j + 1), s', d.setAddr ndirect (4096 * j)) ∧
      s'.log = s.log ++ [.bitmap (4096 * j), .block (4096 * j), .bitmap (4096 * (j + 1)),
        .block (4096 * (j + 1)), .block (4096 * j)] ∧
      s'.bit = wideBits (j + 2) ∧
      s'.sec (4096 * j) = putLE 4 Mkfs.zeroes (4 * (bn - ndirect)) (4096 * (j + 1)) := by
  have hmax : maxfile = ndirect + nindirect := rfl
  obtain ⟨h1, h2⟩ := wide_balloc (by omega) h
  obtain ⟨h3, h4⟩ := wide_balloc (by omega) h2
  have hsec : (s.take (4096 * j)).sec (4096 * j) = Mkfs.zeroes := Function.update_self ..
  have hkeep : ((s.take (4096 * j)).take (4096 * (j + 1))).sec (4096 * j) = Mkfs.zeroes :=
    (take_sec _ (by omega)).trans hsec
  unfold bmap indirectBlock
  rw [if_neg (by omega), if_pos (by omega), if_pos hd, h1]
  dsimp only [Option.bind_eq_bind, Option.bind_some]
  rw [hsec, if_pos (Mkfs.zeroes_words _), h3]
  refine ⟨_, rfl, ?_, h4, ?_⟩
  · rw [setSec_log, take_log, take_log, List.append_assoc, List.append_assoc]
    rfl
  · rw [setSec_sec, hkeep]

theorem wide_bmap_entry (bn : Nat) (hj : j < 5) (h : s.bit = wideBits j) (hd : d.addrs ndirect ≠ 0)
    (hlo : ndirect ≤ bn) (hhi : bn < maxfile)
    (hz : words (s.sec (d.addrs ndirect)) (bn - ndirect) = 0) :
    ∃ s', bmap wideSb s d bn = some (4096 * j, s', d) ∧
      s'.log = s.log ++ [.bitmap (4096 * j), .block (4096 * j), .block (d.addrs ndirect)] := by
  have hmax : maxfile = ndirect + nindirect := rfl
  obtain ⟨h1, -⟩ := wide_balloc hj h
  unfold bmap indirectBlock
  rw [if_neg (by omega), if_pos (by omega), if_neg hd]
  dsimp only [Option.bind_eq_bind, Option.bind_some]
  rw [if_pos hz, h1]
  refine ⟨_, rfl, ?_⟩
  rw [setSec_log, take_log, List.append_assoc]
  rfl

/-- The loop returns, and logs `l`. -/
def Logs (fuel : Nat) (s : LogFs) (d : Dinode) (off n : Nat) (l : List LogBlock) : Prop :=
  ∃ s' d', writeiLoop wideSb fuel s d off n (fun _ => 0#8) = some (s', d') ∧
    s'.log = s.log ++ l ∧ d'.size = d.size

/-- One round. -/
theorem Logs.round {fuel b m k : Nat} {s1 : LogFs} {d1 : Dinode} {l l' : List LogBlock}
    (hmap : bmap wideSb s d (off / bsize) = some (b, s1, d1)) (hlog : s1.log = s.log ++ l)
    (hd : d1.size = d.size) (hm : min (n + 1) (bsize - off % bsize) = m) (hk : n + 1 - m = k)
    (hrest : ∀ x, Logs fuel (s1.setSec b x) d1 (off + m) k l') :
    Logs (fuel + 1) s d off (n + 1) (l ++ .block b :: l') := by
  subst hm hk
  obtain ⟨s2, d2, h, hl, hsize⟩ := hrest (splice (s1.sec b) (off % bsize)
    ((List.range (min (n + 1) (bsize - off % bsize))).map fun _ => 0#8))
  refine ⟨s2, d2, ?_, ?_, hsize.trans hd⟩
  · unfold writeiLoop
    rw [hmap]
    exact h
  · rw [hl, setSec_log, hlog, List.append_assoc, List.append_assoc]
    rfl

/-- The last direct block is there; the next three blocks have to be taken. -/
theorem wide_logs : Logs 1536 wide wideFile (11 * 512 + 100) 1536 ([] ++ .block 111 ::
    ([.bitmap 0, .block 0, .bitmap 4096, .block 4096, .block 0] ++ .block 4096 ::
    ([.bitmap 8192, .block 8192, .bitmap 12288, .block 12288, .block 8192] ++ .block 12288 ::
    ([.bitmap 16384, .block 16384, .block 8192] ++ .block 16384 :: [])))) := by
  refine Logs.round (n := 1535) (m := 412) (k := 1124) rfl rfl rfl rfl rfl fun x => ?_
  obtain ⟨s2, h2, hl2, hb2, -⟩ := wide_bmap_two (s := wide.setSec 111 x) (d := wideFile) (j := 0)
    12 (by decide) rfl rfl (by decide) (by decide)
  refine Logs.round (n := 1123) (m := 512) (k := 612) h2 hl2 rfl rfl rfl fun y => ?_
  obtain ⟨s3, h3, hl3, hb3, hsec⟩ := wide_bmap_two (s := s2.setSec 4096 y)
    (d := wideFile.setAddr ndirect 0) (j := 2) 13 (by decide) hb2 rfl (by decide) (by decide)
  refine Logs.round (n := 611) (m := 512) (k := 100) h3 hl3 rfl rfl rfl fun z => ?_
  have hsame : (s3.setSec 12288 z).sec 8192 = s3.sec 8192 :=
    setSec_other s3 (by decide) z
  have hword : words ((s3.setSec 12288 z).sec 8192) 2 = 0 := by
    rw [hsame.trans hsec, words_putLE _ _ (by decide), Function.update_of_ne (by decide)]
    exact Mkfs.zeroes_words 2
  obtain ⟨s4, h4, hl4⟩ := wide_bmap_entry (s := s3.setSec 12288 z)
    (d := (wideFile.setAddr ndirect 0).setAddr ndirect 8192) (j := 4) 14 (by decide) hb3
    (by decide) (by decide) (by decide) hword
  exact Logs.round (n := 99) (m := 100) (k := 0) h4 hl4 rfl rfl rfl fun w =>
    ⟨_, _, rfl, (List.append_nil _).symm, rfl⟩

/-- With the boot block free, a chunk may log twelve blocks: block 0 becomes the indirect block, and
    since 0 also means that there is none, a second one is taken. -/
theorem writei_twelve : NoHoles wide.blk wideFile ∧ wideFile.size = 11 * 512 + 100 ∧ ∃ s' d' l,
    writei wideSb wide 1 wideFile (fun _ => 0#8) (11 * 512 + 100) chunk =
      some (↑chunk, s', d') ∧ s'.log = wide.log ++ l ∧
      (l.map (LogBlock.no wideSb)).toFinset.card = 12 := by
  refine ⟨fun bn hbn => ?_, rfl, ?_⟩
  · have hlt : bn < 12 := hbn
    have hblk : blockOf wide.blk wideFile bn = 100 + bn :=
      (Inode.blockOf_direct hlt).trans (if_pos hlt)
    exact ⟨by change bn < 140; omega, by rw [hblk]; omega⟩
  obtain ⟨s', d', h, hlog, hsize⟩ := wide_logs
  unfold writei
  rw [chunk_eq, if_neg (by decide), if_neg (by decide), h]
  dsimp only [Option.bind_eq_bind, Option.bind_some]
  rw [hsize, if_pos (by decide)]
  have hlast := (congrArg (· ++ [LogBlock.inode 1]) hlog).trans (List.append_assoc ..)
  exact ⟨_, _, _, rfl, hlast, by decide⟩

end Xv6Clock.FileData
