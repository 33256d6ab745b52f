/-
  File:      Xv6Clock/FileArray.lean
  Subject:   A file is an array of bytes: what `writei` (fs.c) puts into it, `readi` returns.

  The loops cut an access at the block boundaries; a block of the file that is missing is taken on
  the way. `need` counts the blocks that are missing.
  * `Written`: what the rounds of `writei` do, composed by `Written.trans`;
  * `readi_content`: `readi` returns a part of the content;
  * `writei_array`: `writei` replaces a part of the content and nothing else.
-/
import Xv6Clock.FileData

namespace Xv6Clock.FileData

open Mkfs (Dinode Superblock Block bsize ndirect nindirect maxfile blocks same_block)
open Inode (slot blockOf slot_block slot_indirect slot_congr Image NoHoles)
open Lib (Bytes splice)

/-- A regular file (stat.h). -/
def tFile : Nat := 2

/-! ## 1. The bytes of a file -/

/-- Byte `c` of the file with inode `d`. -/
def FsOf.byte (s : FsOf L) (d : Dinode) (c : Nat) : Byte :=
  s.sec (blockOf s.blk d (c / bsize)) (c % bsize)

/-- The content of the file with inode `d`. -/
def FsOf.content (s : FsOf L) (d : Dinode) : List Byte := (List.range d.size).map (s.byte d)

@[simp] theorem length_content (s : FsOf L) (d : Dinode) : (s.content d).length = d.size := by
  simp [FsOf.content]

/-- The disk, when no inode in memory is ahead of it. -/
def FsOf.image (s : FsOf L) : Image := ⟨s.bit, s.blk, s.din⟩

theorem with_din (s : FsOf L) (i : Nat) : s.with i (s.din i) = s.image := by
  unfold FsOf.with FsOf.image
  rw [Function.update_eq_self]

variable {off n c m : Nat} {src : Bytes}

section
variable {L : Type} [Journal L] {sb : Superblock} {i : Nat} {s s' s'' : FsOf L}
  {d d' d'' : Dinode}

theorem holds_index (hc : c < off + n) (hmax : off + n ≤ maxfile * bsize) :
    c / bsize < maxfile := by
  change off + n ≤ 140 * 512 at hmax
  change c / 512 < 140
  omega

theorem index_lt_blocks (h : c < n) : c / bsize < blocks n := by
  change c / 512 < (n + (512 - 1)) / 512
  omega

omit [Journal L] in
/-- A byte of the file is in a block. -/
theorem noHoles_byte (h : NoHoles s.blk d) (hc : c < d.size) :
    c / bsize < maxfile ∧ blockOf s.blk d (c / bsize) ≠ 0 := h _ (index_lt_blocks hc)

/-! ## 2. Reading -/

/-- A round stays in a block and copies a byte at least. -/
theorem round_fits (off n : Nat) : off % bsize + min n (bsize - off % bsize) ≤ bsize := by
  have : off % bsize < bsize := Nat.mod_lt _ (by decide)
  omega

theorem round_pos (off n : Nat) : 0 < min (n + 1) (bsize - off % bsize) := by
  have : off % bsize < bsize := Nat.mod_lt _ (by decide)
  omega

/-- Two parts of the file one after the other. -/
theorem range_map_split {α : Type} (f : Nat → α) (h : m ≤ n) :
    (List.range m).map f ++ (List.range (n - m)).map (fun j => f (m + j)) =
      (List.range n).map f := by
  obtain ⟨k, rfl⟩ := Nat.exists_eq_add_of_le h
  rw [Nat.add_sub_cancel_left, List.range_add, List.map_append, List.map_map]
  rfl

/-- **The loop of `readi`** takes no block where the file has no hole, and returns the bytes. -/
theorem readiLoop_bytes (hh : NoHoles s.blk d) {fuel : Nat} (hfuel : n ≤ fuel)
    (hsize : off + n ≤ d.size) :
    readiLoop sb fuel s d off n = some ((List.range n).map fun j => s.byte d (off + j), s, d) := by
  induction fuel generalizing off n with
  | zero =>
    obtain rfl : n = 0 := Nat.le_zero.mp hfuel
    rfl
  | succ fuel ih =>
    cases n with
    | zero => rfl
    | succ n =>
      have hpos := round_pos off n
      have hfit := round_fits off (n + 1)
      have hle : min (n + 1) (bsize - off % bsize) ≤ n + 1 := Nat.min_le_left _ _
      obtain ⟨hmax, hblk⟩ := noHoles_byte (c := off) hh (by omega)
      unfold readiLoop
      rw [bmap_present hmax hblk]
      dsimp only [Option.bind_eq_bind, Option.bind_some]
      rw [ih (by omega) (by omega)]
      dsimp only [Option.bind_some]
      rw [← range_map_split _ hle]
      -- the bytes of the round are in the block at `off`
      have hround : (List.range (min (n + 1) (bsize - off % bsize))).map
            (fun j => s.sec (blockOf s.blk d (off / bsize)) (off % bsize + j)) =
          (List.range (min (n + 1) (bsize - off % bsize))).map fun j => s.byte d (off + j) := by
        refine List.map_congr_left fun j hj => ?_
        obtain ⟨hdiv, hmod⟩ := same_block (Nat.le_add_right off j)
          (Nat.add_lt_add_left (List.mem_range.mp hj) off) hfit
        unfold FsOf.byte
        rw [hdiv, hmod, Nat.add_sub_cancel_left]
      rw [hround]
      simp only [Nat.add_assoc]

omit [Journal L] in
theorem drop_take_content (h : off + n ≤ d.size) :
    ((s.content d).drop off).take n = (List.range n).map fun j => s.byte d (off + j) := by
  refine List.ext_getElem ?_ fun c h1 h2 => ?_
  · simp
    omega
  · simp [FsOf.content]

/-- **`readi` returns a part of the content.** -/
theorem readi_content (hh : NoHoles s.blk d) (hoff : off ≤ d.size) (hn : off + n < 2 ^ 32) :
    readi sb s d off n = some (some (((s.content d).drop off).take n), s, d) := by
  unfold readi
  rw [Nat.mod_eq_of_lt hn, if_neg (by omega)]
  dsimp only
  split
  · rename_i hlt
    rw [readiLoop_bytes hh (Nat.le_refl _) (by omega)]
    dsimp only [Option.bind_eq_bind, Option.bind_some]
    rw [← drop_take_content (by omega), List.take_of_length_le (by simp),
      List.take_of_length_le (by simp; omega)]
  · rw [readiLoop_bytes hh (Nat.le_refl _) (by omega)]
    dsimp only [Option.bind_eq_bind, Option.bind_some]
    rw [← drop_take_content (by omega)]

/-! ## 3. The blocks that are missing -/

/-- The number of blocks that a file with `m` blocks lacks. -/
def need (s : FsOf L) (d : Dinode) (m : Nat) : Nat :=
  (∑ k ∈ Finset.range m, if blockOf s.blk d k = 0 then 1 else 0) +
    if ndirect < m then noIndirect d else 0

omit [Journal L] in
/-- Fewer indices have no block. -/
theorem missing_lt {bn : Nat} (hm : m ≤ maxfile) (hbn : bn < m) (hg : Grown sb i s d s' d')
    (h0 : blockOf s.blk d bn = 0) (h1 : blockOf s'.blk d' bn ≠ 0) :
    (∑ k ∈ Finset.range m, if blockOf s'.blk d' k = 0 then 1 else 0) <
      ∑ k ∈ Finset.range m, if blockOf s.blk d k = 0 then 1 else 0 := by
  refine Finset.sum_lt_sum (fun k hk => ?_) ⟨bn, Finset.mem_range.mpr hbn, ?_⟩
  · by_cases hz : blockOf s.blk d k = 0
    · rw [if_pos hz]
      split <;> decide
    · have hkm : k < maxfile := Nat.lt_of_lt_of_le (Finset.mem_range.mp hk) hm
      have hkeep := hg.keep k (by rw [slot_block hkm]; exact hz)
      rw [slot_block hkm, slot_block hkm] at hkeep
      rw [hkeep]
  · rw [if_pos h0, if_neg h1]
    decide

/-- **`bmap` has room** while the missing blocks are free. -/
theorem bmap_room (h : (s.with i d).Sound sb) (ht : d.type ≠ 0) (hsz : sb.size ≤ 2 ^ 32) {bn : Nat}
    (hm : m ≤ maxfile) (hbn : bn < m) (hroom : need s d m ≤ s.free sb) :
    ∃ a s' d', bmap sb s d bn = some (a, s', d') ∧ Grown sb i s d s' d' ∧ a ≠ 0 ∧
      blockOf s'.blk d' bn = a ∧ need s' d' m ≤ s'.free sb ∧
      (blockOf s.blk d bn ≠ 0 → d' = d) := by
  have hlt : bn < maxfile := Nat.lt_of_lt_of_le hbn hm
  by_cases h0 : blockOf s.blk d bn = 0
  · have hone : 1 ≤ ∑ k ∈ Finset.range m, if blockOf s.blk d k = 0 then 1 else 0 := by
      refine Nat.le_trans ?_ (Lib.le_sum _ hbn)
      rw [if_pos h0]
    have hind : (if ndirect ≤ bn then noIndirect d else 0) ≤
        if ndirect < m then noIndirect d else 0 := by
      split
      · rw [if_pos (by omega)]
      · exact Nat.zero_le _
    unfold need at hroom
    obtain ⟨b, s', d', hmap, hg, hb, hslot, hfree, hno⟩ :=
      bmap_absent h ht hsz hlt h0 (by omega)
    rw [slot_block hlt] at hslot
    have hless := missing_lt hm hbn hg h0 (hslot ▸ hb)
    refine ⟨b, s', d', hmap, hg, hb, hslot, ?_, fun hne => absurd h0 hne⟩
    unfold need
    rw [hno]
    split at hfree
    · rename_i hle
      rw [if_pos hle]
      rw [if_pos (by omega)] at hroom
      split <;> omega
    · rename_i hle
      rw [if_neg hle]
      omega
  · exact ⟨_, s, d, bmap_present hlt h0, Grown.refl h, h0, rfl, hroom, fun _ => rfl⟩

/-! ## 4. Writing -/

/-- A disk with the same blocks in the same slots. -/
theorem Sound.slots {img img' : Image} (h : img.Sound sb) (hbit : img'.bit = img.bit)
    (htype : ∀ j, (img'.din j).type = (img.din j).type)
    (hslot : ∀ j, (img.din j).type ≠ 0 → ∀ c,
      slot img'.blk (img'.din j) c = slot img.blk (img.din j) c)
    (hholes : ∀ j, (img.din j).type ≠ 0 → NoHoles img'.blk (img'.din j)) : img'.Sound sb := by
  refine ⟨fun j c hj => ?_, fun j l c e hj hl => ?_, fun b hb => ?_, fun j hj => ?_⟩
  · rw [htype] at hj
    rw [hslot j hj]
    exact h.data j c hj
  · rw [htype] at hj hl
    rw [hslot j hj, hslot l hl]
    exact h.once j l c e hj hl
  · rw [hbit, h.bitmap b hb]
    refine or_congr_right (exists_congr fun j => exists_congr fun c => ?_)
    rw [htype]
    exact and_congr_right fun hj => by rw [hslot j hj]
  · rw [htype] at hj
    exact hholes j hj

/-- A block of slots below `maxfile` is no indirect block. -/
theorem slot_setSec (h : (s.with i d).Sound sb) (ht : d.type ≠ 0) {k : Nat} (hk : k < maxfile)
    (h0 : slot s.blk d k ≠ 0) (x : Block) {j : Nat} (hj : ((s.with i d).din j).type ≠ 0) (c : Nat) :
    slot (s.setSec (slot s.blk d k) x).blk ((s.with i d).din j) c =
      slot s.blk ((s.with i d).din j) c := by
  refine slot_congr rfl (fun _ => ?_) c
  rw [setSec_blk, Function.update_of_ne]
  intro he
  rw [← slot_indirect s.blk] at he
  have honce := h.once i j k maxfile (by rw [with_self]; exact ht) hj
  rw [with_self] at honce
  have := (honce h0 he.symm).2
  omega

/-- No block is missing that was not. -/
theorem need_setSec (h : (s.with i d).Sound sb) (ht : d.type ≠ 0) {k : Nat} (hk : k < maxfile)
    (h0 : blockOf s.blk d k ≠ 0) (x : Block) (hm : m ≤ maxfile) :
    need (s.setSec (blockOf s.blk d k) x) d m = need s d m := by
  rw [← slot_block hk] at h0 ⊢
  have hti : ((s.with i d).din i).type ≠ 0 := by rw [with_self]; exact ht
  have hslot := slot_setSec h ht hk h0 x hti
  rw [with_self] at hslot
  unfold need
  congr 1
  refine Finset.sum_congr rfl fun c hc => ?_
  have hlt : c < maxfile := Nat.lt_of_lt_of_le (Finset.mem_range.mp hc) hm
  rw [← slot_block hlt, ← slot_block hlt, hslot]

/-- **What `writei` does to the bytes** with `n` bytes `src` at `off`: the blocks are there then,
    the bytes are in them, and the other bytes of this and of every other file are as before. -/
structure Written (sb : Superblock) (i : Nat) (s : FsOf L) (d : Dinode) (s' : FsOf L) (d' : Dinode)
    (off n : Nat) (src : Bytes) : Prop where
  sound : (s'.with i d').Sound sb
  din : s'.din = s.din
  head : d' = { d with addrs := d'.addrs }
  keep : ∀ k, k < maxfile → blockOf s.blk d k ≠ 0 → blockOf s'.blk d' k ≠ 0
  filled : ∀ c, off ≤ c → c < off + n → blockOf s'.blk d' (c / bsize) ≠ 0
  data : ∀ c, off ≤ c → c < off + n → s'.byte d' c = src (c - off)
  rest : ∀ c, c / bsize < maxfile → blockOf s.blk d (c / bsize) ≠ 0 → c < off ∨ off + n ≤ c →
    s'.byte d' c = s.byte d c
  others : ∀ j, j ≠ i → (s.din j).type ≠ 0 → ∀ k, k < maxfile →
    blockOf s.blk (s.din j) k ≠ 0 → blockOf s'.blk (s.din j) k = blockOf s.blk (s.din j) k ∧
      s'.sec (blockOf s.blk (s.din j) k) = s.sec (blockOf s.blk (s.din j) k)
  /-- No block is taken where there is one. -/
  same : (∀ c, off ≤ c → c < off + n → blockOf s.blk d (c / bsize) ≠ 0) → d' = d

omit [Journal L] in
theorem Written.nothing (h : (s.with i d).Sound sb) (off : Nat) (src : Bytes) :
    Written sb i s d s d off 0 src where
  sound := h
  din := rfl
  head := rfl
  keep _ _ h0 := h0
  filled c h1 h2 := absurd h2 (by omega)
  data c h1 h2 := absurd h2 (by omega)
  rest _ _ _ _ := rfl
  others _ _ _ _ _ _ := ⟨rfl, rfl⟩
  same _ := rfl

omit [Journal L] in
theorem Written.type (h : Written sb i s d s' d' off n src) :
    d'.type = d.type := by rw [h.head]

omit [Journal L] in
theorem Written.size (h : Written sb i s d s' d' off n src) :
    d'.size = d.size := by rw [h.head]

omit [Journal L] in
/-- **Rounds compose.** -/
theorem Written.trans (hmax : off + (m + n) ≤ maxfile * bsize)
    (h1 : Written sb i s d s' d' off m src)
    (h2 : Written sb i s' d' s'' d'' (off + m) n fun j => src (m + j)) :
    Written sb i s d s'' d'' off (m + n) src where
  sound := h2.sound
  din := h2.din.trans h1.din
  head := by rw [h2.head, h1.head]
  keep k hk h0 := h2.keep k hk (h1.keep k hk h0)
  filled c hc hlt := by
    by_cases hcm : c < off + m
    · exact h2.keep _ (holds_index hlt hmax) (h1.filled c hc hcm)
    · exact h2.filled c (by omega) (by omega)
  data c hc hlt := by
    by_cases hcm : c < off + m
    · rw [h2.rest c (holds_index hlt hmax) (h1.filled c hc hcm) (.inl hcm)]
      exact h1.data c hc hcm
    · rw [h2.data c (by omega) (by omega)]
      congr 1
      omega
  rest c hc h0 hout := by
    rw [h2.rest c hc (h1.keep _ hc h0) (by omega)]
    exact h1.rest c hc h0 (by omega)
  others j hj ht k hk h0 := by
    obtain ⟨e1, b1⟩ := h1.others j hj ht k hk h0
    have hnext := h2.others j hj (by rw [h1.din]; exact ht) k hk
    rw [h1.din, e1] at hnext
    obtain ⟨e2, b2⟩ := hnext h0
    exact ⟨e2, b2.trans b1⟩
  same hall := by
    have e1 := h1.same fun c hc hlt => hall c hc (by omega)
    subst e1
    refine h2.same fun c hc hlt => ?_
    exact h1.keep _ (holds_index (n := m + n) (by omega) hmax) (hall c (by omega) (by omega))

/-- One round: the block at `off` is there, and bytes are copied into it. -/
theorem Written.round (src : Bytes) (ht : d.type ≠ 0) (hg : Grown sb i s d s' d')
    (hmax : off / bsize < maxfile) (hfit : off % bsize + m ≤ bsize) (hm : 0 < m)
    (h0 : blockOf s'.blk d' (off / bsize) ≠ 0)
    (hsame : blockOf s.blk d (off / bsize) ≠ 0 → d' = d) :
    Written sb i s d (s'.setSec (blockOf s'.blk d' (off / bsize))
        (splice (s'.sec (blockOf s'.blk d' (off / bsize))) (off % bsize) ((List.range m).map src)))
      d' off m src := by
  have ht' : d'.type ≠ 0 := by rw [hg.type]; exact ht
  have hti : ((s'.with i d').din i).type ≠ 0 := by rw [with_self]; exact ht'
  have hslot : slot s'.blk d' (off / bsize) = blockOf s'.blk d' (off / bsize) := slot_block hmax
  rw [← hslot] at h0 ⊢
  generalize hx : splice (s'.sec (slot s'.blk d' (off / bsize))) (off % bsize)
    ((List.range m).map src) = x
  -- no slot changes
  have hslots := fun j hj c => slot_setSec hg.sound ht' hmax h0 x (j := j) hj c
  have hself : ∀ k, k < maxfile →
      blockOf (s'.setSec (slot s'.blk d' (off / bsize)) x).blk d' k = slot s'.blk d' k :=
    fun k hk => by
      have h := hslots i hti k
      rw [with_self] at h
      rw [← slot_block hk, h]
  have hkeep : ∀ k, k < maxfile → blockOf s.blk d k ≠ 0 → slot s'.blk d' k = blockOf s.blk d k :=
    fun k hk hne => by
      rw [← slot_block hk] at hne ⊢
      exact hg.keep k hne
  have hin : ∀ c, off ≤ c → c < off + m →
      c / bsize = off / bsize ∧ c % bsize = off % bsize + (c - off) :=
    fun c hc hlt => same_block hc hlt hfit
  have hlen : ((List.range m).map src).length = m := by simp
  refine ⟨?_, hg.din, hg.head, fun k hk hne => ?_, fun c hc hlt => ?_, fun c hc hlt => ?_,
    fun c hc hne hout => ?_, fun j hj htj k hk hne => ?_, fun hall => ?_⟩
  · refine Sound.slots hg.sound rfl (fun _ => rfl) hslots fun j hj bn hbn => ?_
    obtain ⟨hlt, hne⟩ := hg.sound.noHoles j hj bn hbn
    refine ⟨hlt, ?_⟩
    rw [← slot_block hlt] at hne ⊢
    exact (hslots j hj bn).symm ▸ hne
  · rw [hself k hk, hkeep k hk hne]
    exact hne
  · rw [(hin c hc hlt).1, hself _ hmax]
    exact h0
  · obtain ⟨hdiv, hmod⟩ := hin c hc hlt
    unfold FsOf.byte
    rw [hdiv, hmod, hself _ hmax]
    unfold FsOf.setSec
    dsimp only
    rw [Function.update_self, ← hx, Lib.splice_in (by omega) (by omega), Nat.add_sub_cancel_left,
      List.getD_eq_getElem _ _ (by omega), List.getElem_map, List.getElem_range]
  · unfold FsOf.byte
    rw [hself _ hc]
    have hbytes := hg.bytes (c / bsize) hc (by rw [slot_block hc]; exact hne)
    rw [slot_block hc, ← hkeep _ hc hne] at hbytes
    rw [← hkeep _ hc hne, ← hbytes]
    unfold FsOf.setSec
    dsimp only
    by_cases he : slot s'.blk d' (c / bsize) = slot s'.blk d' (off / bsize)
    · -- the byte is in the block of the round, and before or after the bytes copied
      have honce := hg.sound.once i i (off / bsize) (c / bsize) hti hti
      rw [with_self] at honce
      have hdiv := (honce h0 he.symm).2
      have hmod : c % bsize < off % bsize ∨ off % bsize + m ≤ c % bsize := by
        change c % 512 < off % 512 ∨ off % 512 + m ≤ c % 512
        change off / 512 = c / 512 at hdiv
        omega
      rw [he, Function.update_self, ← hx, Lib.splice_out (by omega)]
    · rw [Function.update_of_ne he]
  · have htj' : ((s'.with i d').din j).type ≠ 0 := by
      rw [with_other _ _ hj, hg.din]
      exact htj
    have hslot := hslots j htj' k
    have honce := hg.sound.once j i k (off / bsize) htj' hti
    rw [with_other _ _ hj, hg.din] at hslot
    rw [with_self, with_other _ _ hj, hg.din] at honce
    rw [← slot_block hk] at hne ⊢
    rw [← slot_block hk, hslot, hg.slots j hj htj k]
    refine ⟨rfl, (Function.update_of_ne (fun he => ?_) _ _).trans (hg.others j hj htj k hk hne)⟩
    rw [← hg.slots j hj htj k] at hne he
    exact hj (honce hne he).1
  · exact hsame (hall off (Nat.le_refl _) (by omega))

/-- **The loop of `writei`.** -/
theorem writeiLoop_written {fuel : Nat} (hsz : sb.size ≤ 2 ^ 32) (src : Bytes)
    (h : (s.with i d).Sound sb) (ht : d.type ≠ 0) (hfuel : n ≤ fuel)
    (hmax : off + n ≤ maxfile * bsize) (hroom : need s d (blocks (off + n)) ≤ s.free sb) :
    ∃ s' d', writeiLoop sb fuel s d off n src = some (s', d') ∧
      Written sb i s d s' d' off n src := by
  induction fuel generalizing s d off n src with
  | zero =>
    obtain rfl : n = 0 := Nat.le_zero.mp hfuel
    exact ⟨s, d, rfl, Written.nothing h off src⟩
  | succ fuel ih =>
    cases n with
    | zero => exact ⟨s, d, rfl, Written.nothing h off src⟩
    | succ n =>
      have hpos := round_pos off n
      have hfit := round_fits off (n + 1)
      have hle : min (n + 1) (bsize - off % bsize) ≤ n + 1 := Nat.min_le_left _ _
      have hblocks : blocks (off + (n + 1)) ≤ maxfile := by
        change (off + (n + 1) + (512 - 1)) / 512 ≤ 140
        change off + (n + 1) ≤ 140 * 512 at hmax
        omega
      have hindex : off / bsize < blocks (off + (n + 1)) := index_lt_blocks (by omega)
      obtain ⟨a, s1, d1, hmap, hg, ha, rfl, hroom1, hsame⟩ :=
        bmap_room h ht hsz hblocks hindex hroom
      have hround := Written.round src ht hg (holds_index (n := n + 1) (by omega) hmax) hfit hpos
        ha hsame
      generalize hm : min (n + 1) (bsize - off % bsize) = m at *
      obtain ⟨k, hk⟩ := Nat.exists_eq_add_of_le hle
      unfold writeiLoop
      rw [hmap]
      dsimp only [Option.bind_eq_bind, Option.bind_some]
      rw [hm, show n + 1 - m = k by omega]
      rw [hk] at hmax hroom1 hblocks ⊢
      have ht1 : d1.type ≠ 0 := by rw [hg.type]; exact ht
      have hneed := fun x =>
        need_setSec hg.sound ht1 (holds_index (by omega) hmax) ha x hblocks
      have hmax' : off + m + k ≤ maxfile * bsize := by omega
      obtain ⟨s2, d2, hrest, hw⟩ := ih (fun j => src (m + j)) hround.sound
        (by rw [hround.type]; exact ht) (by omega) hmax'
        (by rw [Nat.add_assoc, hneed, free_setSec]; exact hroom1)
      exact ⟨s2, d2, hrest, hround.trans hmax hw⟩

end

section
variable {sb : Superblock} {i : Nat} {s s' : Fs} {d d' : Dinode}

/-! ## 5. `writei` -/

/-- The calls of `writei` that are refused. -/
def Refused (d : Dinode) (off n : Nat) : Prop :=
  d.size < off ∨ 2 ^ 32 ≤ off + n ∨ maxfile * bsize < off + n

theorem writei_refused (src : Bytes) (hoff : off < 2 ^ 32) (hn : n < 2 ^ 32) (h : Refused d off n) :
    writei sb s i d src off n = some (-1, s, d) := by
  unfold writei
  by_cases h1 : d.size < off ∨ (off + n) % 2 ^ 32 < off
  · rw [if_pos h1]
  · rw [if_neg h1, if_pos]
    rcases h with h | h | h
    · exact absurd (.inl h) h1
    · omega
    · rw [Nat.mod_eq_of_lt (by omega)]
      exact h

/-- The inode after `n` bytes at `off`. -/
def Dinode.extend (d : Dinode) (m : Nat) : Dinode := { d with size := max d.size m }

/-- **`writei` that is not refused**: the bytes, then the size. -/
theorem writei_written (hsz : sb.size ≤ 2 ^ 32) (src : Bytes) (h : s.image.Sound sb)
    (ht : (s.din i).type ≠ 0) (hok : ¬Refused (s.din i) off n)
    (hroom : need s (s.din i) (blocks (off + n)) ≤ s.free sb) :
    ∃ s' d', Written sb i s (s.din i) s' d' off n src ∧ writei sb s i (s.din i) src off n =
      some (↑n, iupdate s' i (Dinode.extend d' (off + n)), Dinode.extend d' (off + n)) := by
  unfold Refused at hok
  simp only [not_or, Nat.not_lt, Nat.not_le] at hok
  obtain ⟨hsize, hwrap, hmax⟩ := hok
  have hholes : NoHoles s.blk (s.din i) := h.noHoles i ht
  rw [← with_din s i] at h
  obtain ⟨s', d', hloop, hw⟩ := writeiLoop_written hsz src h ht (Nat.le_refl n) hmax hroom
  refine ⟨s', d', hw, ?_⟩
  unfold writei Dinode.extend
  rw [Nat.mod_eq_of_lt hwrap, if_neg (by omega), if_neg (by omega), hloop]
  dsimp only [Option.bind_eq_bind, Option.bind_some]
  rw [hw.size]
  by_cases hlt : (s.din i).size < off + n
  · rw [if_pos ⟨by omega, hlt⟩, Nat.max_eq_right (Nat.le_of_lt hlt)]
  · -- every block was there, so the inode in memory is the one on the disk
    rw [if_neg fun hc => hlt hc.2, Nat.max_eq_left (by omega)]
    have hd : d' = s'.din i := by
      rw [hw.din]
      exact hw.same fun c _ hc => (noHoles_byte hholes (by omega)).2
    have hsame : { d' with size := (s.din i).size } = d' := by rw [← hw.size]
    rw [hsame]
    unfold iupdate
    rw [hd, Function.update_eq_self]

/-- `data` in place of what is at `off`. -/
def replaced (xs data : List Byte) (off : Nat) : List Byte :=
  xs.take off ++ data ++ xs.drop (off + data.length)

theorem replaced_range (f g : Nat → Byte) (hoff : off ≤ m) :
    replaced ((List.range m).map f) ((List.range n).map g) off =
      (List.range (max m (off + n))).map fun c =>
        if off ≤ c ∧ c < off + n then g (c - off) else f c := by
  unfold replaced
  refine List.ext_getElem (by simp; omega) fun c h1 h2 => ?_
  rw [List.length_map, List.length_range] at h2
  rw [List.getElem_map, List.getElem_range]
  by_cases hlo : c < off
  · rw [List.getElem_append_left (by simp; omega), List.getElem_append_left (by simp; omega),
      List.getElem_take, List.getElem_map, List.getElem_range, if_neg (by omega)]
  · by_cases hhi : c < off + n
    · rw [List.getElem_append_left (by simp; omega), List.getElem_append_right (by simp; omega),
        if_pos (by omega)]
      simp [Nat.min_eq_left hoff]
    · rw [List.getElem_append_right (by simp; omega), List.getElem_drop, List.getElem_map,
        List.getElem_range, if_neg (by omega)]
      congr 1
      simp
      omega

section
variable (hw : Written sb i s d s' d' off n src)
include hw

/-- **The content is replaced.** -/
theorem Written.content (hh : NoHoles s.blk d) (hoff : off ≤ d.size) :
    (iupdate s' i (Dinode.extend d' (off + n))).content (Dinode.extend d' (off + n)) =
      replaced (s.content d) ((List.range n).map src) off := by
  unfold FsOf.content
  rw [replaced_range _ _ hoff]
  have hsize : (Dinode.extend d' (off + n)).size = max d.size (off + n) := by
    unfold Dinode.extend
    rw [hw.size]
  rw [hsize]
  refine List.map_congr_left fun c hc => ?_
  have hlt := List.mem_range.mp hc
  change s'.byte d' c = _
  split
  · rename_i hin
    exact hw.data c hin.1 hin.2
  · have hb := noHoles_byte (c := c) hh (by omega)
    exact hw.rest c hb.1 hb.2 (by omega)

/-- The other files have their content. -/
theorem Written.content_other {j : Nat} (hj : j ≠ i) (ht : (s.din j).type ≠ 0)
    (hh : NoHoles s.blk (s.din j)) (m : Dinode) :
    (iupdate s' i m).content (s.din j) = s.content (s.din j) := by
  refine List.map_congr_left fun c hc => ?_
  obtain ⟨hmax, hne⟩ := noHoles_byte hh (List.mem_range.mp hc)
  obtain ⟨hblk, hsec⟩ := hw.others j hj ht _ hmax hne
  change s'.sec (blockOf s'.blk (s.din j) (c / bsize)) (c % bsize) = _
  rw [hblk, hsec]
  rfl

/-- The disk is sound with the new size: every block up to it is there. -/
theorem Written.sound_extend (ht : d.type ≠ 0) (hoff : off ≤ d.size)
    (hmax : off + n ≤ maxfile * bsize) :
    (iupdate s' i (Dinode.extend d' (off + n))).image.Sound sb := by
  change (s'.with i (Dinode.extend d' (off + n))).Sound sb
  have hti : ((s'.with i d').din i).type ≠ 0 := by
    rw [with_self, hw.type]
    exact ht
  refine Sound.slots hw.sound rfl (fun j => ?_) (fun j hj c => ?_) fun j hj => ?_
  · by_cases hji : j = i
    · rw [hji, with_self, with_self]
      rfl
    · rw [with_other _ _ hji, with_other _ _ hji]
  · by_cases hji : j = i
    · rw [hji, with_self, with_self]
      rfl
    · rw [with_other _ _ hji, with_other _ _ hji]
      rfl
  · by_cases hji : j = i
    · rw [hji, with_self]
      intro bn hbn
      have hold := hw.sound.noHoles i hti bn
      rw [with_self, hw.size] at hold
      change bn < blocks (max d'.size (off + n)) at hbn
      rw [hw.size] at hbn
      by_cases hlt : bn < blocks d.size
      · exact hold hlt
      · -- the block is beyond the old size, so it starts with a byte that is written
        have hfirst : off ≤ bn * bsize ∧ bn * bsize < off + n ∧ bn * bsize / bsize = bn := by
          change bn < (max d.size (off + n) + (512 - 1)) / 512 at hbn
          change ¬bn < (d.size + (512 - 1)) / 512 at hlt
          change off ≤ bn * 512 ∧ bn * 512 < off + n ∧ bn * 512 / 512 = bn
          omega
        have hidx := holds_index hfirst.2.1 hmax
        have hfill := hw.filled (bn * bsize) hfirst.1 hfirst.2.1
        rw [hfirst.2.2] at hidx hfill
        exact ⟨hidx, hfill⟩
    · have hother := hw.sound.noHoles j hj
      rw [with_other _ _ hji] at hother ⊢
      exact hother

end

/-! ## 6. The array -/

/-- `readi` returns the bytes of the content that there are. -/
def ReadsContent (sb : Superblock) (s : Fs) (i : Nat) : Prop :=
  ∀ off n, off ≤ (s.din i).size → off + n < 2 ^ 32 →
    ∃ data, readi sb s (s.din i) off n = some (some data, s, s.din i) ∧
      data.length = min n ((s.din i).size - off) ∧
      data = ((s.content (s.din i)).drop off).take n

theorem readsContent (h : s.image.Sound sb) (ht : (s.din i).type ≠ 0) : ReadsContent sb s i :=
  fun _ _ hoff hn =>
    have hholes : NoHoles s.blk (s.din i) := h.noHoles i ht
    ⟨_, readi_content hholes hoff hn, by simp, rfl⟩

/-- The bytes of file `i` from `off` on are replaced. -/
structure Replaced (sb : Superblock) (i : Nat) (s s' : Fs) (off : Nat) (data : List Byte) :
    Prop where
  sound : s'.image.Sound sb
  head : ∃ a, s'.din i =
    { s.din i with
      size := max (s.din i).size (off + data.length)
      addrs := a }
  content : s'.content (s'.din i) = replaced (s.content (s.din i)) data off
  din : ∀ j, j ≠ i → s'.din j = s.din j
  others : ∀ j, j ≠ i → (s.din j).type ≠ 0 → s'.content (s.din j) = s.content (s.din j)

/-- **`writei` that is not refused** replaces bytes of its file. -/
theorem writei_replaced (hsz : sb.size ≤ 2 ^ 32) (h : s.image.Sound sb) (ht : (s.din i).type ≠ 0)
    (src : Bytes) (hok : ¬Refused (s.din i) off n)
    (hroom : need s (s.din i) (blocks (off + n)) ≤ s.free sb) :
    ∃ s', writei sb s i (s.din i) src off n = some (↑n, s', s'.din i) ∧
      Replaced sb i s s' off ((List.range n).map src) := by
  obtain ⟨s', d', hw, hcall⟩ := writei_written hsz src h ht hok hroom
  unfold Refused at hok
  have hholes : ∀ j, (s.din j).type ≠ 0 → NoHoles s.blk (s.din j) := h.noHoles
  have hself : (iupdate s' i (Dinode.extend d' (off + n))).din i = Dinode.extend d' (off + n) :=
    Function.update_self ..
  refine ⟨iupdate s' i (Dinode.extend d' (off + n)), by rw [hself]; exact hcall,
    hw.sound_extend ht (by omega) (by omega), ⟨d'.addrs, ?_⟩, ?_,
    fun j hj => (Function.update_of_ne hj ..).trans (congrFun hw.din j), fun j hj hjt =>
      hw.content_other hj hjt (hholes j hjt) _⟩
  · rw [hself, List.length_map, List.length_range]
    unfold Dinode.extend
    rw [hw.size, hw.head]
  · rw [hself]
    exact hw.content (hholes i ht) (by omega)

/-- **Files are arrays of bytes.** On a sound disk with the missing blocks free, `writei` to a
    regular file either refuses and changes nothing, or replaces bytes of the content of this file
    and of no other; `readi` returns the content before and after. -/
theorem writei_array (hsz : sb.size ≤ 2 ^ 32) (h : s.image.Sound sb) (ht : (s.din i).type = tFile)
    (src : Bytes) {off n : Nat} (hoff : off < 2 ^ 32) (hn : n < 2 ^ 32) :
    ReadsContent sb s i ∧
    (Refused (s.din i) off n → writei sb s i (s.din i) src off n = some (-1, s, s.din i)) ∧
    (¬Refused (s.din i) off n → need s (s.din i) (blocks (off + n)) ≤ s.free sb →
      ∃ s', writei sb s i (s.din i) src off n = some (↑n, s', s'.din i) ∧ s'.image.Sound sb ∧
        (s'.din i).type = tFile ∧ (s'.din i).size = max (s.din i).size (off + n) ∧
        s'.content (s'.din i) = replaced (s.content (s.din i)) ((List.range n).map src) off ∧
        (∀ j, j ≠ i → s'.din j = s.din j ∧
          ((s.din j).type ≠ 0 → s'.content (s'.din j) = s.content (s.din j))) ∧
        ReadsContent sb s' i) := by
  have ht0 : (s.din i).type ≠ 0 := by rw [ht]; decide
  refine ⟨readsContent h ht0, writei_refused src hoff hn, fun hok hroom => ?_⟩
  obtain ⟨s', hcall, hr⟩ := writei_replaced hsz h ht0 src hok hroom
  obtain ⟨a, hhead⟩ := hr.head
  have htype : (s'.din i).type = tFile := by
    rw [hhead]
    exact ht
  refine ⟨s', hcall, hr.sound, htype, ?_, hr.content, fun j hj => ⟨hr.din j hj, fun hjt => ?_⟩,
    readsContent hr.sound (by rw [htype]; decide)⟩
  · rw [hhead, List.length_map, List.length_range]
  · rw [hr.din j hj]
    exact hr.others j hj hjt

/-- The disk of mkfs.c with one file, inode 1, of `size` bytes in `n` direct blocks. -/
def fileDisk {L : Type} (n size : Nat) (log : L) : FsOf L where
  bit b := decide (b < Inode.nmeta Mkfs.sb + n)
  sec _ := Mkfs.zeroes
  din i := ⟨if i = 1 then tFile else 0, 0, 0, 1, size,
    fun k => if k < n then Inode.nmeta Mkfs.sb + k else 0⟩
  log := log

theorem fileDisk_sound {L : Type} {size : Nat} (log : L) (hn : n ≤ ndirect)
    (hsize : blocks size = n) : (fileDisk n size log).image.Sound Mkfs.sb := by
  have hdir : ndirect = 12 := rfl
  have hmeta : Inode.nmeta Mkfs.sb + 12 ≤ Mkfs.sb.size := by decide
  have hblock : ∀ j k,
      blockOf (fileDisk n size log).image.blk ((fileDisk n size log).image.din j) k =
        if k < n then Inode.nmeta Mkfs.sb + k else 0 := fun j k => by
    unfold blockOf
    split
    · rfl
    · have hind : ((fileDisk n size log).image.din j).addrs ndirect = 0 := if_neg (by omega)
      rw [if_pos hind, if_neg (by omega)]
  have hslot : ∀ j k, slot (fileDisk n size log).image.blk ((fileDisk n size log).image.din j) k =
      if k < n then Inode.nmeta Mkfs.sb + k else 0 := fun j k => by
    have hmax : maxfile = 140 := rfl
    unfold slot
    split
    · exact hblock j k
    · rw [if_neg (show ¬k < n by omega)]
      split
      · exact if_neg (by omega)
      · rfl
  have hone : ∀ {j}, ((fileDisk n size log).image.din j).type ≠ 0 → j = 1 := fun {j} ht => by
    by_contra hj
    exact ht (if_neg hj)
  refine ⟨fun j k _ h0 => ?_, fun i j k c hi hj h0 he => ⟨(hone hi).trans (hone hj).symm, ?_⟩,
    fun b hb => ?_, fun j _ bn hbn => ?_⟩
  · rw [hslot] at h0 ⊢
    split at h0
    · rename_i hk
      rw [if_pos hk]
      omega
    · exact absurd rfl h0
  · rw [hslot] at h0
    rw [hslot, hslot] at he
    split at h0
    · rename_i hk
      rw [if_pos hk] at he
      split at he <;> omega
    · exact absurd rfl h0
  · have hbit : (fileDisk n size log).image.bit b = true ↔ b < Inode.nmeta Mkfs.sb + n :=
      decide_eq_true_iff
    have hpos : 0 < Inode.nmeta Mkfs.sb := Nat.succ_pos _
    rw [hbit]
    refine ⟨fun hlt => ?_, fun hor => ?_⟩
    · by_cases hm : b < Inode.nmeta Mkfs.sb
      · exact .inl hm
      · refine .inr ⟨1, b - Inode.nmeta Mkfs.sb, (by decide : tFile ≠ 0), ?_⟩
        rw [hslot, if_pos (by omega)]
        omega
    · rcases hor with hm | ⟨j, k, -, rfl⟩
      · omega
      · rw [hslot]
        split <;> omega
  · have hlt : bn < n := hsize ▸ hbn
    refine ⟨by change bn < 140; omega, ?_⟩
    rw [hblock, if_pos hlt]
    have hpos : 0 < Inode.nmeta Mkfs.sb := Nat.succ_pos _
    omega

/-- The file is empty. -/
def oneFile : Fs := fileDisk 0 0 ()

theorem oneFile_sound : oneFile.image.Sound Mkfs.sb :=
  fileDisk_sound () (Nat.zero_le _) (by decide)

/-- Three bytes are written to the empty file. -/
theorem writei_array_oneFile :
    ∃ s', writei Mkfs.sb oneFile 1 (oneFile.din 1) (fun j => BitVec.ofNat 8 (j + 1)) 0 3 =
        some (3, s', s'.din 1) ∧ s'.content (s'.din 1) = [1, 2, 3] ∧
      ReadsContent Mkfs.sb s' 1 := by
  have hfree : 1 ≤ oneFile.free Mkfs.sb := Lib.le_sum
    (fun b => if oneFile.bit b then 0 else 1) (show 999 < Mkfs.sb.size by decide)
  have hneed : need oneFile (oneFile.din 1) (blocks (0 + 3)) = 1 := by decide
  have hok : ¬Refused (oneFile.din 1) 0 3 := by unfold Refused; decide
  obtain ⟨s', hcall, -, -, -, hcontent, -, hreads⟩ :=
    (writei_array (by decide) oneFile_sound rfl (fun j => BitVec.ofNat 8 (j + 1))
      (by decide) (by decide)).2.2 hok (hneed ▸ hfree)
  exact ⟨s', hcall, hcontent, hreads⟩

end

end Xv6Clock.FileData
