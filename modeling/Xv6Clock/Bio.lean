/-
  File:      Xv6Clock/Bio.lean
  Subject:   The buffer cache (bio.c) as its users see it.

  The list through `bcache.head` is a list here, the buffer used last first. A buffer is in use as
  long as someone has a reference to it (`held`; `refcnt` counts them) or it is dirty: the log has
  changed it and not yet written it. `bget` takes the buffer of the block, or else the last one of
  the list that is not in use; where there is none it panics.
  * `view`: what `bread` returns, from the buffer or from the disk;
  * `Ok`: a block has one buffer, and a buffer that is not dirty has what the disk has;
  * `Fetched`: taking and giving up references changes neither the disk nor the view.
-/
import Mathlib.Data.List.Nodup
import Mathlib.Data.List.Pairwise
import Mathlib.Data.List.Perm.Subperm
import Mathlib.Data.Option.Basic

namespace Xv6Clock.Bio

/-! ## 1. The cache -/

def nbuf : Nat := 30

/-- `struct buf`: the block it is assigned to, if it ever was, `B_DIRTY`, and the data. -/
structure Buf (δ : Type) where
  block : Option Nat
  dirty : Bool
  data : δ

/-- The disk, the buffers, and the references to them: whose (none for the process that commits or
    recovers), and to the buffer of which block. -/
structure Cache (δ : Type) where
  disk : Nat → δ
  bufs : List (Buf δ)
  held : List (Option Nat × Nat)

variable {δ : Type}

/-- The buffer is the one of block `b`. -/
def Buf.is (b : Nat) (x : Buf δ) : Bool := x.block = some b

namespace Cache

def refcnt (c : Cache δ) (b : Nat) : Nat := c.held.countP fun h => h.2 = b

def cached (c : Cache δ) (b : Nat) : Bool := c.bufs.any (Buf.is b)

/-- What `bread` returns. -/
def view (c : Cache δ) (b : Nat) : δ :=
  match c.bufs.find? (Buf.is b) with
  | some x => x.data
  | none => c.disk b

/-- The buffer of block `b` is dirty. -/
def pinned (c : Cache δ) (b : Nat) : Prop := ∃ x ∈ c.bufs, x.block = some b ∧ x.dirty = true

/-- The buffer is not in use. -/
def unused (c : Cache δ) (x : Buf δ) : Bool := !x.dirty && x.block.all fun b => c.refcnt b = 0

end Cache

/-- The second loop of `bget`: the last buffer that `p` allows becomes `y`. -/
def recycle (p : Buf δ → Bool) (y : Buf δ) : List (Buf δ) → Option (List (Buf δ))
  | [] => none
  | x :: xs =>
    match recycle p y xs with
    | some ys => some (x :: ys)
    | none => if p x then some (y :: xs) else none

namespace Cache

/-- `bread`: `bget`, and `iderw` for a buffer that was recycled. -/
def bread (c : Cache δ) (u : Option Nat) (b : Nat) : Option (Cache δ) :=
  if c.cached b then some { c with held := (u, b) :: c.held }
  else (recycle c.unused ⟨some b, false, c.disk b⟩ c.bufs).map fun l =>
    { c with bufs := l, held := (u, b) :: c.held }

/-- `brelse`. -/
def brelse (c : Cache δ) (u : Option Nat) (b : Nat) : Cache δ :=
  let c := { c with held := c.held.erase (u, b) }
  if c.refcnt b = 0 then
    { c with bufs := c.bufs.filter (Buf.is b) ++ c.bufs.filter fun x => !x.is b }
  else c

/-- `bread` of several blocks by the process that commits or recovers. -/
def breadAll (c : Cache δ) : List Nat → Option (Cache δ)
  | [] => some c
  | b :: bs => (c.bread none b).bind fun c => c.breadAll bs

def brelseAll (c : Cache δ) (bs : List Nat) : Cache δ := bs.foldl (fun c b => c.brelse none b) c

/-- The buffer of block `b` gets these data and this flag. -/
def put (c : Cache δ) (b : Nat) (dirty : Bool) (x : δ) : Cache δ :=
  { c with bufs := c.bufs.map fun y => if y.is b then ⟨y.block, dirty, x⟩ else y }

/-- `bwrite` of the buffer of block `b`, its data changed to `x`. -/
def bwrite (c : Cache δ) (b : Nat) (x : δ) : Cache δ :=
  { c.put b false x with disk := Function.update c.disk b x }

/-- After `binit`. -/
def binit (disk : Nat → δ) (zero : δ) : Cache δ :=
  ⟨disk, List.replicate nbuf ⟨none, false, zero⟩, []⟩

end Cache

/-! ## 2. The invariant -/

theorem Buf.is_iff {b : Nat} {x : Buf δ} : x.is b = true ↔ x.block = some b := decide_eq_true_iff

/-- Buffers of different blocks. -/
def Apart (x y : Buf δ) : Prop := ∀ b, x.block = some b → y.block ≠ some b

theorem Apart.symm {x y : Buf δ} (h : Apart x y) : Apart y x := fun b hy hx => h b hx hy

instance : Std.Symm (Apart (δ := δ)) := ⟨fun _ _ => Apart.symm⟩

/-- **The cache is in order.** -/
structure Cache.Ok (c : Cache δ) : Prop where
  count : c.bufs.length = nbuf
  once : c.bufs.Pairwise Apart
  clean : ∀ x ∈ c.bufs, ∀ b, x.block = some b → x.dirty = false → x.data = c.disk b
  held : ∀ h ∈ c.held, c.cached h.2 = true

/-- Nobody uses the cache. -/
structure Cache.Idle (c : Cache δ) : Prop where
  held : c.held = []
  clean : ∀ x ∈ c.bufs, x.dirty = false

variable {bs : List Nat} {d : Bool}

section
variable {c c' : Cache δ} {u : Option Nat} {b : Nat}

theorem Cache.cached_iff : c.cached b = true ↔ ∃ x ∈ c.bufs, x.block = some b := by
  unfold Cache.cached
  rw [List.any_eq_true]
  simp only [Buf.is_iff]

theorem Cache.view_of_not (h : c.cached b = false) : c.view b = c.disk b := by
  unfold Cache.view
  split
  · rename_i x hx
    have hc : c.cached b = true := Cache.cached_iff.mpr
      ⟨x, List.mem_of_find?_eq_some hx, Buf.is_iff.mp (List.find?_some hx)⟩
    rw [h] at hc
    cases hc
  · rfl

/-- A block has one buffer. -/
theorem Cache.Ok.eq_of_block (h : c.Ok) {x y : Buf δ} (hx : x ∈ c.bufs) (hy : y ∈ c.bufs)
    (hxb : x.block = some b) (hyb : y.block = some b) : x = y := by
  by_contra hne
  exact h.once.forall hx hy hne b hxb hyb

theorem Cache.Ok.view_of_mem (h : c.Ok) {x : Buf δ} (hx : x ∈ c.bufs) (hb : x.block = some b) :
    c.view b = x.data := by
  unfold Cache.view
  split
  · rename_i y hy
    rw [h.eq_of_block (List.mem_of_find?_eq_some hy) hx (Buf.is_iff.mp (List.find?_some hy)) hb]
  · rename_i hnone
    exact absurd (Buf.is_iff.mpr hb) (by simpa using List.find?_eq_none.mp hnone x hx)

/-- **Blocks that are all in the cache are at most NBUF.** -/
theorem Cache.Ok.length_le (h : c.Ok) (hn : bs.Nodup) (hc : ∀ b ∈ bs, c.cached b = true) :
    bs.length ≤ nbuf := by
  have hsub : bs.map some ⊆ c.bufs.map (·.block) := fun o ho => by
    obtain ⟨b, hb, rfl⟩ := List.mem_map.mp ho
    obtain ⟨x, hx, hxb⟩ := Cache.cached_iff.mp (hc b hb)
    exact List.mem_map.mpr ⟨x, hx, hxb⟩
  have hle := ((hn.map (Option.some_injective _)).subperm hsub).length_le
  rw [List.length_map, List.length_map, h.count] at hle
  exact hle

theorem binit_ok (disk : Nat → δ) (zero : δ) : (Cache.binit disk zero).Ok where
  count := List.length_replicate
  once := by
    refine List.pairwise_replicate.mpr (.inr fun b hb => ?_)
    cases hb
  clean x hx b hb := by
    rw [List.eq_of_mem_replicate hx] at hb
    cases hb
  held _ h := nomatch h

theorem binit_idle (disk : Nat → δ) (zero : δ) : (Cache.binit disk zero).Idle :=
  ⟨rfl, fun x hx => by rw [List.eq_of_mem_replicate hx]⟩

theorem binit_view (disk : Nat → δ) (zero : δ) : (Cache.binit disk zero).view = disk := by
  funext b
  refine Cache.view_of_not ?_
  rw [← Bool.not_eq_true, Cache.cached_iff]
  rintro ⟨x, hx, hb⟩
  rw [List.eq_of_mem_replicate hx] at hb
  cases hb

/-! ## 3. References -/

/-- **References are taken and given up**: the disk and the view stay, and so do the dirty
    buffers. -/
structure Fetched (c c' : Cache δ) : Prop where
  ok : c'.Ok
  disk : c'.disk = c.disk
  view : c'.view = c.view
  dirty : ∀ x, x.dirty = true → (x ∈ c'.bufs ↔ x ∈ c.bufs)

theorem Fetched.refl (h : c.Ok) : Fetched c c := ⟨h, rfl, rfl, fun _ _ => Iff.rfl⟩

theorem Fetched.trans {c'' : Cache δ} (h1 : Fetched c c') (h2 : Fetched c' c'') : Fetched c c'' :=
  ⟨h2.ok, h2.disk.trans h1.disk, h2.view.trans h1.view,
    fun x hd => (h2.dirty x hd).trans (h1.dirty x hd)⟩

theorem clean_of_dirty (h : ∀ x ∈ c'.bufs, x.dirty = true → x ∈ c.bufs)
    (hc : ∀ x ∈ c.bufs, x.dirty = false) : ∀ x ∈ c'.bufs, x.dirty = false := fun x hx => by
  by_contra hd
  have hd' : x.dirty = true := by simpa using hd
  exact hd (hc x (h x hx hd'))

theorem recycle_some {p : Buf δ → Bool} {y : Buf δ} {l l' : List (Buf δ)}
    (h : recycle p y l = some l') :
    ∃ l₁ x l₂, l = l₁ ++ x :: l₂ ∧ p x = true ∧ l' = l₁ ++ y :: l₂ := by
  induction l generalizing l' with
  | nil => cases h
  | cons z l ih =>
    unfold recycle at h
    split at h
    · rename_i m hm
      cases h
      obtain ⟨l₁, x, l₂, rfl, hx, rfl⟩ := ih hm
      exact ⟨z :: l₁, x, l₂, rfl, hx, rfl⟩
    · split at h
      · rename_i hz
        cases h
        exact ⟨[], z, l, rfl, hz, rfl⟩
      · cases h

theorem recycle_none {p : Buf δ → Bool} {y : Buf δ} {l : List (Buf δ)} (h : recycle p y l = none) :
    ∀ x ∈ l, p x = false := by
  induction l with
  | nil => exact fun _ hx => nomatch hx
  | cons z l ih =>
    unfold recycle at h
    split at h
    · cases h
    · rename_i hl
      split at h
      · cases h
      · rename_i hz
        intro x hx
        rcases List.mem_cons.mp hx with rfl | hx
        · simpa using hz
        · exact ih hl x hx

/-- Nobody has a reference to a buffer that is not in use. -/
theorem Cache.unused_iff {x : Buf δ} : c.unused x = true ↔
    x.dirty = false ∧ ∀ h ∈ c.held, x.block ≠ some h.2 := by
  unfold Cache.unused Cache.refcnt
  rw [Bool.and_eq_true, Bool.not_eq_true']
  refine and_congr_right fun _ => ?_
  cases x.block with
  | none => simp
  | some b =>
    simp only [Option.all_some, decide_eq_true_iff, List.countP_eq_zero, ne_eq, Option.some.injEq]
    exact forall₂_congr fun _ _ => not_congr eq_comm

/-- The disk is read into the last buffer that is not in use. -/
theorem Cache.Ok.recycled (h : c.Ok) (hb : c.cached b = false) {l : List (Buf δ)}
    (hl : recycle c.unused ⟨some b, false, c.disk b⟩ c.bufs = some l) :
    Fetched c { c with bufs := l, held := (u, b) :: c.held } ∧
      ∃ x ∈ l, x.block = some b := by
  obtain ⟨l₁, x, l₂, hbufs, hx, rfl⟩ := recycle_some hl
  obtain ⟨hclean, hfree⟩ := Cache.unused_iff.mp hx
  have hnb : ∀ y ∈ c.bufs, y.block ≠ some b := fun y hy he => by
    rw [Cache.cached_iff.mpr ⟨y, hy, he⟩] at hb
    cases hb
  have hperm : ∀ y : Buf δ, (l₁ ++ y :: l₂).Perm (y :: (l₁ ++ l₂)) := fun y => List.perm_middle
  have honce := h.once
  have hcount := h.count
  rw [hbufs, (hperm x).pairwise_iff Apart.symm, List.pairwise_cons] at honce
  rw [hbufs, (hperm x).length_eq] at hcount
  have hmem : ∀ {y z : Buf δ}, z ∈ l₁ ++ y :: l₂ ↔ z = y ∨ z ∈ l₁ ++ l₂ := fun {y z} => by
    rw [(hperm y).mem_iff, List.mem_cons]
  have hrest : ∀ z ∈ l₁ ++ l₂, z ∈ c.bufs := fun z hz => by
    rw [hbufs]
    exact hmem.mpr (.inr hz)
  have hnew : (⟨some b, false, c.disk b⟩ : Buf δ) ∈ l₁ ++ ⟨some b, false, c.disk b⟩ :: l₂ :=
    hmem.mpr (.inl rfl)
  have hok : Cache.Ok { c with
      bufs := l₁ ++ ⟨some b, false, c.disk b⟩ :: l₂, held := (u, b) :: c.held } := by
    refine ⟨?_, ?_, fun y hy e he hd => ?_, fun r hr => Cache.cached_iff.mpr ?_⟩
    · rw [← hcount]
      exact (hperm _).length_eq
    · refine ((hperm _).pairwise_iff Apart.symm).mpr (List.pairwise_cons.mpr ⟨fun z hz e he => ?_,
        honce.2⟩)
      cases he
      exact hnb z (hrest z hz)
    · rcases hmem.mp hy with rfl | hy
      · cases he
        rfl
      · exact h.clean y (hrest y hy) e he hd
    · rcases List.mem_cons.mp hr with rfl | hr
      · exact ⟨_, hnew, rfl⟩
      · -- a buffer someone has a reference to is not the one that was recycled
        obtain ⟨y, hy, he⟩ := Cache.cached_iff.mp (h.held r hr)
        rw [hbufs] at hy
        rcases hmem.mp hy with rfl | hy
        · exact absurd he (hfree r hr)
        · exact ⟨y, hmem.mpr (.inr hy), he⟩
  refine ⟨⟨hok, rfl, ?_, fun y hd => ?_⟩, _, hnew, rfl⟩
  · funext e
    by_cases heb : e = b
    · rw [heb, hok.view_of_mem hnew rfl, Cache.view_of_not hb]
    cases he : c.cached e with
    | false =>
      rw [Cache.view_of_not he]
      refine Cache.view_of_not ?_
      rw [← Bool.not_eq_true, Cache.cached_iff]
      rintro ⟨y, hy, hye⟩
      rcases hmem.mp hy with rfl | hy
      · exact heb (Option.some.inj hye).symm
      · rw [Cache.cached_iff.mpr ⟨y, hrest y hy, hye⟩] at he
        cases he
    | true =>
      obtain ⟨y, hy, hye⟩ := Cache.cached_iff.mp he
      rw [h.view_of_mem hy hye]
      rw [hbufs] at hy
      rcases hmem.mp hy with rfl | hy'
      · -- the buffer that was recycled had what the disk has
        have hdisk := h.clean y (by rw [hbufs]; exact hmem.mpr (.inl rfl)) e hye hclean
        rw [hdisk]
        refine Cache.view_of_not ?_
        rw [← Bool.not_eq_true, Cache.cached_iff]
        rintro ⟨z, hz, hze⟩
        rcases hmem.mp hz with rfl | hz
        · exact heb (Option.some.inj hze).symm
        · exact honce.1 z hz e hye hze
      · exact hok.view_of_mem (hmem.mpr (.inr hy')) hye
  · -- neither the buffer that was recycled nor the new one is dirty
    have hne : ∀ z : Buf δ, z.dirty = false → y ≠ z := fun z hz he => by
      rw [he, hz] at hd
      cases hd
    rw [hbufs, hmem, hmem, or_iff_right (hne _ rfl), or_iff_right (hne x hclean)]

/-- **`bread`.** -/
theorem Cache.Ok.bread (h : c.Ok) (hb : c.bread u b = some c') :
    Fetched c c' ∧ c'.held = (u, b) :: c.held := by
  unfold Cache.bread at hb
  split at hb
  · rename_i hc
    cases hb
    refine ⟨⟨⟨h.count, h.once, h.clean, fun r hr => ?_⟩, rfl, rfl, fun _ _ => Iff.rfl⟩, rfl⟩
    rcases List.mem_cons.mp hr with rfl | hr
    · exact hc
    · exact h.held r hr
  · rename_i hc
    obtain ⟨l, hl, rfl⟩ := Option.map_eq_some_iff.mp hb
    exact ⟨(h.recycled (by simpa using hc) hl).1, rfl⟩

/-- **`bget` does not panic** while nothing is dirty and fewer than NBUF references are out. -/
theorem Cache.Ok.bread_isSome (h : c.Ok) (hclean : ∀ x ∈ c.bufs, x.dirty = false)
    (hlt : c.held.length < nbuf) : (c.bread u b).isSome := by
  unfold Cache.bread
  split
  · rfl
  rw [Option.isSome_map]
  by_contra hnone
  have hused : ∀ x ∈ c.bufs, ∃ r ∈ c.held, x.block = some r.2 := fun x hx => by
    by_contra hfree
    push Not at hfree
    have hu := recycle_none (by simpa using hnone) x hx
    rw [Cache.unused_iff.mpr ⟨hclean x hx, hfree⟩] at hu
    cases hu
  have hnodup : (c.bufs.map (·.block)).Nodup := by
    refine List.pairwise_map.mpr (h.once.imp_of_mem fun {x y} hx _ hxy he => ?_)
    obtain ⟨r, -, hr⟩ := hused x hx
    exact hxy _ hr (he ▸ hr)
  have hsub : c.bufs.map (·.block) ⊆ c.held.map fun r => some r.2 := fun o ho => by
    obtain ⟨x, hx, rfl⟩ := List.mem_map.mp ho
    obtain ⟨r, hr, he⟩ := hused x hx
    exact List.mem_map.mpr ⟨r, hr, he.symm⟩
  have hle := (hnodup.subperm hsub).length_le
  rw [List.length_map, List.length_map, h.count] at hle
  omega

/-- Another order of the buffers. -/
theorem Cache.Ok.perm (h : c.Ok) {l : List (Buf δ)} (hl : l.Perm c.bufs)
    {held : List (Option Nat × Nat)} (hheld : held ⊆ c.held) :
    Fetched c { c with bufs := l, held := held } := by
  have hcached : ∀ e, Cache.cached { c with bufs := l, held := held } e = c.cached e := fun e => by
    rw [Bool.eq_iff_iff, Cache.cached_iff, Cache.cached_iff]
    simp only [hl.mem_iff]
  have hok : Cache.Ok { c with bufs := l, held := held } :=
    ⟨hl.length_eq.trans h.count, (hl.pairwise_iff Apart.symm).mpr h.once,
      fun x hx => h.clean x (hl.mem_iff.mp hx),
      fun r hr => (hcached r.2).trans (h.held r (hheld hr))⟩
  refine ⟨hok, rfl, funext fun e => ?_, fun _ _ => hl.mem_iff⟩
  cases he : c.cached e with
  | false => rw [Cache.view_of_not he, Cache.view_of_not ((hcached e).trans he)]
  | true =>
    obtain ⟨x, hx, hxe⟩ := Cache.cached_iff.mp he
    rw [h.view_of_mem hx hxe]
    exact hok.view_of_mem (hl.mem_iff.mpr hx) hxe

/-- **`brelse`.** -/
theorem Cache.Ok.brelse (h : c.Ok) (u : Option Nat) (b : Nat) : Fetched c (c.brelse u b) := by
  unfold Cache.brelse
  dsimp only
  split
  · exact h.perm (List.filter_append_perm _ _) (List.erase_subset ..)
  · exact h.perm (.refl _) (List.erase_subset ..)

theorem brelse_held (c : Cache δ) (u : Option Nat) (b : Nat) :
    (c.brelse u b).held = c.held.erase (u, b) := by
  unfold Cache.brelse
  dsimp only
  split <;> rfl

theorem Cache.Ok.breadAll (h : c.Ok) (hb : c.breadAll bs = some c') :
    Fetched c c' ∧ c'.held.Perm (bs.map (none, ·) ++ c.held) := by
  induction bs generalizing c with
  | nil =>
    cases hb
    exact ⟨.refl h, .refl _⟩
  | cons b bs ih =>
    obtain ⟨c1, h1, h2⟩ := Option.bind_eq_some_iff.mp hb
    obtain ⟨hf, hheld⟩ := h.bread h1
    obtain ⟨hf', hperm⟩ := ih hf.ok h2
    rw [hheld] at hperm
    exact ⟨hf.trans hf', hperm.trans List.perm_middle⟩

theorem Cache.Ok.breadAll_isSome (h : c.Ok) (hclean : ∀ x ∈ c.bufs, x.dirty = false)
    (hlt : c.held.length + bs.length ≤ nbuf) : (c.breadAll bs).isSome := by
  induction bs generalizing c with
  | nil => rfl
  | cons b bs ih =>
    rw [List.length_cons] at hlt
    obtain ⟨c1, h1⟩ := Option.isSome_iff_exists.mp
      (h.bread_isSome (u := none) (b := b) hclean (by omega))
    obtain ⟨hf, hheld⟩ := h.bread h1
    unfold Cache.breadAll
    rw [h1]
    exact ih hf.ok (clean_of_dirty (fun x hx hd => (hf.dirty x hd).mp hx) hclean)
      (by rw [hheld, List.length_cons]; omega)

theorem Cache.Ok.brelseAll (h : c.Ok) (bs : List Nat) : Fetched c (c.brelseAll bs) := by
  induction bs generalizing c with
  | nil => exact .refl h
  | cons b bs ih => exact (h.brelse none b).trans (ih (h.brelse none b).ok)

theorem brelseAll_held {held : List (Option Nat × Nat)}
    (h : c.held.Perm (bs.map (none, ·) ++ held)) : (c.brelseAll bs).held.Perm held := by
  induction bs generalizing c with
  | nil => exact h
  | cons b bs ih =>
    refine ih ?_
    rw [brelse_held]
    simpa using h.erase (none, b)

theorem Fetched.idle (h : Fetched c c') (hheld : c'.held.Perm c.held) (hi : c.Idle) : c'.Idle :=
  ⟨(hi.held ▸ hheld).eq_nil, clean_of_dirty (fun x hx hd => (h.dirty x hd).mp hx) hi.clean⟩

/-! ## 4. Data -/

theorem mem_put {x : Buf δ} {y : δ} : x ∈ (c.put b d y).bufs ↔
    (∃ z ∈ c.bufs, z.block = some b ∧ x = ⟨some b, d, y⟩) ∨ x ∈ c.bufs ∧ x.block ≠ some b := by
  unfold Cache.put
  simp only [List.mem_map]
  constructor
  · rintro ⟨z, hz, rfl⟩
    split
    · rename_i hzb
      rw [Buf.is_iff] at hzb
      exact .inl ⟨z, hz, hzb, by rw [hzb]⟩
    · rename_i hzb
      exact .inr ⟨hz, fun he => hzb (Buf.is_iff.mpr he)⟩
  · rintro (⟨z, hz, hzb, rfl⟩ | ⟨hx, hxb⟩)
    · exact ⟨z, hz, by rw [if_pos (Buf.is_iff.mpr hzb), hzb]⟩
    · exact ⟨x, hx, if_neg fun he => hxb (Buf.is_iff.mp he)⟩

@[simp] theorem put_cached (c : Cache δ) (d : Bool) (y : δ) (e : Nat) :
    (c.put b d y).cached e = c.cached e := by
  unfold Cache.cached Cache.put
  rw [List.any_map]
  refine congrArg (List.any c.bufs) (funext fun z => ?_)
  rw [Function.comp_apply]
  split <;> rfl

/-- The buffer of block `b` has new data: the disk has them too, or the buffer is dirty. -/
theorem Cache.Ok.put (h : c.Ok) {y : δ} {disk : Nat → δ} (hb : d = false → disk b = y)
    (hdisk : ∀ e, e ≠ b → disk e = c.disk e) : Cache.Ok { c.put b d y with disk := disk } := by
  refine ⟨List.length_map _ |>.trans h.count, ?_, fun x hx e he hd => ?_, fun r hr =>
    (put_cached c d y r.2).trans (h.held r hr)⟩
  · refine List.pairwise_map.mpr (h.once.imp fun {x z} hxz e => ?_)
    split <;> split <;> exact hxz e
  · rcases mem_put.mp hx with ⟨z, -, -, rfl⟩ | ⟨hx, hxb⟩
    · cases he
      exact (hb hd).symm
    · exact (h.clean x hx e he hd).trans (hdisk e fun hc => hxb (hc ▸ he)).symm

/-- The view after new data, in the buffer or on the disk. -/
theorem Cache.Ok.put_view (h : c.Ok) {y : δ} {disk : Nat → δ} (hb : d = false → disk b = y)
    (hdisk : ∀ e, e ≠ b → disk e = c.disk e) (hc : d = true → c.cached b = true) :
    Cache.view { c.put b d y with disk := disk } = Function.update c.view b y := by
  have hok := h.put (d := d) (y := y) hb hdisk
  have hcached := put_cached (b := b) c d y
  funext e
  by_cases heb : e = b
  · rw [heb, Function.update_self]
    cases he : c.cached b with
    | false =>
      have hd : d = false := by
        cases d with
        | false => rfl
        | true => rw [hc rfl] at he; cases he
      have hview : Cache.view { c.put b d y with disk := disk } b = disk b :=
        Cache.view_of_not ((hcached b).trans he)
      exact hview.trans (hb hd)
    | true =>
      obtain ⟨z, hz, hzb⟩ := Cache.cached_iff.mp he
      exact hok.view_of_mem (mem_put.mpr (.inl ⟨z, hz, hzb, rfl⟩)) rfl
  · rw [Function.update_of_ne heb]
    cases he : c.cached e with
    | false =>
      rw [Cache.view_of_not he, ← hdisk e heb]
      exact Cache.view_of_not ((hcached e).trans he)
    | true =>
      obtain ⟨z, hz, hze⟩ := Cache.cached_iff.mp he
      rw [h.view_of_mem hz hze]
      refine hok.view_of_mem (mem_put.mpr (.inr ⟨hz, fun hzb => heb ?_⟩)) hze
      exact Option.some.inj (hze.symm.trans hzb)

theorem Cache.Ok.bwrite (h : c.Ok) (b : Nat) (y : δ) :
    (c.bwrite b y).Ok ∧ (c.bwrite b y).view = Function.update c.view b y :=
  have hb : Function.update c.disk b y b = y := Function.update_self ..
  have hdisk : ∀ e, e ≠ b → Function.update c.disk b y e = c.disk e := fun e he =>
    Function.update_of_ne he ..
  ⟨h.put (fun _ => hb) hdisk, h.put_view (fun _ => hb) hdisk fun hd => by cases hd⟩

/-- The data that `log_write` finds in a buffer. -/
theorem Cache.Ok.logged (h : c.Ok) (hc : c.cached b = true) (y : δ) :
    (c.put b true y).Ok ∧ (c.put b true y).view = Function.update c.view b y :=
  ⟨h.put (fun hd => by cases hd) fun _ _ => rfl,
    h.put_view (fun hd => by cases hd) (fun _ _ => rfl) fun _ => hc⟩

theorem put_pinned {y : δ} {e : Nat} : (c.put b true y).pinned e ↔
    e = b ∧ c.cached b = true ∨ e ≠ b ∧ c.pinned e := by
  constructor
  · rintro ⟨x, hx, hxe, hd⟩
    rcases mem_put.mp hx with ⟨z, hz, hzb, rfl⟩ | ⟨hx, hxb⟩
    · exact .inl ⟨(Option.some.inj hxe).symm, Cache.cached_iff.mpr ⟨z, hz, hzb⟩⟩
    · exact .inr ⟨fun he => hxb (he ▸ hxe), x, hx, hxe, hd⟩
  · rintro (⟨rfl, hc⟩ | ⟨hne, x, hx, hxe, hd⟩)
    · obtain ⟨z, hz, hzb⟩ := Cache.cached_iff.mp hc
      exact ⟨_, mem_put.mpr (.inl ⟨z, hz, hzb, rfl⟩), rfl, rfl⟩
    · refine ⟨x, mem_put.mpr (.inr ⟨hx, fun hxb => hne ?_⟩), hxe, hd⟩
      exact Option.some.inj (hxe.symm.trans hxb)

/-- **A block is written**: `b` has the contents `x` then, on the disk and in the view. While it is
    written the blocks `get` have buffers, and so has every block that is dirty before. -/
structure Wrote (c c' : Cache δ) (get : List Nat) (b : Nat) (x : δ) : Prop where
  ok : c'.Ok
  disk : c'.disk = Function.update c.disk b x
  view : c'.view = Function.update c.view b x
  held : c'.held.Perm c.held
  dirty : ∀ x ∈ c'.bufs, x.dirty = true → x ∈ c.bufs
  room : ∀ bs : List Nat, bs.Nodup → (∀ e ∈ bs, e ∈ get ∨ c.pinned e) → bs.length ≤ nbuf

theorem Cache.Ok.wrote {get rel : List Nat} (h : c.Ok) (hc : c.breadAll get = some c')
    (hrel : get.Perm rel) (b : Nat) (x : δ) :
    Wrote c ((c'.bwrite b x).brelseAll rel) get b x := by
  obtain ⟨hf, hheld⟩ := h.breadAll hc
  obtain ⟨hok, hview⟩ := hf.ok.bwrite b x
  have hr := hok.brelseAll rel
  refine ⟨hr.ok, ?_, ?_, ?_, fun y hy hd => ?_, fun bs hn hbs => hf.ok.length_le hn fun e he => ?_⟩
  · rw [hr.disk, ← hf.disk]
    rfl
  · rw [hr.view, hview, hf.view]
  · exact brelseAll_held (hheld.trans ((hrel.map _).append_right _))
  · rcases mem_put.mp ((hr.dirty y hd).mp hy) with ⟨z, -, -, rfl⟩ | ⟨hy, -⟩
    · cases hd
    · exact (hf.dirty y hd).mp hy
  · rcases hbs e he with h1 | ⟨y, hy, hye, hd⟩
    · have hmem : (none, e) ∈ get.map (none, ·) ++ c.held :=
        List.mem_append_left _ (List.mem_map_of_mem h1)
      exact hf.ok.held (none, e) (hheld.mem_iff.mpr hmem)
    · exact Cache.cached_iff.mpr ⟨y, (hf.dirty y hd).mpr hy, hye⟩

theorem Wrote.idle {get : List Nat} {x : δ} (h : Wrote c c' get b x) (hi : c.Idle) : c'.Idle :=
  ⟨(hi.held ▸ h.held).eq_nil, clean_of_dirty h.dirty hi.clean⟩

end

end Xv6Clock.Bio
