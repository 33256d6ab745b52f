/-
  File:      Xv6Clock/UmallocTiled.lean
  Subject:   What `free` does to the heap (umalloc.c).

  `Tiled` is the shape of the heap: a circular list of free blocks in the order of their addresses,
  with gaps between them, and blocks in use; every byte from `sbrk` is in exactly one block. The
  search of `free` ends at the one node of the list behind which the block belongs, from wherever
  it starts; what is written there keeps the shape.
-/
import Xv6Clock.Umalloc

namespace Xv6Clock.Umalloc

open Lib (Route cover Within cover_cons cover_append cover_join one_le_cover)

/-! ## 1. The shape -/

/-- Block `x` ends before `y` starts, with something in between. -/
def Before (x y : Block) : Prop := x.1 + 8 * x.2 < y.1

/-- The addresses of blocks. -/
def starts (L : List Block) : List Nat := L.map Prod.fst

/-- **The shape of the heap.** `L` are the nodes of the free list from `base` on, `used` the other
    blocks; `own` says how often an address was handed out. -/
structure Tiled (base top : Nat) (h : Nat → Header) (L used : List Block) (own : Nat → Nat) :
    Prop where
  head : L.head? = some (base, 0)
  ring : Route (fun a => (h a).ptr) (starts L) base
  sizes : ∀ b ∈ L, (h b.1).size = b.2
  apart : L.Pairwise Before
  pos : ∀ b ∈ L, b = (base, 0) ∨ 0 < b.2
  busy : ∀ b ∈ used, 0 < b.2 ∧ (h b.1).size = b.2
  total : ∀ x, cover 8 L x + cover 8 used x = own x
  once : ∀ x, own x ≤ 1
  inside : ∀ x, 1 ≤ own x → base + 8 ≤ x ∧ x < top
  room : base + 8 ≤ top
  bound : top < 2 ^ 32

variable {b : Block}

section
variable {base top : Nat} {h : Nat → Header} {L used : List Block} {own : Nat → Nat}

/-- A block of which every byte was handed out. -/
theorem bounds_of_own (hin : ∀ x, 1 ≤ own x → base + 8 ≤ x ∧ x < top) (hb : 0 < b.2)
    (hown : ∀ x, Within 8 b x → 1 ≤ own x) : base + 8 ≤ b.1 ∧ b.1 + 8 * b.2 ≤ top := by
  have h1 := hin b.1 (hown b.1 ⟨by omega, by omega⟩)
  have h2 := hin (b.1 + 8 * b.2 - 1) (hown _ ⟨by omega, by omega⟩)
  omega

section
variable (ht : Tiled base top h L used own)
include ht

theorem Tiled.own_free (hb : b ∈ L) {x : Nat} (hx : Within 8 b x) : 1 ≤ own x := by
  have := ht.total x
  have := one_le_cover hb hx
  omega

theorem Tiled.own_used (hb : b ∈ used) {x : Nat} (hx : Within 8 b x) : 1 ≤ own x := by
  have := ht.total x
  have := one_le_cover hb hx
  omega

theorem Tiled.free_bounds (hb : b ∈ L) (hpos : 0 < b.2) : base + 8 ≤ b.1 ∧ b.1 + 8 * b.2 ≤ top :=
  bounds_of_own ht.inside hpos fun _ hx => ht.own_free hb hx

theorem Tiled.used_bounds (hb : b ∈ used) : base + 8 ≤ b.1 ∧ b.1 + 8 * b.2 ≤ top :=
  bounds_of_own ht.inside (ht.busy b hb).1 fun _ hx => ht.own_used hb hx

/-- Every node lies between `base` and the top. -/
theorem Tiled.node_bounds (hb : b ∈ L) : base ≤ b.1 ∧ b.1 < top ∧ b.1 + 8 * b.2 ≤ top := by
  have hroom := ht.room
  rcases ht.pos b hb with rfl | hpos
  · dsimp only
    omega
  · have := ht.free_bounds hb hpos
    omega

/-- A node and a block in use lie apart. -/
theorem Tiled.node_apart {c : Block} (hb : b ∈ L) (hc : c ∈ used) :
    b.1 + 8 * b.2 ≤ c.1 ∧ b.1 < c.1 ∨ c.1 + 8 * c.2 ≤ b.1 := by
  have hcb := ht.used_bounds hc
  rcases ht.pos b hb with rfl | hpos
  · dsimp only
    omega
  · have hcpos := (ht.busy c hc).1
    have := Lib.apart_of_not_both (c := 8) (b := b) (d := c) (by omega) (by omega) fun x hx => by
      have h1 := ht.total x
      have h2 := ht.once x
      have h3 := one_le_cover hb hx.1
      have h4 := one_le_cover hc hx.2
      omega
    omega

end

/-- A block in use and another. -/
theorem Tiled.used_apart {c : Block} (ht : Tiled base top h L (c :: used) own) {d : Block}
    (hd : d ∈ used) : c.1 + 8 * c.2 ≤ d.1 ∨ d.1 + 8 * d.2 ≤ c.1 := by
  have hc := (ht.busy c (List.mem_cons_self ..)).1
  have hd' := (ht.busy d (List.mem_cons_of_mem _ hd)).1
  refine Lib.apart_of_not_both (c := 8) (by omega) (by omega) fun x hx => ?_
  have h1 := ht.total x
  have h2 := ht.once x
  have h3 := one_le_cover hd hx.2
  rw [cover_cons, if_pos hx.1] at h1
  omega

/-- What comes after a node. -/
theorem Tiled.next_eq (ht : Tiled base top h L used own) {u v : List Block} (hL : L = u ++ b :: v) :
    (h b.1).ptr = (starts v).headD base := by
  have hr := ht.ring
  rw [hL] at hr
  unfold starts at hr ⊢
  rw [List.map_append, List.map_cons] at hr
  exact hr.next_eq

/-- The first node is `base`. -/
theorem Tiled.head_eq (ht : Tiled base top h L used own) {u v : List Block} (hL : L = u ++ b :: v) :
    (starts u).headD b.1 = base := by
  have hh := ht.head
  rw [hL] at hh
  cases u with
  | nil =>
    have hb : b = (base, 0) := Option.some.inj hh
    rw [hb]
    rfl
  | cons c u =>
    have hc : c = (base, 0) := Option.some.inj hh
    rw [hc]
    rfl

/-! ## 2. The search -/

/-- A list in the order of addresses, cut where `bp` belongs. -/
theorem exists_cut {bp : Nat} : ∀ {L : List Block}, L.Pairwise Before → (∀ b ∈ L, b.1 ≠ bp) →
    (∃ b, L.head? = some b ∧ b.1 < bp) →
    ∃ u p v, L = u ++ p :: v ∧ p.1 < bp ∧ ∀ y ∈ v, bp < y.1
  | [], _, _, ⟨b, hb, _⟩ => by cases hb
  | [b], _, _, ⟨b', hb, hlt⟩ => by
    cases hb
    exact ⟨[], b, [], rfl, hlt, fun y hy => by cases hy⟩
  | b :: c :: L, hp, hne, ⟨b', hb, hlt⟩ => by
    cases hb
    have hp' := (List.pairwise_cons.mp hp).2
    by_cases hc : c.1 < bp
    · obtain ⟨u, p, v, h1, h2⟩ := exists_cut hp' (fun x hx => hne x (List.mem_cons_of_mem _ hx))
        ⟨c, rfl, hc⟩
      exact ⟨b :: u, p, v, by rw [h1]; rfl, h2⟩
    · refine ⟨[], b, c :: L, rfl, hlt, fun y hy => ?_⟩
      have hcb : c.1 ≠ bp := hne c (List.mem_cons_of_mem _ (List.mem_cons_self ..))
      rcases List.mem_cons.mp hy with rfl | hy
      · omega
      · have := (List.pairwise_cons.mp hp').1 y hy
        unfold Before at this
        omega

variable {bp n : Nat} {u v : List Block} {p : Block}

/-- Where a block in use belongs in the list. -/
theorem Tiled.exists_cut (ht : Tiled base top h L ((bp, n) :: used) own) :
    ∃ u p v, L = u ++ p :: v ∧ p.1 < bp ∧ ∀ y ∈ v, bp < y.1 := by
  have hmem : (bp, n) ∈ (bp, n) :: used := List.mem_cons_self ..
  have hbp := ht.used_bounds hmem
  refine Umalloc.exists_cut ht.apart (fun b hb => ?_) ⟨(base, 0), ht.head, ?_⟩
  · have := ht.node_apart hb hmem
    have := (ht.busy _ hmem).1
    dsimp only at *
    omega
  · dsimp only at *
    omega

theorem freeStop_iff {q : Nat} (hq : (h p.1).ptr = q) : freeStop h bp p.1 = true ↔
    (p.1 < bp ∧ bp < q) ∨ (q ≤ p.1 ∧ (p.1 < bp ∨ bp < q)) := by
  unfold freeStop
  simp only [hq, gt_iff_lt, ge_iff_le, Bool.or_eq_true, Bool.and_eq_true, decide_eq_true_eq]

section
variable (ht : Tiled base top h L ((bp, n) :: used) own)
include ht

/-- It does not stop at a node from which the next one is still too low. -/
theorem Tiled.no_stop_before (hL : L = u ++ p :: v) (hp : p.1 < bp) {x : Block} (hx : x ∈ u) :
    freeStop h bp x.1 = false := by
  obtain ⟨u1, u2, rfl⟩ := List.append_of_mem hx
  rw [List.append_assoc, List.cons_append] at hL
  have hnext := ht.next_eq hL
  have hpw := ht.apart
  rw [hL] at hpw
  have hafter := (List.pairwise_cons.mp (List.pairwise_append.mp hpw).2.1)
  -- the next node is `p` or one before it
  obtain ⟨y, hy, hyp⟩ : ∃ y : Block, (h x.1).ptr = y.1 ∧ x.1 < y.1 ∧ y.1 ≤ p.1 := by
    cases u2 with
    | nil =>
      have := hafter.1 p (List.mem_cons_self ..)
      unfold Before at this
      exact ⟨p, hnext, by omega, Nat.le_refl _⟩
    | cons y u2 =>
      have h1 := hafter.1 y (List.mem_cons_self ..)
      have h2 := (List.pairwise_cons.mp hafter.2).1 p
        (List.mem_append_right _ (List.mem_cons_self ..))
      unfold Before at h1 h2
      exact ⟨y, hnext, by omega, by omega⟩
  rw [Bool.eq_false_iff]
  intro hs
  have := (freeStop_iff hy).mp hs
  omega

/-- Nor at a node above. -/
theorem Tiled.no_stop_after (hL : L = u ++ p :: v) (hv : ∀ y ∈ v, bp < y.1) {x : Block}
    (hx : x ∈ v) : freeStop h bp x.1 = false := by
  have hbp := ht.used_bounds (List.mem_cons_self ..)
  dsimp only at hbp
  have hxb := hv x hx
  obtain ⟨v1, v2, rfl⟩ := List.append_of_mem hx
  have hL' : L = (u ++ p :: v1) ++ x :: v2 := by
    rw [hL, List.append_assoc, List.cons_append]
  have hnext := ht.next_eq hL'
  have hpw := ht.apart
  rw [hL'] at hpw
  have hafter := (List.pairwise_cons.mp (List.pairwise_append.mp hpw).2.1).1
  rw [Bool.eq_false_iff]
  intro hs
  have hstop := (freeStop_iff hnext).mp hs
  cases v2 with
  | nil =>
    have : (starts []).headD base = base := rfl
    omega
  | cons y v2 =>
    have h1 := hafter y (List.mem_cons_self ..)
    have : (starts (y :: v2)).headD base = y.1 := rfl
    unfold Before at h1
    omega

theorem Tiled.stop_at (hL : L = u ++ p :: v) (hp : p.1 < bp) (hv : ∀ y ∈ v, bp < y.1) :
    freeStop h bp p.1 = true := by
  refine (freeStop_iff (ht.next_eq hL)).mpr ?_
  cases v with
  | nil =>
    have hb := (ht.node_bounds (b := p) (by rw [hL]; simp)).1
    exact .inr ⟨hb, .inl hp⟩
  | cons y v => exact .inl ⟨hp, hv y (List.mem_cons_self ..)⟩

/-- **The search of `free` ends at the node below the block**, from every node of the list. -/
theorem Tiled.seek (hL : L = u ++ p :: v) (hp : p.1 < bp) (hv : ∀ y ∈ v, bp < y.1)
    {freep fuel : Nat} (hf : freep ∈ starts L) (hfuel : L.length ≤ fuel) :
    Lib.seek (fun a => (h a).ptr) (freeStop h bp) fuel freep = some p.1 := by
  have hst : starts L = starts u ++ p.1 :: starts v := by
    rw [hL]
    unfold starts
    rw [List.map_append, List.map_cons]
  have hr := ht.ring
  rw [← ht.head_eq hL, hst] at hr
  refine hr.seek_around (by rwa [hst] at hf) ?_ (ht.stop_at hL hp hv) ?_
  · rintro a (ha | ha)
    · obtain ⟨x, hx, rfl⟩ := List.mem_map.mp ha
      exact ht.no_stop_before hL hp hx
    · obtain ⟨x, hx, rfl⟩ := List.mem_map.mp ha
      exact ht.no_stop_after hL hv hx
  · rw [← hst]
    unfold starts
    rwa [List.length_map]

end

/-! ## 3. Rewriting the list behind a node -/

/-- **The list is rewritten from node `p` on**: `p` stays where it is as `p'`, new nodes `M` follow,
    then an end `v1` of the old list. -/
theorem Tiled.splice (ht : Tiled base top h L used own) (hL : L = u ++ p :: v) {h' : Nat → Header}
    {q : Block} {M v1 used' : List Block} (hp : q.1 = p.1) (hbase : p = (base, 0) → q = p)
    (hv : v1 <:+ v) (hsame : ∀ b, b ∈ u ∨ b ∈ v1 → h' b.1 = h b.1)
    (hroute : Route (fun a => (h' a).ptr) (starts (q :: M)) ((starts v1).headD base))
    (hsizes : ∀ b ∈ q :: M, (h' b.1).size = b.2)
    (hpair : (q :: M).Pairwise Before) (hlow : ∀ x ∈ u, ∀ b ∈ M, Before x b)
    (hhigh : ∀ b ∈ q :: M, ∀ y ∈ v1, Before b y) (hpos : ∀ b ∈ M, 0 < b.2)
    (hpos' : q = (base, 0) ∨ 0 < q.2)
    (hbusy : ∀ b ∈ used', 0 < b.2 ∧ (h' b.1).size = b.2)
    (htotal : ∀ x, cover 8 (q :: M ++ v1) x + cover 8 used' x =
      cover 8 (p :: v) x + cover 8 used x) :
    Tiled base top h' (u ++ (q :: M ++ v1)) used' own := by
  obtain ⟨w, hw⟩ := hv
  have hmem1 : ∀ {y}, y ∈ v1 → y ∈ L := fun hy => by
    rw [hL, ← hw]
    simp [hy]
  have hmemu : ∀ {x}, x ∈ u → x ∈ L := fun hx => by
    rw [hL]
    simp [hx]
  have hap := ht.apart
  rw [hL] at hap
  obtain ⟨hapu, hapv, huv⟩ := List.pairwise_append.mp hap
  have hapv1 : v1.Pairwise Before := by
    have := (List.pairwise_cons.mp hapv).2
    rw [← hw] at this
    exact (List.pairwise_append.mp this).2.1
  refine ⟨?_, ?_, ?_, ?_, ?_, hbusy, ?_, ht.once, ht.inside, ht.room, ht.bound⟩
  · -- head
    have hh := ht.head
    rw [hL] at hh
    cases u with
    | nil =>
      have hpb : p = (base, 0) := Option.some.inj hh
      rw [hbase hpb, hpb]
      rfl
    | cons c u => exact hh
  · -- ring
    have hr := ht.ring
    rw [hL, ← hw] at hr
    unfold starts at hr hroute ⊢
    rw [List.map_append, Lib.Route.append] at hr ⊢
    rw [List.map_append, Lib.Route.append]
    rw [List.map_cons, List.map_append] at hr
    refine ⟨?_, hroute, ?_⟩
    · have h1 := hr.1
      rw [List.headD_cons] at h1
      rw [List.map_cons, List.cons_append, List.headD_cons, hp]
      refine h1.congr fun a ha => ?_
      obtain ⟨b, hb, rfl⟩ := List.mem_map.mp ha
      rw [hsame b (.inl hb)]
    · refine (Lib.Route.append.mp hr.2.2).2.congr fun a ha => ?_
      obtain ⟨b, hb, rfl⟩ := List.mem_map.mp ha
      rw [hsame b (.inr hb)]
  · -- sizes
    intro b hb
    rcases List.mem_append.mp hb with hb | hb
    · rw [hsame b (.inl hb)]
      exact ht.sizes b (hmemu hb)
    rcases List.mem_append.mp hb with hb | hb
    · exact hsizes b hb
    · rw [hsame b (.inr hb)]
      exact ht.sizes b (hmem1 hb)
  · -- order
    refine List.pairwise_append.mpr ⟨hapu, List.pairwise_append.mpr ⟨hpair, hapv1, hhigh⟩, ?_⟩
    intro x hx b hb
    rcases List.mem_append.mp hb with hb | hb
    · rcases List.mem_cons.mp hb with rfl | hb
      · have := huv x hx p (List.mem_cons_self ..)
        unfold Before at this ⊢
        omega
      · exact hlow x hx b hb
    · exact huv x hx b (List.mem_cons_of_mem _ (by rw [← hw]; exact List.mem_append_right _ hb))
  · -- positive sizes
    intro b hb
    rcases List.mem_append.mp hb with hb | hb
    · exact ht.pos b (hmemu hb)
    rcases List.mem_append.mp hb with hb | hb
    · rcases List.mem_cons.mp hb with rfl | hb
      · exact hpos'
      · exact .inr (hpos b hb)
    · exact ht.pos b (hmem1 hb)
  · -- coverage
    intro x
    have h1 := ht.total x
    have h2 := htotal x
    rw [hL, cover_append] at h1
    rw [cover_append]
    omega

/-! ## 4. Joining -/

/-- The block to be freed after the first join: what is left of the list above it, and its size. -/
structure Upper (top : Nat) (v : List Block) (bp n : Nat) (v1 : List Block) (n1 : Nat) : Prop where
  suffix : v1 <:+ v
  after : ∀ y ∈ v1, Before (bp, n1) y
  same : ∀ x, cover 8 ((bp, n1) :: v1) x = cover 8 ((bp, n) :: v) x
  le : n ≤ n1
  fits : bp + 8 * n1 ≤ top

theorem plus_eq {a m : Nat} (ha : a + 8 * m < 2 ^ 32) : plus a m = a + 8 * m := Nat.mod_eq_of_lt ha

theorem setPtr_eq {h : Nat → Header} {a w m : Nat} (hs : (h a).size = m) :
    setPtr h a w = Function.update h a ⟨w, m⟩ := by
  rw [← hs]
  rfl

theorem setPtr_setSize (h : Nat → Header) (a w m : Nat) :
    setPtr (setSize h a m) a w = Function.update h a ⟨w, m⟩ := by
  unfold setPtr setSize
  rw [Function.update_self, Function.update_idem]

theorem Tiled.joinUpper (ht : Tiled base top h L ((bp, n) :: used) own) (hL : L = u ++ p :: v)
    (hp : p.1 < bp) (hv : ∀ y ∈ v, bp < y.1) :
    ∃ v1 n1, joinUpper h p.1 bp = Function.update h bp ⟨(starts v1).headD base, n1⟩ ∧
      Upper top v bp n v1 n1 := by
  have hmem : (bp, n) ∈ (bp, n) :: used := List.mem_cons_self ..
  have hbp := ht.used_bounds hmem
  have hbound := ht.bound
  obtain ⟨hn, hsize⟩ := ht.busy _ hmem
  have hnext := ht.next_eq hL
  dsimp only at hbp hn hsize
  unfold Umalloc.joinUpper
  rw [hsize, plus_eq (by omega), hnext]
  cases v with
  | nil =>
    have hb : (starts []).headD base = base := rfl
    rw [if_neg (by omega), setPtr_eq hsize]
    exact ⟨[], n, rfl, List.suffix_rfl, fun y hy => absurd hy List.not_mem_nil, fun _ => rfl,
      Nat.le_refl _, hbp.2⟩
  | cons q v =>
    have hq : (starts (q :: v)).headD base = q.1 := rfl
    have hqL : q ∈ L := by
      rw [hL]
      simp
    have hbq := hv q (List.mem_cons_self ..)
    have hapart := ht.node_apart hqL hmem
    dsimp only at hapart
    have hap := ht.apart
    rw [hL] at hap
    have hpqv := (List.pairwise_append.mp hap).2.1
    have hqv := (List.pairwise_cons.mp (List.pairwise_cons.mp hpqv).2).1
    rw [hq]
    by_cases hj : bp + 8 * n = q.1
    · -- the block above is free: take it in
      have hqb := ht.node_bounds hqL
      have hmod : (n + (h q.1).size) % 2 ^ 32 = n + q.2 := by
        rw [ht.sizes q hqL]
        exact Nat.mod_eq_of_lt (by omega)
      have hL' : L = (u ++ [p]) ++ q :: v := by
        rw [hL, List.append_assoc]
        rfl
      have hsz : setSize h bp (n + q.2) q.1 = h q.1 := Function.update_of_ne (by omega) _ _
      have hsp : setSize h bp (n + q.2) p.1 = h p.1 := Function.update_of_ne (by omega) _ _
      rw [if_pos hj]
      dsimp only
      rw [hmod, hsp, hnext, hq, hsz, ht.next_eq hL', setPtr_setSize]
      refine ⟨v, n + q.2, rfl, List.suffix_cons q v, fun y hy => ?_, fun x => ?_, by omega,
        by omega⟩
      · have := hqv y hy
        unfold Before at this ⊢
        dsimp only
        omega
      · rw [cover_join, hj]
    · rw [if_neg hj, setPtr_eq hsize]
      refine ⟨q :: v, n, by rw [hq], List.suffix_rfl, fun y hy => ?_, fun _ => rfl, Nat.le_refl _,
        hbp.2⟩
      unfold Before
      dsimp only
      rcases List.mem_cons.mp hy with rfl | hy
      · omega
      · have := hqv y hy
        unfold Before at this
        omega

/-- **What is written at the place that the search found keeps the shape**, and the block is part
    of a free one. -/
theorem Tiled.join (ht : Tiled base top h L ((bp, n) :: used) own) (hL : L = u ++ p :: v)
    (hp : p.1 < bp) (hv : ∀ y ∈ v, bp < y.1) :
    ∃ L', Tiled base top (joinLower (Umalloc.joinUpper h p.1 bp) p.1 bp) L' used own ∧
      p.1 ∈ starts L' ∧ L'.length ≤ L.length + 1 ∧ ∃ c ∈ L', n ≤ c.2 := by
  have hmem : (bp, n) ∈ (bp, n) :: used := List.mem_cons_self ..
  have hpL : p ∈ L := by
    rw [hL]
    simp
  have hbp := ht.used_bounds hmem
  have hn := (ht.busy _ hmem).1
  have hpb := ht.node_bounds hpL
  have hbound := ht.bound
  have hpapart := ht.node_apart hpL hmem
  dsimp only at hbp hn hpapart
  obtain ⟨v1, n1, hup, hu⟩ := ht.joinUpper hL hp hv
  obtain ⟨hsuf, hafter, hsame, hle, hfits⟩ := hu
  have hap := ht.apart
  rw [hL] at hap
  obtain ⟨-, hpv, huv⟩ := List.pairwise_append.mp hap
  have hlow : ∀ x ∈ u, x.1 + 8 * x.2 < p.1 := fun x hx => huv x hx p (List.mem_cons_self ..)
  have hlen : v1.length ≤ v.length := hsuf.length_le
  have hlenL : L.length = u.length + (v.length + 1) := by
    rw [hL, List.length_append, List.length_cons]
  have hv1 : ∀ y ∈ v1, p.1 + 8 * p.2 < y.1 ∧ bp < y.1 := fun y hy =>
    ⟨(List.pairwise_cons.mp hpv).1 y (hsuf.subset hy), hv y (hsuf.subset hy)⟩
  -- the other headers stay as they are
  have hothers : ∀ (h1 h2 : Header) (b : Block), b ∈ u ∨ b ∈ v1 →
      Function.update (Function.update h bp h1) p.1 h2 b.1 = h b.1 := by
    intro h1 h2 b hb
    have hne : b.1 ≠ p.1 ∧ b.1 ≠ bp := by
      rcases hb with hb | hb
      · have := hlow b hb
        omega
      · have := hv1 b hb
        omega
    rw [Function.update_of_ne hne.1, Function.update_of_ne hne.2]
  have hbusy : ∀ (h1 h2 : Header), ∀ b ∈ used, 0 < b.2 ∧
      (Function.update (Function.update h bp h1) p.1 h2 b.1).size = b.2 := by
    intro h1 h2 b hb
    have hb' := ht.busy b (List.mem_cons_of_mem _ hb)
    have h3 := ht.node_apart hpL (List.mem_cons_of_mem _ hb)
    have h4 := ht.used_apart hb
    dsimp only at h4
    rw [Function.update_of_ne (by omega), Function.update_of_ne (by omega)]
    exact hb'
  have hcover : ∀ x, cover 8 (p :: (bp, n1) :: v1) x + cover 8 used x =
      cover 8 (p :: v) x + cover 8 ((bp, n) :: used) x := by
    intro x
    have h1 := hsame x
    rw [cover_cons, cover_cons (l := v)] at h1
    rw [cover_cons, cover_cons, cover_cons (l := v), cover_cons (l := used)]
    omega
  have hsize : (Function.update h bp ⟨(starts v1).headD base, n1⟩ p.1).size = p.2 := by
    rw [Function.update_of_ne (by omega)]
    exact ht.sizes p hpL
  rw [hup]
  unfold joinLower
  rw [hsize, plus_eq (by omega), Function.update_self]
  by_cases hj : p.1 + 8 * p.2 = bp
  · -- it becomes part of the block below
    have hnb : p ≠ (base, 0) := by
      rintro rfl
      dsimp only at hj
      omega
    rw [if_pos hj]
    dsimp only
    rw [setPtr_setSize, Nat.mod_eq_of_lt (by omega), show (setSize (Function.update h bp
      ⟨(starts v1).headD base, n1⟩) p.1 (p.2 + n1) bp).ptr = (starts v1).headD base by
        unfold setSize
        rw [Function.update_of_ne (by omega), Function.update_self]]
    refine ⟨_, ht.splice hL (q := (p.1, p.2 + n1)) (M := []) rfl (fun hb => absurd hb hnb) hsuf
      (hothers _ _) ⟨?_, trivial⟩ ?_ (List.pairwise_singleton ..) (fun _ _ b hb => by cases hb) ?_
      (fun b hb => by cases hb) (.inr (by dsimp only; omega)) (hbusy _ _) ?_, ?_, ?_,
      (p.1, p.2 + n1), ?_, ?_⟩
    · dsimp only
      rw [Function.update_self]
      rfl
    · intro b hb
      obtain rfl := List.mem_singleton.mp hb
      rw [Function.update_self]
    · intro b hb y hy
      obtain rfl := List.mem_singleton.mp hb
      have := hafter y hy
      unfold Before at this ⊢
      dsimp only at this ⊢
      omega
    · intro x
      rw [← hcover x, List.singleton_append, cover_join, hj]
    · simp [starts]
    · simp
      omega
    · simp
    · dsimp only
      omega
  · rw [if_neg hj, setPtr_eq hsize]
    refine ⟨_, ht.splice hL (q := p) (M := [(bp, n1)]) rfl (fun _ => rfl) hsuf (hothers _ _)
      ⟨?_, ?_, trivial⟩ ?_ ?_ ?_ ?_ ?_ (ht.pos p hpL) (hbusy _ _) hcover, ?_, ?_, (bp, n1), ?_,
      hle⟩
    · dsimp only
      rw [Function.update_self]
      rfl
    · dsimp only
      rw [Function.update_of_ne (by omega), Function.update_self]
      rfl
    · intro b hb
      rcases List.mem_cons.mp hb with rfl | hb
      · rw [Function.update_self]
      · obtain rfl := List.mem_singleton.mp hb
        dsimp only
        rw [Function.update_of_ne (by omega), Function.update_self]
    · refine List.pairwise_cons.mpr ⟨fun b hb => ?_, List.pairwise_singleton ..⟩
      obtain rfl := List.mem_singleton.mp hb
      unfold Before
      dsimp only
      omega
    · intro x hx b hb
      obtain rfl := List.mem_singleton.mp hb
      have := hlow x hx
      unfold Before
      dsimp only
      omega
    · intro b hb y hy
      rcases List.mem_cons.mp hb with rfl | hb
      · exact (hv1 y hy).1
      · obtain rfl := List.mem_singleton.mp hb
        exact hafter y hy
    · intro b hb
      obtain rfl := List.mem_singleton.mp hb
      dsimp only
      omega
    · simp [starts]
    · simp
      omega
    · simp

end

/-- **`free` keeps the shape and returns**, for a block in use. -/
theorem free_tiled {im : Image} {s : Heap} {L used : List Block} {own : Nat → Nat} {bp n fuel : Nat}
    (ht : Tiled im.base s.brk s.hdr L ((bp, n) :: used) own) (hf : s.freep ∈ starts L)
    (hfuel : L.length ≤ fuel) :
    ∃ h p L', free fuel s (bp + 8) = some { s with hdr := h, freep := p } ∧
      Tiled im.base s.brk h L' used own ∧ p ∈ starts L' ∧ L'.length ≤ L.length + 1 ∧
      ∃ c ∈ L', n ≤ c.2 := by
  obtain ⟨u, p, v, hL, hp, hv⟩ := ht.exists_cut
  obtain ⟨L', h1, h2, h3⟩ := ht.join hL hp hv
  refine ⟨_, p.1, L', ?_, h1, h2, h3⟩
  unfold free
  dsimp only
  rw [Nat.add_sub_cancel, ht.seek hL hp hv hf hfuel]
  rfl

end Xv6Clock.Umalloc
