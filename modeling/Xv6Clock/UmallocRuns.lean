/-
  File:      Xv6Clock/UmallocRuns.lean
  Subject:   `malloc`, and the heap of a program at every moment (umalloc.c).

  The loop of `malloc` goes round the list once. If nothing fits it asks for a region, which `free`
  puts into the list, and goes round again; the second time something fits. So both loops end, and
  a program that frees only what it has always finds the heap in shape.
-/
import Xv6Clock.UmallocTiled

namespace Xv6Clock.Umalloc

open Lib (Route cover Within cover_cons cover_append cover_join one_le_cover)

/-! ## 1. Taking a block -/

section
variable {base top : Nat} {h : Nat → Header} {L used : List Block} {own : Nat → Nat}

/-- The node that a node points to, if it has room. -/
theorem Tiled.adjacent (ht : Tiled base top h L used own) {prev : Block} {a n : Nat}
    (hprev : prev ∈ L) (ha : (h prev.1).ptr = a) (hn : 0 < n) (hsize : n ≤ (h a).size) :
    ∃ u p v, L = u ++ prev :: p :: v ∧ p.1 = a ∧ n ≤ p.2 := by
  have hbase : (h base).size = 0 := ht.sizes (base, 0) (List.mem_of_head? ht.head)
  obtain ⟨u, v, hL⟩ := List.append_of_mem hprev
  have hnext := ht.next_eq hL
  cases v with
  | nil =>
    have hb : a = base := ha.symm.trans hnext
    rw [hb, hbase] at hsize
    omega
  | cons p v =>
    have hp : p.1 = a := hnext.symm.trans ha
    refine ⟨u, p, v, hL, hp, ?_⟩
    rw [← ht.sizes p (by rw [hL]; simp), hp]
    exact hsize

variable {u v : List Block} {prev p : Block} {n : Nat}

/-- A block that fits exactly leaves the list. -/
theorem Tiled.take (ht : Tiled base top h L used own) (hL : L = u ++ prev :: p :: v)
    (hn : 0 < p.2) :
    Tiled base top (setPtr h prev.1 (h p.1).ptr) (u ++ ([prev] ++ v)) (p :: used) own := by
  have hprevL : prev ∈ L := by
    rw [hL]
    simp
  have hpL : p ∈ L := by
    rw [hL]
    simp
  have hL2 : L = (u ++ [prev]) ++ p :: v := by
    rw [hL, List.append_assoc]
    rfl
  have hap := ht.apart
  rw [hL] at hap
  obtain ⟨-, hpv, huv⟩ := List.pairwise_append.mp hap
  have hprevv := (List.pairwise_cons.mp hpv).1
  have hlow : ∀ x ∈ u, x.1 + 8 * x.2 < prev.1 := fun x hx => huv x hx prev (List.mem_cons_self ..)
  have hne : ∀ b : Block, b ∈ u ∨ b ∈ v → b.1 ≠ prev.1 := by
    rintro b (hb | hb)
    · have := hlow b hb
      omega
    · have := hprevv b (List.mem_cons_of_mem _ hb)
      unfold Before at this
      omega
  have hpp := hprevv p (List.mem_cons_self ..)
  unfold Before at hpp
  rw [ht.next_eq hL2, setPtr_eq (ht.sizes prev hprevL)]
  refine ht.splice hL (M := []) rfl (fun _ => rfl) (List.suffix_cons p v) ?_ ⟨?_, trivial⟩ ?_
    (List.pairwise_singleton ..) (fun _ _ b hb => absurd hb List.not_mem_nil) ?_
    (fun b hb => absurd hb List.not_mem_nil) (ht.pos prev hprevL) ?_ ?_
  · intro b hb
    rw [Function.update_of_ne (hne b hb)]
  · dsimp only
    rw [Function.update_self]
    rfl
  · intro b hb
    obtain rfl := List.mem_singleton.mp hb
    rw [Function.update_self]
  · intro b hb y hy
    obtain rfl := List.mem_singleton.mp hb
    exact hprevv y (List.mem_cons_of_mem _ hy)
  · intro b hb
    rcases List.mem_cons.mp hb with rfl | hb
    · rw [Function.update_of_ne (by omega)]
      exact ⟨hn, ht.sizes _ hpL⟩
    · have hb' := ht.busy b hb
      have := ht.node_apart hprevL hb
      rw [Function.update_of_ne (by omega)]
      exact hb'
  · intro x
    rw [List.singleton_append]
    simp only [cover_cons]
    omega

/-- From a larger one the end is taken. -/
theorem Tiled.cut (ht : Tiled base top h L used own) (hL : L = u ++ prev :: p :: v)
    (hn : 0 < n) (hlt : n < p.2) :
    Tiled base top (setSize (setSize h p.1 (p.2 - n)) (p.1 + 8 * (p.2 - n)) n)
      (u ++ ([prev, (p.1, p.2 - n)] ++ v)) ((p.1 + 8 * (p.2 - n), n) :: used) own := by
  have hprevL : prev ∈ L := by
    rw [hL]
    simp
  have hpL : p ∈ L := by
    rw [hL]
    simp
  have hL2 : L = (u ++ [prev]) ++ p :: v := by
    rw [hL, List.append_assoc]
    rfl
  have hap := ht.apart
  rw [hL] at hap
  obtain ⟨-, hpv, huv⟩ := List.pairwise_append.mp hap
  obtain ⟨hprevv, hpv'⟩ := List.pairwise_cons.mp hpv
  have hpv'' := (List.pairwise_cons.mp hpv').1
  have hpp := hprevv p (List.mem_cons_self ..)
  unfold Before at hpp
  have hat : ∀ a, a ≠ p.1 → a ≠ p.1 + 8 * (p.2 - n) →
      setSize (setSize h p.1 (p.2 - n)) (p.1 + 8 * (p.2 - n)) n a = h a := by
    intro a h1 h2
    unfold setSize
    rw [Function.update_of_ne h2, Function.update_of_ne h1]
  have hatp : setSize (setSize h p.1 (p.2 - n)) (p.1 + 8 * (p.2 - n)) n p.1 =
      ⟨(h p.1).ptr, p.2 - n⟩ := by
    unfold setSize
    rw [Function.update_of_ne (by omega), Function.update_self]
  refine ht.splice hL (q := prev) (M := [(p.1, p.2 - n)]) rfl (fun _ => rfl)
    (List.suffix_cons p v) ?_ ⟨?_, ?_, trivial⟩ ?_ ?_ ?_ ?_ ?_ (ht.pos prev hprevL) ?_ ?_
  · rintro b (hb | hb)
    · have h1 := huv b hb p (by simp)
      unfold Before at h1
      exact hat _ (by omega) (by omega)
    · have h1 := hpv'' b hb
      unfold Before at h1
      exact hat _ (by omega) (by omega)
  · dsimp only
    rw [hat _ (by omega) (by omega), ht.next_eq hL]
    rfl
  · dsimp only
    rw [hatp, ht.next_eq hL2]
    rfl
  · intro b hb
    rcases List.mem_cons.mp hb with rfl | hb
    · rw [hat _ (by omega) (by omega)]
      exact ht.sizes _ hprevL
    · obtain rfl := List.mem_singleton.mp hb
      rw [hatp]
  · refine List.pairwise_cons.mpr ⟨fun b hb => ?_, List.pairwise_singleton ..⟩
    obtain rfl := List.mem_singleton.mp hb
    exact hpp
  · intro x hx b hb
    obtain rfl := List.mem_singleton.mp hb
    exact huv x hx p (by simp)
  · intro b hb y hy
    have h1 := hpv'' y hy
    rcases List.mem_cons.mp hb with rfl | hb
    · exact hprevv y (List.mem_cons_of_mem _ hy)
    · obtain rfl := List.mem_singleton.mp hb
      unfold Before at h1 ⊢
      dsimp only
      omega
  · intro b hb
    obtain rfl := List.mem_singleton.mp hb
    dsimp only
    omega
  · intro b hb
    rcases List.mem_cons.mp hb with rfl | hb
    · refine ⟨hn, ?_⟩
      unfold setSize
      rw [Function.update_self]
    · have hb' := ht.busy b hb
      have h1 := ht.node_apart hpL hb
      rw [hat _ (by omega) (by omega)]
      exact hb'
  · intro x
    have hj : cover 8 [p] x = cover 8 [(p.1, p.2 - n), (p.1 + 8 * (p.2 - n), n)] x := by
      have h1 := cover_join (c := 8) (l := []) (x := x) p.1 (p.2 - n) n
      rw [Nat.sub_add_cancel (Nat.le_of_lt hlt)] at h1
      exact h1
    simp only [cover_cons, Lib.cover_nil, List.cons_append, List.nil_append] at hj ⊢
    omega

end

/-- **`malloc` takes a block of the size asked for** out of one that has room. -/
theorem carve_tiled {base : Nat} {s : Heap} {L used : List Block} {own : Nat → Nat}
    {u v : List Block} {prev p : Block} {n : Nat} (ht : Tiled base s.brk s.hdr L used own)
    (hL : L = u ++ prev :: p :: v) (hn : 0 < n) (hle : n ≤ p.2) :
    ∃ a h L', carve s n prev.1 p.1 = (a + 8, { s with hdr := h, freep := prev.1 }) ∧
      Tiled base s.brk h L' ((a, n) :: used) own ∧ prev.1 ∈ starts L' := by
  have hpL : p ∈ L := by
    rw [hL]
    simp
  have hsize := ht.sizes p hpL
  have hb := ht.node_bounds hpL
  have hbound := ht.bound
  unfold carve
  rw [hsize]
  by_cases he : p.2 = n
  · have ht' := ht.take hL (by omega)
    rw [if_pos he]
    refine ⟨p.1, _, u ++ ([prev] ++ v), rfl, ?_, ?_⟩
    · rw [← he]
      exact ht'
    · simp [starts]
  · have ht' := ht.cut hL hn (by omega)
    have hs : (setSize s.hdr p.1 (p.2 - n) p.1).size = p.2 - n := by
      unfold setSize
      rw [Function.update_self]
    rw [if_neg he]
    dsimp only
    rw [hs, plus_eq (by omega)]
    exact ⟨_, _, _, rfl, ht', by simp [starts]⟩

/-! ## 2. Going round the list -/

section
variable {base : Nat} (os : Nat → Option Nat) {s : Heap} {L used : List Block} {own : Nat → Nat}
  {n : Nat} (ht : Tiled base s.brk s.hdr L used own)
include ht

/-- The nodes behind `freep`, round to `freep`. -/
theorem Tiled.rounds (hf : s.freep ∈ starts L) :
    ∃ f l, f ∈ L ∧ f.1 = s.freep ∧ (∀ b ∈ L, b ∈ l ∨ b = f) ∧ (∀ b ∈ l, b ∈ L ∧ b.1 ≠ s.freep) ∧
      (s.hdr s.freep).ptr = (starts l).headD s.freep ∧
      Route (fun a => (s.hdr a).ptr) (starts l) s.freep ∧ l.length < L.length := by
  obtain ⟨f, hfL, hf1⟩ := List.mem_map.mp hf
  obtain ⟨u, v, hL⟩ := List.append_of_mem hfL
  have hr := ht.ring
  rw [← ht.head_eq hL, hL] at hr
  unfold starts at hr
  rw [List.map_append, List.map_cons] at hr
  obtain ⟨h1, h2⟩ := hr.around
  have hap := ht.apart
  rw [hL] at hap
  obtain ⟨-, hfv, huv⟩ := List.pairwise_append.mp hap
  refine ⟨f, v ++ u, hfL, hf1, fun b hb => ?_, fun b hb => ⟨?_, ?_⟩, ?_, ?_, ?_⟩
  · rw [hL] at hb
    simp only [List.mem_append, List.mem_cons] at hb ⊢
    tauto
  · rw [hL]
    simp only [List.mem_append, List.mem_cons] at hb ⊢
    tauto
  · rw [← hf1]
    rcases List.mem_append.mp hb with hb | hb
    · have := (List.pairwise_cons.mp hfv).1 b hb
      unfold Before at this
      omega
    · have := huv b hb f (List.mem_cons_self ..)
      unfold Before at this
      omega
  · rw [← hf1]
    unfold starts
    rw [List.map_append]
    exact h1
  · rw [← hf1]
    unfold starts
    rw [List.map_append]
    exact h2
  · rw [hL]
    simp only [List.length_append, List.length_cons]
    omega

/-- **The loop finds a block that fits**, if there is one ahead. -/
theorem Tiled.loop_found (hn : 0 < n) {l : List Block} :
    ∀ {prev : Block} {fuel : Nat}, prev ∈ L → (∀ b ∈ l, b ∈ L ∧ b.1 ≠ s.freep) →
    (s.hdr prev.1).ptr = (starts l).headD s.freep →
    Route (fun a => (s.hdr a).ptr) (starts l) s.freep →
    (∃ c ∈ l, n ≤ c.2) ∨ n ≤ (s.hdr s.freep).size → l.length < fuel →
    ∃ u prev' p v, L = u ++ prev' :: p :: v ∧ n ≤ p.2 ∧
      mallocLoop os fuel s n prev.1 (s.hdr prev.1).ptr = some (carve s n prev'.1 p.1) := by
  induction l with
  | nil =>
    intro prev fuel hprev _ hnext _ hfit hfuel
    obtain ⟨fuel, rfl⟩ : ∃ k, fuel = k + 1 := ⟨fuel - 1, by omega⟩
    have hsize : n ≤ (s.hdr s.freep).size := by
      rcases hfit with ⟨c, hc, -⟩ | h
      · cases hc
      · exact h
    have hnext' : (s.hdr prev.1).ptr = s.freep := hnext
    obtain ⟨u, p, v, hL, hp, hle⟩ := ht.adjacent hprev hnext' hn hsize
    refine ⟨u, prev, p, v, hL, hle, ?_⟩
    unfold mallocLoop
    rw [hnext', if_pos hsize, hp]
  | cons c l ih =>
    intro prev fuel hprev hl hnext hroute hfit hfuel
    obtain ⟨fuel, rfl⟩ : ∃ k, fuel = k + 1 := ⟨fuel - 1, by omega⟩
    have hnext' : (s.hdr prev.1).ptr = c.1 := hnext
    obtain ⟨hcL, hcf⟩ := hl c (List.mem_cons_self ..)
    unfold mallocLoop
    rw [hnext']
    by_cases hsize : n ≤ (s.hdr c.1).size
    · obtain ⟨u, p, v, hL, hp, hle⟩ := ht.adjacent hprev hnext' hn hsize
      refine ⟨u, prev, p, v, hL, hle, ?_⟩
      rw [if_pos hsize, hp]
    · rw [if_neg hsize, if_neg hcf]
      refine ih hcL (fun b hb => hl b (List.mem_cons_of_mem _ hb)) hroute.1 hroute.2 ?_
        (by rw [List.length_cons] at hfuel; omega)
      rcases hfit with ⟨d, hd, hle⟩ | h
      · rcases List.mem_cons.mp hd with rfl | hd
        · rw [ht.sizes _ hcL] at hsize
          exact absurd hle hsize
        · exact .inl ⟨d, hd, hle⟩
      · exact .inr h

/-- **If nothing fits it comes to `morecore`.** -/
theorem Tiled.loop_none {l : List Block} :
    ∀ {prev : Block} {k : Nat}, (∀ b ∈ l, b ∈ L ∧ b.1 ≠ s.freep) →
    (s.hdr prev.1).ptr = (starts l).headD s.freep →
    Route (fun a => (s.hdr a).ptr) (starts l) s.freep →
    (∀ c ∈ l, ¬ n ≤ c.2) → ¬ n ≤ (s.hdr s.freep).size →
    mallocLoop os (l.length + 1 + k) s n prev.1 (s.hdr prev.1).ptr = (do
      let (p, s) ← morecore os k s n
      if p = 0 then some (0, s) else mallocLoop os k s n p (s.hdr p).ptr) := by
  induction l with
  | nil =>
    intro prev k _ hnext _ _ hsize
    have hnext' : (s.hdr prev.1).ptr = s.freep := hnext
    rw [List.length_nil, Nat.zero_add, Nat.add_comm]
    conv_lhs => unfold mallocLoop
    rw [hnext', if_neg hsize, if_pos rfl]
  | cons c l ih =>
    intro prev k hl hnext hroute hno hsize
    have hnext' : (s.hdr prev.1).ptr = c.1 := hnext
    obtain ⟨hcL, hcf⟩ := hl c (List.mem_cons_self ..)
    have hc : ¬ n ≤ (s.hdr c.1).size := by
      rw [ht.sizes c hcL]
      exact hno c (List.mem_cons_self ..)
    rw [List.length_cons, show l.length + 1 + 1 + k = (l.length + 1 + k) + 1 by omega]
    conv_lhs => unfold mallocLoop
    rw [hnext', if_neg hc, if_neg hcf]
    exact ih (fun b hb => hl b (List.mem_cons_of_mem _ hb)) hroute.1 hroute.2
      (fun d hd => hno d (List.mem_cons_of_mem _ hd)) hsize

end

/-! ## 3. More memory -/

/-- **The heap is in shape**, with `L` in the free list. -/
structure HeapOk (im : Image) (s : Heap) (L used : List Block) : Prop where
  tiled : Tiled im.base s.brk s.hdr L used (cover 8 s.regions)
  freep : s.freep ∈ starts L

section
variable {im : Image} (os : Nat → Option Nat) {s : Heap} {L used : List Block} {n fuel : Nat}

/-- A new region is a block in use. -/
theorem HeapOk.grow (h : HeapOk im s L used) {a : Nat} (hn : 0 < n) (ha : s.brk ≤ a)
    (hb : a + 8 * n < 2 ^ 32) (asked : List Int) :
    HeapOk im { s with
      hdr := setSize s.hdr a n
      brk := a + 8 * n
      asked := asked
      regions := (a, n) :: s.regions } L ((a, n) :: used) := by
  have ht := h.tiled
  have hroom := ht.room
  have hat : ∀ b, b < s.brk → setSize s.hdr a n b = s.hdr b := fun b hb =>
    Function.update_of_ne (by omega) _ _
  have hnode : ∀ b ∈ L, setSize s.hdr a n b.1 = s.hdr b.1 := fun b hb =>
    hat b.1 (ht.node_bounds hb).2.1
  -- nothing was handed out above the old end
  have hold : ∀ x, Within 8 (a, n) x → cover 8 s.regions x = 0 := by
    intro x hx
    rcases Nat.eq_zero_or_pos (cover 8 s.regions x) with h0 | h0
    · exact h0
    · have := (ht.inside x h0).2
      have := hx.1
      dsimp only at this
      omega
  refine ⟨⟨ht.head, ?_, ?_, ht.apart, ht.pos, ?_, ?_, ?_, ?_, ?_, hb⟩, h.freep⟩
  · refine ht.ring.congr fun x hx => ?_
    obtain ⟨b, hb, rfl⟩ := List.mem_map.mp hx
    dsimp only
    rw [hnode b hb]
  · intro b hb
    dsimp only
    rw [hnode b hb]
    exact ht.sizes b hb
  · intro b hb
    rcases List.mem_cons.mp hb with rfl | hb
    · refine ⟨hn, ?_⟩
      unfold setSize
      dsimp only
      rw [Function.update_self]
    · have := ht.used_bounds hb
      have hpos := (ht.busy b hb).1
      dsimp only
      rw [hat b.1 (by omega)]
      exact ht.busy b hb
  · intro x
    have := ht.total x
    rw [cover_cons, cover_cons]
    omega
  · intro x
    rw [cover_cons]
    split
    · rename_i hx
      have := hold x hx
      omega
    · have := ht.once x
      omega
  · intro x hx
    rw [cover_cons] at hx
    dsimp only
    split at hx
    · rename_i hw
      have h1 := hw.1
      have h2 := hw.2
      dsimp only at h1 h2
      omega
    · have := ht.inside x (by omega)
      omega
  · dsimp only
    omega

/-- **`morecore` returns**: nothing, or a list with a block that is large enough. -/
theorem HeapOk.morecore (h : HeapOk im s L used) (hn : 0 < n) (h31 : n * 8 < 2 ^ 31)
    (hfuel : L.length ≤ fuel) :
    ∃ r s', Umalloc.morecore os fuel s n = some (r, s') ∧ s'.live = s.live ∧
      (r = 0 ∧ HeapOk im s' L used ∨
        r ≠ 0 ∧ r = s'.freep ∧ ∃ L', HeapOk im s' L' used ∧ L'.length ≤ L.length + 1 ∧
          ∃ c ∈ L', n ≤ c.2) := by
  unfold Umalloc.morecore
  dsimp only
  generalize hm : (if n < 4096 then 4096 else n) = m
  have hm1 : n ≤ m ∧ 0 < m ∧ m * 8 < 2 ^ 31 := by
    split at hm <;> omega
  have hbytes : toI (m * 8 : Nat) = (8 * m : Nat) := by
    rw [toI_of_bounds (by omega) (by omega), Nat.mul_comm]
  have hsame : HeapOk im { s with asked := (8 * m : Nat) :: s.asked } L used := ⟨h.tiled, h.freep⟩
  rw [hbytes, Int.toNat_natCast, Nat.mul_div_cancel_left m (by decide)]
  unfold sbrk
  simp only [if_pos (Int.natCast_nonneg (8 * m)), Int.toNat_natCast]
  split
  · rename_i s1 hs
    refine ⟨0, s1, rfl, ?_⟩
    split at hs
    · cases hs
      exact ⟨rfl, .inl ⟨rfl, hsame⟩⟩
    · split at hs
      · cases hs
      · cases hs
        exact ⟨rfl, .inl ⟨rfl, hsame⟩⟩
  · rename_i a s1 hs
    split at hs
    · cases hs
    · split at hs
      · rename_i hab
        cases hs
        have hg := h.grow hm1.2.1 hab.1 hab.2 ((8 * m : Nat) :: s.asked)
        obtain ⟨h', p, L', h1, h2, h3, h4, c, hc, hcm⟩ := free_tiled hg.tiled hg.freep hfuel
        rw [h1]
        have hpos : p ≠ 0 := by
          obtain ⟨b, hb, rfl⟩ := List.mem_map.mp h3
          have := (h2.node_bounds hb).1
          have := im.basePos
          omega
        exact ⟨p, _, rfl, rfl, .inr ⟨hpos, rfl, L', ⟨h2, h3⟩, h4, c, hc, by omega⟩⟩
      · cases hs

/-! ## 4. malloc -/

theorem units_eq {nbytes : Nat} (h : Sized nbytes) : 0 < units nbytes ∧
    units nbytes * 8 < 2 ^ 31 ∧ nbytes + 8 ≤ 8 * units nbytes := by
  unfold Sized at h
  unfold units
  rw [Nat.mod_eq_of_lt (by omega)]
  omega

/-- What `malloc` leaves: nothing was taken, or a block of the size that was asked for. -/
def Malloced (im : Image) (used : List Block) (n r : Nat) (s : Heap) : Prop :=
  (r = 0 ∧ ∃ L, HeapOk im s L used) ∨ ∃ a L, r = a + 8 ∧ HeapOk im s L ((a, n) :: used)

section
variable (h : HeapOk im s L used)
include h

theorem HeapOk.carve {u v : List Block} {prev p : Block} (hL : L = u ++ prev :: p :: v) (hn : 0 < n)
    (hle : n ≤ p.2) :
    Malloced im used n (Umalloc.carve s n prev.1 p.1).1 (Umalloc.carve s n prev.1 p.1).2 ∧
      (Umalloc.carve s n prev.1 p.1).2.live = s.live := by
  obtain ⟨a, h', L', he, h1, h2⟩ := carve_tiled h.tiled hL hn hle
  rw [he]
  exact ⟨.inr ⟨a, L', rfl, h1, h2⟩, rfl⟩

/-- Once round the list, when something fits. -/
theorem HeapOk.found (hn : 0 < n) (hfit : ∃ c ∈ L, n ≤ c.2) (hfuel : L.length ≤ fuel) :
    ∃ r s', mallocLoop os fuel s n s.freep (s.hdr s.freep).ptr = some (r, s') ∧
      Malloced im used n r s' ∧ s'.live = s.live := by
  obtain ⟨f, l, hfL, hf1, hall, hl, hnext, hroute, hlen⟩ := h.tiled.rounds h.freep
  have hfit' : (∃ c ∈ l, n ≤ c.2) ∨ n ≤ (s.hdr s.freep).size := by
    obtain ⟨c, hc, hle⟩ := hfit
    rcases hall c hc with hc | rfl
    · exact .inl ⟨c, hc, hle⟩
    · rw [← hf1, h.tiled.sizes c hfL]
      exact .inr hle
  rw [← hf1] at hnext ⊢
  obtain ⟨u, prev, p, v, hL, hle, heq⟩ :=
    h.tiled.loop_found os hn hfL hl (by rw [hnext, hf1]) hroute hfit'
      (show l.length < fuel by omega)
  rw [heq]
  exact ⟨_, _, rfl, h.carve hL hn hle⟩

/-- **The loop of `malloc` returns.** -/
theorem HeapOk.loop (hn : 0 < n) (h31 : n * 8 < 2 ^ 31) (hfuel : 2 * L.length + 2 ≤ fuel) :
    ∃ r s', mallocLoop os fuel s n s.freep (s.hdr s.freep).ptr = some (r, s') ∧
      Malloced im used n r s' ∧ s'.live = s.live := by
  by_cases hfit : ∃ c ∈ L, n ≤ c.2
  · exact h.found os hn hfit (by omega)
  obtain ⟨f, l, hfL, hf1, hall, hl, hnext, hroute, hlen⟩ := h.tiled.rounds h.freep
  have hno : ∀ c ∈ L, ¬ n ≤ c.2 := fun c hc hle => hfit ⟨c, hc, hle⟩
  obtain ⟨k, rfl⟩ : ∃ k, fuel = l.length + 1 + k := ⟨fuel - (l.length + 1), by omega⟩
  have hsize : ¬ n ≤ (s.hdr s.freep).size := by
    rw [← hf1, h.tiled.sizes f hfL]
    exact hno f hfL
  have heq := h.tiled.loop_none os (n := n) (k := k) hl
    (show (s.hdr f.1).ptr = _ by rw [hf1]; exact hnext) hroute (fun c hc => hno c (hl c hc).1) hsize
  rw [hf1] at heq
  rw [heq]
  obtain ⟨r, s', hmore, hlive, hr⟩ := h.morecore os hn h31 (show L.length ≤ k by omega)
  rw [hmore]
  rcases hr with ⟨rfl, hok⟩ | ⟨hr, rfl, L', hok, hlen', hbig⟩
  · exact ⟨0, s', rfl, .inl ⟨rfl, L, hok⟩, hlive⟩
  · obtain ⟨r', s'', h1, h2, h3⟩ := hok.found os hn hbig (show L'.length ≤ k by omega)
    refine ⟨r', s'', ?_, h2, h3.trans hlive⟩
    rw [← h1]
    exact if_neg hr

end

end

/-! ## 5. The bound on the rounds does not matter -/

section
variable {im : Image} {os : Nat → Option Nat} {s : Heap} {fuel fuel' : Nat}

theorem free_mono (hle : fuel ≤ fuel') {ap : Nat} {s' : Heap} (h : free fuel s ap = some s') :
    free fuel' s ap = some s' := by
  unfold free at h ⊢
  obtain ⟨p, h1, h2⟩ := Option.bind_eq_some_iff.mp h
  exact Option.bind_eq_some_iff.mpr ⟨p, Lib.seek_mono hle h1, h2⟩

theorem morecore_mono (hle : fuel ≤ fuel') {n : Nat} {x : Nat × Heap}
    (h : morecore os fuel s n = some x) : morecore os fuel' s n = some x := by
  unfold morecore at h ⊢
  dsimp only at h ⊢
  split
  · rename_i s1 hs
    rw [hs] at h
    exact h
  · rename_i p s1 hs
    rw [hs] at h
    obtain ⟨s2, h1, h2⟩ := Option.bind_eq_some_iff.mp h
    exact Option.bind_eq_some_iff.mpr ⟨s2, free_mono hle h1, h2⟩

theorem mallocLoop_mono {n : Nat} {x : Nat × Heap} :
    ∀ {fuel fuel' : Nat} {s : Heap} {prevp p : Nat}, fuel ≤ fuel' →
    mallocLoop os fuel s n prevp p = some x →
    mallocLoop os fuel' s n prevp p = some x := by
  intro fuel
  induction fuel with
  | zero =>
    intro fuel' s prevp p _ h
    cases h
  | succ fuel ih =>
    intro fuel' s prevp p hle h
    obtain ⟨fuel', rfl⟩ : ∃ k, fuel' = k + 1 := ⟨fuel' - 1, by omega⟩
    unfold mallocLoop at h ⊢
    split
    · rename_i hs
      rwa [if_pos hs] at h
    rename_i hs
    rw [if_neg hs] at h
    split
    · rename_i hp
      rw [if_pos hp] at h
      obtain ⟨⟨q, s1⟩, h1, h2⟩ := Option.bind_eq_some_iff.mp h
      refine Option.bind_eq_some_iff.mpr ⟨(q, s1), morecore_mono (by omega) h1, ?_⟩
      dsimp only at h2 ⊢
      split
      · rename_i hq
        rwa [if_pos hq] at h2
      · rename_i hq
        rw [if_neg hq] at h2
        exact ih (by omega) h2
    · rename_i hp
      rw [if_neg hp] at h
      exact ih (by omega) h

theorem malloc_mono (hle : fuel ≤ fuel') {nbytes : Nat} {x : Nat × Heap}
    (h : malloc im os fuel s nbytes = some x) : malloc im os fuel' s nbytes = some x :=
  mallocLoop_mono hle h

end

/-! ## 6. Programs -/

section
variable {im : Image} {os : Nat → Option Nat} {s : Heap} {L used : List Block}

/-- The order in which the blocks in use are listed does not matter. -/
theorem Tiled.perm {base top : Nat} {h : Nat → Header} {used' : List Block} {own : Nat → Nat}
    (ht : Tiled base top h L used own) (hp : used.Perm used') : Tiled base top h L used' own :=
  ⟨ht.head, ht.ring, ht.sizes, ht.apart, ht.pos, fun b hb => ht.busy b (hp.mem_iff.mpr hb),
    fun x => by rw [← ht.total x]; congr 1; exact (hp.countP_eq _).symm, ht.once, ht.inside,
    ht.room, ht.bound⟩

/-- No header of the allocator is in the bytes of a live block. -/
theorem HeapOk.scratch (h : HeapOk im s L s.live) {b : Block} (hb : b ∈ L ∨ b ∈ s.live) :
    Umalloc.scratch s.live b.1 = false := by
  rw [Bool.eq_false_iff]
  intro hs
  obtain ⟨c, hc, hin⟩ := List.any_eq_true.mp hs
  have hin' := of_decide_eq_true hin
  rcases hb with hb | hb
  · have := h.tiled.node_apart hb hc
    omega
  · have hne : b ≠ c := by
      rintro rfl
      omega
    have hp := h.tiled.perm (List.perm_cons_erase hc)
    have := hp.used_apart ((List.mem_erase_of_ne hne).mpr hb)
    omega

/-- **The program may write what it likes into its blocks.** -/
theorem HeapOk.write (h : HeapOk im s L s.live) (f : Nat → Header) :
    HeapOk im { s with hdr := fun a => if Umalloc.scratch s.live a then f a else s.hdr a } L
      s.live := by
  have ht := h.tiled
  have hat : ∀ b, b ∈ L ∨ b ∈ s.live →
      (if Umalloc.scratch s.live b.1 then f b.1 else s.hdr b.1) = s.hdr b.1 := by
    intro b hb
    rw [h.scratch hb]
    exact if_neg Bool.false_ne_true
  refine ⟨⟨ht.head, ?_, ?_, ht.apart, ht.pos, ?_, ht.total, ht.once, ht.inside, ht.room, ht.bound⟩,
    h.freep⟩
  · refine ht.ring.congr fun x hx => ?_
    obtain ⟨b, hb, rfl⟩ := List.mem_map.mp hx
    dsimp only
    rw [hat b (.inl hb)]
  · intro b hb
    dsimp only
    rw [hat b (.inl hb)]
    exact ht.sizes b hb
  · intro b hb
    dsimp only
    rw [hat b (.inr hb)]
    exact ht.busy b hb

/-- The heap before the first call of `malloc`. -/
structure Untouched (im : Image) (s : Heap) : Prop where
  freep : s.freep = 0
  brk : s.brk = im.brk
  regions : s.regions = []
  live : s.live = []

/-- **The heap at every moment.** -/
def Shaped (im : Image) (s : Heap) : Prop := Untouched im s ∨ ∃ L, HeapOk im s L s.live

/-- The list is there when the loop of `malloc` starts. -/
theorem Shaped.initFree (h : Shaped im s) :
    ∃ L, HeapOk im (Umalloc.initFree im s) L (Umalloc.initFree im s).live := by
  rcases h with h | ⟨L, h⟩
  · unfold Umalloc.initFree
    rw [if_pos h.freep]
    refine ⟨[(im.base, 0)], ⟨⟨rfl, ⟨?_, trivial⟩, ?_, List.pairwise_singleton .., ?_, ?_, ?_, ?_,
      ?_, ?_, ?_⟩, List.mem_singleton_self _⟩⟩
    · unfold setSize setPtr
      simp
    · intro b hb
      obtain rfl := List.mem_singleton.mp hb
      unfold setSize
      simp
    · intro b hb
      exact .inl (List.mem_singleton.mp hb)
    · intro b hb
      dsimp only at hb
      rw [h.live] at hb
      cases hb
    · intro x
      dsimp only
      rw [h.live, h.regions, Lib.cover_empty]
      rfl
    · intro x
      dsimp only
      rw [h.regions]
      exact Nat.zero_le 1
    · intro x hx
      dsimp only at hx
      rw [h.regions] at hx
      cases hx
    · have := im.below
      dsimp only
      rw [h.brk]
      exact this
    · have := im.bound
      dsimp only
      rw [h.brk]
      exact this
  · unfold Umalloc.initFree
    rw [if_neg]
    · exact ⟨L, h⟩
    · obtain ⟨b, hb, hf⟩ := List.mem_map.mp h.freep
      have := (h.tiled.node_bounds hb).1
      have := im.basePos
      omega

/-- **`malloc` returns**, and takes a block of the size asked for or none. -/
theorem Shaped.malloc (os : Nat → Option Nat) (h : Shaped im s) {nbytes : Nat} (hn : Sized nbytes) :
    ∃ fuel r s', Umalloc.malloc im os fuel s nbytes = some (r, s') ∧
      Malloced im s.live (units nbytes) r s' ∧ s'.live = s.live := by
  obtain ⟨hpos, h31, -⟩ := units_eq hn
  obtain ⟨L, hok⟩ := h.initFree
  have hlive : (Umalloc.initFree im s).live = s.live := by
    unfold Umalloc.initFree
    split <;> rfl
  obtain ⟨r, s', h1, h2, h3⟩ := hok.loop os hpos h31 (Nat.le_refl _)
  rw [hlive] at h2 h3
  exact ⟨2 * L.length + 2, r, s', h1, h2, h3⟩

/-- **`free` returns** for a live block. -/
theorem Shaped.free (h : Shaped im s) {b : Block} (hb : b ∈ s.live) :
    ∃ fuel s', Umalloc.free fuel s (b.1 + 8) = some s' ∧ s'.live = s.live ∧
      ∃ L, HeapOk im s' L (s.live.erase b) := by
  rcases h with h | ⟨L, h⟩
  · rw [h.live] at hb
    cases hb
  · have ht := h.tiled.perm (List.perm_cons_erase hb)
    obtain ⟨h', p, L', h1, h2, h3, -⟩ :=
      free_tiled (show Tiled _ _ _ _ ((b.1, b.2) :: _) _ from ht) h.freep (Nat.le_refl _)
    exact ⟨_, _, h1, rfl, L', h2, h3⟩

/-- **Every step of a program keeps it.** -/
theorem Shaped.exec (h : Shaped im s) {fuel : Nat} {a : Act} {s' : Heap}
    (hs : Umalloc.exec im os fuel s a = some s') : Shaped im s' := by
  cases a with
  | malloc nbytes =>
    simp only [Umalloc.exec] at hs
    split at hs
    · rename_i hn
      obtain ⟨⟨p, s1⟩, h1, h2⟩ := Option.bind_eq_some_iff.mp hs
      obtain ⟨fuel', r, s2, h3, h4, h5⟩ := h.malloc os hn
      -- the two bounds give one result
      have e1 := malloc_mono (Nat.le_max_left fuel fuel') h1
      have e2 := malloc_mono (Nat.le_max_right fuel fuel') h3
      rw [e1] at e2
      cases e2
      cases h2
      rcases h4 with ⟨rfl, L, hL⟩ | ⟨a, L, rfl, hL⟩
      · rw [if_pos rfl]
        refine .inr ⟨L, ?_⟩
        rw [h5]
        exact hL
      · rw [if_neg (by omega), Nat.add_sub_cancel]
        refine .inr ⟨L, ?_⟩
        dsimp only
        rw [h5]
        exact ⟨hL.tiled, hL.freep⟩
    · cases hs
  | free ap =>
    simp only [Umalloc.exec] at hs
    split at hs
    · rename_i b hfind
      have hb := List.mem_of_find?_eq_some hfind
      have hfound := List.find?_some hfind
      have hap : b.1 + 8 = ap := beq_iff_eq.mp hfound
      obtain ⟨s1, h1, h2⟩ := Option.bind_eq_some_iff.mp hs
      obtain ⟨fuel', s2, h3, h4, L, h5⟩ := h.free hb
      rw [hap] at h3
      have e1 := free_mono (Nat.le_max_left fuel fuel') h1
      have e2 := free_mono (Nat.le_max_right fuel fuel') h3
      rw [e1] at e2
      cases e2
      cases h2
      refine .inr ⟨L, ?_⟩
      dsimp only
      rw [h4]
      exact ⟨h5.tiled, h5.freep⟩
    · cases hs
  | write f =>
    cases hs
    rcases h with h | ⟨L, h⟩
    · exact .inl ⟨h.freep, h.brk, h.regions, h.live⟩
    · exact .inr ⟨L, h.write f⟩

end

/-- **The heap of a program**: at every moment it is in shape; `malloc` and `free` return from
    there, and what `malloc` gives has room for what was asked for. -/
theorem heap_invariant {im : Image} {os : Nat → Option Nat} {hdr : Nat → Header} {s : Heap}
    (h : Reachable im os hdr s) :
    Shaped im s ∧
    (∀ nbytes, Sized nbytes → ∃ fuel p s', malloc im os fuel s nbytes = some (p, s') ∧
      (p ≠ 0 → ∃ L, HeapOk im s' L ((p - 8, units nbytes) :: s.live) ∧
        p + nbytes ≤ p - 8 + 8 * units nbytes)) ∧
    (∀ b ∈ s.live, ∃ fuel s', free fuel s (b.1 + 8) = some s') := by
  have hsh : Shaped im s := Lib.Reach.inv h (.inl ⟨rfl, rfl, rfl, rfl⟩)
    fun hi ⟨fuel, hs⟩ => hi.exec hs
  refine ⟨hsh, fun nbytes hn => ?_, fun b hb => ?_⟩
  · obtain ⟨fuel, p, s', h1, h2, -⟩ := hsh.malloc os hn
    refine ⟨fuel, p, s', h1, fun hp => ?_⟩
    rcases h2 with ⟨rfl, -⟩ | ⟨a, L, rfl, hL⟩
    · exact absurd rfl hp
    · have := (units_eq hn).2.2
      rw [Nat.add_sub_cancel]
      exact ⟨L, hL, by omega⟩
  · obtain ⟨fuel, s', h1, -⟩ := hsh.free hb
    exact ⟨fuel, s', h1⟩

/-- A small program image. -/
def smallImage : Image := ⟨0x1000, 0x2000, by decide, by decide, by decide⟩

/-- Three blocks are taken and two of them freed, which joins them. -/
def takeAndFree : List Act :=
  [.malloc 100, .malloc 50, .malloc 20, .free (0x2000 + 8 * 4082 + 8),
    .free (0x2000 + 8 * 4074 + 8)]

theorem heap_invariant_takeAndFree : ∃ s,
    Lib.exec (exec smallImage (fun _ => some 0x2000) 10)
      (Heap.start smallImage fun _ => ⟨0, 0⟩) takeAndFree = some s ∧
    s.live = [(0x2000 + 8 * 4070, 4)] ∧ Shaped smallImage s := by
  have h : (Lib.exec (exec smallImage (fun _ => some 0x2000) 10)
      (Heap.start smallImage fun _ => ⟨0, 0⟩) takeAndFree).any
        (fun s => s.live == [(0x2000 + 8 * 4070, 4)]) = true := by
    decide +kernel
  obtain ⟨s, hs, h1⟩ := (Option.any_eq_true _ _).mp h
  have hreach : Reachable smallImage (fun _ => some 0x2000) (fun _ => ⟨0, 0⟩) s :=
    Lib.Reach.exec (fun {s s' a} h => ⟨a, 10, h⟩) .start hs
  exact ⟨s, hs, beq_iff_eq.mp h1, (heap_invariant hreach).1⟩

end Xv6Clock.Umalloc
