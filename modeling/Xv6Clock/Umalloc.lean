/-
  File:      Xv6Clock/Umalloc.lean
  Subject:   The allocator of user programs (`malloc`, `free`, `morecore`, umalloc.c).

  A block is a header and the bytes behind it, counted in units of one header. The free blocks are
  in a circular list through `base`, in the order of their addresses; `freep` is a node of it. What
  `sbrk` answers when it is asked for more is left open: a region above everything handed out
  before, or -1.
-/
import Xv6Clock.Lib.Reach
import Xv6Clock.Lib.Route
import Xv6Clock.Lib.Tiling
import Xv6Clock.Mmu
import Mathlib.Algebra.Group.Nat.Defs
import Mathlib.Logic.Function.Basic

namespace Xv6Clock.Umalloc

/-! ## 1. The functions -/

/-- `union header`. -/
structure Header where
  ptr : Nat
  size : Nat

/-- A block: the address of its header and its size in units. -/
abbrev Block := Nat × Nat

/-- Where the program has `base`, and where its memory ends at the start. -/
structure Image where
  base : Nat
  brk : Nat
  basePos : 0 < base
  below : base + 8 ≤ brk
  bound : brk < 2 ^ 32

/-- The memory, seen as headers, and `freep`. `asked`, `regions` and `live` are histories: the
    arguments of `sbrk`, the last one first, what it gave, and the blocks that the program has. -/
structure Heap where
  hdr : Nat → Header
  freep : Nat
  brk : Nat
  asked : List Int
  regions : List Block
  live : List Block

/-- `p + n` for a pointer to a header. -/
def plus (p n : Nat) : Nat := (p + 8 * n) % 2 ^ 32

def setPtr (h : Nat → Header) (a v : Nat) : Nat → Header :=
  Function.update h a { h a with ptr := v }

def setSize (h : Nat → Header) (a n : Nat) : Nat → Header :=
  Function.update h a { h a with size := n }

/-- The loop of `free` ends at `p`, by its condition or by its `break`. -/
def freeStop (h : Nat → Header) (bp p : Nat) : Bool :=
  (decide (bp > p) && decide (bp < (h p).ptr)) ||
    (decide (p ≥ (h p).ptr) && (decide (bp > p) || decide (bp < (h p).ptr)))

/-- `free`: join to the upper neighbour. -/
def joinUpper (h : Nat → Header) (p bp : Nat) : Nat → Header :=
  if plus bp (h bp).size = (h p).ptr then
    let h := setSize h bp (((h bp).size + (h (h p).ptr).size) % 2 ^ 32)
    setPtr h bp (h (h p).ptr).ptr
  else setPtr h bp (h p).ptr

/-- `free`: join to the lower neighbour. -/
def joinLower (h : Nat → Header) (p bp : Nat) : Nat → Header :=
  if plus p (h p).size = bp then
    let h := setSize h p (((h p).size + (h bp).size) % 2 ^ 32)
    setPtr h p (h bp).ptr
  else setPtr h p bp

/-- `free`. The loops have a bound on their rounds; without a result it was too small. -/
def free (fuel : Nat) (s : Heap) (ap : Nat) : Option Heap := do
  let bp := ap - 8
  let p ← Lib.seek (fun a => (s.hdr a).ptr) (freeStop s.hdr bp) fuel s.freep
  some { s with hdr := joinLower (joinUpper s.hdr p bp) p bp, freep := p }

section
variable (im : Image) (os : Nat → Option Nat)

/-- `sbrk(n)`. The answers are those of `os`, one after the other; one that is not above all memory
    in use counts as -1. A negative `n` takes memory away (`growproc`), as far as there is any; what
    was the end is the answer. -/
def sbrk (s : Heap) (n : Int) : Option Nat × Heap :=
  match os s.asked.length with
  | none => (none, { s with asked := n :: s.asked })
  | some a =>
    if 0 ≤ n then
      if s.brk ≤ a ∧ a + n.toNat < 2 ^ 32 then
        (some a, { s with brk := a + n.toNat, asked := n :: s.asked })
      else (none, { s with asked := n :: s.asked })
    else
      let brk := if n.natAbs ≤ s.brk then s.brk - n.natAbs else s.brk
      (some s.brk, { s with brk := brk, asked := n :: s.asked })

/-- `morecore`. The number of bytes is an `int` for `sbrk`; `regions` gets what it added. -/
def morecore (fuel : Nat) (s : Heap) (nu : Nat) : Option (Nat × Heap) :=
  let nu := if nu < 4096 then 4096 else nu
  let n := toI (nu * 8 : Nat)
  match sbrk os s n with
  | (none, s) => some (0, s)
  | (some p, s) => do
    let s := { s with hdr := setSize s.hdr p nu, regions := (p, n.toNat / 8) :: s.regions }
    let s ← free fuel s (p + 8)
    some (s.freep, s)

/-- `nunits`. -/
def units (nbytes : Nat) : Nat := (nbytes + 8 - 1) % 2 ^ 32 / 8 + 1

/-- `malloc`: the block at `p` is taken, or its end. -/
def carve (s : Heap) (nunits prevp p : Nat) : Nat × Heap :=
  if (s.hdr p).size = nunits then
    (p + 8, { s with hdr := setPtr s.hdr prevp (s.hdr p).ptr, freep := prevp })
  else
    let h := setSize s.hdr p ((s.hdr p).size - nunits)
    let p := plus p (h p).size
    (p + 8, { s with hdr := setSize h p nunits, freep := prevp })

/-- The loop of `malloc`. -/
def mallocLoop : Nat → Heap → Nat → Nat → Nat → Option (Nat × Heap)
  | 0, _, _, _, _ => none
  | fuel + 1, s, nunits, prevp, p =>
    if (s.hdr p).size ≥ nunits then some (carve s nunits prevp p)
    else if p = s.freep then do
      let (p, s) ← morecore os fuel s nunits
      if p = 0 then some (0, s) else mallocLoop fuel s nunits p (s.hdr p).ptr
    else mallocLoop fuel s nunits p (s.hdr p).ptr

/-- `malloc`: the list is made at the first call. -/
def initFree (s : Heap) : Heap :=
  if s.freep = 0 then
    { s with hdr := setSize (setPtr s.hdr im.base im.base) im.base 0, freep := im.base }
  else s

/-- `malloc`. -/
def malloc (fuel : Nat) (s : Heap) (nbytes : Nat) : Option (Nat × Heap) :=
  let s := initFree im s
  mallocLoop os fuel s (units nbytes) s.freep (s.hdr s.freep).ptr

end

/-! ## 2. Programs -/

/-- A request whose size in units, times 8, is below 2 GB. -/
def Sized (nbytes : Nat) : Prop := ((nbytes + 7) / 8 + 1) * 8 < 2 ^ 31

instance (nbytes : Nat) : Decidable (Sized nbytes) := inferInstanceAs (Decidable (_ < _))

/-- The header at `a` is, in part, in the bytes that a live block gives to the program. -/
def scratch (live : List Block) (a : Nat) : Bool :=
  live.any fun b => decide (b.1 < a ∧ a < b.1 + 8 * b.2)

inductive Act where
  | malloc (nbytes : Nat)
  | free (ap : Nat)
  /-- The program writes into its blocks. -/
  | write (f : Nat → Header)

/-- **What a program does**: it asks for blocks, frees the ones it has, and writes into them. -/
def exec (im : Image) (os : Nat → Option Nat) (fuel : Nat) (s : Heap) : Act → Option Heap
  | .malloc nbytes =>
    if Sized nbytes then do
      let (p, s) ← malloc im os fuel s nbytes
      some (if p = 0 then s else { s with live := (p - 8, units nbytes) :: s.live })
    else none
  | .free ap =>
    match s.live.find? (fun b => b.1 + 8 == ap) with
    | some b => do
      let s ← free fuel s ap
      some { s with live := s.live.erase b }
    | none => none
  | .write f => some { s with hdr := fun a => if scratch s.live a then f a else s.hdr a }

def Heap.start (im : Image) (hdr : Nat → Header) : Heap where
  hdr := hdr
  freep := 0
  brk := im.brk
  asked := []
  regions := []
  live := []

/-- **The states of a program's heap.** -/
def Reachable (im : Image) (os : Nat → Option Nat) (hdr : Nat → Header) : Heap → Prop :=
  Lib.Reach (fun s a s' => ∃ fuel, exec im os fuel s a = some s') (Heap.start im hdr)

end Xv6Clock.Umalloc
