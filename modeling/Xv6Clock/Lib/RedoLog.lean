/-
  File:      Xv6Clock/Lib/RedoLog.lean
  Subject:   Lists of writes to a store, and a log of blocks with their contents in slots.

  `writes` applies writes in order; `redo` copies the slots of a log over the blocks its header
  names. Whatever stands at a block that the header names does not matter to `redo`: that is why
  the copying may be interrupted and done again.
-/
import Mathlib.Data.List.Nodup
import Mathlib.Logic.Function.Basic

namespace Xv6Clock.Lib

variable {ι α : Type*} [DecidableEq ι]

/-- The store after a list of writes. -/
def writes (h : ι → α) : List (ι × α) → ι → α
  | [] => h
  | w :: ws => writes (Function.update h w.1 w.2) ws

theorem writes_append (h : ι → α) (ws vs : List (ι × α)) :
    writes h (ws ++ vs) = writes (writes h ws) vs := by
  induction ws generalizing h with
  | nil => rfl
  | cons w ws ih => exact ih _

/-- A place no write names keeps its contents. -/
theorem writes_notMem {ws : List (ι × α)} {b : ι} (hb : b ∉ ws.map (·.1)) (h : ι → α) :
    writes h ws b = h b := by
  induction ws generalizing h with
  | nil => rfl
  | cons w ws ih =>
    rw [List.map_cons, List.mem_cons, not_or] at hb
    rw [writes, ih hb.2, Function.update_of_ne hb.1]

/-- The store after copying the slots from `t` on over the blocks of the list. -/
def redo (slot : Nat → α) : List ι → Nat → (ι → α) → ι → α
  | [], _, h => h
  | b :: bs, t, h => redo slot bs (t + 1) (Function.update h b (slot t))

variable {slot : Nat → α}

theorem redo_notMem {bs : List ι} {b : ι} (hb : b ∉ bs) (t : Nat) (h : ι → α) :
    redo slot bs t h b = h b := by
  induction bs generalizing t h with
  | nil => rfl
  | cons c bs ih =>
    rw [List.mem_cons, not_or] at hb
    rw [redo, ih hb.2, Function.update_of_ne hb.1]

/-- What stands at a block of the list does not matter. -/
theorem redo_mem {bs : List ι} {b : ι} (hb : b ∈ bs) (t : Nat) (h h' : ι → α) :
    redo slot bs t h b = redo slot bs t h' b := by
  induction bs generalizing t h h' with
  | nil => cases hb
  | cons c bs ih =>
    rw [redo, redo]
    by_cases hbs : b ∈ bs
    · exact ih hbs _ _ _
    · have hc : b = c := (List.mem_cons.mp hb).resolve_right hbs
      rw [redo_notMem hbs, redo_notMem hbs, hc, Function.update_self, Function.update_self]

/-- A block that occurs once gets its slot. -/
theorem redo_get {bs : List ι} (hn : bs.Nodup) {i : Nat} {b : ι} (hi : bs[i]? = some b) (t : Nat)
    (h : ι → α) : redo slot bs t h b = slot (t + i) := by
  induction bs generalizing t h i with
  | nil => cases hi
  | cons c bs ih =>
    rw [List.nodup_cons] at hn
    rw [redo]
    cases i with
    | zero =>
      cases hi
      rw [redo_notMem hn.1, Function.update_self, Nat.add_zero]
    | succ i =>
      rw [ih hn.2 (by simpa using hi), show t + 1 + i = t + (i + 1) by omega]

/-- Only the slots of the list matter. -/
theorem redo_congr {k : Nat → α} {bs : List ι} {t : Nat}
    (hs : ∀ i, i < bs.length → slot (t + i) = k (t + i)) (h : ι → α) :
    redo slot bs t h = redo k bs t h := by
  induction bs generalizing t h with
  | nil => rfl
  | cons c bs ih =>
    have h0 : slot t = k t := hs 0 (by simp)
    rw [redo, redo, h0]
    refine ih (fun i hi => ?_) _
    have := hs (i + 1) (by simp only [List.length_cons]; omega)
    rwa [show t + (i + 1) = t + 1 + i by omega] at this

/-- Stores that agree outside the list agree after it. -/
theorem redo_agree {bs : List ι} {t : Nat} {h h' : ι → α} {b : ι}
    (hb : b ∉ bs → h b = h' b) : redo slot bs t h b = redo slot bs t h' b := by
  by_cases hbs : b ∈ bs
  · exact redo_mem hbs t h h'
  · rw [redo_notMem hbs, redo_notMem hbs, hb hbs]

end Xv6Clock.Lib
