/-
  File:      Xv6Clock/Lib/Slots.lean
  Subject:   A list of slots as a finite map.

  A slot is live or free, and a live slot has a key. A key is looked up by the first live slot that
  has it; writing a slot inserts a key, or removes one.
  * `slotOf_eq_some`: with distinct keys, the slot found is the slot that has the key;
  * `slotOf_other`, `slotOf_remove`: the map after a slot is written.
-/
import Mathlib.Data.List.Basic

namespace Xv6Clock.Lib

universe u v

variable {α : Type u} {κ : Type v} (live : α → Bool) (key : α → κ)

/-- No two live slots have one key. -/
def KeysDistinct (es : List α) : Prop :=
  ∀ (i j : Nat) (a b : α), es[i]? = some a → es[j]? = some b → live a = true → live b = true →
    key a = key b → i = j

/-- Slot `j` is written; the slot behind the last one is a new one. -/
def putSlot (es : List α) (j : Nat) (a : α) : List α := es.take j ++ a :: es.drop (j + 1)

section
variable {live key} {es : List α} {j : Nat} {a : α}

theorem getElem?_putSlot (hj : j ≤ es.length) (a : α) (i : Nat) :
    (putSlot es j a)[i]? = if i = j then some a else es[i]? := by
  have hlen : (es.take j).length = j := List.length_take_of_le hj
  unfold putSlot
  rcases Nat.lt_trichotomy i j with h | h | h
  · rw [List.getElem?_append_left (by omega), List.getElem?_take_of_lt h, if_neg (by omega)]
  · rw [if_pos h, List.getElem?_append_right (by omega), hlen, h, Nat.sub_self]
    rfl
  · obtain ⟨m, rfl⟩ : ∃ m, i = j + 1 + m := ⟨i - (j + 1), by omega⟩
    rw [if_neg (by omega), List.getElem?_append_right (by omega), hlen,
      show j + 1 + m - j = m + 1 by omega, List.getElem?_cons_succ, List.getElem?_drop]

/-- Writing a free slot, or a key that no other slot has, keeps the keys distinct. -/
theorem distinct_put (h : KeysDistinct live key es) (hj : j ≤ es.length)
    (hnew : live a = true → ∀ (i : Nat) (b : α), i ≠ j → es[i]? = some b → live b = true →
      key b ≠ key a) :
    KeysDistinct live key (putSlot es j a) := by
  intro i m b c hb hc hlb hlc hk
  rw [getElem?_putSlot hj] at hb hc
  by_cases hi : i = j
  · rw [if_pos hi] at hb
    by_cases hm : m = j
    · rw [hi, hm]
    · rw [if_neg hm] at hc
      cases hb
      exact absurd hk.symm (hnew hlb m c hm hc hlc)
  · rw [if_neg hi] at hb
    by_cases hm : m = j
    · rw [if_pos hm] at hc
      cases hc
      exact absurd hk (hnew hlc i b hi hb hlb)
    · rw [if_neg hm] at hc
      exact h i m b c hb hc hlb hlc hk

end

variable [DecidableEq κ]

/-- The first live slot with the key. -/
def slotOf (es : List α) (k : κ) : Option Nat := es.findIdx? fun a => live a && decide (key a = k)

section
variable {live key} {es : List α} {i j : Nat} {a b : α} {k : κ}

theorem slotOf_some (h : slotOf live key es k = some j) :
    ∃ a, es[j]? = some a ∧ live a = true ∧ key a = k := by
  obtain ⟨hj, ha, -⟩ := List.findIdx?_eq_some_iff_getElem.mp h
  rw [Bool.and_eq_true, decide_eq_true_eq] at ha
  exact ⟨es[j], List.getElem?_eq_getElem hj, ha⟩

theorem slotOf_eq_none : slotOf live key es k = none ↔
    ∀ (i : Nat) (a : α), es[i]? = some a → live a = true → key a ≠ k := by
  unfold slotOf
  rw [List.findIdx?_eq_none_iff]
  refine ⟨fun h i a ha hl hk => ?_, fun h a ha => ?_⟩
  · have := h a (List.mem_of_getElem? ha)
    rw [hl, Bool.true_and, decide_eq_false_iff_not] at this
    exact this hk
  · obtain ⟨i, hi⟩ := List.mem_iff_getElem?.mp ha
    cases hl : live a with
    | false => rfl
    | true => rw [Bool.true_and, decide_eq_false_iff_not]; exact h i a hi hl

section
variable (h : KeysDistinct live key es)
include h

/-- **The slot found is the slot that has the key.** -/
theorem slotOf_eq_some : slotOf live key es k = some j ↔
    ∃ a, es[j]? = some a ∧ live a = true ∧ key a = k := by
  refine ⟨slotOf_some, fun ⟨a, ha, hl, hk⟩ => ?_⟩
  cases hs : slotOf live key es k with
  | none => exact absurd hk (slotOf_eq_none.mp hs j a ha hl)
  | some i =>
    obtain ⟨b, hb, hlb, hkb⟩ := slotOf_some hs
    rw [h i j b a hb ha hlb hl (hkb.trans hk.symm)]

/-- **A key that the slot neither had nor gets is looked up as before.** -/
theorem slotOf_other (h' : KeysDistinct live key (putSlot es j a)) (hj : j ≤ es.length)
    (hnew : live a = true → key a ≠ k) (hold : ∀ b, es[j]? = some b → live b = true → key b ≠ k) :
    slotOf live key (putSlot es j a) k = slotOf live key es k := by
  refine Option.ext fun i => ?_
  rw [slotOf_eq_some h, slotOf_eq_some h', getElem?_putSlot hj]
  by_cases hi : i = j
  · subst hi
    rw [if_pos rfl]
    refine ⟨fun ⟨b, hb, hl, hk⟩ => ?_, fun ⟨b, hb, hl, hk⟩ => absurd hk (hold b hb hl)⟩
    cases hb
    exact absurd hk (hnew hl)
  · rw [if_neg hi]

/-- **The key of a slot that becomes free is gone.** -/
theorem slotOf_remove (hj : slotOf live key es k = some j) (hlen : j ≤ es.length)
    (hl : live a = false) : slotOf live key (putSlot es j a) k = none := by
  obtain ⟨b, hb, hlb, hkb⟩ := slotOf_some hj
  refine slotOf_eq_none.mpr fun i c hc hlc hkc => ?_
  rw [getElem?_putSlot hlen] at hc
  by_cases hi : i = j
  · rw [if_pos hi] at hc
    cases hc
    rw [hl] at hlc
    cases hlc
  · rw [if_neg hi] at hc
    exact hi (h i j c b hc hb hlc hlb (hkc.trans hkb.symm))

end

end

end Xv6Clock.Lib
