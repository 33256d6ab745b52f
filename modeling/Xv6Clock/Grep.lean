/-
  File:      Xv6Clock/Grep.lean
  Subject:   The program `grep` (grep.c), with `strchr` (ulib.c).

  `read` delivers the input in chunks of any sizes from one byte up to what is requested. Above the
  buffer and its pointers there is the list of lines that the program comes to see (`look`): a read
  after which the buffer has no whole line in front of a NUL makes it forget the buffer.
  * `lineLoop_spec`: one pass over the buffer;
  * `grepLoop_look`: the output is made of the lines that are seen;
  * `look_suffix`: what is seen are ends of lines;
  * `grep_any_delivery`: the patterns and inputs for which the delivery does not matter.
-/
import Xv6Clock.Memmove
import Xv6Clock.Mmu
import Mathlib.Data.List.DropRight
import Mathlib.Data.List.GetD
import Mathlib.Data.List.Infix

namespace Xv6Clock.Grep

open Lib (Bytes splice cstr moved)

/-! ## 1. The program -/

def nl : Byte := 10
def star : Byte := 42
def dot : Byte := 46
def caret : Byte := 94
def dollar : Byte := 36

/-- `matchstar`, given the `matchhere` of the rest of the pattern. -/
def matchstar (here : List Byte → Bool) (c : Byte) : List Byte → Bool
  | [] => here []
  | t :: text => here (t :: text) || ((t == c || c == dot) && matchstar here c text)

/-- `matchhere`; strings are the bytes before their NUL. -/
def matchhere : List Byte → List Byte → Bool
  | [], _ => true
  | [c], text =>
    if c = dollar then text.isEmpty
    else
      match text with
      | [] => false
      | t :: _ => c == dot || c == t
  | c :: d :: re, text =>
    if d = star then matchstar (matchhere re) c text
    else
      match text with
      | [] => false
      | t :: text => (c == dot || c == t) && matchhere (d :: re) text

/-- The loop of `match`. -/
def matchAnywhere (re : List Byte) : List Byte → Bool
  | [] => matchhere re []
  | t :: text => matchhere re (t :: text) || matchAnywhere re text

/-- `match`. -/
def matchText (re text : List Byte) : Bool :=
  match re with
  | [] => matchAnywhere [] text
  | c :: re => if c = caret then matchhere re text else matchAnywhere (c :: re) text

/-- The size of `buf`. -/
def bufSize : Nat := 1024

/-- `strchr`; the string ends in the buffer. -/
def strchr (c : Byte) : Nat → Bytes → Nat → Option Nat
  | 0, _, _ => none
  | fuel + 1, b, s =>
    if b s = 0 then none else if b s = c then some s else strchr c fuel b (s + 1)

/-- The inner loop of `grep`: `p` and the buffer afterwards, and what is written. -/
def lineLoop (pattern : List Byte) : Nat → Bytes → Nat → Nat × Bytes × List Byte
  | 0, b, p => (p, b, [])
  | fuel + 1, b, p =>
    match strchr nl bufSize b p with
    | none => (p, b, [])
    | some q =>
      let b := Function.update b q 0
      if matchText pattern (cstr bufSize fun j => b (p + j)) then
        let b := Function.update b q nl
        let data := (List.range (q + 1 - p)).map fun j => b (p + j)
        let (p, b, out) := lineLoop pattern fuel b (q + 1)
        (p, b, data ++ out)
      else lineLoop pattern fuel b (q + 1)

/-- `read`: a byte at least, if there is one and one is requested. -/
def read (requested : Nat) (rest : List Byte) (want : Nat) :
    List Byte × List Byte :=
  let n := min (max 1 want) requested
  (rest.take n, rest.drop n)

/-- The loop of `grep`; `want` has the sizes of the chunks. -/
def grepLoop (pattern : List Byte) :
    Nat → Bytes → Nat → List Byte → (Nat → Nat) → List Byte
  | 0, _, _, _, _ => []
  | fuel + 1, b, m, rest, want =>
    let (data, rest) := read (bufSize - m - 1) rest (want 0)
    if data = [] then []
    else
      let b := splice b m data
      let m := m + data.length
      let b := Function.update b m 0
      let (p, b, out) := lineLoop pattern bufSize b 0
      let m := if p = 0 then 0 else m
      let (m, b) := if 0 < m then (m - p, (Memmove.user b 0 p ↑(m - p)).2) else (m, b)
      out ++ grepLoop pattern fuel b m rest fun j => want (j + 1)

/-- `grep`: what it writes; a read takes a byte of the input. -/
def grep (pattern : List Byte) (b : Bytes) (input : List Byte) (want : Nat → Nat) :
    List Byte :=
  grepLoop pattern (input.length + 1) b 0 input want

/-! ## 2. Lines -/

/-- The whole lines in front of a NUL, and what is behind them. -/
def cut : List Byte → List (List Byte) × List Byte
  | [] => ([], [])
  | c :: r =>
    if c = 0 then ([], c :: r)
    else if c = nl then ([] :: (cut r).1, (cut r).2)
    else
      match cut r with
      | ([], _) => ([], c :: r)
      | (l :: ls, rest) => ((c :: l) :: ls, rest)

/-- What is written for the lines. -/
def written (pattern : List Byte) (ls : List (List Byte)) : List Byte :=
  ls.flatMap fun l => if matchText pattern l then l ++ [nl] else []

/-- A text made of the lines. -/
def text (ls : List (List Byte)) : List Byte := ls.flatMap (· ++ [nl])

section
variable {r rest l : List Byte} {ls : List (List Byte)}

theorem cut_none (h : (cut r).1 = []) : (cut r).2 = r := by
  cases r with
  | nil => rfl
  | cons c r =>
    unfold cut at h ⊢
    split at h
    · rename_i h0
      rw [if_pos h0]
    · rename_i h0
      rw [if_neg h0]
      split at h
      · cases h
      · rename_i hn
        rw [if_neg hn]
        split at h
        · rfl
        · cases h

/-- The first whole line, and the rest. -/
theorem cut_some (h : cut r = (l :: ls, rest)) :
    ∃ r', r = l ++ nl :: r' ∧ cut r' = (ls, rest) ∧ 0 ∉ l ∧ nl ∉ l := by
  induction r generalizing l with
  | nil => cases h
  | cons c r ih =>
    unfold cut at h
    split at h
    · cases h
    rename_i h0
    split at h
    · rename_i hn
      cases h
      exact ⟨r, by rw [hn]; rfl, rfl, by simp, by simp⟩
    · rename_i hn
      split at h
      · cases h
      · rename_i l' ls' rest' hc
        cases h
        obtain ⟨r', hr, hcut, hl0, hln⟩ := ih hc
        refine ⟨r', by rw [hr]; rfl, hcut, ?_, ?_⟩
        · rw [List.mem_cons, not_or]
          exact ⟨fun e => h0 e.symm, hl0⟩
        · rw [List.mem_cons, not_or]
          exact ⟨fun e => hn e.symm, hln⟩

/-- The lines, and what is behind them, are the text. -/
theorem cut_text : ∀ {r : List Byte} {rest : List Byte}, cut r = (ls, rest) →
    r = text ls ++ rest := by
  induction ls with
  | nil =>
    intro r rest h
    have hrest := cut_none (r := r) (by rw [h])
    rw [h] at hrest
    exact hrest.symm
  | cons l ls ih =>
    intro r rest h
    obtain ⟨r', rfl, hcut, -, -⟩ := cut_some h
    rw [ih hcut]
    simp [text]

theorem cut_clean : ∀ {r : List Byte} {rest : List Byte}, cut r = (ls, rest) →
    ∀ l ∈ ls, 0 ∉ l ∧ nl ∉ l := by
  induction ls with
  | nil => exact fun _ l hl => absurd hl (List.not_mem_nil)
  | cons l ls ih =>
    intro r rest h l' hl'
    obtain ⟨r', -, hcut, h0, hn⟩ := cut_some h
    rcases List.mem_cons.mp hl' with rfl | hm
    · exact ⟨h0, hn⟩
    · exact ih hcut l' hm

theorem length_text_ge (ls : List (List Byte)) : ls.length ≤ (text ls).length := by
  induction ls with
  | nil => exact Nat.le_refl 0
  | cons l ls ih =>
    simp only [text, List.flatMap_cons, List.length_append, List.length_cons,
      List.length_nil] at ih ⊢
    omega

end

/-! ## 3. The buffer -/

/-- The buffer has the string at `p`, and a NUL behind it. -/
def Str (b : Bytes) (p : Nat) (r : List Byte) : Prop :=
  (∀ j, j < r.length → b (p + j) = r.getD j 0) ∧ b (p + r.length) = 0

section
variable {b : Bytes} {p : Nat} {r l : List Byte}

theorem Str.tail {c : Byte} (h : Str b p (c :: r)) : b p = c ∧ Str b (p + 1) r := by
  refine ⟨h.1 0 (Nat.succ_pos _), fun j hj => ?_, ?_⟩
  · rw [show p + 1 + j = p + (j + 1) by omega]
    exact h.1 (j + 1) (Nat.succ_lt_succ hj)
  · rw [show p + 1 + r.length = p + (c :: r).length by rw [List.length_cons]; omega]
    exact h.2

theorem Str.drop (h : Str b p (l ++ r)) : Str b (p + l.length) r := by
  induction l generalizing p with
  | nil => exact h
  | cons c l ih =>
    rw [List.length_cons, show p + (l.length + 1) = p + 1 + l.length by omega]
    exact ih h.tail.2

/-- `strchr` finds the end of the first whole line. -/
theorem strchr_spec {fuel : Nat} (h : Str b p r) (hf : r.length < fuel) :
    strchr nl fuel b p = match (cut r).1 with
      | [] => none
      | l :: _ => some (p + l.length) := by
  induction r generalizing p fuel with
  | nil =>
    obtain ⟨fuel, rfl⟩ : ∃ n, fuel = n + 1 := ⟨fuel - 1, by omega⟩
    exact if_pos h.2
  | cons c r ih =>
    obtain ⟨fuel, rfl⟩ : ∃ n, fuel = n + 1 := ⟨fuel - 1, by omega⟩
    obtain ⟨hc, hr⟩ := h.tail
    have hnext := ih hr (Nat.lt_of_succ_lt_succ hf)
    unfold strchr cut
    rw [hc]
    by_cases h0 : c = 0
    · rw [if_pos h0, if_pos h0]
    · rw [if_neg h0, if_neg h0]
      by_cases hn : c = nl
      · rw [if_pos hn, if_pos hn]
        rfl
      · rw [if_neg hn, if_neg hn, hnext]
        cases hcut : cut r with
        | mk ls rest =>
          cases ls with
          | nil => rfl
          | cons l ls =>
            dsimp only
            rw [List.length_cons]
            congr 1
            omega

theorem Str.congr {b' : Bytes} (h : Str b p r) (hb : ∀ j, p ≤ j → b' j = b j) : Str b' p r :=
  ⟨fun j hj => (hb _ (Nat.le_add_right ..)).trans (h.1 j hj),
    (hb _ (Nat.le_add_right ..)).trans h.2⟩

/-- The string at `p` when the end of its first line is overwritten by a NUL. -/
theorem Str.line (h : Str b p (l ++ nl :: r)) (h0 : 0 ∉ l) (hlen : l.length < bufSize) :
    cstr bufSize (fun j => Function.update b (p + l.length) 0 (p + j)) = l := by
  refine Lib.cstr_of_bytes h0 (Nat.le_of_lt hlen) (fun j hj => ?_) fun _ => Function.update_self ..
  rw [Function.update_of_ne (by omega), h.1 j (by rw [List.length_append]; omega),
    List.getD_append _ _ _ _ hj]

/-- What is written for the line. -/
theorem Str.data (h : Str b p (l ++ nl :: r)) :
    (List.range (p + l.length + 1 - p)).map (fun j => b (p + j)) = l ++ [nl] := by
  have hlen : p + l.length + 1 - p = (l ++ [nl]).length := by
    rw [List.length_append, List.length_singleton]
    omega
  rw [hlen]
  conv => rhs; rw [← Lib.range_bytesOf (l ++ [nl])]
  refine List.map_congr_left fun j hj => ?_
  have hj := List.mem_range.mp hj
  have hsplit : l ++ nl :: r = (l ++ [nl]) ++ r := by simp
  rw [hsplit] at h
  rw [h.1 j (by rw [List.length_append]; omega), List.getD_append _ _ _ _ hj]
  rfl

/-- **One pass over the buffer.** -/
theorem lineLoop_spec (pattern : List Byte) {ls : List (List Byte)} :
    ∀ {fuel : Nat} {b : Bytes} {p : Nat} {r rest : List Byte}, Str b p r →
    r.length < bufSize → cut r = (ls, rest) → ls.length < fuel →
    ∃ b', lineLoop pattern fuel b p = (p + (text ls).length, b', written pattern ls) ∧
      ∀ j, p + (text ls).length ≤ j → b' j = b j := by
  induction ls with
  | nil =>
    intro fuel b p r rest hstr hlen hcut hfuel
    obtain ⟨fuel, rfl⟩ : ∃ n, fuel = n + 1 := ⟨fuel - 1, by omega⟩
    refine ⟨b, ?_, fun _ _ => rfl⟩
    unfold lineLoop
    rw [strchr_spec hstr hlen, hcut]
    rfl
  | cons l ls ih =>
    intro fuel b p r rest hstr hlen hcut hfuel
    obtain ⟨fuel, rfl⟩ : ∃ n, fuel = n + 1 := ⟨fuel - 1, by omega⟩
    obtain ⟨r', rfl, hcut', h0, -⟩ := cut_some hcut
    rw [List.length_append, List.length_cons] at hlen
    have hrest : Str b (p + l.length + 1) r' := hstr.drop.tail.2
    have htext : p + (text (l :: ls)).length = p + l.length + 1 + (text ls).length := by
      simp [text]
      omega
    have hnl : b (p + l.length) = nl := hstr.drop.tail.1
    unfold lineLoop
    rw [strchr_spec hstr (by rw [List.length_append, List.length_cons]; omega), hcut]
    dsimp only
    rw [hstr.line h0 (by omega), htext]
    by_cases hm : matchText pattern l = true
    · -- the newline is back, so the buffer is as it was
      have hback : Function.update (Function.update b (p + l.length) 0) (p + l.length) nl = b := by
        rw [Function.update_idem, ← hnl, Function.update_eq_self]
      obtain ⟨b', hloop, hkeep⟩ := ih hrest (by omega) hcut' (Nat.lt_of_succ_lt_succ hfuel)
      refine ⟨b', ?_, hkeep⟩
      rw [if_pos hm, hback, hstr.data, hloop]
      unfold written
      rw [List.flatMap_cons, if_pos hm]
    · have hpast : ∀ j, p + l.length + 1 ≤ j →
          Function.update b (p + l.length) 0 j = b j := fun j hj =>
        Function.update_of_ne (by omega) ..
      obtain ⟨b', hloop, hkeep⟩ := ih (hrest.congr hpast) (by omega) hcut'
        (Nat.lt_of_succ_lt_succ hfuel)
      refine ⟨b', ?_, fun j hj => (hkeep j hj).trans (hpast j (by omega))⟩
      rw [if_neg hm, hloop]
      unfold written
      rw [List.flatMap_cons, if_neg hm, List.nil_append]

end

/-! ## 4. The lines that are seen -/

/-- **The lines that `grep` comes to see**, with `carry` in the buffer. -/
def look : Nat → List Byte → List Byte → (Nat → Nat) → List (List Byte)
  | 0, _, _, _ => []
  | fuel + 1, carry, rest, want =>
    let (data, rest) := read (bufSize - carry.length - 1) rest (want 0)
    if data = [] then []
    else
      let (ls, r) := cut (carry ++ data)
      ls ++ look fuel (if ls = [] then [] else r) rest fun j => want (j + 1)

theorem written_append (pattern : List Byte) (ls ls' : List (List Byte)) :
    written pattern (ls ++ ls') = written pattern ls ++ written pattern ls' :=
  List.flatMap_append

theorem text_ne_nil {ls : List (List Byte)} : (text ls).length = 0 ↔ ls = [] := by
  cases ls with
  | nil => exact ⟨fun _ => rfl, fun _ => rfl⟩
  | cons l ls => simp [text]

/-- The buffer after a read. -/
theorem str_read {b : Bytes} {carry : List Byte}
    (hb : ∀ j, j < carry.length → b j = carry.getD j 0) (data : List Byte) :
    Str (Function.update (splice b carry.length data) (carry.length + data.length) 0) 0
      (carry ++ data) := by
  refine ⟨fun j hj => ?_, ?_⟩
  · rw [List.length_append] at hj
    rw [Nat.zero_add, Function.update_of_ne (by omega)]
    by_cases hlt : j < carry.length
    · rw [Lib.splice_out (.inl hlt), hb j hlt, List.getD_append _ _ _ _ hlt]
    · rw [Lib.splice_in (by omega) hj, List.getD_append_right _ _ _ _ (by omega)]
  · rw [Nat.zero_add, List.length_append, Function.update_self]

/-- `memmove` to the front of the buffer. -/
theorem memmove_front (b : Bytes) {p n : Nat} (h : p + n < 2 ^ 31) :
    (Memmove.user b 0 p ↑n).2 = moved b 0 p n := by
  rw [Memmove.user_eq_copyUp b (by omega) (by omega) (by omega)]
  exact Lib.copyUp_eq_moved.mpr fun hlt => absurd hlt (Nat.not_lt_zero p)

/-- **The output is made of the lines that are seen.** -/
theorem grepLoop_look (pattern : List Byte) {fuel : Nat} : ∀ {b : Bytes}
    {carry rest : List Byte} {want : Nat → Nat}, carry.length < bufSize →
    (∀ j, j < carry.length → b j = carry.getD j 0) →
    grepLoop pattern fuel b carry.length rest want =
      written pattern (look fuel carry rest want) := by
  induction fuel with
  | zero => exact fun _ _ => rfl
  | succ fuel ih =>
    intro b carry rest want hlen hb
    unfold grepLoop look
    cases hread : read (bufSize - carry.length - 1) rest (want 0) with
    | mk data rest' =>
      dsimp only
      by_cases hdata : data = []
      · rw [if_pos hdata, if_pos hdata]
        rfl
      rw [if_neg hdata, if_neg hdata]
      have hshort : carry.length + data.length < bufSize := by
        have hle : data.length ≤ bufSize - carry.length - 1 := by
          have hd : data = _ := (congrArg Prod.fst hread).symm
          rw [hd]
          change (rest.take _).length ≤ _
          rw [List.length_take]
          omega
        omega
      have hstr := str_read hb data
      cases hcut : cut (carry ++ data) with
      | mk ls r =>
        have htext := congrArg List.length (cut_text hcut)
        rw [List.length_append, List.length_append] at htext
        have hls := length_text_ge ls
        obtain ⟨b', hloop, hkeep⟩ := lineLoop_spec pattern hstr
          (by rw [List.length_append]; omega) hcut (show ls.length < bufSize by omega)
        rw [Nat.zero_add] at hloop hkeep
        rw [hloop]
        dsimp only
        rw [written_append]
        congr 1
        by_cases hnone : ls = []
        · rw [if_pos (text_ne_nil.mpr hnone), if_pos hnone]
          exact @ih b' [] rest' _ (by decide) fun j hj => absurd hj (Nat.not_lt_zero j)
        · have hp : (text ls).length ≠ 0 := mt text_ne_nil.mp hnone
          have hsize : carry.length + data.length - (text ls).length = r.length := by omega
          rw [if_neg hp, if_neg hnone, if_pos (show 0 < carry.length + data.length by omega),
            hsize]
          dsimp only
          rw [memmove_front b' (by change _ < 1024 at hshort; omega)]
          refine ih (by omega) fun j hj => ?_
          have hmoved := Lib.moved_in b' (text ls).length (d := 0) hj
          rw [Nat.zero_add] at hmoved
          rw [hmoved, hkeep _ (Nat.le_add_right ..)]
          have hget := hstr.1 ((text ls).length + j) (by rw [List.length_append]; omega)
          rw [Nat.zero_add, cut_text hcut, List.getD_append_right _ _ _ _ (Nat.le_add_right ..),
            Nat.add_sub_cancel_left] at hget
          exact hget

/-! ## 5. What is seen are ends of lines -/

section
variable {w : List Byte} {lines : List (List Byte)}

theorem read_split (requested : Nat) (rest : List Byte) (want : Nat) :
    (read requested rest want).1 ++ (read requested rest want).2 = rest :=
  List.take_append_drop ..

theorem mem_text {ls : List (List Byte)} (h : w ∈ ls) :
    ∃ front back, text ls = front ++ (w ++ nl :: back) := by
  obtain ⟨l1, l2, rfl⟩ := List.append_of_mem h
  exact ⟨text l1, text l2, by simp [text]⟩

/-- A line that is seen stands in the buffer or in the input, with its newline. -/
theorem look_suffix {fuel : Nat} : ∀ {carry rest : List Byte} {want : Nat → Nat},
    w ∈ look fuel carry rest want →
    (∃ back, (w ++ nl :: back) <:+ (carry ++ rest)) ∧ 0 ∉ w ∧ nl ∉ w := by
  induction fuel with
  | zero => exact fun h => absurd h List.not_mem_nil
  | succ fuel ih =>
    intro carry rest want h
    have hread := read_split (bufSize - carry.length - 1) rest (want 0)
    unfold look at h
    cases hr : read (bufSize - carry.length - 1) rest (want 0) with
    | mk data rest' =>
      rw [hr] at h hread
      dsimp only at h hread
      split at h
      · exact absurd h List.not_mem_nil
      cases hcut : cut (carry ++ data) with
      | mk ls r =>
        rw [hcut] at h
        dsimp only at h
        rw [← hread, ← List.append_assoc]
        rcases List.mem_append.mp h with hm | hm
        · obtain ⟨front, back, hback⟩ := mem_text hm
          refine ⟨⟨back ++ (r ++ rest'), front, ?_⟩, cut_clean hcut w hm⟩
          rw [cut_text hcut, hback]
          simp
        · obtain ⟨⟨back, hback⟩, hclean⟩ := ih hm
          refine ⟨⟨back, hback.trans ?_⟩, hclean⟩
          split
          · exact List.suffix_append ..
          · rw [cut_text hcut, List.append_assoc]
            exact List.suffix_append ..

/-- What stands in front of the first newline. -/
theorem takeWhile_line (h : nl ∉ w) (back : List Byte) :
    (w ++ nl :: back).takeWhile (· != nl) = w := by
  rw [List.takeWhile_append_of_pos fun c hc => by simpa using fun e : c = nl => h (e ▸ hc),
    List.takeWhile_cons_of_neg (by simp), List.append_nil]

/-- Whatever stands in front of a newline of the text is the end of a line. -/
theorem suffix_line (hlines : ∀ l ∈ lines, nl ∉ l) (hw : nl ∉ w) {back : List Byte}
    (h : (w ++ nl :: back) <:+ text lines) : ∃ l ∈ lines, w <:+ l := by
  induction lines with
  | nil =>
    have hnil := List.suffix_nil.mp h
    simp at hnil
  | cons l lines ih =>
    have hrest := fun hx => (ih (fun l' hl' => hlines l' (List.mem_cons_of_mem _ hl')) hx).imp
      fun l' hl' => And.intro (List.mem_cons_of_mem l hl'.1) hl'.2
    obtain ⟨u, hu⟩ := h
    have htext : text (l :: lines) = (l ++ [nl]) ++ text lines := List.flatMap_cons
    rw [htext] at hu
    rcases List.append_eq_append_iff.mp hu with ⟨v, hv, hback⟩ | ⟨v, -, hback⟩
    · -- it starts in the first line, or right behind it
      rcases List.eq_nil_or_concat v with rfl | ⟨v', c, rfl⟩
      · exact hrest ⟨[], hback⟩
      · rw [List.concat_eq_append, ← List.append_assoc] at hv
        obtain ⟨hl, hc⟩ := List.append_inj' hv rfl
        obtain rfl : nl = c := by simpa using hc
        have hno : nl ∉ v' := fun hm => hlines l List.mem_cons_self
          (hl ▸ List.mem_append_right u hm)
        rw [List.concat_eq_append, List.append_assoc] at hback
        have hfirst := congrArg (List.takeWhile (· != nl)) hback
        rw [takeWhile_line hw, show [nl] ++ text lines = nl :: text lines from rfl,
          takeWhile_line hno] at hfirst
        exact ⟨l, List.mem_cons_self, u, by rw [hfirst, hl]⟩
    · exact hrest ⟨v, hback.symm⟩

end

/-! ## 6. Deliveries -/

/-- The chunks have the given sizes. -/
def sizes (s : List Nat) : Nat → Nat := fun j => s.getD j 1

section
variable {l : List Byte} {lines : List (List Byte)} {rest c : List Byte}

/-- A read at the start of a line. -/
theorem look_chunk (hc : c ≠ []) (hlen : c.length < bufSize) (fuel : Nat)
    (rest : List Byte) (s : List Nat) :
    look (fuel + 1) [] (c ++ rest) (sizes (c.length :: s)) =
      (cut c).1 ++ look fuel (if (cut c).1 = [] then [] else (cut c).2) rest (sizes s) := by
  have hpos := List.length_pos_iff.mpr hc
  have hsize : min (max 1 (sizes (c.length :: s) 0)) (bufSize - ([] : List Byte).length - 1) =
      c.length := by
    change min (max 1 c.length) (1024 - 0 - 1) = c.length
    change c.length < 1024 at hlen
    omega
  conv => lhs; unfold look read
  dsimp only
  rw [hsize, List.take_left, List.drop_left, if_neg hc, List.nil_append]
  rfl

theorem cut_no_newline (h : nl ∉ l) : (cut l).1 = [] := by
  cases hcut : cut l with
  | mk ls rest =>
    cases ls with
    | nil => rfl
    | cons w ls =>
      obtain ⟨r', rfl, -, -⟩ := cut_some hcut
      exact absurd (List.mem_append_right w List.mem_cons_self) h

theorem cut_line (hn : nl ∉ l) : (0 ∉ l → cut (l ++ [nl]) = ([l], [])) ∧
    (0 ∈ l → (cut (l ++ [nl])).1 = []) := by
  induction l with
  | nil => exact ⟨fun _ => rfl, fun h => absurd h List.not_mem_nil⟩
  | cons c l ih =>
    obtain ⟨hc, hl⟩ := not_or.mp (mt List.mem_cons.mpr hn)
    obtain ⟨hclean, hnul⟩ := ih hl
    rw [List.cons_append]
    unfold cut
    refine ⟨fun h0 => ?_, fun h0 => ?_⟩
    · obtain ⟨hc0, hl0⟩ := not_or.mp (mt List.mem_cons.mpr h0)
      rw [if_neg fun e => hc0 e.symm, if_neg fun e => hc e.symm, hclean hl0]
    · by_cases hc0 : c = 0
      · rw [if_pos hc0]
      · have hl0 : 0 ∈ l := (List.mem_cons.mp h0).resolve_left fun e => hc0 e.symm
        have hnone := hnul hl0
        rw [if_neg hc0, if_neg fun e => hc e.symm]
        split
        · rfl
        · rename_i heq
          rw [heq] at hnone
          cases hnone

/-- The lines without a NUL. -/
def clean (lines : List (List Byte)) : List (List Byte) :=
  lines.filter fun l => decide (0 ∉ l)

/-- Line by line, the lines without a NUL are seen. -/
theorem look_lines (hlines : ∀ l ∈ lines, nl ∉ l ∧ l.length + 1 < bufSize) (fuel : Nat)
    (rest : List Byte) (s : List Nat) :
    look (fuel + lines.length) [] (text lines ++ rest) (sizes (lines.map (·.length + 1) ++ s)) =
      clean lines ++ look fuel [] rest (sizes s) := by
  induction lines with
  | nil => rfl
  | cons l lines ih =>
    obtain ⟨hn, hlen⟩ := hlines l List.mem_cons_self
    have hrest := ih fun l' hl' => hlines l' (List.mem_cons_of_mem _ hl')
    have htext : text (l :: lines) ++ rest = (l ++ [nl]) ++ (text lines ++ rest) := by simp [text]
    have hchunk := look_chunk (c := l ++ [nl]) (by simp) (by simpa using hlen)
      (fuel + lines.length) (text lines ++ rest) (lines.map (·.length + 1) ++ s)
    rw [List.length_append, List.length_singleton] at hchunk
    rw [htext, List.length_cons, ← Nat.add_assoc, List.map_cons, List.cons_append, hchunk]
    obtain ⟨hclean, hnul⟩ := cut_line hn
    unfold clean at hrest ⊢
    by_cases h0 : 0 ∈ l
    · rw [hnul h0, if_pos rfl, List.nil_append, hrest, List.filter_cons_of_neg (by simpa using h0)]
    · rw [hclean h0, if_neg (by simp), hrest, List.filter_cons_of_pos (by simpa using h0)]
      rfl

theorem look_nil (fuel : Nat) (want : Nat → Nat) : look fuel [] [] want = [] := by
  cases fuel with
  | zero => rfl
  | succ fuel =>
    unfold look read
    simp

/-- All lines are delivered whole. -/
theorem look_whole (hlines : ∀ l ∈ lines, nl ∉ l ∧ l.length + 1 < bufSize) {fuel : Nat}
    (hf : lines.length ≤ fuel) :
    look fuel [] (text lines) (sizes (lines.map (·.length + 1))) = clean lines := by
  obtain ⟨n, rfl⟩ := Nat.exists_eq_add_of_le hf
  have h := look_lines hlines n [] []
  rwa [List.append_nil, List.append_nil, look_nil, List.append_nil, Nat.add_comm] at h

/-- A line is cut in two, and only its end is seen. -/
theorem look_cut {before after : List (List Byte)} {u t : List Byte}
    (hb : ∀ l ∈ before, nl ∉ l ∧ l.length + 1 < bufSize)
    (ha : ∀ l ∈ after, nl ∉ l ∧ l.length + 1 < bufSize) (hn : nl ∉ u ++ t)
    (hlen : (u ++ t).length + 1 < bufSize) (hu : u ≠ []) (ht : 0 ∉ t) {fuel : Nat}
    (hf : before.length + 2 + after.length ≤ fuel) :
    look fuel [] (text (before ++ (u ++ t) :: after)) (sizes (before.map (·.length + 1) ++
        (u.length :: (t.length + 1) :: after.map (·.length + 1)))) =
      clean before ++ t :: clean after := by
  obtain ⟨n, rfl⟩ := Nat.exists_eq_add_of_le hf
  have htext : text (before ++ (u ++ t) :: after) =
      text before ++ (u ++ ((t ++ [nl]) ++ text after)) := by simp [text]
  rw [List.length_append] at hlen
  have hnu : nl ∉ u := fun hm => hn (List.mem_append_left t hm)
  have hnt : nl ∉ t := fun hm => hn (List.mem_append_right u hm)
  have hchunk := look_chunk (c := t ++ [nl]) (by simp) (by simp; omega) (n + after.length)
    (text after) (after.map (·.length + 1))
  rw [List.length_append, List.length_singleton] at hchunk
  rw [htext, show before.length + 2 + after.length + n = n + after.length + 1 + 1 + before.length by
      omega, look_lines hb, look_chunk hu (by omega), cut_no_newline hnu, if_pos rfl,
    List.nil_append, hchunk, (cut_line hnt).1 ht, if_neg (by simp),
    look_whole ha (Nat.le_add_left ..)]
  rfl

/-- An input of newlines only is seen whole, however it is delivered. -/
theorem look_newlines {fuel : Nat} : ∀ {n : Nat} {want : Nat → Nat}, n ≤ fuel →
    look fuel [] (List.replicate n nl) want = List.replicate n [] := by
  induction fuel with
  | zero =>
    intro n want hn
    obtain rfl : n = 0 := Nat.le_zero.mp hn
    rfl
  | succ fuel ih =>
    intro n want hn
    cases n with
    | zero => exact look_nil _ _
    | succ n =>
      have hcut : ∀ m, cut (List.replicate m nl) = (List.replicate m [], []) := by
        intro m
        induction m with
        | zero => rfl
        | succ m ihm =>
          rw [List.replicate_succ]
          unfold cut
          rw [if_neg (by decide), if_pos rfl, ihm]
          rfl
      unfold look read
      dsimp only
      generalize hk : min (max 1 (want 0)) (bufSize - ([] : List Byte).length - 1) = k
      have hk1 : 1 ≤ k := by
        rw [← hk]
        change 1 ≤ min (max 1 (want 0)) (1024 - 0 - 1)
        omega
      have hmin : min k (n + 1) ≠ 0 := by omega
      rw [List.take_replicate, List.drop_replicate, if_neg (by simpa using by omega),
        List.nil_append, hcut]
      dsimp only
      rw [ite_self, ih (by omega), List.replicate_append_replicate]
      congr 1
      omega

end

/-! ## 7. All deliveries -/

/-- The lines of the input that match; the string of a line ends at a NUL in it. -/
def selected (pattern : List Byte) (lines : List (List Byte)) : List Byte :=
  lines.flatMap fun l => if matchText pattern (l.takeWhile (· != 0)) then l ++ [nl] else []

/-- **The output does not depend on the delivery**: it is the lines that match. -/
def SameOutput (pattern : List Byte) (b : Bytes) (lines : List (List Byte)) : Prop :=
  ∀ want want', grep pattern b (text lines) want = grep pattern b (text lines) want' ∧
    grep pattern b (text lines) want = selected pattern lines

/-- The line does not match, and neither does an end of it without a NUL. -/
def Misses (pattern l : List Byte) : Prop :=
  matchText pattern (l.takeWhile (· != 0)) = false ∧
    ∀ t, t <:+ l → 0 ∉ t → matchText pattern t = false

section
variable {pattern : List Byte} {b : Bytes} {lines : List (List Byte)}

theorem grep_look (pattern : List Byte) (b : Bytes) (input : List Byte)
    (want : Nat → Nat) :
    grep pattern b input want = written pattern (look (input.length + 1) [] input want) :=
  @grepLoop_look pattern (input.length + 1) b [] input want (by decide)
    fun j hj => absurd hj (Nat.not_lt_zero j)

theorem written_eq_nil {ls : List (List Byte)} :
    written pattern ls = [] ↔ ∀ l ∈ ls, matchText pattern l = false := by
  unfold written
  rw [List.flatMap_eq_nil_iff]
  refine forall_congr' fun l => imp_congr_right fun _ => ?_
  cases matchText pattern l <;> simp

theorem selected_eq_nil : selected pattern lines = [] ↔
    ∀ l ∈ lines, matchText pattern (l.takeWhile (· != 0)) = false := by
  unfold selected
  rw [List.flatMap_eq_nil_iff]
  refine forall_congr' fun l => imp_congr_right fun _ => ?_
  cases matchText pattern (l.takeWhile (· != 0)) <;> simp

/-- Nothing matches: nothing is written. -/
theorem sameOutput_of_misses (hlines : ∀ l ∈ lines, nl ∉ l ∧ l.length + 1 < 1023)
    (h : ∀ l ∈ lines, Misses pattern l) : SameOutput pattern b lines := by
  have hsel : selected pattern lines = [] := selected_eq_nil.mpr fun l hl => (h l hl).1
  have hout : ∀ want, grep pattern b (text lines) want = [] := by
    intro want
    rw [grep_look, written_eq_nil]
    intro w hw
    obtain ⟨⟨back, hback⟩, h0, hn⟩ := look_suffix hw
    obtain ⟨l, hl, hsuf⟩ := suffix_line (fun l hl => (hlines l hl).1) hn hback
    exact (h l hl).2 w hsuf h0
  intro want want'
  rw [hout, hout, hsel]
  exact ⟨rfl, rfl⟩

/-- There is nothing to cut in empty lines. -/
theorem sameOutput_of_empty (h : ∀ l ∈ lines, l = []) : SameOutput pattern b lines := by
  have hrep : lines = List.replicate lines.length [] := List.eq_replicate_iff.mpr ⟨rfl, h⟩
  have htext : text lines = List.replicate lines.length nl := by
    rw [hrep]
    unfold text
    rw [List.length_replicate]
    induction lines.length with
    | zero => rfl
    | succ n ih => rw [List.replicate_succ, List.flatMap_cons, ih, List.replicate_succ]; rfl
  have hsel : selected pattern lines = written pattern lines := by
    unfold selected written
    refine List.flatMap_congr fun l hl => ?_
    rw [h l hl]
    rfl
  have hout : ∀ want, grep pattern b (text lines) want = selected pattern lines := by
    intro want
    rw [grep_look, htext, look_newlines (by rw [List.length_replicate]; omega), hsel, ← hrep]
  intro want want'
  rw [hout, hout]
  exact ⟨rfl, rfl⟩

/-- One line is cut, or delivered whole: the two outputs differ in this line only. -/
theorem cut_or_whole (hlines : ∀ l ∈ lines, nl ∉ l ∧ l.length + 1 < 1023)
    (h : SameOutput pattern b lines) {u t : List Byte} (hmem : u ++ t ∈ lines) (hu : u ≠ [])
    (ht : 0 ∉ t) : written pattern [t] = written pattern (clean [u ++ t]) := by
  obtain ⟨before, after, rfl⟩ := List.append_of_mem hmem
  have hwide : ∀ l ∈ before ++ (u ++ t) :: after, nl ∉ l ∧ l.length + 1 < bufSize := fun l hl =>
    ⟨(hlines l hl).1, Nat.lt_trans (hlines l hl).2 (by decide)⟩
  have hlen : before.length + 2 + after.length ≤
      (text (before ++ (u ++ t) :: after)).length + 1 := by
    have h1 := length_text_ge (before ++ (u ++ t) :: after)
    rw [List.length_append, List.length_cons] at h1
    omega
  obtain ⟨hn, hshort⟩ := hwide (u ++ t) hmem
  have hcut := look_cut (fun l hl => hwide l (List.mem_append_left _ hl))
    (fun l hl => hwide l (List.mem_append_right _ (List.mem_cons_of_mem _ hl))) hn hshort hu ht hlen
  have hwhole := look_whole hwide (Nat.le_succ_of_le (length_text_ge _))
  have hsame := (h (sizes (before.map (·.length + 1) ++
    (u.length :: (t.length + 1) :: after.map (·.length + 1))))
    (sizes ((before ++ (u ++ t) :: after).map (·.length + 1)))).1
  rw [grep_look, grep_look, hcut, hwhole] at hsame
  have hclean : clean (before ++ (u ++ t) :: after) =
      clean before ++ (clean [u ++ t] ++ clean after) := by
    unfold clean
    rw [← List.filter_append, ← List.filter_append]
    rfl
  rw [hclean, written_append, written_append, written_append, show t :: clean after =
    [t] ++ clean after from rfl, written_append] at hsame
  exact List.append_cancel_right (List.append_cancel_left hsame)

/-- A line that is not empty can be cut, so nothing in it matches. -/
theorem line_misses (hlines : ∀ l ∈ lines, nl ∉ l ∧ l.length + 1 < 1023)
    (h : SameOutput pattern b lines) {l : List Byte} (hl : l ∈ lines) (hne : l ≠ []) :
    matchText pattern [] = false ∧ ∀ t, t <:+ l → 0 ∉ t → matchText pattern t = false := by
  have hwhole : written pattern (clean [l]) = [] ∧ matchText pattern [] = false := by
    have hend := cut_or_whole (t := []) hlines h (by rwa [List.append_nil]) hne List.not_mem_nil
    rw [List.append_nil] at hend
    cases hm : matchText pattern [] with
    | false =>
      refine ⟨?_, rfl⟩
      rw [← hend]
      exact written_eq_nil.mpr fun x hx => by rwa [List.mem_singleton.mp hx]
    | true =>
      -- a newline alone is neither the line nor nothing
      exfalso
      have hnl : written pattern [[]] = [nl] := by simp [written, hm]
      rw [hnl] at hend
      unfold clean at hend
      by_cases h0 : 0 ∈ l
      · rw [List.filter_cons_of_neg (by simpa using h0)] at hend
        cases hend
      · rw [List.filter_cons_of_pos (by simpa using h0)] at hend
        have hlen := congrArg List.length hend
        have hpos := List.length_pos_iff.mpr hne
        cases hml : matchText pattern l with
        | true =>
          simp [written, hml] at hlen
          exact hne hlen
        | false => simp [written, hml] at hlen
  refine ⟨hwhole.2, fun t ht h0 => ?_⟩
  obtain ⟨u, rfl⟩ := ht
  by_cases hu : u = []
  · subst hu
    rw [List.nil_append] at hwhole
    refine written_eq_nil.mp hwhole.1 t ?_
    unfold clean
    rw [List.filter_cons_of_pos (by simpa using h0)]
    exact List.mem_cons_self
  · have hcut := cut_or_whole hlines h hl hu h0
    rw [hwhole.1] at hcut
    exact written_eq_nil.mp hcut t List.mem_cons_self

/-- **The delivery does not matter** exactly for an input of empty lines, and for an input in which
    nothing matches. -/
theorem grep_any_delivery (hlines : ∀ l ∈ lines, nl ∉ l ∧ l.length + 1 < 1023) :
    SameOutput pattern b lines ↔
      (∀ l ∈ lines, l = []) ∨ ∀ l ∈ lines, Misses pattern l := by
  refine ⟨fun h => ?_, fun h => h.elim sameOutput_of_empty (sameOutput_of_misses hlines)⟩
  by_cases hempty : ∀ l ∈ lines, l = []
  · exact .inl hempty
  right
  obtain ⟨l0, hl0, hne0⟩ : ∃ l ∈ lines, l ≠ [] := by
    by_contra hno
    exact hempty fun l hl => by_contra fun hne => hno ⟨l, hl, hne⟩
  have hnil := (line_misses hlines h hl0 hne0).1
  have hends : ∀ l ∈ lines, ∀ t, t <:+ l → 0 ∉ t → matchText pattern t = false := by
    intro l hl t ht h0
    by_cases hne : l = []
    · rw [hne] at ht
      rw [List.suffix_nil.mp ht]
      exact hnil
    · exact (line_misses hlines h hl hne).2 t ht h0
  -- so nothing is written, and therefore nothing is to be written
  have hsel : selected pattern lines = [] := by
    have hwide : ∀ l ∈ lines, nl ∉ l ∧ l.length + 1 < bufSize := fun l hl =>
      ⟨(hlines l hl).1, Nat.lt_trans (hlines l hl).2 (by decide)⟩
    have hwhole := (h (sizes (lines.map (·.length + 1))) fun _ => 0).2
    rw [grep_look, look_whole hwide (Nat.le_succ_of_le (length_text_ge _))] at hwhole
    rw [← hwhole, written_eq_nil]
    intro l hl
    unfold clean at hl
    obtain ⟨hmem, h0⟩ := List.mem_filter.mp hl
    exact hends l hmem l (List.suffix_refl l) (by simpa using h0)
  exact fun l hl => ⟨selected_eq_nil.mp hsel l hl, hends l hl⟩

end

/-- Two lines without the letter that is looked for. -/
theorem grep_any_delivery_misses :
    SameOutput [120] (fun _ => 0) [[97, 98], [99]] := by
  refine (grep_any_delivery (by decide)).mpr (.inr fun l hl => ⟨?_, fun t ht _ => ?_⟩)
  · revert l
    decide
  · have hall : ∀ l ∈ [[97, 98], [99]], ∀ t ∈ l.tails, matchText [120] t = false := by decide
    exact hall l hl t ((List.mem_tails t l).mpr ht)

/-- **A line that comes in two reads**: its first part is forgotten. -/
theorem grep_split_read :
    grep [97] (fun _ => 0) (text [[97, 98]]) (sizes [3]) = [97, 98, nl] ∧
    grep [97] (fun _ => 0) (text [[97, 98]]) (sizes [1, 2]) = [] ∧
    selected [97] [[97, 98]] = [97, 98, nl] := by
  refine ⟨?_, ?_, by decide⟩
  · rw [grep_look]
    decide
  · rw [grep_look]
    decide

end Xv6Clock.Grep
