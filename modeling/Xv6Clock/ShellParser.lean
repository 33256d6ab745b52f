/-
  File:      Xv6Clock/ShellParser.lean
  Subject:   The parser of the shell (sh.c): `gettoken`, `peek`, `parsecmd` and what it calls.

  Pointers into the input are offsets, and a cursor `*ps` is passed on. A run stops at a `panic`, or
  for want of fuel; every call and every round of a loop takes one unit of fuel.
  * `peek_spec`, `gettoken_spec`: the two look at the tokens of what follows the cursor;
  * `Shows`: a command whose pointers span the words of a tree;
  * `nulterminate_read`: after `nulterminate` the strings of such a command are those words.
-/
import Xv6Clock.Lib.Result
import Xv6Clock.ShellGrammar
import Mathlib.Data.List.GetD
import Mathlib.Data.List.Forall2
import Mathlib.Data.List.TakeWhile

namespace Xv6Clock.Sh

open Lib (Meets)

/-! ## 1. The source -/

/-- How a run ends before `parsecmd` returns. -/
inductive Stop
  | panic (message : String)
  /-- The rest of the input is printed, then `panic("syntax")`. -/
  | leftovers (rest : List Byte)
  | fuel
  deriving DecidableEq, Repr

/-- `struct cmd` with the five kinds of it. In `execcmd` each slot holds `argv[i]` and `eargv[i]`,
which are written together; `none` is the null pointer. -/
inductive Cmd
  | exec (args : List (Option (Nat × Nat)))
  | redir (cmd : Cmd) (file efile mode fd : Nat)
  | pipe (left right : Cmd)
  | list (left right : Cmd)
  | back (cmd : Cmd)
  deriving DecidableEq, Repr

/-- `execcmd`: the arrays are zeroed. -/
def execcmd : Cmd := .exec (List.replicate MAXARGS none)

/-- `cmd->argv[i] = q; cmd->eargv[i] = eq` in `parseexec`, where `cmd` is the `execcmd` that the
redirections of `ret` are wrapped around. -/
def Cmd.setArg (i : Nat) (v : Option (Nat × Nat)) : Cmd → Cmd
  | .exec args => .exec (args.set i v)
  | .redir cmd file efile mode fd => .redir (cmd.setArg i v) file efile mode fd
  | cmd => cmd

variable (buf : List Byte) (es : Nat)

/-- `*s`. -/
def charAt (s : Nat) : Byte := buf.getD s 0

/-- `while(s < es && p(*s)) s++`, with `es - s` to go. -/
def skipWhile (p : Byte → Bool) : Nat → Nat → Nat
  | 0, s => s
  | n + 1, s => if p (charAt buf s) then skipWhile p n (s + 1) else s

def skipSpace (s : Nat) : Nat := skipWhile buf whitespace.contains (es - s) s

/-- What `gettoken` returns and leaves in `*q`, `*eq` and `*ps`. -/
structure Got where
  ret : Byte
  q : Nat
  eq : Nat
  s : Nat
  deriving DecidableEq, Repr

/-- The characters of the `switch` in `gettoken` that stand for themselves. -/
def alone : List Byte := [ch '|', ch '(', ch ')', ch ';', ch '&', ch '<']

/-- The `switch` of `gettoken`: its value and the end of the token. -/
def scan (s : Nat) : Byte × Nat :=
  if charAt buf s = 0 then (0, s)
  else if alone.contains (charAt buf s) then (charAt buf s, s + 1)
  else if charAt buf s = ch '>' then
    if charAt buf (s + 1) = ch '>' then (ch '+', s + 2) else (ch '>', s + 1)
  else (ch 'a', skipWhile buf wordChar (es - s) s)

def gettoken (s : Nat) : Got :=
  let q := skipSpace buf es s
  let r := scan buf es q
  { ret := r.1, q := q, eq := r.2, s := skipSpace buf es r.2 }

/-- `peek`: its answer, and the cursor. -/
def peek (s : Nat) (toks : List Byte) : Bool × Nat :=
  let s := skipSpace buf es s
  (charAt buf s != 0 && toks.contains (charAt buf s), s)

/-- The `switch` of `parseredirs`. -/
def redircmd (tok : Byte) (cmd : Cmd) (q eq : Nat) : Cmd :=
  if tok = ch '<' then .redir cmd q eq O_RDONLY 0
  else if tok = ch '>' then .redir cmd q eq (O_WRONLY ||| O_CREATE) 1
  else if tok = ch '+' then .redir cmd q eq (O_WRONLY ||| O_CREATE) 1
  else cmd

def parseredirs : Nat → Cmd → Nat → Except Stop (Cmd × Nat)
  | 0, _, _ => .error .fuel
  | fuel + 1, cmd, s =>
    let pk := peek buf es s [ch '<', ch '>']
    if pk.1 then
      let tok := gettoken buf es pk.2
      let file := gettoken buf es tok.s
      if file.ret ≠ ch 'a' then .error (.panic "missing file for redirection")
      else parseredirs fuel (redircmd tok.ret cmd file.q file.eq) file.s
    else .ok (cmd, pk.2)

/-- The loop of `parseexec` over the arguments. -/
def parseargs : Nat → Nat → Cmd → Nat → Except Stop (Cmd × Nat)
  | 0, _, _, _ => .error .fuel
  | fuel + 1, argc, ret, s =>
    let pk := peek buf es s [ch '|', ch ')', ch '&', ch ';']
    if pk.1 then .ok (ret.setArg argc none, pk.2)
    else
      let tok := gettoken buf es pk.2
      if tok.ret = 0 then .ok (ret.setArg argc none, tok.s)
      else if tok.ret ≠ ch 'a' then .error (.panic "syntax")
      else if argc + 1 ≥ MAXARGS then .error (.panic "too many args")
      else do
        let r ← parseredirs buf es fuel (ret.setArg argc (some (tok.q, tok.eq))) tok.s
        parseargs fuel (argc + 1) r.1 r.2

/-- The loop of `parseline` over the ampersands. -/
def parseback : Nat → Cmd → Nat → Except Stop (Cmd × Nat)
  | 0, _, _ => .error .fuel
  | fuel + 1, cmd, s =>
    let pk := peek buf es s [ch '&']
    if pk.1 then parseback fuel (.back cmd) (gettoken buf es pk.2).s else .ok (cmd, pk.2)

mutual

def parseline : Nat → Nat → Except Stop (Cmd × Nat)
  | 0, _ => .error .fuel
  | fuel + 1, s => do
    let left ← parsepipe fuel s
    let left ← parseback buf es fuel left.1 left.2
    let pk := peek buf es left.2 [ch ';']
    if pk.1 then
      let right ← parseline fuel (gettoken buf es pk.2).s
      .ok (.list left.1 right.1, right.2)
    else .ok (left.1, pk.2)

def parsepipe : Nat → Nat → Except Stop (Cmd × Nat)
  | 0, _ => .error .fuel
  | fuel + 1, s => do
    let left ← parseexec fuel s
    let pk := peek buf es left.2 [ch '|']
    if pk.1 then
      let right ← parsepipe fuel (gettoken buf es pk.2).s
      .ok (.pipe left.1 right.1, right.2)
    else .ok (left.1, pk.2)

def parseexec : Nat → Nat → Except Stop (Cmd × Nat)
  | 0, _ => .error .fuel
  | fuel + 1, s =>
    let pk := peek buf es s [ch '(']
    if pk.1 then parseblock fuel pk.2
    else do
      let ret ← parseredirs buf es fuel execcmd pk.2
      parseargs buf es fuel 0 ret.1 ret.2

def parseblock : Nat → Nat → Except Stop (Cmd × Nat)
  | 0, _ => .error .fuel
  | fuel + 1, s =>
    let pk := peek buf es s [ch '(']
    if !pk.1 then .error (.panic "parseblock")
    else do
      let cmd ← parseline fuel (gettoken buf es pk.2).s
      let pk := peek buf es cmd.2 [ch ')']
      if !pk.1 then .error (.panic "syntax - missing )")
      else parseredirs buf es fuel cmd.1 (gettoken buf es pk.2).s

end

/-- The loop of `nulterminate` over the arguments, up to the null pointer. -/
def nulargs : List (Option (Nat × Nat)) → List Byte → List Byte
  | some (_, eq) :: args, buf => nulargs args (buf.set eq 0)
  | _, buf => buf

def nulterminate : Cmd → List Byte → List Byte
  | .exec args, buf => nulargs args buf
  | .redir cmd _ efile _ _, buf => (nulterminate cmd buf).set efile 0
  | .pipe left right, buf => nulterminate right (nulterminate left buf)
  | .list left right, buf => nulterminate right (nulterminate left buf)
  | .back cmd, buf => nulterminate cmd buf

/-- The string at a pointer. -/
def stringAt (s : Nat) : List Byte := (buf.drop s).takeWhile (· ≠ 0)

def strlen : Nat := (stringAt buf 0).length

/-- `parsecmd`: the command, and the buffer with its strings terminated. -/
def parsecmd (fuel : Nat) : Except Stop (Cmd × List Byte) := do
  let es := strlen buf
  let cmd ← parseline buf es fuel 0
  let pk := peek buf es cmd.2 []
  if pk.2 ≠ es then .error (.leftovers (stringAt buf pk.2))
  else .ok (cmd.1, nulterminate cmd.1 buf)

/-- The strings of a command, as `runcmd` sees them: `argv` up to its null pointer. -/
def Cmd.read : Cmd → Tree
  | .exec args => .exec ((args.takeWhile Option.isSome).filterMap fun a => a.map fun p =>
      stringAt buf p.1)
  | .redir cmd file _ mode fd => .redir (Cmd.read cmd) (stringAt buf file) mode fd
  | .pipe left right => .pipe (Cmd.read left) (Cmd.read right)
  | .list left right => .list (Cmd.read left) (Cmd.read right)
  | .back cmd => .back (Cmd.read cmd)

/-! ## 2. Looking at the tokens -/

/-- The input: `text`, a NUL, and whatever stands behind it. -/
structure Input (text buf : List Byte) : Prop where
  holds : ∃ tail, buf = text ++ 0 :: tail
  noNul : 0 ∉ text

/-- The cursor stands in front of the tokens `ts`. -/
structure At (text : List Byte) (s : Nat) (ts : List Token) : Prop where
  le : s ≤ text.length
  eq : tokens (text.drop s) = ts

/-- The characters from `q` to `eq` are the word `w`, which is followed by something else. -/
structure Spans (text : List Byte) (q eq : Nat) (w : Word) : Prop where
  le : eq ≤ text.length
  eq_add : q + w.length = eq
  drop : text.drop q = w ++ text.drop eq
  chars : ∀ c ∈ w, wordChar c = true
  stops : ∀ c ∈ (text.drop eq).head?, wordChar c = false

variable {buf} {text cs : List Byte} {c : Byte} {s : Nat} {t : Token} {ts : List Token}

theorem Input.charAt (hi : Input text buf) (hs : s ≤ text.length) :
    charAt buf s = (text.drop s).headD 0 := by
  obtain ⟨tail, rfl⟩ := hi.holds
  unfold Sh.charAt
  rcases Nat.lt_or_eq_of_le hs with h | rfl
  · rw [List.getD_append _ _ _ _ h, List.drop_eq_getElem_cons h]
    simp [h]
  · simp

theorem drop_succ_of (h : text.drop s = c :: cs) : s < text.length ∧ text.drop (s + 1) = cs := by
  have hlt : s < text.length := by
    by_contra hge
    rw [List.drop_eq_nil_of_le (Nat.le_of_not_lt hge)] at h
    cases h
  rw [List.drop_eq_getElem_cons hlt] at h
  exact ⟨hlt, (List.cons.inj h).2⟩

theorem Input.charAt_cons (hi : Input text buf) (h : text.drop s = c :: cs) :
    Sh.charAt buf s = c ∧ c ≠ 0 := by
  have hmem : c ∈ text.drop s := by
    rw [h]
    exact List.mem_cons_self
  refine ⟨?_, fun e => hi.noNul (e ▸ List.mem_of_mem_drop hmem)⟩
  rw [hi.charAt (Nat.le_of_lt (drop_succ_of h).1), h]
  rfl

theorem Input.strlen (hi : Input text buf) : strlen buf = text.length := by
  obtain ⟨tail, rfl⟩ := hi.holds
  have h : (text ++ 0 :: tail).takeWhile (· ≠ 0) = text := by
    rw [List.takeWhile_append_of_pos fun c hc => by
      simpa using fun h : c = 0 => hi.noNul (h ▸ hc)]
    simp
  unfold Sh.strlen stringAt
  rw [List.drop_zero, h]

/-- `skipWhile` stops where `dropWhile` does. -/
theorem skipWhile_spec (hi : Input text buf) (p : Byte → Bool) :
    ∀ n s, s + n = text.length → skipWhile buf p n s ≤ text.length ∧
      text.drop (skipWhile buf p n s) = (text.drop s).dropWhile p ∧
      skipWhile buf p n s = s + ((text.drop s).takeWhile p).length := by
  intro n
  induction n with
  | zero =>
    intro s hs
    have hnil : text.drop s = [] := List.drop_eq_nil_of_le (by omega)
    rw [hnil]
    exact ⟨by simp only [skipWhile]; omega, hnil, rfl⟩
  | succ n ih =>
    intro s hs
    have hcons : text.drop s = text[s] :: text.drop (s + 1) :=
      List.drop_eq_getElem_cons (by omega)
    have hc : charAt buf s = text[s] := by rw [hi.charAt (by omega), hcons]; rfl
    rw [hcons, List.dropWhile_cons, List.takeWhile_cons]
    unfold skipWhile
    rw [hc]
    by_cases hp : p text[s] = true
    · rw [if_pos hp, if_pos hp, if_pos hp]
      obtain ⟨h1, h2, h3⟩ := ih (s + 1) (by omega)
      exact ⟨h1, h2, by rw [h3, List.length_cons]; omega⟩
    · rw [if_neg hp, if_neg hp, if_neg hp]
      exact ⟨by omega, hcons, rfl⟩

theorem tokens_space (xs : List Byte) :
    tokens (xs.dropWhile whitespace.contains) = tokens xs := by
  induction xs with
  | nil => rfl
  | cons c cs ih =>
    rw [List.dropWhile_cons]
    by_cases hc : whitespace.contains c = true
    · rw [if_pos hc, ih]
      conv => rhs; unfold tokens
      rw [if_pos hc]
    · rw [if_neg hc]

/-- Behind the whitespace stand the same tokens. -/
theorem skipSpace_spec (hi : Input text buf) (h : At text s ts) :
    At text (skipSpace buf text.length s) ts ∧
      ∀ c ∈ (text.drop (skipSpace buf text.length s)).head?, whitespace.contains c = false := by
  obtain ⟨h1, h2, -⟩ := skipWhile_spec hi whitespace.contains (text.length - s) s
    (Nat.add_sub_cancel' h.le)
  unfold skipSpace
  refine ⟨⟨h1, by rw [h2, tokens_space, h.eq]⟩, ?_⟩
  rw [h2]
  intro c hc
  have := List.head?_dropWhile_not whitespace.contains (text.drop s)
  rw [Option.mem_def.mp hc] at this
  simpa using this

/-- The value of `gettoken` for a token. -/
def Token.code : Token → Byte
  | .word _ => ch 'a'
  | .pipe => ch '|'
  | .amp => ch '&'
  | .semi => ch ';'
  | .lparen => ch '('
  | .rparen => ch ')'
  | .lt => ch '<'
  | .gt => ch '>'
  | .append => ch '+'

/-- The token begins with one of these symbols. -/
def Token.starts (toks : List Byte) : Token → Bool
  | .word _ => false
  | .append => toks.contains (ch '>')
  | t => toks.contains t.code

/-- The next token begins with one of these symbols. -/
def heads (toks : List Byte) : List Token → Bool
  | [] => false
  | t :: _ => t.starts toks

theorem single_of_alone (h : alone.contains c = true) :
    ∃ t, single c = some t ∧ t.code = c ∧ (∀ toks, t.starts toks = toks.contains c) ∧
      ∀ w, t ≠ .word w := by
  have h : c ∈ alone := by simpa using h
  simp only [alone, List.mem_cons, List.not_mem_nil, or_false] at h
  rcases h with rfl | rfl | rfl | rfl | rfl | rfl
  · exact ⟨.pipe, by decide, rfl, fun _ => rfl, by simp⟩
  · exact ⟨.lparen, by decide, rfl, fun _ => rfl, by simp⟩
  · exact ⟨.rparen, by decide, rfl, fun _ => rfl, by simp⟩
  · exact ⟨.semi, by decide, rfl, fun _ => rfl, by simp⟩
  · exact ⟨.amp, by decide, rfl, fun _ => rfl, by simp⟩
  · exact ⟨.lt, by decide, rfl, fun _ => rfl, by simp⟩

theorem single_of_not_alone (h : alone.contains c = false) : single c = none := by
  have h : c ∉ alone := by simpa using h
  simp only [alone, List.mem_cons, List.not_mem_nil, or_false, not_or] at h
  obtain ⟨h1, h2, h3, h4, h5, h6⟩ := h
  unfold single
  rw [if_neg h1, if_neg h2, if_neg h3, if_neg h4, if_neg h5, if_neg h6]

section
variable (hw : whitespace.contains c = false)
include hw

theorem wordChar_of (ha : alone.contains c = false) (hg : c ≠ ch '>') : wordChar c = true := by
  have ha : c ∉ alone := by simpa using ha
  simp only [alone, List.mem_cons, List.not_mem_nil, or_false, not_or] at ha
  obtain ⟨h1, h2, h3, h4, h5, h6⟩ := ha
  have hs : symbols.contains c = false := by
    simp [symbols, h1, h2, h3, h4, h5, h6, hg]
  unfold wordChar
  rw [hw, hs]
  rfl

theorem tokens_alone (hg : c ≠ ch '>') (ht : single c = some t) :
    tokens (c :: cs) = t :: tokens cs := by
  conv => lhs; unfold tokens
  rw [if_neg (by rw [hw]; exact Bool.false_ne_true), if_neg hg, ht]

theorem tokens_word (hg : c ≠ ch '>') (ht : single c = none) :
    tokens (c :: cs) = .word (c :: cs.takeWhile wordChar) :: tokens (cs.dropWhile wordChar) := by
  conv => lhs; unfold tokens
  rw [if_neg (by rw [hw]; exact Bool.false_ne_true), if_neg hg, ht]

end

theorem tokens_gt (cs : List Byte) :
    tokens (ch '>' :: cs) =
      if cs.head? = some (ch '>') then .append :: tokens cs.tail else .gt :: tokens cs := by
  conv => lhs; unfold tokens
  rw [if_neg (by decide), if_pos rfl]

/-- What a scan that stands at a token returns: the code of the token, and its end. -/
structure Scanned (text : List Byte) (s : Nat) (t : Token) (ts : List Token)
    (r : Byte × Nat) : Prop where
  code : r.1 = t.code
  at_end : At text r.2 ts
  spans : ∀ w, t = .word w → Spans text s r.2 w

section
variable (hi : Input text buf)
include hi

theorem scan_alone (h : text.drop s = c :: cs) (hw : whitespace.contains c = false)
    (ha : alone.contains c = true) :
    ∃ t, tokens (c :: cs) = t :: tokens cs ∧ (∀ toks, t.starts toks = toks.contains c) ∧
      Scanned text s t (tokens cs) (scan buf text.length s) := by
  obtain ⟨hlt, hdrop⟩ := drop_succ_of h
  obtain ⟨t, ht, hcode, hstarts, hword⟩ := single_of_alone ha
  obtain ⟨hc, h0⟩ := hi.charAt_cons h
  have hg : c ≠ ch '>' := fun e => by subst e; revert ha; decide
  refine ⟨t, tokens_alone hw hg ht, hstarts, ?_⟩
  unfold scan
  rw [hc, if_neg h0, if_pos ha]
  exact ⟨hcode.symm, ⟨hlt, by rw [hdrop]⟩, fun w e => absurd e (hword w)⟩

theorem scan_gt (h : text.drop s = ch '>' :: cs) :
    ∃ t ts, tokens (ch '>' :: cs) = t :: ts ∧ (∀ toks, t.starts toks = toks.contains (ch '>')) ∧
      Scanned text s t ts (scan buf text.length s) := by
  obtain ⟨hlt, hdrop⟩ := drop_succ_of h
  obtain ⟨hc, h0⟩ := hi.charAt_cons h
  have hd : charAt buf (s + 1) = cs.headD 0 := by rw [hi.charAt hlt, hdrop]
  have hscan : scan buf text.length s
      = if cs.headD 0 = ch '>' then (ch '+', s + 2) else (ch '>', s + 1) := by
    unfold scan
    rw [hc, if_neg h0, if_neg (by decide : ¬ alone.contains (ch '>') = true), if_pos rfl, hd]
  rw [tokens_gt, hscan]
  cases cs with
  | nil =>
    refine ⟨.gt, [], by simp [tokens], fun _ => rfl, rfl, ⟨hlt, ?_⟩, fun w e => by cases e⟩
    rw [if_neg (by decide : ¬ ([] : List Byte).headD 0 = ch '>'), hdrop]
    simp [tokens]
  | cons d ds =>
    by_cases hgt : d = ch '>'
    · subst hgt
      obtain ⟨hlt', hdrop'⟩ := drop_succ_of hdrop
      rw [if_pos (by rfl : (ch '>' :: ds).headD 0 = ch '>')]
      refine ⟨.append, tokens ds, if_pos rfl, fun _ => rfl, rfl, ⟨hlt', ?_⟩, fun w e => by cases e⟩
      exact congrArg tokens hdrop'
    · rw [if_neg (by simpa using hgt : ¬ (d :: ds).headD 0 = ch '>')]
      refine ⟨.gt, tokens (d :: ds), if_neg (by simpa using hgt), fun _ => rfl, rfl, ⟨hlt, ?_⟩,
        fun w e => by cases e⟩
      exact congrArg tokens hdrop

theorem scan_word (h : text.drop s = c :: cs) (hw : whitespace.contains c = false)
    (ha : alone.contains c = false) (hg : c ≠ ch '>') : ∃ w ts, tokens (c :: cs) = .word w :: ts ∧
      Scanned text s (.word w) ts (scan buf text.length s) := by
  obtain ⟨hlt, hdrop⟩ := drop_succ_of h
  obtain ⟨hc, h0⟩ := hi.charAt_cons h
  have hchar : wordChar c = true := wordChar_of hw ha hg
  refine ⟨_, _, tokens_word hw hg (single_of_not_alone ha), ?_⟩
  obtain ⟨h1, h2, h3⟩ := skipWhile_spec hi wordChar (text.length - s) s
    (Nat.add_sub_cancel' (Nat.le_of_lt hlt))
  rw [h, List.dropWhile_cons, if_pos hchar] at h2
  rw [h, List.takeWhile_cons, if_pos hchar] at h3
  unfold scan
  rw [hc, if_neg h0, if_neg (by rw [ha]; exact Bool.false_ne_true), if_neg hg]
  refine ⟨rfl, ⟨h1, by rw [h2]⟩, fun w e => ?_⟩
  obtain rfl := Token.word.inj e
  refine ⟨h1, h3.symm, ?_, ?_, ?_⟩
  · rw [h2, h, List.cons_append, List.takeWhile_append_dropWhile]
  · intro d hd
    rcases List.mem_cons.mp hd with rfl | hd
    · exact hchar
    · exact List.mem_takeWhile_imp hd
  · rw [h2]
    intro d hd
    have := List.head?_dropWhile_not wordChar cs
    rw [Option.mem_def.mp hd] at this
    simpa using this

/-- What does not begin with whitespace begins with a token. The scan returns it, and the first
    character tells what symbol it begins with. -/
theorem scan_next (h : text.drop s = c :: cs) (hw : whitespace.contains c = false) :
    ∃ t ts, tokens (c :: cs) = t :: ts ∧
      (∀ toks : List Byte, (∀ d ∈ toks, d ∈ symbols) → t.starts toks = toks.contains c) ∧
      Scanned text s t ts (scan buf text.length s) := by
  cases ha : alone.contains c with
  | true =>
    obtain ⟨t, ht, hstarts, hscan⟩ := scan_alone hi h hw ha
    exact ⟨t, _, ht, fun toks _ => hstarts toks, hscan⟩
  | false =>
    by_cases hg : c = ch '>'
    · subst hg
      obtain ⟨t, ts, ht, hstarts, hscan⟩ := scan_gt hi h
      exact ⟨t, ts, ht, fun toks _ => hstarts toks, hscan⟩
    · obtain ⟨w, ts, ht, hscan⟩ := scan_word hi h hw ha hg
      refine ⟨_, ts, ht, fun toks htoks => ?_, hscan⟩
      have hc := wordChar_of hw ha hg
      refine Eq.symm (List.contains_eq_mem c toks ▸ decide_eq_false fun hmem => ?_)
      simp [wordChar, htoks c hmem] at hc

/-- **`peek` looks at the next token** and leaves the cursor in front of it. -/
theorem peek_spec (h : At text s ts) (toks : List Byte) (htoks : ∀ c ∈ toks, c ∈ symbols) :
    (peek buf text.length s toks).1 = heads toks ts ∧
      At text (peek buf text.length s toks).2 ts := by
  obtain ⟨h1, h2⟩ := skipSpace_spec hi h
  refine ⟨?_, h1⟩
  unfold peek
  simp only
  rw [hi.charAt h1.le, ← h1.eq]
  cases hd : text.drop (skipSpace buf text.length s) with
  | nil => simp [tokens, heads]
  | cons c cs =>
    rw [hd] at h2
    obtain ⟨t, ts', ht, hstarts, -⟩ := scan_next hi hd (h2 c rfl)
    rw [ht]
    change (c != 0 && toks.contains c) = t.starts toks
    rw [hstarts toks htoks, bne_iff_ne.mpr (hi.charAt_cons hd).2, Bool.true_and]

/-- **`gettoken` returns the next token** and moves the cursor behind it. -/
theorem gettoken_spec (h : At text s (t :: ts)) :
    (gettoken buf text.length s).ret = t.code ∧ At text (gettoken buf text.length s).s ts ∧
      ∀ w, t = .word w →
        Spans text (gettoken buf text.length s).q (gettoken buf text.length s).eq w := by
  obtain ⟨h1, h2⟩ := skipSpace_spec hi h
  cases hd : text.drop (skipSpace buf text.length s) with
  | nil => exact absurd h1.eq (by rw [hd]; simp [tokens])
  | cons c cs =>
    rw [hd] at h2
    obtain ⟨t', ts', ht, -, hscan⟩ := scan_next hi hd (h2 c rfl)
    rw [← hd, h1.eq] at ht
    obtain ⟨rfl, rfl⟩ := List.cons.inj ht
    exact ⟨hscan.code, (skipSpace_spec hi hscan.at_end).1, hscan.spans⟩

/-- With no token left, the end of the input is behind the whitespace. -/
theorem skipSpace_nil (h : At text s []) : skipSpace buf text.length s = text.length := by
  obtain ⟨h1, h2⟩ := skipSpace_spec hi h
  cases hd : text.drop (skipSpace buf text.length s) with
  | nil => exact Nat.le_antisymm h1.le (List.drop_eq_nil_iff.mp hd)
  | cons c cs =>
    rw [hd] at h2
    obtain ⟨t, ts', ht, -⟩ := scan_next hi hd (h2 c rfl)
    rw [← hd, h1.eq] at ht
    cases ht

/-- At the end of the input `gettoken` returns 0. -/
theorem gettoken_nil (h : At text s []) :
    (gettoken buf text.length s).ret = 0 ∧ At text (gettoken buf text.length s).s [] := by
  have hend := skipSpace_nil hi h
  have hc : charAt buf text.length = 0 := by rw [hi.charAt (Nat.le_refl _), List.drop_length]; rfl
  have hscan : scan buf text.length text.length = (0, text.length) := by
    unfold scan
    rw [if_pos hc]
  unfold gettoken
  simp only [hend, hscan]
  exact ⟨trivial, (skipSpace_spec hi (hend ▸ (skipSpace_spec hi h).1)).1⟩

end

/-! ## 3. Terminating the strings -/

/-- **The command shows the tree**: its pointers span the words. -/
inductive Shows (text : List Byte) : Cmd → Tree → Prop
  | exec {spans : List (Nat × Nat)} {words : List Word}
      (h : List.Forall₂ (fun p w => Spans text p.1 p.2 w) spans words) (k : Nat) :
      Shows text (.exec (spans.map some ++ List.replicate k none)) (.exec words)
  | redir {cmd : Cmd} {t : Tree} {q eq : Nat} {file : Word} (mode fd : Nat)
      (h : Shows text cmd t) (hfile : Spans text q eq file) :
      Shows text (.redir cmd q eq mode fd) (.redir t file mode fd)
  | pipe {left right : Cmd} {l r : Tree} (hl : Shows text left l) (hr : Shows text right r) :
      Shows text (.pipe left right) (.pipe l r)
  | list {left right : Cmd} {l r : Tree} (hl : Shows text left l) (hr : Shows text right r) :
      Shows text (.list left right) (.list l r)
  | back {cmd : Cmd} {t : Tree} (h : Shows text cmd t) : Shows text (.back cmd) (.back t)

/-- The buffer still has the characters of every word, and room for the last NUL. -/
structure Kept (text buf : List Byte) : Prop where
  length_lt : text.length < buf.length
  eq : ∀ i, i < text.length → wordChar (text.getD i 0) = true → buf.getD i 0 = text.getD i 0

theorem Input.kept (hi : Input text buf) : Kept text buf := by
  obtain ⟨tail, rfl⟩ := hi.holds
  refine ⟨by simp, fun i h _ => ?_⟩
  rw [List.getD_append _ _ _ _ h]

/-- No NUL of the one buffer is something else in the other. -/
def NulsKept (b b' : List Byte) : Prop := ∀ i, b.getD i 0 = 0 → b'.getD i 0 = 0

theorem getD_set_self {b : List Byte} {i : Nat} (h : i < b.length) (x : Byte) :
    (b.set i x).getD i 0 = x := by
  simp [h]

theorem getD_set_ne {b : List Byte} {i j : Nat} (h : i ≠ j) (x : Byte) :
    (b.set i x).getD j 0 = b.getD j 0 := by
  simp [List.getElem?_set_ne h]

section
variable {q eq : Nat} {w : Word} {b b' : List Byte} (h : Spans text q eq w)
include h

/-- Behind a word there is no character of a word. -/
theorem Spans.end_not (hlt : eq < text.length) : wordChar (text.getD eq 0) = false := by
  have hd : text.drop eq = text[eq] :: text.drop (eq + 1) := List.drop_eq_getElem_cons hlt
  have := h.stops text[eq] (by rw [hd]; rfl)
  simpa [hlt] using this

theorem Spans.getD {j : Nat} (hj : j < w.length) : text.getD (q + j) 0 = w.getD j 0 := by
  have : (text.drop q).getD j 0 = w.getD j 0 := by
    rw [h.drop, List.getD_append _ _ _ _ hj]
  simpa using this

/-- **A NUL behind a word damages no word.** -/
theorem Spans.set_kept (hk : Kept text b) :
    Kept text (b.set eq 0) ∧ NulsKept b (b.set eq 0) ∧ (b.set eq 0).getD eq 0 = 0 := by
  have hlt : eq < b.length := Nat.lt_of_le_of_lt h.le hk.length_lt
  refine ⟨⟨by rw [List.length_set]; exact hk.length_lt, fun i hi hc => ?_⟩, fun i h0 => ?_,
    getD_set_self hlt 0⟩
  · have hne : eq ≠ i := fun e => by
      subst e
      rw [h.end_not hi] at hc
      cases hc
    rw [getD_set_ne hne]
    exact hk.eq i hi hc
  · by_cases e : eq = i
    · subst e
      exact getD_set_self hlt 0
    · rw [getD_set_ne e]
      exact h0

theorem Spans.stringAt (h0 : 0 ∉ text) (hk : Kept text b) (hend : b.getD eq 0 = 0) :
    stringAt b q = w := by
  have hlt : eq < b.length := Nat.lt_of_le_of_lt h.le hk.length_lt
  have hq := h.eq_add
  have htake : (b.drop q).take w.length = w := by
    refine List.ext_getElem (by simp; omega) fun j h1 h2 => ?_
    have hc : wordChar (text.getD (q + j) 0) = true := by
      rw [h.getD h2]
      exact h.chars _ (by simp [h2])
    have hle := h.le
    have := (hk.eq (q + j) (by omega) hc).trans (h.getD h2)
    have hqj : q + j < b.length := by omega
    simpa [h2, hqj] using this
  have hdrop : (b.drop q).drop w.length = 0 :: b.drop (eq + 1) := by
    have hb : b[eq] = 0 := by simpa [hlt] using hend
    rw [List.drop_drop, hq, List.drop_eq_getElem_cons hlt, hb]
  have hw : ∀ c ∈ w, decide (c ≠ 0) = true := by
    intro c hc
    refine decide_eq_true fun e => h0 ?_
    have : c ∈ text.drop q := by
      rw [h.drop]
      exact List.mem_append_left _ hc
    exact e ▸ List.mem_of_mem_drop this
  unfold Sh.stringAt
  rw [← List.take_append_drop w.length (b.drop q), htake, hdrop, List.takeWhile_append_of_pos hw]
  simp

end

/-- A NUL stands behind every string of the command. -/
def Cmd.Ended (b : List Byte) : Cmd → Prop
  | .exec args => ∀ p, some p ∈ args → b.getD p.2 0 = 0
  | .redir cmd _ efile _ _ => cmd.Ended b ∧ b.getD efile 0 = 0
  | .pipe left right => left.Ended b ∧ right.Ended b
  | .list left right => left.Ended b ∧ right.Ended b
  | .back cmd => cmd.Ended b

theorem Cmd.Ended.mono {b b' : List Byte} (hn : NulsKept b b') {c : Cmd} (h : c.Ended b) :
    c.Ended b' := by
  induction c with
  | exec args => exact fun p hp => hn _ (h p hp)
  | redir cmd file efile mode fd ih => exact ⟨ih h.1, hn _ h.2⟩
  | pipe left right ihl ihr => exact ⟨ihl h.1, ihr h.2⟩
  | list left right ihl ihr => exact ⟨ihl h.1, ihr h.2⟩
  | back cmd ih => exact ih h

theorem spans_read {spans : List (Nat × Nat)} {words : List Word} {b : List Byte}
    (h0 : 0 ∉ text) (h : List.Forall₂ (fun p w => Spans text p.1 p.2 w) spans words)
    (hk : Kept text b) (he : ∀ p ∈ spans, b.getD p.2 0 = 0) :
    spans.map (fun p => stringAt b p.1) = words := by
  induction h with
  | nil => rfl
  | cons hw _ ih =>
    rw [List.map_cons, hw.stringAt h0 hk (he _ List.mem_cons_self),
      ih fun p hp => he p (List.mem_cons_of_mem _ hp)]

/-- The array up to its null pointer. -/
theorem takeWhile_slots (spans : List (Nat × Nat)) (k : Nat) :
    (spans.map some ++ List.replicate k none).takeWhile Option.isSome = spans.map some := by
  induction spans with
  | nil =>
    cases k with
    | zero => rfl
    | succ k => rfl
  | cons p spans ih => simpa using ih

/-- The strings of an ended command are the words it shows. -/
theorem Shows.read {c : Cmd} {t : Tree} {b : List Byte} (h0 : 0 ∉ text)
    (h : Shows text c t) (hk : Kept text b) (he : c.Ended b) : c.read b = t := by
  induction h with
  | @exec spans words h k =>
    have hwords := spans_read h0 h hk fun p hp =>
      he p (List.mem_append_left _ (List.mem_map_of_mem hp))
    unfold Cmd.read
    rw [takeWhile_slots, List.filterMap_map, ← hwords, ← List.filterMap_eq_map]
    rfl
  | redir mode fd _ hfile ih =>
    unfold Cmd.read
    rw [ih he.1, hfile.stringAt h0 hk he.2]
  | pipe _ _ ihl ihr =>
    unfold Cmd.read
    rw [ihl he.1, ihr he.2]
  | list _ _ ihl ihr =>
    unfold Cmd.read
    rw [ihl he.1, ihr he.2]
  | back _ ih =>
    unfold Cmd.read
    rw [ih he]

theorem nulargs_spec {spans : List (Nat × Nat)} {words : List Word} {k : Nat}
    (h : List.Forall₂ (fun p w => Spans text p.1 p.2 w) spans words) :
    ∀ {b : List Byte}, Kept text b →
      Kept text (nulargs (spans.map some ++ List.replicate k none) b) ∧
      NulsKept b (nulargs (spans.map some ++ List.replicate k none) b) ∧
      ∀ p ∈ spans, (nulargs (spans.map some ++ List.replicate k none) b).getD p.2 0 = 0 := by
  induction h with
  | nil =>
    intro b hk
    have hnil : nulargs (([] : List (Nat × Nat)).map some ++ List.replicate k none) b = b := by
      cases k with
      | zero => rfl
      | succ k => rfl
    rw [hnil]
    exact ⟨hk, fun i h => h, fun p hp => absurd hp List.not_mem_nil⟩
  | @cons p w spans words hw _ ih =>
    intro b hk
    obtain ⟨h1, h2, h3⟩ := hw.set_kept hk
    obtain ⟨h4, h5, h6⟩ := ih h1
    refine ⟨h4, fun i hi => h5 i (h2 i hi), fun p' hp' => ?_⟩
    rcases List.mem_cons.mp hp' with rfl | hp'
    · exact h5 _ h3
    · exact h6 p' hp'

theorem nulterminate_spec {c : Cmd} {t : Tree} (h : Shows text c t) :
    ∀ {b : List Byte}, Kept text b →
      Kept text (nulterminate c b) ∧ NulsKept b (nulterminate c b) ∧
      c.Ended (nulterminate c b) := by
  induction h with
  | exec h k =>
    intro b hk
    obtain ⟨h1, h2, h3⟩ := nulargs_spec (k := k) h hk
    refine ⟨h1, h2, fun p hp => h3 p ?_⟩
    rcases List.mem_append.mp hp with hp | hp
    · obtain ⟨p', hp', e⟩ := List.mem_map.mp hp
      exact Option.some.inj e ▸ hp'
    · exact absurd (List.eq_of_mem_replicate hp) (Option.some_ne_none p)
  | redir mode fd _ hfile ih =>
    intro b hk
    obtain ⟨h1, h2, h3⟩ := ih hk
    obtain ⟨h4, h5, h6⟩ := hfile.set_kept h1
    exact ⟨h4, fun i hi => h5 i (h2 i hi), h3.mono h5, h6⟩
  | pipe _ _ ihl ihr =>
    intro b hk
    obtain ⟨h1, h2, h3⟩ := ihl hk
    obtain ⟨h4, h5, h6⟩ := ihr h1
    exact ⟨h4, fun i hi => h5 i (h2 i hi), h3.mono h5, h6⟩
  | list _ _ ihl ihr =>
    intro b hk
    obtain ⟨h1, h2, h3⟩ := ihl hk
    obtain ⟨h4, h5, h6⟩ := ihr h1
    exact ⟨h4, fun i hi => h5 i (h2 i hi), h3.mono h5, h6⟩
  | back _ ih => exact fun hk => ih hk

/-- **After `nulterminate` the strings of the command are the words it shows.** -/
theorem nulterminate_read (hi : Input text buf) {c : Cmd} {t : Tree} (h : Shows text c t) :
    c.read (nulterminate c buf) = t := by
  obtain ⟨h1, -, h3⟩ := nulterminate_spec h hi.kept
  exact h.read hi.noNul h1 h3

end Xv6Clock.Sh
