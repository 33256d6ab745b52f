/-
  File:      Xv6Clock/ShellAccepts.lean
  Subject:   The shell's parser accepts its grammar (sh.c).

  * `parse_sound`: with enough fuel a parsing function returns only behind a derivation, or stops at
    a `panic`;
  * `line_complete`: in front of a derivation no parsing function stops at a `panic`, and what it
    returns shows the tree that the derivation denotes;
  * `parsecmd_grammar`: both, for the whole input.
-/
import Xv6Clock.ShellParser

namespace Xv6Clock.Sh

open Lib (Meets)

variable {text buf : List Byte} {s fuel : Nat} {ts rest : List Token}

/-! ## 1. What the next token is -/

theorem heads_redir (h : heads [ch '<', ch '>'] ts = true) :
    ∃ (op : RedirOp) (ts' : List Token), ts = op.token :: ts' := by
  cases ts with
  | nil => cases h
  | cons t ts =>
    cases t with
    | lt => exact ⟨.input, ts, rfl⟩
    | gt => exact ⟨.output, ts, rfl⟩
    | append => exact ⟨.append, ts, rfl⟩
    | _ => exact absurd h Bool.false_ne_true

theorem redir_heads (op : RedirOp) (ts : List Token) :
    heads [ch '<', ch '>'] (op.token :: ts) = true := by
  cases op with
  | input => rfl
  | output => rfl
  | append => rfl

/-- The tokens that are looked for alone. -/
def marks : List Token := [.amp, .semi, .pipe, .lparen, .rparen]

variable {t : Token} {rs : List Redir} {c c' : Cmd} {p : Pipe}

theorem marks_cases (ht : t ∈ marks) :
    t = .amp ∨ t = .semi ∨ t = .pipe ∨ t = .lparen ∨ t = .rparen := by
  simpa [marks] using ht

theorem heads_one (ht : t ∈ marks) : heads [t.code] ts = true ↔ ∃ ts', ts = t :: ts' := by
  constructor
  · intro h
    cases ts with
    | nil => cases h
    | cons t' ts =>
      refine ⟨ts, congrArg (· :: ts) ?_⟩
      rcases marks_cases ht with rfl | rfl | rfl | rfl | rfl <;> cases t' <;>
        first | rfl | exact absurd h Bool.false_ne_true
  · intro h
    obtain ⟨ts', rfl⟩ := h
    rcases marks_cases ht with rfl | rfl | rfl | rfl | rfl <;> rfl

section
variable (hi : Input text buf) {k : Byte}
include hi

/-- `peek` does not find the symbol. -/
theorem peek_miss (h : At text s ts) (hk : k ∈ symbols) (hh : heads [k] ts = false) :
    ¬ (peek buf text.length s [k]).1 = true ∧ At text (peek buf text.length s [k]).2 ts := by
  obtain ⟨hpk, hat⟩ := peek_spec hi h [k] (by simpa using hk)
  exact ⟨by rw [hpk, hh]; exact Bool.false_ne_true, hat⟩

/-- `peek` finds the symbol of the next token, and `gettoken` takes it. -/
theorem peek_hit (h : At text s (t :: ts)) (ht : t ∈ marks) (hk : t.code = k) :
    (peek buf text.length s [k]).1 = true ∧ At text (peek buf text.length s [k]).2 (t :: ts) ∧
      At text (gettoken buf text.length (peek buf text.length s [k]).2).s ts := by
  subst hk
  have hmem : t.code ∈ symbols := by
    rcases marks_cases ht with rfl | rfl | rfl | rfl | rfl <;> decide
  obtain ⟨hpk, hat⟩ := peek_spec hi h [t.code] (by simpa using hmem)
  exact ⟨hpk.trans ((heads_one ht).mpr ⟨ts, rfl⟩), hat, (gettoken_spec hi hat).2.1⟩

/-- `peek` for one symbol. -/
theorem peek_one (h : At text s ts) (t : Token) (ht : t ∈ marks) (hk : t.code = k)
    (hs : k ∈ symbols) :
    (∃ ts', ts = t :: ts' ∧ (peek buf text.length s [k]).1 = true ∧
      At text (peek buf text.length s [k]).2 ts ∧
      At text (gettoken buf text.length (peek buf text.length s [k]).2).s ts') ∨
    ¬ (peek buf text.length s [k]).1 = true ∧ At text (peek buf text.length s [k]).2 ts := by
  by_cases hh : heads [k] ts = true
  · obtain ⟨ts', rfl⟩ := (heads_one ht).mp (hk ▸ hh)
    exact .inl ⟨ts', rfl, peek_hit hi h ht hk⟩
  · exact .inr (peek_miss hi h hs (by simpa using hh))

end

/-- A token for which `gettoken` returns `'a'` is a word. -/
theorem code_word (h : t.code = ch 'a') : ∃ w, t = .word w := by
  cases t with
  | word w => exact ⟨w, rfl⟩
  | _ => exact absurd h (by decide)

theorem word_code (w : Word) : ¬ (Token.word w).code ≠ ch 'a' := not_not_intro rfl

theorem code_ne_zero (t : Token) : t.code ≠ 0 := by
  cases t <;> simp only [Token.code] <;> decide

/-- The symbols that `parseexec` stops at. -/
abbrev closers : List Byte := [ch '|', ch ')', ch '&', ch ';']

theorem peek_closers (hi : Input text buf) (h : At text s ts) :
    (peek buf text.length s closers).1 = heads closers ts ∧
      At text (peek buf text.length s closers).2 ts := by
  exact peek_spec hi h _ (by decide)

theorem peek_redir (hi : Input text buf) (h : At text s ts) :
    (peek buf text.length s [ch '<', ch '>']).1 = heads [ch '<', ch '>'] ts ∧
      At text (peek buf text.length s [ch '<', ch '>']).2 ts := by
  exact peek_spec hi h _ (by decide)

/-! ## 2. What is returned stands behind a derivation -/

/-- The tokens `ts` are a derivation, and what is left behind the cursor. -/
def Behind {D : Type} (text : List Byte) (yield : D → List Token) (Fits : D → Prop)
    (ts : List Token) (r : Cmd × Nat) : Prop :=
  ∃ d ts', ts = yield d ++ ts' ∧ Fits d ∧ At text r.2 ts'

theorem parseredirs_sound (hi : Input text buf) :
    ∀ fuel {ts} c s, At text s ts → ts.length + 1 ≤ fuel →
      Meets (Behind text yieldRedirs (fun _ => True) ts) (· ≠ .fuel)
        (parseredirs buf text.length fuel c s) := by
  intro fuel
  induction fuel with
  | zero => intro ts c s _ hf; omega
  | succ fuel ih =>
    intro ts c s h hf
    obtain ⟨hpk, hat⟩ := peek_redir hi h
    unfold parseredirs
    simp only
    rw [hpk]
    by_cases hh : heads [ch '<', ch '>'] ts = true
    · rw [if_pos hh]
      obtain ⟨op, ts1, rfl⟩ := heads_redir hh
      obtain ⟨-, h1, -⟩ := gettoken_spec hi hat
      cases ts1 with
      | nil =>
        rw [(gettoken_nil hi h1).1, if_pos (by decide)]
        exact fun e => by cases e
      | cons t ts2 =>
        obtain ⟨hcode, h2, -⟩ := gettoken_spec hi h1
        rw [hcode]
        by_cases hw : t.code = ch 'a'
        · rw [if_neg (not_not_intro hw)]
          obtain ⟨w, rfl⟩ := code_word hw
          simp only [List.length_cons] at hf
          refine (ih _ _ h2 (by omega)).mono fun r hr => ?_
          obtain ⟨rs, ts', rfl, -, hr⟩ := hr
          exact ⟨⟨op, w⟩ :: rs, ts', rfl, trivial, hr⟩
        · rw [if_pos hw]
          exact fun e => by cases e
    · rw [if_neg hh]
      exact ⟨[], ts, rfl, trivial, hat⟩

theorem parseargs_sound (hi : Input text buf) :
    ∀ fuel {ts} argc c s, At text s ts → ts.length + 2 ≤ fuel → argc < MAXARGS →
      Meets (Behind text yieldArgs (fun args => argc + args.length < MAXARGS) ts) (· ≠ .fuel)
        (parseargs buf text.length fuel argc c s) := by
  intro fuel
  induction fuel with
  | zero => intro ts argc c s _ hf; omega
  | succ fuel ih =>
    intro ts argc c s h hf hargc
    obtain ⟨hpk, hat⟩ := peek_closers hi h
    unfold parseargs
    simp only
    rw [hpk]
    by_cases hh : heads closers ts = true
    · rw [if_pos hh]
      exact ⟨[], ts, rfl, hargc, hat⟩
    rw [if_neg hh]
    cases ts with
    | nil =>
      obtain ⟨h1, h2⟩ := gettoken_nil hi hat
      rw [if_pos h1]
      exact ⟨[], [], rfl, hargc, h2⟩
    | cons t ts =>
      obtain ⟨hcode, h1, -⟩ := gettoken_spec hi hat
      rw [hcode, if_neg (code_ne_zero t)]
      by_cases hw : t.code = ch 'a'
      · rw [if_neg (not_not_intro hw)]
        obtain ⟨w, rfl⟩ := code_word hw
        by_cases hmax : argc + 1 ≥ MAXARGS
        · rw [if_pos hmax]
          exact fun e => by cases e
        · rw [if_neg hmax]
          simp only [List.length_cons] at hf
          refine (parseredirs_sound hi fuel _ _ h1 (by omega)).bind fun r hr => ?_
          obtain ⟨rs, ts1, rfl, -, hr⟩ := hr
          rw [List.length_append] at hf
          refine (ih _ _ _ hr (by omega) (by omega)).mono fun r' hr' => ?_
          obtain ⟨args, ts', rfl, hlen, hr'⟩ := hr'
          refine ⟨(w, rs) :: args, ts', ?_, ?_, hr'⟩
          · simp [yieldArgs]
          · change argc + (args.length + 1) < MAXARGS
            omega
      · rw [if_pos hw]
        exact fun e => by cases e

theorem parseback_sound (hi : Input text buf) :
    ∀ fuel {ts} c s, At text s ts → ts.length + 1 ≤ fuel →
      Meets (Behind text (fun n => List.replicate n Token.amp) (fun _ => True) ts) (· ≠ .fuel)
        (parseback buf text.length fuel c s) := by
  intro fuel
  induction fuel with
  | zero => intro ts c s _ hf; omega
  | succ fuel ih =>
    intro ts c s h hf
    unfold parseback
    rcases peek_one hi h .amp (k := ch '&') (by decide) rfl (by decide) with
      ⟨ts1, rfl, hpk, -, h1⟩ | ⟨hpk, hat⟩
    · rw [if_pos hpk]
      rw [List.length_cons] at hf
      refine (ih _ _ h1 (by omega)).mono fun r hr => ?_
      obtain ⟨n, ts', rfl, -, hr⟩ := hr
      exact ⟨n + 1, ts', rfl, trivial, hr⟩
    · rw [if_neg hpk]
      exact ⟨0, ts, rfl, trivial, hat⟩

/-- What the four functions that call each other return with so much fuel. -/
structure SoundAt (text buf : List Byte) (fuel : Nat) : Prop where
  line : ∀ {ts} s, At text s ts → 5 * ts.length + 5 ≤ fuel →
    Meets (Behind text Line.yield Line.Fits ts) (· ≠ .fuel) (parseline buf text.length fuel s)
  pipe : ∀ {ts} s, At text s ts → 5 * ts.length + 4 ≤ fuel →
    Meets (Behind text Pipe.yield Pipe.Fits ts) (· ≠ .fuel) (parsepipe buf text.length fuel s)
  exec : ∀ {ts} s, At text s ts → 5 * ts.length + 3 ≤ fuel →
    Meets (Behind text Exec.yield Exec.Fits ts) (· ≠ .fuel) (parseexec buf text.length fuel s)
  block : ∀ {ts} s, At text s (.lparen :: ts) → 5 * ts.length + 7 ≤ fuel →
    Meets (Behind text Exec.yield Exec.Fits (.lparen :: ts)) (· ≠ .fuel)
      (parseblock buf text.length fuel s)

section
variable (hi : Input text buf) (ih : SoundAt text buf fuel)
include hi ih

theorem parseline_sound (h : At text s ts) (hf : 5 * ts.length + 4 ≤ fuel) :
    Meets (Behind text Line.yield Line.Fits ts) (· ≠ .fuel)
      (parseline buf text.length (fuel + 1) s) := by
  unfold parseline
  refine (ih.pipe s h hf).bind fun r hr => ?_
  obtain ⟨p, ts1, rfl, hp, hr⟩ := hr
  rw [List.length_append] at hf
  refine (parseback_sound hi fuel _ _ hr (by omega)).bind fun r1 hr1 => ?_
  obtain ⟨n, ts2, rfl, -, hr1⟩ := hr1
  rw [List.length_append] at hf
  rcases peek_one hi hr1 .semi (k := ch ';') (by decide) rfl (by decide) with
    ⟨ts3, rfl, hpk, -, h1⟩ | ⟨hpk, hat⟩
  · simp only
    rw [if_pos hpk]
    rw [List.length_cons] at hf
    refine (ih.line _ h1 (by omega)).bind fun r2 hr2 => ?_
    obtain ⟨l, ts', rfl, hl, hr2⟩ := hr2
    exact ⟨.seq p n l, ts', by simp [Line.yield], ⟨hp, hl⟩, hr2⟩
  · simp only
    rw [if_neg hpk]
    exact ⟨.one p n, ts2, by simp [Line.yield], hp, hat⟩

theorem parsepipe_sound (h : At text s ts) (hf : 5 * ts.length + 3 ≤ fuel) :
    Meets (Behind text Pipe.yield Pipe.Fits ts) (· ≠ .fuel)
      (parsepipe buf text.length (fuel + 1) s) := by
  unfold parsepipe
  refine (ih.exec s h hf).bind fun r hr => ?_
  obtain ⟨e, ts1, rfl, he, hr⟩ := hr
  rw [List.length_append] at hf
  rcases peek_one hi hr .pipe (k := ch '|') (by decide) rfl (by decide) with
    ⟨ts2, rfl, hpk, -, h1⟩ | ⟨hpk, hat⟩
  · simp only
    rw [if_pos hpk]
    rw [List.length_cons] at hf
    refine (ih.pipe _ h1 (by omega)).bind fun r1 hr1 => ?_
    obtain ⟨p, ts', rfl, hp, hr1⟩ := hr1
    exact ⟨.pipe e p, ts', by simp [Pipe.yield], ⟨he, hp⟩, hr1⟩
  · simp only
    rw [if_neg hpk]
    exact ⟨.one e, ts1, rfl, he, hat⟩

theorem parseexec_sound (h : At text s ts) (hf : 5 * ts.length + 2 ≤ fuel) :
    Meets (Behind text Exec.yield Exec.Fits ts) (· ≠ .fuel)
      (parseexec buf text.length (fuel + 1) s) := by
  unfold parseexec
  rcases peek_one hi h .lparen (k := ch '(') (by decide) rfl (by decide) with
    ⟨ts1, rfl, hpk, hat, -⟩ | ⟨hpk, hat⟩
  · rw [if_pos hpk]
    rw [List.length_cons] at hf
    exact ih.block _ hat (by omega)
  · rw [if_neg hpk]
    refine (parseredirs_sound hi fuel _ _ hat (by omega)).bind fun r hr => ?_
    obtain ⟨rs, ts1, rfl, -, hr⟩ := hr
    rw [List.length_append] at hf
    refine (parseargs_sound hi fuel 0 _ _ hr (by omega) (by decide)).mono fun r1 hr1 => ?_
    obtain ⟨args, ts', rfl, hlen, hr1⟩ := hr1
    exact ⟨.simple rs args, ts', by simp [Exec.yield], by simpa [Exec.Fits] using hlen, hr1⟩

theorem parseblock_sound (h : At text s (.lparen :: ts)) (hf : 5 * ts.length + 6 ≤ fuel) :
    Meets (Behind text Exec.yield Exec.Fits (.lparen :: ts)) (· ≠ .fuel)
      (parseblock buf text.length (fuel + 1) s) := by
  obtain ⟨hpk, -, h1⟩ := peek_hit hi h (k := ch '(') (by decide) rfl
  unfold parseblock
  simp only
  rw [hpk, if_neg (by decide)]
  refine (ih.line _ h1 (by omega)).bind fun r hr => ?_
  obtain ⟨l, ts1, rfl, hl, hr⟩ := hr
  rw [List.length_append] at hf
  rcases peek_one hi hr .rparen (k := ch ')') (by decide) rfl (by decide) with
    ⟨ts2, rfl, hpk1, -, h2⟩ | ⟨hpk1, -⟩
  · rw [if_neg (by simp [hpk1])]
    rw [List.length_cons] at hf
    refine (parseredirs_sound hi fuel _ _ h2 (by omega)).mono fun r1 hr1 => ?_
    obtain ⟨rs, ts', rfl, -, hr1⟩ := hr1
    exact ⟨.block l rs, ts', by simp [Exec.yield], hl, hr1⟩
  · rw [if_pos (by simp [hpk1])]
    exact fun e => by cases e

end

/-- **With enough fuel, what a parsing function returns stands behind a derivation.** -/
theorem parse_sound (hi : Input text buf) (fuel : Nat) : SoundAt text buf fuel := by
  induction fuel with
  | zero =>
    exact ⟨fun s _ hf => by omega, fun s _ hf => by omega, fun s _ hf => by omega,
      fun s _ hf => by omega⟩
  | succ fuel ih =>
    exact ⟨fun s h hf => parseline_sound hi ih h (by omega),
      fun s h hf => parsepipe_sound hi ih h (by omega),
      fun s h hf => parseexec_sound hi ih h (by omega),
      fun s h hf => parseblock_sound hi ih h (by omega)⟩

/-! ## 3. In front of a derivation -/

/-- The second command is the first one with the redirections `rs` around it. -/
inductive Wrapped (text : List Byte) : List Redir → Cmd → Cmd → Prop
  | nil (c : Cmd) : Wrapped text [] c c
  | cons {r : Redir} {rs : List Redir} {c c' : Cmd} {q eq : Nat} (hfile : Spans text q eq r.file)
      (h : Wrapped text rs (.redir c q eq r.op.mode r.op.fd) c') : Wrapped text (r :: rs) c c'

section
variable (h : Wrapped text rs c c')
include h

theorem Wrapped.setArg (i : Nat) (v : Option (Nat × Nat)) :
    Wrapped text rs (c.setArg i v) (c'.setArg i v) := by
  induction h with
  | nil c => exact .nil _
  | cons hfile _ ih => exact .cons hfile ih

theorem Wrapped.trans {rs' : List Redir} {c'' : Cmd} (h' : Wrapped text rs' c' c'') :
    Wrapped text (rs ++ rs') c c'' := by
  induction h with
  | nil c => exact h'
  | cons hfile _ ih => exact .cons hfile (ih h')

theorem Wrapped.shows {t : Tree} (ht : Shows text c t) : Shows text c' (redirect t rs) := by
  induction h generalizing t with
  | nil c => exact ht
  | cons hfile _ ih => exact ih (.redir _ _ ht hfile)

end

theorem redircmd_token (op : RedirOp) (c : Cmd) (q eq : Nat) :
    redircmd op.token.code c q eq = .redir c q eq op.mode op.fd := by
  cases op with
  | input => exact if_pos rfl
  | output => exact (if_neg (by decide)).trans (if_pos rfl)
  | append => exact (if_neg (by decide)).trans ((if_neg (by decide)).trans (if_pos rfl))

theorem parseredirs_complete (hi : Input text buf) :
    ∀ (rs : List Redir) {rest} fuel c s, At text s (yieldRedirs rs ++ rest) →
      heads [ch '<', ch '>'] rest = false →
      Meets (fun r => Wrapped text rs c r.1 ∧ At text r.2 rest) (· = .fuel)
        (parseredirs buf text.length fuel c s) := by
  intro rs
  induction rs with
  | nil =>
    intro rest fuel c s h hrest
    cases fuel with
    | zero => exact rfl
    | succ fuel =>
      change At text s rest at h
      obtain ⟨hpk, hat⟩ := peek_redir hi h
      unfold parseredirs
      simp only
      rw [hpk, hrest, if_neg Bool.false_ne_true]
      exact ⟨.nil c, hat⟩
  | cons r rs ih =>
    intro rest fuel c s h hrest
    cases fuel with
    | zero => exact rfl
    | succ fuel =>
      change At text s (r.op.token :: .word r.file :: (yieldRedirs rs ++ rest)) at h
      obtain ⟨hpk, hat⟩ := peek_redir hi h
      obtain ⟨hcode, h1, -⟩ := gettoken_spec hi hat
      obtain ⟨hcode1, h2, hspan⟩ := gettoken_spec hi h1
      unfold parseredirs
      simp only
      rw [hpk, if_pos (redir_heads r.op _), hcode1, if_neg (word_code _), hcode,
        redircmd_token]
      refine (ih fuel _ _ h2 hrest).mono fun r' hr' => ?_
      exact ⟨.cons (hspan _ rfl) hr'.1, hr'.2⟩

/-- Nothing is left, or one of the symbols comes next. -/
def Stops (toks : List Byte) (rest : List Token) : Prop :=
  rest = [] ∨ heads toks rest = true

/-- Where one of the symbols comes next, no other does. -/
theorem Stops.not {toks toks' : List Byte} (h : Stops toks rest)
    (hd : ∀ t : Token, t.starts toks = true → t.starts toks' = false) :
    heads toks' rest = false := by
  rcases h with rfl | h
  · rfl
  · cases rest with
    | nil => rfl
    | cons t rest => exact hd t h

theorem Stops.not_redir (h : Stops closers rest) : heads [ch '<', ch '>'] rest = false :=
  h.not fun t ht => by cases t <;> first | rfl | exact absurd ht Bool.false_ne_true

theorem yieldArgs_not_redir (args : List (Word × List Redir)) (h : Stops closers rest) :
    heads [ch '<', ch '>'] (yieldArgs args ++ rest) = false := by
  cases args with
  | nil => exact h.not_redir
  | cons a args => rfl

theorem Stops.not_open (h : Stops closers rest) : heads [ch '('] rest = false :=
  h.not fun t ht => by cases t <;> first | rfl | exact absurd ht Bool.false_ne_true

theorem yield_not_open (rs : List Redir) (args : List (Word × List Redir))
    (h : Stops closers rest) :
    heads [ch '('] (yieldRedirs rs ++ (yieldArgs args ++ rest)) = false := by
  cases rs with
  | nil =>
    cases args with
    | nil => exact h.not_open
    | cons a args => rfl
  | cons r rs =>
    obtain ⟨op, file⟩ := r
    cases op with
    | input => rfl
    | output => rfl
    | append => rfl

/-- The slots with `spans` in them. -/
def slots (spans : List (Nat × Nat)) : List (Option (Nat × Nat)) :=
  spans.map some ++ List.replicate (MAXARGS - spans.length) none

theorem slots_set {spans : List (Nat × Nat)} (h : spans.length < MAXARGS) (p : Nat × Nat) :
    (slots spans).set spans.length (some p) = slots (spans ++ [p]) := by
  unfold slots
  obtain ⟨k, hk⟩ : ∃ k, MAXARGS - spans.length = k + 1 := ⟨MAXARGS - spans.length - 1, by omega⟩
  rw [List.set_append_right _ _ (by simp), List.length_append, List.length_singleton,
    show MAXARGS - (spans.length + 1) = k by omega, hk]
  simp [List.replicate_succ]

theorem slots_end {spans : List (Nat × Nat)} (h : spans.length < MAXARGS) :
    (slots spans).set spans.length none = slots spans := by
  unfold slots
  obtain ⟨k, hk⟩ : ∃ k, MAXARGS - spans.length = k + 1 := ⟨MAXARGS - spans.length - 1, by omega⟩
  rw [List.set_append_right _ _ (by simp), hk]
  simp [List.replicate_succ]

theorem parseargs_complete (hi : Input text buf) :
    ∀ (args : List (Word × List Redir)) {rest} fuel {spans words rs ret} s,
      At text s (yieldArgs args ++ rest) → Stops closers rest →
      spans.length + args.length < MAXARGS → Wrapped text rs (.exec (slots spans)) ret →
      List.Forall₂ (fun p w => Spans text p.1 p.2 w) spans words →
      Meets (fun r => Shows text r.1 (redirect (.exec (words ++ args.map Prod.fst))
          (rs ++ (args.map Prod.snd).flatten)) ∧ At text r.2 rest) (· = .fuel)
        (parseargs buf text.length fuel spans.length ret s) := by
  intro args
  induction args with
  | nil =>
    intro rest fuel spans words rs ret s h hrest hlen hret hwords
    cases fuel with
    | zero => exact rfl
    | succ fuel =>
      have hshows : Shows text (ret.setArg spans.length none) (redirect (.exec words) rs) := by
        refine (hret.setArg spans.length none).shows ?_
        change Shows text (.exec ((slots spans).set spans.length none)) _
        rw [slots_end hlen]
        exact .exec hwords _
      rw [List.map_nil, List.append_nil, List.map_nil, List.flatten_nil, List.append_nil]
      change At text s rest at h
      obtain ⟨hpk, hat⟩ := peek_closers hi h
      unfold parseargs
      simp only
      rw [hpk]
      rcases hrest with rfl | hrest
      · obtain ⟨h1, h2⟩ := gettoken_nil hi hat
        rw [if_neg (by decide), if_pos h1]
        exact ⟨hshows, h2⟩
      · rw [if_pos hrest]
        exact ⟨hshows, hat⟩
  | cons a args ih =>
    intro rest fuel spans words rs ret s h hrest hlen hret hwords
    obtain ⟨w, rs1⟩ := a
    rw [List.length_cons] at hlen
    cases fuel with
    | zero => exact rfl
    | succ fuel =>
      change At text s (.word w :: (yieldRedirs rs1 ++ yieldArgs args ++ rest)) at h
      obtain ⟨hpk, hat⟩ := peek_closers hi h
      change _ = false at hpk
      obtain ⟨hcode, h1, hspan⟩ := gettoken_spec hi hat
      have hspan := hspan w rfl
      unfold parseargs
      simp only
      rw [hpk, if_neg Bool.false_ne_true, hcode, if_neg (code_ne_zero _), if_neg (word_code w),
        if_neg (by omega)]
      generalize gettoken buf text.length (peek buf text.length s closers).2 = g at h1 hspan ⊢
      rw [List.append_assoc] at h1
      refine (parseredirs_complete hi rs1 fuel _ _ h1 (yieldArgs_not_redir args hrest)).bind
        fun r hr => ?_
      have hret' : Wrapped text rs (.exec (slots (spans ++ [(g.q, g.eq)])))
          (ret.setArg spans.length (some (g.q, g.eq))) := by
        rw [← slots_set (by omega)]
        exact hret.setArg _ _
      have hrest' := ih fuel r.2 hr.2 hrest (by simp; omega) (hret'.trans hr.1)
        (List.rel_append hwords (.cons hspan .nil))
      rw [List.length_append, List.length_singleton] at hrest'
      refine hrest'.mono fun r' hr' => ?_
      simpa using hr'

theorem parseback_complete (hi : Input text buf) :
    ∀ n {rest} fuel {c t} s, At text s (List.replicate n Token.amp ++ rest) →
      heads [ch '&'] rest = false → Shows text c t →
      Meets (fun r => Shows text r.1 (background t n) ∧ At text r.2 rest) (· = .fuel)
        (parseback buf text.length fuel c s) := by
  intro n
  induction n with
  | zero =>
    intro rest fuel c t s h hrest hc
    cases fuel with
    | zero => exact rfl
    | succ fuel =>
      change At text s rest at h
      obtain ⟨hpk, hat⟩ := peek_miss hi h (by decide) hrest
      unfold parseback
      rw [if_neg hpk]
      exact ⟨hc, hat⟩
  | succ n ih =>
    intro rest fuel c t s h hrest hc
    cases fuel with
    | zero => exact rfl
    | succ fuel =>
      change At text s (.amp :: (List.replicate n Token.amp ++ rest)) at h
      obtain ⟨hpk, -, h1⟩ := peek_hit hi h (k := ch '&') (by decide) rfl
      unfold parseback
      rw [if_pos hpk]
      exact ih fuel _ h1 hrest (.back hc)

/-- What follows a line: the end, or the parenthesis that closes its block. -/
abbrev afterLine : List Byte := [ch ')']

/-- What follows a pipe. -/
abbrev afterPipe : List Byte := [ch ')', ch '&', ch ';']

theorem Stops.of_line (h : Stops afterLine rest) (n : Nat) :
    Stops afterPipe (List.replicate n Token.amp ++ rest) := by
  cases n with
  | zero =>
    rcases h with rfl | h
    · exact .inl rfl
    · obtain ⟨ts, rfl⟩ := (heads_one (t := .rparen) (by decide)).mp h
      exact .inr rfl
  | succ n => exact .inr rfl

theorem Stops.of_pipe (h : Stops afterPipe rest) : Stops closers rest := by
  rcases h with rfl | h
  · exact .inl rfl
  · cases rest with
    | nil => exact .inl rfl
    | cons t rest => cases t <;> first | exact .inr rfl | exact absurd h Bool.false_ne_true

theorem Stops.not_pipe (h : Stops afterPipe rest) : heads [ch '|'] rest = false :=
  h.not fun t ht => by cases t <;> first | rfl | exact absurd ht Bool.false_ne_true

theorem Stops.not_of_line (h : Stops afterLine rest) :
    heads [ch '&'] rest = false ∧ heads [ch ';'] rest = false :=
  ⟨h.not fun t ht => by cases t <;> first | rfl | exact absurd ht Bool.false_ne_true,
    h.not fun t ht => by cases t <;> first | rfl | exact absurd ht Bool.false_ne_true⟩

/-- What `parseline` is to do in front of a line. -/
def LineDone (text buf : List Byte) (d : Line) : Prop :=
  ∀ {rest : List Token} (fuel s : Nat), At text s (d.yield ++ rest) → Stops afterLine rest →
    Meets (fun r => Shows text r.1 d.denote ∧ At text r.2 rest) (· = .fuel)
      (parseline buf text.length fuel s)

/-- What `parsepipe` is to do in front of a pipe. -/
def PipeDone (text buf : List Byte) (d : Pipe) : Prop :=
  ∀ {rest : List Token} (fuel s : Nat), At text s (d.yield ++ rest) → Stops afterPipe rest →
    Meets (fun r => Shows text r.1 d.denote ∧ At text r.2 rest) (· = .fuel)
      (parsepipe buf text.length fuel s)

/-- What `parseexec` is to do in front of a simple command or a block. -/
def ExecDone (text buf : List Byte) (d : Exec) : Prop :=
  ∀ {rest : List Token} (fuel s : Nat), At text s (d.yield ++ rest) → Stops closers rest →
    Meets (fun r => Shows text r.1 d.denote ∧ At text r.2 rest) (· = .fuel)
      (parseexec buf text.length fuel s)

section
variable (hi : Input text buf)
include hi

theorem line_one (hp : PipeDone text buf p) (n : Nat) : LineDone text buf (.one p n) := by
  intro rest fuel s h hrest
  unfold parseline
  cases fuel with
  | zero => exact rfl
  | succ fuel =>
    unfold Line.yield at h
    rw [List.append_assoc] at h
    refine (hp fuel s h (hrest.of_line n)).bind fun r hr => ?_
    refine (parseback_complete hi n fuel _ hr.2 hrest.not_of_line.1 hr.1).bind fun r1 hr1 => ?_
    obtain ⟨hpk, hat⟩ := peek_miss hi hr1.2 (by decide) hrest.not_of_line.2
    simp only
    rw [if_neg hpk]
    exact ⟨hr1.1, hat⟩

theorem line_seq {l : Line} (hp : PipeDone text buf p) (hl : LineDone text buf l) (n : Nat) :
    LineDone text buf (.seq p n l) := by
  intro rest fuel s h hrest
  unfold parseline
  cases fuel with
  | zero => exact rfl
  | succ fuel =>
    unfold Line.yield at h
    rw [List.append_assoc, List.append_assoc, List.cons_append] at h
    have hstop : Stops afterPipe (List.replicate n Token.amp ++ .semi :: (l.yield ++ rest)) := by
      cases n with
      | zero => exact .inr rfl
      | succ n => exact .inr rfl
    refine (hp fuel s h hstop).bind fun r hr => ?_
    refine (parseback_complete hi n fuel _ hr.2 rfl hr.1).bind fun r1 hr1 => ?_
    obtain ⟨hpk, -, h1⟩ := peek_hit hi hr1.2 (k := ch ';') (by decide) rfl
    simp only
    rw [if_pos hpk]
    refine (hl fuel _ h1 hrest).bind fun r2 hr2 => ?_
    exact ⟨.list hr1.1 hr2.1, hr2.2⟩

theorem pipe_one {e : Exec} (he : ExecDone text buf e) : PipeDone text buf (.one e) := by
  intro rest fuel s h hrest
  unfold parsepipe
  cases fuel with
  | zero => exact rfl
  | succ fuel =>
    refine (he fuel s h hrest.of_pipe).bind fun r hr => ?_
    obtain ⟨hpk, hat⟩ := peek_miss hi hr.2 (by decide) hrest.not_pipe
    simp only
    rw [if_neg hpk]
    exact ⟨hr.1, hat⟩

theorem pipe_pipe {e : Exec} (he : ExecDone text buf e) (hp : PipeDone text buf p) :
    PipeDone text buf (.pipe e p) := by
  intro rest fuel s h hrest
  unfold parsepipe
  cases fuel with
  | zero => exact rfl
  | succ fuel =>
    unfold Pipe.yield at h
    rw [List.append_assoc, List.cons_append] at h
    refine (he fuel s h (.inr rfl)).bind fun r hr => ?_
    obtain ⟨hpk, -, h1⟩ := peek_hit hi hr.2 (k := ch '|') (by decide) rfl
    simp only
    rw [if_pos hpk]
    refine (hp fuel _ h1 hrest).bind fun r1 hr1 => ?_
    exact ⟨.pipe hr.1 hr1.1, hr1.2⟩

theorem exec_block {l : Line} (hl : LineDone text buf l) (rs : List Redir) :
    ExecDone text buf (.block l rs) := by
  intro rest fuel s h hrest
  unfold parseexec
  cases fuel with
  | zero => exact rfl
  | succ fuel =>
    unfold Exec.yield at h
    rw [List.cons_append, List.cons_append, List.append_assoc, List.cons_append] at h
    obtain ⟨hpk, hat, -⟩ := peek_hit hi h (k := ch '(') (by decide) rfl
    simp only
    rw [if_pos hpk]
    generalize (peek buf text.length s [ch '(']).2 = s1 at hat
    unfold parseblock
    cases fuel with
    | zero => exact rfl
    | succ fuel =>
      obtain ⟨hpk1, -, h1⟩ := peek_hit hi hat (k := ch '(') (by decide) rfl
      simp only
      rw [hpk1, if_neg (by decide)]
      refine (hl fuel _ h1 (.inr rfl)).bind fun r hr => ?_
      obtain ⟨hpk2, -, h2⟩ := peek_hit hi hr.2 (k := ch ')') (by decide) rfl
      rw [hpk2, if_neg (by decide)]
      refine (parseredirs_complete hi rs fuel _ _ h2 hrest.not_redir).mono fun r1 hr1 => ?_
      exact ⟨hr1.1.shows hr.1, hr1.2⟩

theorem exec_simple (rs : List Redir) {args : List (Word × List Redir)}
    (hlen : args.length < MAXARGS) : ExecDone text buf (.simple rs args) := by
  intro rest fuel s h hrest
  unfold parseexec
  cases fuel with
  | zero => exact rfl
  | succ fuel =>
    unfold Exec.yield at h
    rw [List.append_assoc] at h
    obtain ⟨hpk, hat⟩ := peek_miss hi h (by decide) (yield_not_open rs args hrest)
    simp only
    rw [if_neg hpk]
    refine (parseredirs_complete hi rs fuel _ _ hat (yieldArgs_not_redir args hrest)).bind
      fun r hr => ?_
    have hempty : Wrapped text rs (.exec (slots [])) r.1 := hr.1
    exact parseargs_complete hi args fuel r.2 hr.2 hrest (by simpa using hlen) hempty .nil

mutual

theorem line_complete : ∀ d : Line, d.Fits → LineDone text buf d
  | .one p n, h => line_one hi (pipe_complete p h) n
  | .seq p n l, h => line_seq hi (pipe_complete p h.1) (line_complete l h.2) n

theorem pipe_complete : ∀ d : Pipe, d.Fits → PipeDone text buf d
  | .one e, h => pipe_one hi (exec_complete e h)
  | .pipe e p, h => pipe_pipe hi (exec_complete e h.1) (pipe_complete p h.2)

theorem exec_complete : ∀ d : Exec, d.Fits → ExecDone text buf d
  | .block l rs, h => exec_block hi (line_complete l h) rs
  | .simple rs _, h => exec_simple hi rs h

end

end

/-! ## 4. The whole input -/

theorem tokens_length_le (xs : List Byte) : (tokens xs).length ≤ xs.length := by
  induction xs using tokens.induct with
  | case1 => simp [tokens]
  | case2 c cs hw ih =>
    unfold tokens
    rw [if_pos hw, List.length_cons]
    omega
  | case3 cs hh hw ih =>
    unfold tokens
    rw [if_neg hw, if_pos rfl, if_pos hh]
    simp only [List.length_cons, List.length_tail] at ih ⊢
    omega
  | case4 cs hh hw ih =>
    unfold tokens
    rw [if_neg hw, if_pos rfl, if_neg hh]
    simp only [List.length_cons]
    omega
  | case5 c cs hw hg t ht ih =>
    unfold tokens
    rw [if_neg hw, if_neg hg, ht]
    simp only [List.length_cons]
    omega
  | case6 c cs hw hg ht ih =>
    unfold tokens
    rw [if_neg hw, if_neg hg, ht]
    have := (List.dropWhile_suffix wordChar (l := cs)).length_le
    simp only [List.length_cons]
    omega

/-- The last test of `parsecmd`. -/
theorem leftovers_iff (hi : Input text buf) (h : At text s ts) :
    (peek buf text.length s []).2 = text.length ↔ ts = [] := by
  constructor
  · intro hend
    obtain ⟨h1, -⟩ := skipSpace_spec hi h
    change skipSpace buf text.length s = text.length at hend
    have heq := h1.eq
    rw [hend, List.drop_length] at heq
    simpa [tokens] using heq.symm
  · intro e
    subst e
    exact skipSpace_nil hi h

section
variable (hi : Input text buf)
include hi

theorem parsecmd_sound (hf : 5 * text.length + 5 ≤ fuel) :
    Meets (fun _ => ∃ d : Line, d.yield = tokens text ∧ d.Fits) (· ≠ .fuel)
      (parsecmd buf fuel) := by
  have hlen := tokens_length_le text
  have h : At text 0 (tokens text) := ⟨Nat.zero_le _, rfl⟩
  unfold parsecmd
  simp only
  rw [hi.strlen]
  refine ((parse_sound hi fuel).line 0 h (by omega)).bind fun r hr => ?_
  obtain ⟨d, ts', heq, hfit, hr⟩ := hr
  by_cases hend : (peek buf text.length r.2 []).2 = text.length
  · rw [if_neg (not_not_intro hend)]
    obtain rfl := (leftovers_iff hi hr).mp hend
    rw [List.append_nil] at heq
    exact ⟨d, heq.symm, hfit⟩
  · rw [if_pos hend]
    exact fun e => by cases e

theorem parsecmd_complete {d : Line} (hd : d.yield = tokens text) (hfit : d.Fits) :
    Meets (fun r => r.1.read r.2 = d.denote) (· = .fuel) (parsecmd buf fuel) := by
  have h : At text 0 (d.yield ++ []) := ⟨Nat.zero_le _, by rw [List.append_nil, hd]; rfl⟩
  unfold parsecmd
  simp only
  rw [hi.strlen]
  refine (line_complete hi d hfit fuel 0 h (.inl rfl)).bind fun r hr => ?_
  rw [if_neg (not_not_intro ((leftovers_iff hi hr.2).mpr rfl))]
  exact nulterminate_read hi hr.1

end

/-- **The shell's parser accepts exactly its grammar.** On every string it comes to an end; it
returns if and only if the tokens derive from `line` with fewer than `MAXARGS` words in each simple
command; and then the strings of the tree it returns are those of the tree that the derivation
denotes. -/
theorem parsecmd_grammar {tail : List Byte} (h0 : 0 ∉ text)
    (hf : 5 * text.length + 5 ≤ fuel) :
    parsecmd (text ++ 0 :: tail) fuel ≠ .error .fuel ∧
    ((∃ r, parsecmd (text ++ 0 :: tail) fuel = .ok r) ↔
      ∃ d : Line, d.yield = tokens text ∧ d.Fits) ∧
    ∀ d : Line, d.yield = tokens text → d.Fits → ∃ cmd buf',
      parsecmd (text ++ 0 :: tail) fuel = .ok (cmd, buf') ∧ cmd.read buf' = d.denote := by
  have hi : Input text (text ++ 0 :: tail) := ⟨⟨tail, rfl⟩, h0⟩
  have hsound := parsecmd_sound hi hf
  have hends : parsecmd (text ++ 0 :: tail) fuel ≠ .error .fuel := fun e => by
    rw [e] at hsound
    exact hsound rfl
  have htree : ∀ d : Line, d.yield = tokens text → d.Fits → ∃ cmd buf',
      parsecmd (text ++ 0 :: tail) fuel = .ok (cmd, buf') ∧ cmd.read buf' = d.denote := by
    intro d hd hfit
    obtain ⟨r, hr, hread⟩ := (parsecmd_complete hi hd hfit).ok_of fun e he h =>
      hends (h ▸ he)
    exact ⟨r.1, r.2, hr, hread⟩
  refine ⟨hends, ⟨fun h => ?_, fun h => ?_⟩, htree⟩
  · obtain ⟨r, hr⟩ := h
    exact hsound.of_ok hr
  · obtain ⟨d, hd, hfit⟩ := h
    obtain ⟨cmd, buf', hr, -⟩ := htree d hd hfit
    exact ⟨_, hr⟩

/-- `a;b`, with the NUL at the end. -/
theorem parsecmd_grammar_list :
    ∃ cmd buf', parsecmd ([ch 'a', ch ';', ch 'b'] ++ 0 :: []) 20 = .ok (cmd, buf') ∧
      cmd.read buf' = .list (.exec [[ch 'a']]) (.exec [[ch 'b']]) :=
  (parsecmd_grammar (by decide) (by decide)).2.2
    (.seq (.one (.simple [] [([ch 'a'], [])])) 0 (.one (.one (.simple [] [([ch 'b'], [])])) 0))
    (by decide +kernel) ⟨(by decide : 1 < MAXARGS), (by decide : 1 < MAXARGS)⟩

end Xv6Clock.Sh
