/-
  File:      Xv6Clock/ShellGrammar.lean
  Subject:   The language of the shell (sh.c): its tokens, its grammar and what a command denotes.

  The types `Line`, `Pipe` and `Exec` are the derivation trees of

    line  ::=  pipe '&'* [';' line]
    pipe  ::=  exec ['|' pipe]
    exec  ::=  '(' line ')' redirs  |  redirs (word redirs)*
    redirs  ::=  (('<' | '>' | '>>') word)*

  `yield` is the row of tokens that a tree derives, and `denote` the command it stands for.
-/
import Xv6Clock.Mmu

namespace Xv6Clock.Sh

/-! ## 1. Tokens -/

def ch (c : Char) : Byte := BitVec.ofNat 8 c.toNat

def whitespace : List Byte := [ch ' ', ch '\t', ch '\r', ch '\n', 11]

def symbols : List Byte := [ch '<', ch '|', ch '>', ch '&', ch ';', ch '(', ch ')']

/-- A character of a word. -/
def wordChar (c : Byte) : Bool := !whitespace.contains c && !symbols.contains c

/-- The bytes of a word or of a file name. -/
abbrev Word := List Byte

inductive Token
  | word (w : Word)
  | pipe
  | amp
  | semi
  | lparen
  | rparen
  | lt
  | gt
  | append
  deriving DecidableEq, Repr

/-- The tokens that are one character long, whatever follows. -/
def single (c : Byte) : Option Token :=
  if c = ch '|' then some .pipe
  else if c = ch '(' then some .lparen
  else if c = ch ')' then some .rparen
  else if c = ch ';' then some .semi
  else if c = ch '&' then some .amp
  else if c = ch '<' then some .lt
  else none

/-- **The tokens of a string**: whitespace separates, words and `>>` are as long as possible. -/
def tokens : List Byte → List Token
  | [] => []
  | c :: cs =>
    if whitespace.contains c then tokens cs
    else if c = ch '>' then
      if cs.head? = some (ch '>') then .append :: tokens cs.tail else .gt :: tokens cs
    else
      match single c with
      | some t => t :: tokens cs
      | none => .word (c :: cs.takeWhile wordChar) :: tokens (cs.dropWhile wordChar)
termination_by text => text.length
decreasing_by
  all_goals simp only [List.length_cons, List.length_tail]
  · omega
  · omega
  · omega
  · omega
  · have := (List.dropWhile_suffix wordChar (l := cs)).length_le
    omega

/-! ## 2. The grammar -/

inductive RedirOp
  | input
  | output
  | append
  deriving DecidableEq, Repr

def RedirOp.token : RedirOp → Token
  | .input => .lt
  | .output => .gt
  | .append => .append

structure Redir where
  op : RedirOp
  file : Word
  deriving DecidableEq, Repr

mutual

inductive Line
  | one (p : Pipe) (amps : Nat)
  | seq (p : Pipe) (amps : Nat) (rest : Line)

inductive Pipe
  | one (e : Exec)
  | pipe (e : Exec) (rest : Pipe)

inductive Exec
  | block (l : Line) (rs : List Redir)
  | simple (rs : List Redir) (args : List (Word × List Redir))

end

def yieldRedirs : List Redir → List Token
  | [] => []
  | r :: rs => r.op.token :: .word r.file :: yieldRedirs rs

def yieldArgs : List (Word × List Redir) → List Token
  | [] => []
  | (w, rs) :: args => .word w :: yieldRedirs rs ++ yieldArgs args

mutual

def Line.yield : Line → List Token
  | .one p amps => p.yield ++ List.replicate amps .amp
  | .seq p amps rest => p.yield ++ List.replicate amps .amp ++ .semi :: rest.yield

def Pipe.yield : Pipe → List Token
  | .one e => e.yield
  | .pipe e rest => e.yield ++ .pipe :: rest.yield

def Exec.yield : Exec → List Token
  | .block l rs => .lparen :: l.yield ++ .rparen :: yieldRedirs rs
  | .simple rs args => yieldRedirs rs ++ yieldArgs args

end

def MAXARGS : Nat := 10

mutual

/-- Each simple command has fewer than `MAXARGS` words. -/
def Line.Fits : Line → Prop
  | .one p _ => p.Fits
  | .seq p _ rest => p.Fits ∧ rest.Fits

def Pipe.Fits : Pipe → Prop
  | .one e => e.Fits
  | .pipe e rest => e.Fits ∧ rest.Fits

def Exec.Fits : Exec → Prop
  | .block l _ => l.Fits
  | .simple _ args => args.length < MAXARGS

end

/-! ## 3. What a command denotes -/

inductive Tree
  | exec (argv : List Word)
  | redir (cmd : Tree) (file : Word) (mode fd : Nat)
  | pipe (left right : Tree)
  | list (left right : Tree)
  | back (cmd : Tree)
  deriving DecidableEq, Repr

-- fcntl.h
def O_RDONLY : Nat := 0x000
def O_WRONLY : Nat := 0x001
def O_CREATE : Nat := 0x200

def RedirOp.mode : RedirOp → Nat
  | .input => O_RDONLY
  | .output => O_WRONLY ||| O_CREATE
  | .append => O_WRONLY ||| O_CREATE

def RedirOp.fd : RedirOp → Nat
  | .input => 0
  | .output => 1
  | .append => 1

/-- The redirections around a command, the first one innermost. -/
def redirect : Tree → List Redir → Tree
  | t, [] => t
  | t, r :: rs => redirect (.redir t r.file r.op.mode r.op.fd) rs

def background : Tree → Nat → Tree
  | t, 0 => t
  | t, n + 1 => background (.back t) n

mutual

def Line.denote : Line → Tree
  | .one p amps => background p.denote amps
  | .seq p amps rest => .list (background p.denote amps) rest.denote

def Pipe.denote : Pipe → Tree
  | .one e => e.denote
  | .pipe e rest => .pipe e.denote rest.denote

def Exec.denote : Exec → Tree
  | .block l rs => redirect l.denote rs
  | .simple rs args =>
    redirect (.exec (args.map Prod.fst)) (rs ++ (args.map Prod.snd).flatten)

end

end Xv6Clock.Sh
