/-
  From source text to tokens, one physical line at a time.

  A line is first split into lexemes by an automaton that reads it once: blanks separate words, a
  quote where a word could begin opens a string, and `#` outside a string ends the line.  Tabs count
  as spaces, inside strings too.  The lexemes are then classified from left to right.

  A line feed becomes a token when the tokens so far do not end in one, so blank lines leave no
  trace.  A line that fails keeps the tokens found before the failure, and reading can go on with
  the next line.
-/
import OctoAsm.Diagnostic
import OctoAsm.Text.Blank
import OctoAsm.Text.Lines
import OctoAsm.Token.Word

namespace OctoAsm

/-- A diagnostic of the lexer. -/
abbrev LexError := Diagnostic LexCause

/-- The wording of a lexer diagnostic. -/
def LexError.message (e : LexError) : String := s!"line {e.line}: {e.cause.describe} `{e.text}`"

/-! ## Lexemes -/

/-- A piece of a line. -/
inductive Lexeme where
  | word (chars : List Char)
  /-- the characters between two quotes -/
  | quoted (chars : List Char)
  /-- the characters after a quote that the line does not close -/
  | unclosed (chars : List Char)
deriving DecidableEq, Repr

/-- What the reader of a line is in the middle of; characters are kept back to front. -/
inductive LineMode where
  | gap
  | word (acc : List Char)
  | quoted (acc : List Char)
deriving DecidableEq, Repr

/-- The lexemes of the rest of a line. -/
def lexemesFrom : LineMode → List Char → List Lexeme
  | .gap, [] => []
  | .word acc, [] => [.word acc.reverse]
  | .quoted acc, [] => [.unclosed acc.reverse]
  | .gap, c :: cs =>
    if Text.isBlank c then lexemesFrom .gap cs
    else if c = '#' then []
    else if c = '"' then lexemesFrom (.quoted []) cs
    else lexemesFrom (.word [c]) cs
  | .word acc, c :: cs =>
    if Text.isBlank c then .word acc.reverse :: lexemesFrom .gap cs
    else if c = '#' then [.word acc.reverse]
    else lexemesFrom (.word (c :: acc)) cs
  | .quoted acc, c :: cs =>
    if c = '"' then .quoted acc.reverse :: lexemesFrom .gap cs
    else lexemesFrom (.quoted (c :: acc)) cs

/-- A tab counts as a space. -/
def spaceForTab (c : Char) : Char := if c = '\t' then ' ' else c

/-- The lexemes of a line. -/
def lexemes (line : List Char) : List Lexeme := lexemesFrom .gap (line.map spaceForTab)

/-- The token of a lexeme. -/
def Lexeme.token (line : Nat) : Lexeme → Except LexError Token
  | .quoted chars => .ok ⟨line, .string, String.ofList chars⟩
  | .unclosed chars => .error ⟨line, String.ofList ('"' :: chars), .unterminatedString⟩
  | .word chars =>
    match classify chars with
    | .ok kind => .ok ⟨line, kind, String.ofList chars⟩
    | .error cause => .error ⟨line, String.ofList chars, cause⟩

/-! ## Lines -/

/-- A lexer part-way through a text. -/
structure Lexer where
  /-- lines not read yet -/
  pending : List (List Char)
  /-- number of the last line read, 0 before the first; there are assumed to be fewer than `2 ^ 32`
      lines -/
  line : Nat
  /-- tokens found so far, newest first -/
  found : List Token

namespace Lexer

/-- The lexer at the start of a text. -/
def ofText (text : String) : Lexer := ⟨Text.lines text, 0, []⟩

/-- Adds the tokens of the lexemes in order, up to the first that is no token. -/
def readLexemes (line : Nat) : List Token → List Lexeme → List Token × Except LexError Unit
  | found, [] => (found, .ok ())
  | found, l :: ls =>
    match l.token line with
    | .ok t => readLexemes line (t :: found) ls
    | .error e => (found, .error e)

/-- Ends a line: a line feed follows whatever is not one itself. -/
def closeLine (line : Nat) : List Token → List Token
  | [] => []
  | t :: found => if t.kind = .newline then t :: found else ⟨line, .newline, "\n"⟩ :: t :: found

/-- Reads one line.  Answers whether there was one, or why it has no tokens. -/
def step (lx : Lexer) : Lexer × Except LexError Bool :=
  match lx.pending with
  | [] => (lx, .ok false)
  | l :: rest =>
    let line := lx.line + 1
    match readLexemes line lx.found (lexemes l) with
    | (found, .ok ()) => (⟨rest, line, closeLine line found⟩, .ok true)
    | (found, .error e) => (⟨rest, line, found⟩, .error e)

/-- Reads the lines that are left, up to the first that fails. -/
def readLines (line : Nat) : List Token → List (List Char) → Except LexError (List Token)
  | found, [] => .ok found.reverse
  | found, l :: rest =>
    match readLexemes (line + 1) found (lexemes l) with
    | (found, .ok ()) => readLines (line + 1) (closeLine (line + 1) found) rest
    | (_, .error e) => .error e

/-- All tokens of the text, those found before included. -/
def finish (lx : Lexer) : Except LexError (List Token) := readLines lx.line lx.found lx.pending

end Lexer

/-- The tokens of a source text. -/
def tokenize (text : String) : Except LexError (List Token) := (Lexer.ofText text).finish

example : lexemes "a \"b #\"c# d".toList = [.word ['a'], .quoted ['b', ' ', '#'], .word ['c']] := by
  decide

end OctoAsm
