/-
  Reading tokens from the front of a list.

  A reader takes tokens away or stops.  It stops with a cause at a token, or at the end of the input.
  Readers that repeat carry a budget; one that uses it up, or that goes past the end of the input,
  stops as `exhausted`, apart from every refusal.  Budgets are chosen from the number of tokens that
  are left, which every round of a repetition makes smaller.
-/
import OctoAsm.Diagnostic
import OctoAsm.Token

namespace OctoAsm

/-- Why tokens are no statement. -/
inductive ParseCause where
  | expected (what : String)
  | unexpected
  | danglingIf
  | tooDeep (limit : Nat)
deriving DecidableEq, Repr

/-- The cause as a diagnostic words it. -/
def ParseCause.describe : ParseCause → String
  | .expected what => "expected " ++ what
  | .unexpected => "unexpected token"
  | .danglingIf => "`if … then` without a statement is only allowed right before `again`"
  | .tooDeep limit => s!"expression nested deeper than {limit} levels"

/-- A diagnostic of the parser. -/
abbrev ParseError := Diagnostic ParseCause

/-- The wording of a parser diagnostic. -/
def ParseError.message (e : ParseError) : String :=
  s!"line {e.line}: {e.cause.describe}, found `{e.text}`"

/-- How a reader stops. -/
inductive Stop where
  /-- at a token, or at the end of the input -/
  | refused (found : Option Token) (cause : ParseCause)
  | exhausted
deriving DecidableEq, Repr

/-- A reader of tokens. -/
abbrev Reader (α : Type) := StateT (List Token) (Except Stop) α

namespace Reader

variable {α β : Type}

/-- Stops at the next token. -/
def refuse (cause : ParseCause) : Reader α := fun ts => .error (.refused ts.head? cause)

/-- Stops at a token that was taken before. -/
def refuseAt (token : Token) (cause : ParseCause) : Reader α := fun _ =>
  .error (.refused (some token) cause)

/-- Stops because the budget is used up. -/
def exhausted : Reader α := fun _ => .error .exhausted

/-- The next token, left in place. -/
def peek : Reader (Option Token) := fun ts => .ok (ts.head?, ts)

/-- The kind of the next token, left in place. -/
def peekKind : Reader (Option TokenKind) := fun ts => .ok (ts.head?.map (·.kind), ts)

/-- The number of tokens that are left. -/
def remaining : Reader Nat := fun ts => .ok (ts.length, ts)

/-- Takes away the next token, where a reader has seen that there is one. -/
def skip : Reader Unit
  | [] => .error .exhausted
  | _ :: ts => .ok ((), ts)

/-- Takes the next token, whatever it is. -/
def take (what : String) : Reader Token
  | [] => .error (.refused none (.expected what))
  | t :: ts => .ok (t, ts)

/-- Takes the next token, which must be of the given kind. -/
def expect (kind : TokenKind) (what : String) : Reader Token
  | t :: ts =>
    if t.kind = kind then .ok (t, ts) else .error (.refused (some t) (.expected what))
  | [] => .error (.refused none (.expected what))

/-- Takes away the line feeds that come next. -/
def skipNewlines : Reader Unit := fun ts => .ok ((), ts.dropWhile fun t => t.kind == .newline)

/-- Takes the tokens that come next as long as they pass the test. -/
def takeWhile (p : TokenKind → Bool) : Reader (List Token) := fun ts =>
  .ok (ts.takeWhile fun t => p t.kind, ts.dropWhile fun t => p t.kind)

/-- A line ends here: at a line feed, or where the input ends. -/
def atLineEnd : Option TokenKind → Bool
  | none | some .newline => true
  | _ => false

/-- Ends a directive: at the end of its line, or before the brace that closes a body. -/
def endOfLine : Reader Unit
  | [] => .ok ((), [])
  | t :: ts =>
    match t.kind with
    | .closeBrace => .ok ((), t :: ts)
    | .newline => .ok ((), ts)
    | _ => .error (.refused (some t) (.expected "end of line"))

/-- Reads items until `stop` answers; gives the items and the answer. -/
def repeatUntil (stop : Reader (Option β)) (item : Reader α) : Nat → Reader (List α × β)
  | 0 => exhausted
  | budget + 1 => do
    match ← stop with
    | some answer => return ([], answer)
    | none =>
      let first ← item
      let (rest, answer) ← repeatUntil stop item budget
      return (first :: rest, answer)

/-- Reads items until `stop` answers.  Each item takes at least one token, so the number of tokens
    that are left bounds the rounds. -/
def manyUntil (stop : Reader (Option β)) (item : Reader α) : Reader (List α × β) := do
  let budget ← remaining
  repeatUntil stop item (budget + 1)

end Reader

end OctoAsm
