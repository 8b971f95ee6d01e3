/-
  What a single word means.  The kind of a token depends on its word alone, never on its neighbours:
  the fixed vocabulary is tried first, then numbers, registers and names.
-/
import OctoAsm.Text.Integer
import OctoAsm.Token

namespace OctoAsm

/-- Why a line does not split into tokens. -/
inductive LexCause where
  | unknownDirective
  | unrecognized
  | unterminatedString
  | numberOutOfRange
deriving DecidableEq, Repr

/-- The cause as a diagnostic words it. -/
def LexCause.describe : LexCause → String
  | .unknownDirective => "unknown directive"
  | .unrecognized => "unrecognized token"
  | .unterminatedString => "unterminated string"
  | .numberOutOfRange => "number out of range"

/-! ## Numbers -/

/-- One or more digits of `radix`. -/
def areDigits (radix : Nat) (cs : List Char) : Bool :=
  !cs.isEmpty && cs.all fun c => (Text.digit? radix c).isSome

/-- A decimal number without its sign, if it has one. -/
def unsignedPart : List Char → List Char
  | '-' :: cs => cs
  | '+' :: cs => cs
  | cs => cs

/-- Reads `digits` in `radix`, given that the word has the shape of a number. -/
def readNumber (radix : Nat) (digits : List Char) : Except LexCause (Option Int) :=
  match Text.readInteger radix digits with
  | .ok n => .ok (some n)
  | .error _ => .error .numberOutOfRange

/-- A word as a number: `0x` and hexadecimal digits, `0b` and binary digits, or decimal digits with
    an optional sign.  Answers `none` for every other shape. -/
def number? : List Char → Except LexCause (Option Int)
  | '0' :: 'x' :: digits => if areDigits 16 digits then readNumber 16 digits else .ok none
  | '0' :: 'b' :: digits => if areDigits 2 digits then readNumber 2 digits else .ok none
  | word => if areDigits 10 (unsignedPart word) then readNumber 10 word else .ok none

/-! ## Registers and names -/

/-- The value of a lower-case hexadecimal digit. -/
def registerIndex? (c : Char) : Option (Fin 16) :=
  if 'A' ≤ c ∧ c ≤ 'Z' then none
  else
    match Text.digit? 16 c with
    | some n => if h : n < 16 then some ⟨n, h⟩ else none
    | none => none

/-- A word as a register. -/
def Register.ofWord? : List Char → Option Register
  | ['i'] => some .i
  | ['v', c] => (registerIndex? c).map .v
  | word =>
    if word = "delay".toList then some .delay
    else if word = "buzzer".toList then some .buzzer
    else none

/-- An ASCII letter or an underscore. -/
def startsName (c : Char) : Bool := c.isAlpha || c == '_'

/-- A character that may stand in a name after the first. -/
def continuesName (c : Char) : Bool := c.isAlphanum || c == '_' || c == '-'

/-- A letter or underscore, then letters, digits, underscores and dashes. -/
def isName : List Char → Bool
  | [] => false
  | c :: cs => startsName c && cs.all continuesName

/-! ## Classification -/

/-- The kind of a word that is in the fixed vocabulary or begins with a colon. -/
def fixedKind? (word : List Char) : Except LexCause (Option TokenKind) :=
  let text := String.ofList word
  if word = ['\x7b'] then .ok (some .openBrace)
  else if word = ['\x7d'] then .ok (some .closeBrace)
  else if word = ['('] then .ok (some .openParen)
  else if word = [')'] then .ok (some .closeParen)
  else
    match Operator.symbols.lookup text, Keyword.spellings.lookup text with
    | some op, _ => .ok (some (.operator op))
    | none, some k => .ok (some (.keyword k))
    | none, none =>
      if word.head? = some ':' then
        match Directive.spellings.lookup text with
        | some d => .ok (some (.directive d))
        | none => .error .unknownDirective
      else
        match Constant.spellings.lookup text, Operator.words.lookup text with
        | some c, _ => .ok (some (.constant c))
        | none, some op => .ok (some (.operator op))
        | none, none => .ok none

/-- The kind of a word. -/
def classify (word : List Char) : Except LexCause TokenKind := do
  match ← fixedKind? word with
  | some kind => return kind
  | none =>
    match ← number? word with
    | some n => return .number n
    | none =>
      match Register.ofWord? word with
      | some r => return .register r
      | none => if isName word then return .name else throw .unrecognized

example : classify "0x1F".toList = .ok (.number 31) := rfl
example : classify "vA".toList = .ok .name ∧ classify "va".toList = .ok (.register (.v 10)) :=
  ⟨rfl, rfl⟩
example : classify ":nope".toList = .error .unknownDirective := rfl

end OctoAsm
