/-
  Numbers in arguments: decimal, `0x` hexadecimal or `0b` binary behind an optional minus sign, and
  the two forms of arguments built from them.

  The digits behind the sign and the mark of the radix are read as a signed 64-bit integer, so a sign
  may stand there too, and what is negated then need not be positive.
-/
import OctoAsm.Text.Integer

namespace OctoAsm.Command

/-- Why an argument's value is refused. -/
inductive ValueFault where
  | integer (cause : Text.IntegerFault)
  /-- there is no number: it would be the negation of the least integer, where the arithmetic stops -/
  | negationOverflow
  | noValue
  | emptyName
  | notAddress
deriving DecidableEq, Repr

/-- A refused value and the text it was read from. -/
structure ValueError where
  text : String
  fault : ValueFault
deriving DecidableEq, Repr

/-- The wording of a refused value. -/
def ValueError.message (e : ValueError) : String :=
  s!"`{e.text}`: " ++
    match e.fault with
    | .integer cause => cause.message
    | .negationOverflow => "attempt to negate with overflow"
    | .noValue => "expected NAME=VALUE"
    | .emptyName => "empty name"
    | .notAddress => "not an address below 0x1000"

/-- The radix that a mark chooses, and the digits behind it. -/
def radixOf : List Char → Nat × List Char
  | '0' :: 'x' :: digits => (16, digits)
  | '0' :: 'b' :: digits => (2, digits)
  | digits => (10, digits)

/-- A number without its minus sign. -/
def readUnsigned (cs : List Char) : Except Text.IntegerFault Int :=
  Text.readInteger (radixOf cs).1 (radixOf cs).2

/-- The negation of a signed 64-bit integer, which the least of them does not have. -/
def negate (n : Int) : Except ValueFault Int :=
  if n = -(Text.maxInt + 1) then .error .negationOverflow else .ok (-n)

/-- The characters of a number. -/
def readIntChars : List Char → Except ValueFault Int
  | '-' :: cs => (readUnsigned cs).mapError .integer >>= negate
  | cs => (readUnsigned cs).mapError .integer

/-- A number. -/
def readInt (text : String) : Except ValueError Int :=
  (readIntChars text.toList).mapError fun fault => ⟨text, fault⟩

/-- A constant given as `NAME=VALUE`; the first equals sign ends the name. -/
def readDefine (text : String) : Except ValueError (String × Int) :=
  let name := text.toList.takeWhile (· != '=')
  match text.toList.dropWhile (· != '=') with
  | [] => .error ⟨text, .noValue⟩
  | _ :: value =>
    if name.isEmpty then .error ⟨text, .emptyName⟩
    else (readInt (String.ofList value)).map fun n => (String.ofList name, n)

/-- An address below `0x1000`. -/
def readAddress (text : String) : Except ValueError Nat :=
  match readInt text with
  | .error e => .error e
  | .ok n => if 0 ≤ n ∧ n < 0x1000 then .ok n.toNat else .error ⟨text, .notAddress⟩

example : readInt "-0x10" = .ok (-16) := rfl
example : readDefine "A=B=1" = .error ⟨"B=1", .integer .invalidDigit⟩ := rfl

end OctoAsm.Command
