/-
  Reading signed 64-bit integers digit by digit.

  The magnitude is built up from the left and checked against its bound after every digit, so a
  number that is too large is reported at the digit that leaves the range, and a character that is
  no digit is reported if it comes first.  The bound of a negative number is one more than that of a
  positive one.
-/

namespace OctoAsm.Text

/-- Why a text is not a signed 64-bit integer. -/
inductive IntegerFault where
  | empty
  | invalidDigit
  | tooLarge
  | tooSmall
deriving DecidableEq, Repr

/-- The fault as a diagnostic words it. -/
def IntegerFault.message : IntegerFault → String
  | .empty => "cannot parse integer from empty string"
  | .invalidDigit => "invalid digit found in string"
  | .tooLarge => "number too large to fit in target type"
  | .tooSmall => "number too small to fit in target type"

/-- The largest signed 64-bit integer; the smallest is `-(maxInt + 1)`. -/
def maxInt : Nat := 0x7FFFFFFFFFFFFFFF

/-- The value of a digit character in `radix`: `0` to `9`, then letters of either case. -/
def digit? (radix : Nat) (c : Char) : Option Nat :=
  let value? :=
    if '0' ≤ c ∧ c ≤ '9' then some (c.toNat - '0'.toNat)
    else if 'a' ≤ c ∧ c ≤ 'z' then some (c.toNat - 'a'.toNat + 10)
    else if 'A' ≤ c ∧ c ≤ 'Z' then some (c.toNat - 'A'.toNat + 10)
    else none
  value?.filter (· < radix)

/-- Extends the magnitude `acc` by the digits `cs`, never going beyond `bound`. -/
def accumulate (radix bound : Nat) (beyond : IntegerFault) :
    Nat → List Char → Except IntegerFault Nat
  | acc, [] => .ok acc
  | acc, c :: cs =>
    match digit? radix c with
    | none => .error .invalidDigit
    | some d =>
      if acc * radix + d ≤ bound then accumulate radix bound beyond (acc * radix + d) cs
      else .error beyond

/-- Digits without a sign, read as a number from `0` to `maxInt`. -/
def readMagnitude (radix : Nat) (digits : List Char) : Except IntegerFault Int :=
  (accumulate radix maxInt .tooLarge 0 digits).map Int.ofNat

/-- Digits after a minus sign, read as a number from `-(maxInt + 1)` to `0`. -/
def readNegated (radix : Nat) (digits : List Char) : Except IntegerFault Int :=
  (accumulate radix (maxInt + 1) .tooSmall 0 digits).map fun n => -(n : Int)

/-- An optional sign, then digits of `radix`; at least one character must follow a sign. -/
def readInteger (radix : Nat) : List Char → Except IntegerFault Int
  | [] => .error .empty
  | ['+'] => .error .invalidDigit
  | ['-'] => .error .invalidDigit
  | '+' :: digits => readMagnitude radix digits
  | '-' :: digits => readNegated radix digits
  | digits => readMagnitude radix digits

example : readInteger 16 ['-', 'f', 'F'] = .ok (-255) := rfl
example : readInteger 2 ['1', '2'] = .error .invalidDigit := rfl

end OctoAsm.Text
