/-
  What the operators of calc expressions compute.

  Values are binary64 numbers.  The bitwise operators and the shifts go through signed 64-bit
  integers: operands are truncated into that range, the result is turned back into a number.  A
  shift looks at the low 32 bits of its count only.
-/
import OctoAsm.Calc.Binary64
import OctoAsm.Calc.Operator

namespace OctoAsm.Calc

/-! ## Integer operators -/

/-- The count that a shift by `b` sees: its low 32 bits. -/
def shiftCount (b : Int) : Nat := (b % 0x100000000).toNat

/-- Shift to the left within signed 64 bits; zero once the count reaches 64. -/
def shiftLeft (a b : Int) : Int :=
  if shiftCount b < 64 then Int.bmod (a * Nat.pow 2 (shiftCount b)) (Nat.pow 2 64) else 0

/-- Shift to the right, rounding down; zero once the count reaches 64. -/
def shiftRight (a b : Int) : Int :=
  if shiftCount b < 64 then a / Nat.pow 2 (shiftCount b) else 0

/-- Bitwise conjunction of signed 64-bit integers. -/
def bitAnd (a b : Int) : Int := (Int64.ofInt a &&& Int64.ofInt b).toInt

/-- Bitwise disjunction of signed 64-bit integers. -/
def bitOr (a b : Int) : Int := (Int64.ofInt a ||| Int64.ofInt b).toInt

/-- Bitwise difference of signed 64-bit integers. -/
def bitXor (a b : Int) : Int := (Int64.ofInt a ^^^ Int64.ofInt b).toInt

/-- Bitwise complement: `-n - 1`. -/
def bitNot (n : Int) : Int := -n - 1

/-! ## Operators on numbers -/

/-- Truth as a number. -/
def flag (b : Bool) : Float := if b then 1.0 else 0.0

/-- The value of a unary operator.  `addressOf` and `strlen` are resolved before any evaluation. -/
def UnaryOp.apply : UnaryOp → Float → Float
  | .neg, x => -x
  | .not, x => Float.ofInt (bitNot (truncate x))
  | .logicalNot, x => flag (x == 0.0)
  | .sin, x => x.sin
  | .cos, x => x.cos
  | .tan, x => x.tan
  | .exp, x => x.exp
  | .log, x => x.log
  | .abs, x => x.abs
  | .sqrt, x => x.sqrt
  | .sign, x => signum x
  | .ceil, x => Calc.ceil x
  | .floor, x => Calc.floor x
  | .addressOf, x => x
  | .strlen, x => x

/-- An operator on integers, applied to truncated numbers. -/
def onIntegers (f : Int → Int → Int) (a b : Float) : Float :=
  Float.ofInt (f (truncate a) (truncate b))

/-- The value of a binary operator. -/
def BinaryOp.apply : BinaryOp → Float → Float → Float
  | .add, a, b => a + b
  | .sub, a, b => a - b
  | .mul, a, b => a * b
  | .div, a, b => a / b
  | .rem, a, b => remainder a b
  | .and, a, b => onIntegers bitAnd a b
  | .or, a, b => onIntegers bitOr a b
  | .xor, a, b => onIntegers bitXor a b
  | .shl, a, b => onIntegers shiftLeft a b
  | .shr, a, b => onIntegers shiftRight a b
  | .pow, a, b => a.pow b
  | .min, a, b => smaller a b
  | .max, a, b => larger a b
  | .lt, a, b => flag (a < b)
  | .gt, a, b => flag (b < a)
  | .le, a, b => flag (a ≤ b)
  | .ge, a, b => flag (b ≤ a)
  | .eq, a, b => flag (a == b)
  | .ne, a, b => flag (a != b)

/-! ## Results as integers -/

/-- A result rounded down to an integer: none for NaN, the infinities, and what lies beyond `2^63`
    on either side.  `2^63` itself reads as the largest integer. -/
def toInt? (x : Float) : Option Int :=
  match shape x with
  | .finite neg m e =>
    let n : Int := if neg then -(scaleUp m e : Int) else scaleDown m e
    if int64Min ≤ n ∧ n ≤ int64Max + 1 then some (min int64Max n) else none
  | _ => none

/-- A value fits a field of `bits` bits.  Fields of twelve bits or more hold addresses and are
    unsigned; narrower ones also take the negative numbers of their width. -/
def fits (value : Int) (bits : Nat) : Bool :=
  (if 12 ≤ bits then 0 else -(Nat.pow 2 (bits - 1) : Int)) ≤ value && value < Nat.pow 2 bits

example : shiftLeft 1 64 = 0 ∧ shiftLeft 1 63 = int64Min ∧ shiftRight (-3) 1 = -2 := by decide
example : (BinaryOp.and.apply (-1.0) 255.0).toBits = (255.0 : Float).toBits := by decide
example : toInt? (-0.5) = some (-1) ∧ toInt? (1.0 / 0.0) = none := by decide

end OctoAsm.Calc
