/-
  Exact operations on binary64 numbers, read off their bits.

  A finite number is `± m · 2^e` with integers `m` and `e`.  Rounding to an integer, the remainder of a
  division and the conversion to a signed 64-bit integer are all exact on that form, so they are
  computed in `Nat` and `Int`; addition and its kin round and are left to `Float`.
-/

namespace OctoAsm.Calc

/-- A binary64 number taken apart; `finite neg m e` is `m · 2^e`, negated if `neg`. -/
inductive Shape where
  | nan
  | infinite (neg : Bool)
  | finite (neg : Bool) (m : Nat) (e : Int)
deriving DecidableEq, Repr

/-- Takes a number apart: one sign bit, eleven exponent bits, fifty-two fraction bits. -/
def shape (x : Float) : Shape :=
  let bits : Nat := x.toBits.toNat
  let neg := bits / Nat.pow 2 63 == 1
  let exponent : Nat := bits / Nat.pow 2 52 % Nat.pow 2 11
  let fraction : Nat := bits % Nat.pow 2 52
  if exponent = 2047 then
    if fraction = 0 then .infinite neg else .nan
  else if exponent = 0 then .finite neg fraction (-1074)
  else .finite neg (fraction + Nat.pow 2 52) ((exponent : Int) - 1075)

/-- The number `± m · 2^e`, provided it has a binary64 form. -/
def ofParts (neg : Bool) (m : Nat) (e : Int) : Float :=
  let sign : Nat := if neg then Nat.pow 2 63 else 0
  let exponent : Int := m.log2 + e + 1023
  let magnitude : Nat :=
    if m = 0 then 0
    else if exponent < 1 then m * Nat.pow 2 (e + 1074).toNat
    else
      let fraction := m * Nat.pow 2 (52 - m.log2) / Nat.pow 2 (m.log2 - 52) % Nat.pow 2 52
      exponent.toNat * Nat.pow 2 52 + fraction
  Float.ofBits (UInt64.ofNat (sign + magnitude))

/-- `m · 2^e` rounded down to a natural number. -/
def scaleDown (m : Nat) (e : Int) : Nat :=
  if 0 ≤ e then m * Nat.pow 2 e.toNat else m / Nat.pow 2 (-e).toNat

/-- `m · 2^e` rounded up to a natural number. -/
def scaleUp (m : Nat) (e : Int) : Nat :=
  if 0 ≤ e then m * Nat.pow 2 e.toNat
  else (m + Nat.pow 2 (-e).toNat - 1) / Nat.pow 2 (-e).toNat

/-- The integer `± n` as a number; a negative zero keeps its sign. -/
def ofSigned (neg : Bool) (n : Nat) : Float :=
  if neg then -(Float.ofNat n) else Float.ofNat n

/-- The largest integer that is not greater; NaN and the infinities stay. -/
def floor (x : Float) : Float :=
  match shape x with
  | .finite neg m e => if 0 ≤ e then x else ofSigned neg (if neg then scaleUp m e else scaleDown m e)
  | _ => x

/-- The smallest integer that is not less; NaN and the infinities stay. -/
def ceil (x : Float) : Float :=
  match shape x with
  | .finite neg m e => if 0 ≤ e then x else ofSigned neg (if neg then scaleDown m e else scaleUp m e)
  | _ => x

/-- The smallest signed 64-bit integer. -/
def int64Min : Int := -0x8000000000000000

/-- The largest signed 64-bit integer. -/
def int64Max : Int := 0x7FFFFFFFFFFFFFFF

/-- The nearest integer in the signed 64-bit range. -/
def clamp (n : Int) : Int := max int64Min (min int64Max n)

/-- Rounds toward zero into the signed 64-bit range; NaN counts as zero. -/
def truncate (x : Float) : Int :=
  match shape x with
  | .nan => 0
  | .infinite neg => if neg then int64Min else int64Max
  | .finite neg m e => clamp (if neg then -(scaleDown m e : Int) else scaleDown m e)

/-- The remainder of the division rounded toward zero, with the sign of the dividend. -/
def remainder (x y : Float) : Float :=
  match shape x, shape y with
  | .finite neg m e, .finite _ m' e' =>
    if m' = 0 then Float.ofBits 0x7FF8000000000000
    else
      let low := min e e'
      ofParts neg (m * Nat.pow 2 (e - low).toNat % (m' * Nat.pow 2 (e' - low).toNat)) low
  | .finite .., .infinite _ => x
  | _, _ => Float.ofBits 0x7FF8000000000000

/-- The smaller number; NaN loses to any number, and of two equal numbers the first is taken. -/
def smaller (a b : Float) : Float := if a.isNaN then b else if b < a then b else a

/-- The larger number; NaN loses to any number, and of two equal numbers the first is taken. -/
def larger (a b : Float) : Float := if a.isNaN then b else if a < b then b else a

/-- The sign as `-1`, `0` or `1`; NaN stays. -/
def signum (x : Float) : Float :=
  match shape x with
  | .nan => x
  | .infinite neg => ofSigned neg 1
  | .finite neg m _ => if m = 0 then 0.0 else ofSigned neg 1

example : truncate (-2.5) = -2 ∧ truncate (Float.ofInt int64Min) = int64Min := by decide
example : (floor (-2.5)).toBits = (-3.0 : Float).toBits := by decide
example : (remainder (-7.5) 2.0).toBits = (-1.5 : Float).toBits := by decide

end OctoAsm.Calc
