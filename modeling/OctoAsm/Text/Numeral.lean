/-
  Written numbers: hexadecimal with a least width, upper or lower case, and the 64-bit two's
  complement form that negative numbers take in hexadecimal.
-/

namespace OctoAsm.Text

/-- `digits` with zeros in front, so that it has at least `width` characters. -/
def zeroPad (width : Nat) (digits : List Char) : List Char :=
  List.replicate (width - digits.length) '0' ++ digits

/-- Lower-case hexadecimal, at least `width` digits. -/
def hexDigits (width n : Nat) : String := String.ofList (zeroPad width (Nat.toDigits 16 n))

/-- Upper-case hexadecimal, at least `width` digits. -/
def upperHexDigits (width n : Nat) : String :=
  String.ofList ((zeroPad width (Nat.toDigits 16 n)).map Char.toUpper)

/-- Lower-case hexadecimal behind `0x`, at least `width` digits. -/
def hex (width n : Nat) : String := "0x" ++ hexDigits width n

/-- A signed 64-bit number in hexadecimal: negative numbers show their two's complement. -/
def hexInt (n : Int) : String := hex 1 (n % 0x10000000000000000).toNat

example : hex 3 0x2A = "0x02a" ∧ hex 4 0xABCDE = "0xabcde" := by decide
example : hexInt (-2) = "0xfffffffffffffffe" := by decide

end OctoAsm.Text
