/-
  Decimal texts of numbers are read back as the numbers.

  The decimal text of a natural number is its digits, and so a numeral for it.  That of an integer is
  a numeral behind a sign, if it is negative (`signedNumeral_toString`), so it is read like any other.
-/
import OctoAsm.Proofs.Text.Digits

namespace OctoAsm.Text

section Numerals

variable {n : Nat} {value : Int}

theorem isDigit_of_toDigits {c : Char} (h : c ∈ Nat.toDigits 10 n) : c.isDigit = true :=
  Nat.isDigit_of_mem_toDigits (by decide) (by decide) h

theorem toList_toString_nat (n : Nat) : (toString (n : Int)).toList = Nat.toDigits 10 n := by
  show (toString n).toList = _
  rw [Nat.toString_eq_ofList_toDigits, String.toList_ofList]

theorem toList_toString_negSucc (n : Nat) :
    (toString (Int.negSucc n)).toList = '-' :: Nat.toDigits 10 (n + 1) := by
  show ("-" ++ toString (n + 1)).toList = _
  rw [String.toList_append, Nat.toString_eq_ofList_toDigits, String.toList_ofList,
    String.toList_ofList]
  rfl

/-- The decimal text of an integer is a numeral with its sign. -/
theorem signedNumeral_toString (value : Int) : SignedNumeral 10 (toString value).toList value := by
  cases value with
  | ofNat n =>
    rw [Int.ofNat_eq_natCast, toList_toString_nat]
    exact .unsigned (numeral_toDigits (by decide) (by decide) n)
  | negSucc n =>
    rw [toList_toString_negSucc]
    exact .minus (numeral_toDigits (by decide) (by decide) (n + 1))

/-- The decimal text of a signed 64-bit number is read as that number. -/
theorem readInteger_toString (hlo : -(maxInt + 1) ≤ value) (hhi : value ≤ maxInt) :
    readInteger 10 (toString value).toList = .ok value :=
  (readInteger_eq_ok (by decide)).mpr ⟨signedNumeral_toString value, hlo, hhi⟩

end Numerals

end OctoAsm.Text
