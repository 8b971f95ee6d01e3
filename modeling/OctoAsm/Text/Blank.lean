/-
  The blank characters: the twenty-five code points with the White_Space property.  Source lines are
  split into words at them, so the class is spelled out here in full; it is wider than the four
  ASCII blanks.
-/

namespace OctoAsm.Text

/-- The blank code points, as closed ranges in increasing order. -/
def blankRanges : List (Nat × Nat) :=
  [(0x9, 0xD), (0x20, 0x20), (0x85, 0x85), (0xA0, 0xA0), (0x1680, 0x1680), (0x2000, 0x200A),
   (0x2028, 0x2029), (0x202F, 0x202F), (0x205F, 0x205F), (0x3000, 0x3000)]

/-- `n` lies in one of the closed ranges. -/
def inRanges (ranges : List (Nat × Nat)) (n : Nat) : Bool :=
  ranges.any fun r => r.1 ≤ n && n ≤ r.2

/-- A character that separates words. -/
def isBlank (c : Char) : Bool := inRanges blankRanges c.toNat

example : blankRanges.foldr (fun r n => r.2 + 1 - r.1 + n) 0 = 25 := by decide
example : isBlank '\u00a0' = true ∧ isBlank '\u200b' = false := by decide

end OctoAsm.Text
