/-
  Physical lines of a text.  A line ends at a line feed; one carriage return right before that feed
  belongs to the ending.  A last line without a feed counts when it is not empty, and keeps a
  carriage return it may end in.
-/

namespace OctoAsm.Text

/-- Drops the carriage return at the end of a line given back to front. -/
def dropReturn : List Char → List Char
  | '\r' :: line => line
  | line => line

/-- `linesFrom acc cs`: the lines of `cs`, the current one having begun with `acc` (back to front). -/
def linesFrom : List Char → List Char → List (List Char)
  | [], [] => []
  | acc, [] => [acc.reverse]
  | acc, c :: cs =>
    if c = '\n' then (dropReturn acc).reverse :: linesFrom [] cs else linesFrom (c :: acc) cs

/-- The physical lines of a text, without their endings. -/
def lines (text : String) : List (List Char) := linesFrom [] text.toList

example : linesFrom [] ['a', '\r', '\n', '\n', 'b', '\r'] = [['a'], [], ['b', '\r']] := by decide

end OctoAsm.Text
