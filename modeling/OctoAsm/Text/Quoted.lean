/-
  A character in single quotes, as diagnostics show it: the usual escapes by letter, whatever has no
  printable form of its own by code point.
-/
import OctoAsm.Text.Numeral
import OctoAsm.Text.Unprintable

namespace OctoAsm.Text

/-- The inside of a quoted character. -/
def escapeChar (c : Char) : String :=
  if c.toNat = 0 then "\\0"
  else if c = '\t' then "\\t"
  else if c = '\r' then "\\r"
  else if c = '\n' then "\\n"
  else if c = '\\' then "\\\\"
  else if c = '\'' then "\\'"
  else if isUnprintable c then "\\u\x7b" ++ hexDigits 1 c.toNat ++ "\x7d"
  else c.toString

/-- A character between single quotes. -/
def quoteChar (c : Char) : String := "'" ++ escapeChar c ++ "'"

end OctoAsm.Text
