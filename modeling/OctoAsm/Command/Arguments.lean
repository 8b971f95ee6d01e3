/-
  What the command is asked to do.
-/

namespace OctoAsm.Command

/-- Accepted arguments. -/
structure Arguments where
  input : Option String := none
  output : Option String := none
  /-- constants that are declared before the first line, in order -/
  defines : List (String × Int) := []
  symbols : Option String := none
  /-- the address of the first byte, if it is not the usual one -/
  origin : Option Nat := none
  /-- a log level was given; it changes nothing in what is written -/
  logLevel : Bool := false
deriving DecidableEq, Repr

end OctoAsm.Command
