/-
  What an assembly may be told from outside.
-/

namespace OctoAsm

/-- Settings of an assembly. -/
structure Options where
  /-- address of the first byte, below `2^16` -/
  origin : Nat := 0x200
  /-- one past the last address a program may occupy -/
  memoryEnd : Nat := 0x1000
  /-- how deeply expansions may nest -/
  maxExpansionDepth : Nat := 64
  /-- constants declared before the first line -/
  defines : List (String × Int) := []
deriving DecidableEq, Repr

end OctoAsm
