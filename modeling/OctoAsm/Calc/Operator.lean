/-
  The operators of calc expressions.
-/

namespace OctoAsm.Calc

/-- Operators with one operand. -/
inductive UnaryOp where
  | neg | not | logicalNot | sin | cos | tan | exp | log | abs | sqrt | sign | ceil | floor
  /-- the address of a label -/
  | addressOf
  /-- the number of characters of a string -/
  | strlen
deriving DecidableEq, Repr

/-- Operators with two operands. -/
inductive BinaryOp where
  | add | sub | mul | div | rem | and | or | xor | shl | shr | pow | min | max
  | lt | gt | le | ge | eq | ne
deriving DecidableEq, Repr

end OctoAsm.Calc
