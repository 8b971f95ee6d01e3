/-
  Templates: an instruction pattern read into its fixed nibbles and its operand fields.

  A pattern is read from the right, so that the position of a nibble is four times the number of
  characters after it.  A run of `N` is one field: its lowest nibble gives the position, its length
  the width.
-/
import OctoAsm.Machine.Mnemonic

namespace OctoAsm.Machine

/-- A machine word. -/
abbrev Word := UInt16

/-- What an operand field holds. -/
inductive FieldKind where
  | register
  | secondRegister
  | immediate
deriving DecidableEq, Repr

/-- A run of `bits` bits of a word, the lowest of them at position `shift`. -/
structure Field where
  kind : FieldKind
  shift : Nat
  bits : Nat
deriving DecidableEq, Repr

namespace Field

/-- What one unit of the field adds to a word. -/
def weight (f : Field) : Nat := Nat.pow 2 f.shift

/-- How many values the field can hold. -/
def capacity (f : Field) : Nat := Nat.pow 2 f.bits

/-- The word with exactly the bits of the field set. -/
def mask (f : Field) : Nat := (f.capacity - 1) * f.weight

/-- The content of the field in a word. -/
def extract (f : Field) (word : Word) : Word :=
  UInt16.ofNat (word.toNat / f.weight % f.capacity)

end Field

/-- The field that a pattern character stands for; `none` for a digit. -/
def fieldKind? (c : Char) : Option FieldKind :=
  if c = 'X' then some .register
  else if c = 'Y' then some .secondRegister
  else if c = 'N' then some .immediate
  else none

/-- The value of a hexadecimal digit of a pattern. -/
def patternDigit (c : Char) : Nat :=
  if c ≤ '9' then c.toNat - '0'.toNat else c.toNat - 'A'.toNat + 10

/-- The operand fields of a pattern, from the left. -/
def patternFields : List Char → List Field
  | [] => []
  | c :: cs =>
    match fieldKind? c, patternFields cs with
    | none, fields => fields
    | some .immediate, ⟨.immediate, shift, bits⟩ :: fields => ⟨.immediate, shift, bits + 4⟩ :: fields
    | some kind, fields => ⟨kind, 4 * cs.length, 4⟩ :: fields

/-- The fixed nibbles of a pattern, from the left: position and digit. -/
def patternFixed : List Char → List (Nat × Nat)
  | [] => []
  | c :: cs =>
    match fieldKind? c with
    | none => (4 * cs.length, patternDigit c) :: patternFixed cs
    | some _ => patternFixed cs

/-- An instruction's pattern, read. -/
structure Template where
  mnemonic : Mnemonic
  /-- position and digit of every literal nibble -/
  fixed : List (Nat × Nat)
  /-- operand fields in the order in which the pattern has them -/
  fields : List Field
deriving DecidableEq, Repr

namespace Template

/-- The bits of the fixed nibbles. -/
def fixedMask (t : Template) : Nat := t.fixed.foldr (fun n mask => 15 * Nat.pow 2 n.1 + mask) 0

/-- The fixed nibbles in place, all else zero. -/
def fixedBits (t : Template) : Nat := t.fixed.foldr (fun n bits => n.2 * Nat.pow 2 n.1 + bits) 0

/-- Every fixed nibble of the template is found in the word. -/
def admits (t : Template) (word : Word) : Bool :=
  t.fixed.all fun n => word.toNat / Nat.pow 2 n.1 % 16 == n.2

end Template

/-- The template of an instruction. -/
def Mnemonic.template (m : Mnemonic) : Template :=
  ⟨m, patternFixed m.pattern.toList, patternFields m.pattern.toList⟩

/-- All templates, in table order. -/
def templates : List Template := Mnemonic.all.map Mnemonic.template

example : (Mnemonic.rand).template.fields = [⟨.register, 8, 4⟩, ⟨.immediate, 0, 8⟩] := by decide
example : (Mnemonic.spr).template.fixedMask = 0xF0FF ∧ (Mnemonic.spr).template.fixedBits = 0xF029 := by
  decide

end OctoAsm.Machine
