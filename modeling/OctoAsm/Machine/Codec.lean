/-
  Words and instructions: packing operands into the fields of a template, finding the template that
  a word belongs to, and the one-line form of a decoded instruction.
-/
import OctoAsm.Machine.Template
import OctoAsm.Text.Numeral

namespace OctoAsm.Machine

/-- Why operands make no word. -/
inductive EncodeError where
  | operandCount (mnemonic : Mnemonic) (expected got : Nat)
  | overflow (mnemonic : Mnemonic) (value : Word) (bits : Nat)
deriving DecidableEq, Repr

/-- The error as a diagnostic words it. -/
def EncodeError.message : EncodeError → String
  | .operandCount m expected got => s!"{m.name} takes {expected} operands, got {got}"
  | .overflow m value bits =>
    s!"operand {Text.hex 1 value.toNat} of {m.name} does not fit in {bits} bits"

/-- Adds operands to a word under construction, each at the place of its field. -/
def packFields (m : Mnemonic) : List Field → List Word → Nat → Except EncodeError Nat
  | f :: fields, v :: values, word =>
    if v.toNat < f.capacity then packFields m fields values (word + v.toNat * f.weight)
    else .error (.overflow m v f.bits)
  | _, _, word => .ok word

/-- The word of an instruction with the given operands. -/
def encode (m : Mnemonic) (operands : List Word) : Except EncodeError Word :=
  let t := m.template
  if t.fields.length = operands.length then
    (packFields m t.fields operands t.fixedBits).map UInt16.ofNat
  else .error (.operandCount m t.fields.length operands.length)

/-- A decoded instruction. -/
structure Instruction where
  mnemonic : Mnemonic
  operands : List Word
deriving DecidableEq, Repr

/-- An operand as the listing shows it: registers by number, immediates at the width of the field. -/
def Field.render (f : Field) (value : Word) : String :=
  match f.kind with
  | .immediate => "0x" ++ Text.upperHexDigits (f.bits / 4) value.toNat
  | _ => "v" ++ Text.upperHexDigits 1 value.toNat

/-- The one-line form: the name, then the operands separated by commas. -/
def Instruction.render (i : Instruction) : String :=
  let operands := List.zipWith Field.render i.mnemonic.template.fields i.operands
  if operands.isEmpty then i.mnemonic.name
  else i.mnemonic.name ++ " " ++ ", ".intercalate operands

/-- A word that belongs to no instruction. -/
structure DecodeError where
  word : Word
deriving DecidableEq, Repr

/-- The error as a diagnostic words it. -/
def DecodeError.message (e : DecodeError) : String :=
  Text.hex 4 e.word.toNat ++ " matches no instruction"

/-- Of two templates the one with more fixed nibbles; the later one if they have the same number. -/
def moreSpecific (best : Option Template) (t : Template) : Option Template :=
  match best with
  | some b => if b.fixed.length ≤ t.fixed.length then some t else some b
  | none => some t

/-- The most specific template that admits a word. -/
def templateOf? (word : Word) : Option Template :=
  (templates.filter (·.admits word)).foldl moreSpecific none

/-- The instruction of a word. -/
def decode (word : Word) : Except DecodeError Instruction :=
  match templateOf? word with
  | some t => .ok ⟨t.mnemonic, t.fields.map (·.extract word)⟩
  | none => .error ⟨word⟩

example : encode .draw [1, 2, 15] = .ok 0xD12F := rfl
example : (Instruction.mk .seti [10, 10]).render = "SETI vA, 0x0A" := by decide

end OctoAsm.Machine
