/-
  An image under construction.

  The same items are gone through twice.  The first pass lays them out: it records where labels
  stand, and whatever needs a label further down is a placeholder.  The second pass emits the bytes
  with every label known.  The bytes of an item are as many in both passes, so the addresses of the
  first hold in the second.

  Addresses are kept in sixteen bits.
-/
import OctoAsm.Diagnostic
import OctoAsm.Image
import OctoAsm.Machine.Codec
import OctoAsm.Options

namespace OctoAsm

open Machine (Mnemonic Word EncodeError encode)

/-- Why a resolved program makes no image. -/
inductive EmitCause where
  | assertFailed (message : Option String)
  | orgMisaligned (target : Int)
  | orgBackward (current target : Int)
  | orgForward
  | overflow (value : Int) (bits : Nat)
  | notFinite
  | thenNotSingle (size : Nat)
  | programTooLarge (limit : Nat)
  | encode (cause : EncodeError)
deriving DecidableEq, Repr

/-- The cause as a diagnostic words it. -/
def EmitCause.describe : EmitCause → String
  | .assertFailed none => "assertion failed"
  | .assertFailed (some message) => "assertion failed: " ++ message
  | .orgMisaligned target => s!"target {Text.hexInt target} is not word aligned"
  | .orgBackward current target =>
    s!"cannot move back from {Text.hexInt current} to {Text.hexInt target}"
  | .orgForward => "target depends on a label that is not laid out yet"
  | .overflow value bits => s!"{value} does not fit in {bits} bits"
  | .notFinite => "calc result is not a finite number"
  | .thenNotSingle size =>
    s!"the statement after `then` must be one instruction, it takes {size} bytes"
  | .programTooLarge limit => s!"program does not fit below {Text.hex 1 limit}"
  | .encode cause => cause.message

/-- The two passes. -/
inductive Pass where
  | layout
  | emit
deriving DecidableEq, Repr

/-- Labels in the order of their first declarations, each with all addresses it was declared at. -/
abbrev LabelTable := List (String × List Nat)

/-- Records one more address of a label. -/
def LabelTable.add (name : String) (address : Nat) : LabelTable → LabelTable
  | [] => [(name, [address])]
  | (n, addresses) :: rest =>
    if n = name then (n, addresses ++ [address]) :: rest else (n, addresses) :: add name address rest

/-- A new address comes last. -/
theorem LabelTable.lookup_add_self (name : String) (address : Nat) (t : LabelTable) :
    (t.add name address).lookup name = some ((t.lookup name).getD [] ++ [address]) := by
  induction t with
  | nil => simp [add]
  | cons entry rest ih =>
    obtain ⟨n, addresses⟩ := entry
    by_cases h : n = name
    · simp [add, h]
    · have hne : (name == n) = false := by simpa using fun e => h e.symm
      simpa [add, h, List.lookup_cons, hne] using ih

/-- The other labels keep their addresses. -/
theorem LabelTable.lookup_add_of_ne {name other : String} (address : Nat) (t : LabelTable)
    (h : other ≠ name) : (t.add name address).lookup other = t.lookup other := by
  have hne : (other == name) = false := by simpa using h
  induction t with
  | nil => simp [add, List.lookup_cons, hne]
  | cons entry rest ih =>
    obtain ⟨n, addresses⟩ := entry
    by_cases hn : n = name
    · simp [add, hn, List.lookup_cons, hne]
    · simp [add, hn, List.lookup_cons, ih]

/-- An image under construction. -/
structure Draft where
  bytes : Array UInt8
  labels : LabelTable
  /-- newest first -/
  breakpoints : List (String × Nat)
  /-- newest first -/
  monitors : List Monitor
deriving DecidableEq, Repr

/-- Nothing laid out yet. -/
def Draft.empty : Draft := ⟨#[], [], [], []⟩

/-- One pass under given options. -/
structure Run where
  options : Options
  pass : Pass

namespace Run

variable (run : Run) (d : Draft)

/-- The address of the next byte. -/
def pc : Nat := run.options.origin + d.bytes.size

/-! ## Labels and values -/

/-- Records an address of a label; only the first pass does. -/
def mark (label : String) (address : Nat) : Draft :=
  match run.pass with
  | .layout => { d with labels := d.labels.add label (address % 0x10000) }
  | .emit => d

/-- Of the addresses of a label, in the order of their declarations: the last that is not beyond
    `pc`, else the first. -/
def nearest? (pc : Nat) (addresses : List Nat) : Option Nat :=
  (addresses.reverse.find? (· ≤ pc)).or addresses.head?

/-- The address that a label stands for here. -/
def address? (label : String) : Option Nat := (d.labels.lookup label).bind (nearest? (run.pc d))

/-- Every label of a value has an address. -/
def laidOut (imm : Imm) : Bool := imm.allLabels fun label => (d.labels.lookup label).isSome

/-- The value of an operand here.  A label without an address counts as zero, and so does an
    expression without a value in the first pass. -/
def eval : Imm → Except EmitCause Int
  | .number n => .ok n
  | .label name => .ok ((run.address? d name).getD 0)
  | .expr e =>
    let x := e.eval fun label => Float.ofNat ((run.address? d label).getD 0)
    match Calc.toInt? x, run.pass with
    | some n, _ => .ok n
    | none, .layout => .ok 0
    | none, .emit => .error .notFinite

/-- The low `bits` bits of a value. -/
def lowBits (value : Int) (bits : Nat) : Nat := (value % Nat.pow 2 bits).toNat

/-- A value in a field of `bits` bits; the second pass checks that it fits. -/
def field (value : Int) (bits : Nat) : Except EmitCause Word :=
  if run.pass = .emit ∧ Calc.fits value bits = false then .error (.overflow value bits)
  else .ok (UInt16.ofNat (lowBits value bits))

/-- Like `field`, for values that may not be negative. -/
def unsigned (value : Int) (bits : Nat) : Except EmitCause Nat :=
  if run.pass = .emit ∧ ¬ (0 ≤ value ∧ value < Nat.pow 2 bits) then .error (.overflow value bits)
  else .ok (lowBits value bits)

/-- An operand in a field of `bits` bits. -/
def imm (value : Imm) (bits : Nat) : Except EmitCause Word := do
  run.field (← run.eval d value) bits

/-! ## Bytes -/

/-- Appends a byte, if there is room for it. -/
def byte (b : UInt8) : Except EmitCause Draft :=
  if run.pc d < run.options.memoryEnd then .ok { d with bytes := d.bytes.push b }
  else .error (.programTooLarge run.options.memoryEnd)

/-- The high byte of a word. -/
def highByte (w : Word) : UInt8 := UInt8.ofNat (w.toNat / 256)

/-- The low byte of a word. -/
def lowByte (w : Word) : UInt8 := UInt8.ofNat w.toNat

/-- Appends a word, high byte first. -/
def word (w : Word) : Except EmitCause Draft := do
  let d ← run.byte d (highByte w)
  run.byte d (lowByte w)

/-- Encodes an instruction. -/
def encoded (m : Mnemonic) (operands : List Word) : Except EmitCause Word :=
  (encode m operands).mapError .encode

/-- Appends an instruction. -/
def op (m : Mnemonic) (operands : List Word) : Except EmitCause Draft := do
  run.word d (← encoded m operands)

/-- Appends instructions in a row. -/
def ops : Draft → List (Mnemonic × List Word) → Except EmitCause Draft
  | d, [] => .ok d
  | d, (m, operands) :: rest => do ops (← run.op d m operands) rest

/-- Appends a jump. -/
def jump (target : Nat) : Except EmitCause Draft := run.op d .jmpi [UInt16.ofNat target]

/-- Appends room for a jump whose target is not known yet. -/
def hole : Except EmitCause Draft := run.word d 0

/-- Puts a jump to the next address into the two bytes at `start`. -/
def patch (start : Nat) : Except EmitCause Draft := do
  let w ← encoded .jmpi [UInt16.ofNat (run.pc d)]
  return { d with
    bytes := (d.bytes.setIfInBounds start (highByte w)).setIfInBounds (start + 1) (lowByte w) }

/-- Appends zero bytes. -/
def zeros : Draft → Nat → Except EmitCause Draft
  | d, 0 => .ok d
  | d, n + 1 => do zeros (← run.byte d 0) n

end Run

end OctoAsm
