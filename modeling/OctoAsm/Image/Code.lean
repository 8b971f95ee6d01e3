/-
  The machine code of instructions, conditions and the other items that hold no items.
-/
import OctoAsm.Image.Draft

namespace OctoAsm

open Machine (Mnemonic Word)

/-- A register as an operand. -/
def regWord (r : Fin 16) : Word := UInt16.ofNat r.val

namespace Run

variable (run : Run) (d : Draft)

/-- The instruction and operands of a resolved instruction. -/
def instrCode : Instr → Except EmitCause (Mnemonic × List Word)
  | .bare m => .ok (m, [])
  | .addr m target => return (m, [← run.imm d target 12])
  | .regImm m x value => return (m, [regWord x, ← run.imm d value 8])
  | .regReg m x y => .ok (m, [regWord x, regWord y])
  | .reg m x => .ok (m, [regWord x])
  | .draw x y height => return (.draw, [regWord x, regWord y, ← run.imm d height 4])

/-! ## Conditions -/

/-- The test of a key. -/
def keyCode (reg : Fin 16) (skipIfHeld : Bool) : List (Mnemonic × List Word) :=
  [(if skipIfHeld then .skeq else .skne, [regWord reg])]

/-- The test for equality. -/
def equalCode (reg : Fin 16) (rhs : CondRhs) (skipIfEqual : Bool) :
    Except EmitCause (List (Mnemonic × List Word)) :=
  match rhs with
  | .reg r => .ok [(if skipIfEqual then .seq else .sne, [regWord reg, regWord r])]
  | .imm value =>
    return [(if skipIfEqual then .seqi else .snei, [regWord reg, ← run.imm d value 8])]

/-- The test for order.  The flag register ends up 1 when the left side is at least the right side
    (for `<` and `>=`), or at most the right side (for `>` and `<=`). -/
def orderCode (reg : Fin 16) (op : Comparison) (rhs : CondRhs) (temp : Fin 16) (skipWhen : Bool) :
    Except EmitCause (List (Mnemonic × List Word)) := do
  let atLeast := op == .lt || op == .ge
  let difference ← match rhs with
    | .reg r =>
      if atLeast then
        pure [(Mnemonic.set, [regWord temp, regWord reg]), (.sub, [regWord temp, regWord r])]
      else pure [(Mnemonic.set, [regWord temp, regWord r]), (.sub, [regWord temp, regWord reg])]
    | .imm value => do
      let v ← run.imm d value 8
      pure [(Mnemonic.seti, [regWord temp, v]),
        (if atLeast then .rsub else .sub, [regWord temp, regWord reg])]
  let expected : Word := if op == .ge || op == .le then 1 else 0
  return difference ++ [(if skipWhen then .seqi else .snei, [0xF, expected])]

/-- Code that skips the next instruction exactly when the condition is `skipWhen`. -/
def skipCode (cond : Cond) (skipWhen : Bool) : Except EmitCause (List (Mnemonic × List Word)) :=
  match cond with
  | .key reg pressed => .ok (keyCode reg (pressed == skipWhen))
  | .compare reg op rhs temp =>
    match op with
    | .eq => run.equalCode d reg rhs skipWhen
    | .ne => run.equalCode d reg rhs !skipWhen
    | op => run.orderCode d reg op rhs temp skipWhen

/-- Appends code that skips the next instruction exactly when the condition is `skipWhen`. -/
def skip (cond : Cond) (skipWhen : Bool) : Except EmitCause Draft := do
  run.ops d (← run.skipCode d cond skipWhen)

/-! ## Items that hold no items -/

/-- Moves on to an address, over zero bytes. -/
def org (target : Imm) : Except EmitCause Draft :=
  if laidOut d target then do
    let goal ← run.eval d target
    if goal % 2 ≠ 0 then throw (.orgMisaligned goal)
    else if goal < run.pc d then throw (.orgBackward (run.pc d) goal)
    else run.zeros d (goal - run.pc d).toNat
  else .error .orgForward

/-- The high byte of an unpacked value.  A tag takes the high nibble, and then twelve bits are left
    for the value. -/
def unpackHigh (tag : Option Imm) (value : Int) : Except EmitCause Nat :=
  match tag with
  | some tag => do
    let t ← run.unsigned (← run.eval d tag) 4
    let v ← run.unsigned value 12
    return t * 16 + v / 256
  | none => return (← run.unsigned value 16) / 256

/-- Loads the two bytes of a value into two registers. -/
def unpack (hi lo : Fin 16) (tag : Option Imm) (value : Imm) : Except EmitCause Draft := do
  let v ← run.eval d value
  let high ← run.unpackHigh d tag v
  run.ops d [(.seti, [regWord hi, UInt16.ofNat high]),
    (.seti, [regWord lo, UInt16.ofNat (lowBits v 8)])]

/-- What a monitor watches, once labels have addresses. -/
def monitorBase : MonitorTarget → Except EmitCause MonitorBase
  | .register r => .ok (.register r)
  | .address value => return .address (← run.imm d value 12).toNat

/-- An assertion holds; only the second pass looks. -/
def check (message : Option String) (expr : Imm) : Except EmitCause Draft :=
  match run.pass with
  | .layout => .ok d
  | .emit => do
    if (← run.eval d expr) = 0 then throw (.assertFailed message) else return d

/-- Appends an item that holds no items. -/
def leaf : Leaf → Except EmitCause Draft
  | .instr i => do
    let (m, operands) ← run.instrCode d i
    run.op d m operands
  | .label name => .ok (run.mark d name (run.pc d))
  | .nextLabel name => .ok (run.mark d name (run.pc d + 1))
  | .org target => run.org d target
  | .unpack hi lo tag value => run.unpack d hi lo tag value
  | .byte value => do run.byte d (lowByte (← run.imm d value 8))
  | .pointer value => do run.word d (← run.imm d value 16)
  | .assertion message expr => run.check d message expr
  | .breakpoint name =>
    match run.pass with
    | .layout => .ok d
    | .emit => .ok { d with breakpoints := (name, run.pc d % 0x10000) :: d.breakpoints }
  | .monitor target format =>
    match run.pass with
    | .layout => .ok d
    | .emit => do
      let base ← run.monitorBase d target
      return { d with monitors := ⟨base, format⟩ :: d.monitors }

end Run

end OctoAsm
