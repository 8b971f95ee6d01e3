/-
  Statements that stand alone: each becomes one item, given the names bound so far and the
  expansions around it.  Nothing here changes a name.
-/
import OctoAsm.Resolve.Values

namespace OctoAsm

open Machine (Mnemonic)

/-- The instruction of an operation between registers. -/
def RegOp.mnemonic : RegOp → Mnemonic
  | .set => .set
  | .or => .or
  | .and => .and
  | .xor => .xor
  | .add => .add
  | .sub => .sub
  | .shr => .rsh
  | .revSub => .rsub
  | .shl => .lsh

/-- The two's complement of a byte.  What waits for a label is negated as an expression. -/
def Imm.negate : Imm → Imm
  | .number n => .number ((256 - n % 256) % 256)
  | .label name => deferred (.address name)
  | .expr e => deferred e
where
  /-- `(256 - e) & 255` -/
  deferred (e : Expr) : Imm :=
    .expr (.binary .and (.binary .sub (.number 256.0) e) (.number 255.0))

/-- An operation between a register and a value; subtracting adds the two's complement. -/
def ImmOp.instr (dst : Fin 16) (op : ImmOp) (value : Imm) : Instr :=
  match op with
  | .set => .regImm .seti dst value
  | .add => .regImm .addi dst value
  | .sub => .regImm .addi dst value.negate

/-- A comparison that needs the scratch register. -/
def Comparison.isRelational : Comparison → Bool
  | .eq | .ne => false
  | _ => true

/-- A right-hand side that is the given register. -/
def CondRhs.isReg (r : Fin 16) : CondRhs → Bool
  | .reg r' => r' == r
  | .imm _ => false

namespace Env

/-- The instruction of an assignment, with the assignment's token. -/
def assignment (env : Env) : Assignment → Except ResolveError (Token × Instr)
  | .delaySet token src => return (token, .reg .dly (← env.register src))
  | .buzzerSet token src => return (token, .reg .snd (← env.register src))
  | .delayGet token dst => return (token, .reg .dcpy (← env.register dst))
  | .keyInput token dst => return (token, .reg .inp (← env.register dst))
  | .random token dst mask => do
    let r ← env.register dst
    return (token, .regImm .rand r (← env.imm 8 mask))
  | .indexSet token value => return (token, .addr .sto (← env.imm 12 value))
  | .indexAdd token src => return (token, .reg .addm (← env.register src))
  | .charSprite token src => return (token, .reg .spr (← env.register src))
  | .register token dst op src => do
    let x ← env.register dst
    return (token, .regReg op.mnemonic x (← env.register src))
  | .immediate token dst op value => do
    let x ← env.register dst
    return (token, op.instr x (← env.imm 8 value))
  | .ambiguous token dst op src => do
    let x ← env.register dst
    match ← env.register? src with
    | some y => return (token, .regReg op.toRegOp.mnemonic x y)
    | none => return (token, op.instr x (← env.imm 8 (.named src)))

/-- The target of a monitor. -/
def monitorTarget (env : Env) : ValueRef → Except ResolveError MonitorTarget
  | .register reg => return .register (← env.register reg)
  | .named name => do
    match ← env.register? name with
    | some r => return .register r
    | none => return .address (← env.imm 12 (.named name))
  | .number token n => return .address (← env.imm 12 (.number token n))

/-- A monitor's style without its token. -/
def monitorFormat : MonitorStyle → MonitorFormat
  | .length _ n => .length n
  | .format token => .format token.text

/-- A statement that stands alone, with its token. -/
def simple (env : Env) : Simple → Except ResolveError (Token × Leaf)
  | .ret token => return (token, .instr (.bare .ret))
  | .clear token => return (token, .instr (.bare .clr))
  | .bcd token reg => return (token, .instr (.reg .bcd (← env.register reg)))
  | .save token reg => return (token, .instr (.reg .save (← env.register reg)))
  | .load token reg => return (token, .instr (.reg .ld (← env.register reg)))
  | .sprite token x y height => do
    let rx ← env.register x
    let ry ← env.register y
    return (token, .instr (.draw rx ry (← env.imm 4 height)))
  | .jump token target => return (token, .instr (.addr .jmpi (← env.imm 12 target)))
  | .jumpOffset token target => return (token, .instr (.addr .jmpa (← env.imm 12 target)))
  | .datum token n => return (token, .byte (← inRange token 8 (.number n)))
  | .assign assignment => do
    let (token, instr) ← env.assignment assignment
    return (token, .instr instr)
  | .callAddress token target => return (token, .instr (.addr .call (← env.imm 12 target)))
  | .unpack token tag value => do
    let tag ← tag.mapM (env.imm 4)
    let value ← env.imm 16 value
    return (token, .unpack (env.hook "unpack-hi" 0) (env.hook "unpack-lo" 1) tag value)
  | .org token target => return (token, .org (← env.operand 16 target))
  | .byte token value => return (token, .byte (← env.operand 8 value))
  | .pointer token value => return (token, .pointer (← env.operand 16 value))
  | .assertion token message expr =>
    return (token, .assertion (message.map (·.text)) (← env.calcImm expr))
  | .breakpoint token name => do
    let name ← env.declaredName name
    return (token, .breakpoint name.text)
  | .monitor token target style => do
    return (token, .monitor (← env.monitorTarget target) (monitorFormat style))

/-! ## Conditions -/

/-- The right-hand side of a comparison. -/
def condRhs (env : Env) : ValueRef → Except ResolveError CondRhs
  | .register reg => return .reg (← env.register reg)
  | .named name => do
    match ← env.register? name with
    | some r => return .reg r
    | none => return .imm (← env.imm 8 (.named name))
  | .number token n => return .imm (← env.imm 8 (.number token n))

/-- A condition.  The scratch register may not be compared itself. -/
def condition (env : Env) : Condition → Except ResolveError Cond
  | .key reg pressed => return .key (← env.register reg) pressed
  | .compare reg op rhs => do
    let r ← env.register reg
    let rhs ← env.condRhs rhs
    let temp := env.hook "compare-temp" 0xF
    if op.isRelational && (r == temp || rhs.isReg temp) then
      throw (reg.token.blame (.compareTemp temp))
    else return .compare r op rhs temp

/-! ## Declarations of values -/

/-- What an alias stands for. -/
def aliasBinding (env : Env) : AliasTarget → Except ResolveError Binding
  | .register reg => return .register (← env.register reg)
  | .braced e => do
    match ← env.calcImm e with
    | .number n =>
      if h : 0 ≤ n ∧ n < 16 then return .registerConst ⟨n.toNat, by omega⟩
      else throw (e.token.blame (.registerOutOfRange n))
    | _ => throw (e.token.blame .notConstant)

/-- The name and the binding of a declaration. -/
def declaration (env : Env) : Declaration → Except ResolveError (Token × Binding)
  | .aliasName _ name target => do
    let name ← env.declaredName name
    return (name, ← env.aliasBinding target)
  | .const _ name value => do
    let name ← env.declaredName name
    match ← env.value value with
    | .number n => return (name, .const n)
    | _ => throw (value.token.blame .notConstant)
  | .calcName _ name expr => do
    let name ← env.declaredName name
    let (e, depth) ← env.bounded expr
    return (name, .calcName e depth)

end Env

end OctoAsm
