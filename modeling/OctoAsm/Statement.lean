/-
  Statements as written.  Names are unresolved here: a name in a register's place may turn out to be
  an alias, a macro argument or an error, which only the declarations around it tell.

  Statements fall into three groups.  A `Simple` statement becomes one item of the program and
  declares nothing; a `Declaration` binds a name and leaves nothing in the program; the others
  contain statements, bind bodies, or stand for an expansion.
-/
import OctoAsm.Calc.Operator
import OctoAsm.Token

namespace OctoAsm

/-! ## Operands -/

/-- A register, by number or by name. -/
inductive RegRef where
  | literal (token : Token) (index : Fin 16)
  /-- an alias, a macro argument or a register constant -/
  | named (token : Token)
deriving DecidableEq, Repr

/-- The token of a register. -/
def RegRef.token : RegRef → Token
  | .literal t _ | .named t => t

/-- A number, a register, or a name for either. -/
inductive ValueRef where
  | number (token : Token) (value : Int)
  | register (reg : RegRef)
  /-- a label, constant, calc name, macro argument or reserved constant -/
  | named (token : Token)
deriving DecidableEq, Repr

/-- The token of a value. -/
def ValueRef.token : ValueRef → Token
  | .number t _ | .named t => t
  | .register r => r.token

/-- An expression between braces. -/
inductive CalcExpr where
  | number (token : Token) (value : Float)
  /-- a name or a reserved constant -/
  | name (token : Token)
  /-- only meaningful under `strlen` -/
  | string (token : Token)
  | unary (token : Token) (op : Calc.UnaryOp) (operand : CalcExpr)
  | binary (token : Token) (op : Calc.BinaryOp) (left right : CalcExpr)

/-- The token of an expression: of an operation, the operator's. -/
def CalcExpr.token : CalcExpr → Token
  | .number t _ | .name t | .string t | .unary t _ _ | .binary t _ _ _ => t

/-- The argument of a directive: a value, or an expression between braces. -/
inductive Operand where
  | value (value : ValueRef)
  | braced (expr : CalcExpr)

/-- Comparisons of conditions. -/
inductive Comparison where
  | eq | ne | lt | gt | le | ge
deriving DecidableEq, Repr

/-- The comparison of an operator. -/
def Comparison.ofOperator? : Operator → Option Comparison
  | .eq => some .eq
  | .ne => some .ne
  | .lt => some .lt
  | .gt => some .gt
  | .le => some .le
  | .ge => some .ge
  | _ => none

/-- A condition as written. -/
inductive Condition where
  /-- `vx key`, or `vx -key` when `pressed` is false -/
  | key (reg : RegRef) (pressed : Bool)
  | compare (reg : RegRef) (op : Comparison) (rhs : ValueRef)
deriving DecidableEq, Repr

/-! ## Assignments -/

/-- Operations between two registers. -/
inductive RegOp where
  | set | or | and | xor | add | sub | shr
  /-- `=-` -/
  | revSub
  | shl
deriving DecidableEq, Repr

/-- The operation between registers that an assignment operator stands for. -/
def RegOp.ofOperator? : Operator → Option RegOp
  | .assign => some .set
  | .orAssign => some .or
  | .andAssign => some .and
  | .xorAssign => some .xor
  | .addAssign => some .add
  | .subAssign => some .sub
  | .shrAssign => some .shr
  | .revSubAssign => some .revSub
  | .shlAssign => some .shl
  | _ => none

/-- Operations between a register and a value. -/
inductive ImmOp where
  | set | add | sub
deriving DecidableEq, Repr

/-- The operation with a value that an assignment operator stands for. -/
def ImmOp.ofOperator? : Operator → Option ImmOp
  | .assign => some .set
  | .addAssign => some .add
  | .subAssign => some .sub
  | _ => none

/-- The same operation between registers. -/
def ImmOp.toRegOp : ImmOp → RegOp
  | .set => .set
  | .add => .add
  | .sub => .sub

/-- Assignments; `token` is the target's. -/
inductive Assignment where
  /-- `delay := vx` -/
  | delaySet (token : Token) (src : RegRef)
  /-- `buzzer := vx` -/
  | buzzerSet (token : Token) (src : RegRef)
  /-- `vx := delay` -/
  | delayGet (token : Token) (dst : RegRef)
  /-- `vx := key` -/
  | keyInput (token : Token) (dst : RegRef)
  /-- `vx := random mask` -/
  | random (token : Token) (dst : RegRef) (mask : ValueRef)
  /-- `i := value` -/
  | indexSet (token : Token) (value : ValueRef)
  /-- `i += vx` -/
  | indexAdd (token : Token) (src : RegRef)
  /-- `i := hex vx` -/
  | charSprite (token : Token) (src : RegRef)
  | register (token : Token) (dst : RegRef) (op : RegOp) (src : RegRef)
  | immediate (token : Token) (dst : RegRef) (op : ImmOp) (value : ValueRef)
  /-- `vx op name`, where the name may stand for a register or for a value -/
  | ambiguous (token : Token) (dst : RegRef) (op : ImmOp) (src : Token)

/-! ## Statements -/

/-- How a monitor shows its target. -/
inductive MonitorStyle where
  /-- a number of bytes -/
  | length (token : Token) (count : Int)
  /-- a format string -/
  | format (token : Token)
deriving DecidableEq, Repr

/-- Statements that become exactly one item of the program and declare nothing. -/
inductive Simple where
  /-- `return` or `;` -/
  | ret (token : Token)
  | clear (token : Token)
  | bcd (token : Token) (reg : RegRef)
  | save (token : Token) (reg : RegRef)
  | load (token : Token) (reg : RegRef)
  | sprite (token : Token) (x y : RegRef) (height : ValueRef)
  | jump (token : Token) (target : ValueRef)
  /-- jump to an address plus `v0` -/
  | jumpOffset (token : Token) (target : ValueRef)
  /-- a bare number, one byte of data -/
  | datum (token : Token) (value : Int)
  | assign (assignment : Assignment)
  /-- `:call target` -/
  | callAddress (token : Token) (target : ValueRef)
  /-- `:unpack [tag] value` -/
  | unpack (token : Token) (tag : Option ValueRef) (value : ValueRef)
  | org (token : Token) (target : Operand)
  | byte (token : Token) (value : Operand)
  | pointer (token : Token) (value : Operand)
  | assertion (token : Token) (message : Option Token) (expr : CalcExpr)
  | breakpoint (token : Token) (name : Token)
  | monitor (token : Token) (target : ValueRef) (style : MonitorStyle)

/-- What an alias stands for. -/
inductive AliasTarget where
  | register (reg : RegRef)
  | braced (expr : CalcExpr)

/-- Statements that bind a name to a value and leave nothing in the program. -/
inductive Declaration where
  | aliasName (token : Token) (name : Token) (target : AliasTarget)
  | const (token : Token) (name : Token) (value : ValueRef)
  | calcName (token : Token) (name : Token) (expr : CalcExpr)

/-- Statements. -/
inductive Statement where
  | simple (s : Simple)
  | declaration (d : Declaration)
  /-- `: name` -/
  | label (name : Token)
  /-- `:next name statement`: the name labels the second byte of the statement -/
  | next (token : Token) (name : Token) (statement : Statement)
  | macroDef (token : Token) (name : Token) (params : List Token) (body : List Statement)
  | stringMode (token : Token) (name : Token) (alphabet : Token) (body : List Statement)
  /-- `name arg arg …` -/
  | invoke (name : Token) (args : List Token)
  /-- a name alone: a subroutine call, or a macro without arguments -/
  | call (name : Token)
  /-- `if cond then statement` -/
  | ifThen (token : Token) (cond : Condition) (body : Statement)
  /-- `if cond then` right before `again`: leaves the loop -/
  | breakIf (token : Token) (cond : Condition)
  /-- `if cond begin … end` -/
  | ifBegin (token : Token) (cond : Condition) (body : List Statement)
  /-- `if cond begin … else … end` -/
  | ifElse (token : Token) (cond : Condition) (body otherwise : List Statement)
  /-- `loop … again` -/
  | loop (token : Token) (body : List Statement)
  /-- `while cond statement` -/
  | whileDo (token : Token) (cond : Condition) (body : Statement)

end OctoAsm
