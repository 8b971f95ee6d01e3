/-
  What registers, values and calc expressions stand for, given the names bound so far and the
  expansions around them.

  Expressions are folded: a part that needs no label becomes a number at once, so an expression that
  is kept depends on a label in every operation.  Its depth is carried along and limited, also across
  the calc names it is built from.
-/
import OctoAsm.Resolve.Error
import OctoAsm.Statement.Operands

namespace OctoAsm

/-- What a statement sees: the names bound so far and the expansions around it. -/
structure Env where
  names : NameTable
  scope : Scope

namespace Env

/-- What a token stands for after the arguments of the expansions are put in. -/
def substitute (env : Env) (token : Token) : Except ResolveError Token :=
  match env.scope.substitute token with
  | .ok t => .ok t
  | .error e => .error (e.token.blame (.reserved e.cause))

/-- A name about to be declared. -/
def declaredName (env : Env) (token : Token) : Except ResolveError Token := do
  let name ← env.substitute token
  match name.kind with
  | .name => return name
  | kind => throw (name.blame (.expectedName (.token kind)))

/-! ## Registers -/

/-- The register that a substituted token stands for, if it stands for one. -/
def registerOf? (env : Env) (token : Token) : Option (Fin 16) :=
  match token.kind with
  | .register (.v n) => some n
  | .name => (env.names.get? token.text).bind Binding.register?
  | _ => none

/-- The register that a token stands for, if it stands for one. -/
def register? (env : Env) (token : Token) : Except ResolveError (Option (Fin 16)) := do
  return env.registerOf? (← env.substitute token)

/-- The register of a register operand. -/
def register (env : Env) : RegRef → Except ResolveError (Fin 16)
  | .literal _ n => .ok n
  | .named name => do
    let token ← env.substitute name
    match env.registerOf? token with
    | some n => return n
    | none =>
      match token.kind, env.names.get? token.text with
      | .name, some binding => throw (token.blame (.expectedRegister (.name binding.kind)))
      | .name, none => throw (token.blame .undeclared)
      | kind, _ => throw (token.blame (.expectedRegister (.token kind)))

/-- The register that a program may choose by binding a name, else the usual one. -/
def hook (env : Env) (name : String) (usual : Fin 16) : Fin 16 :=
  ((env.names.get? name).bind Binding.register?).getD usual

/-! ## Calc expressions -/

/-- The value of an expression: a number at once, if it needs no label. -/
def immOf (token : Token) : Expr → Except ResolveError Imm
  | .number x =>
    match Calc.toInt? x with
    | some n => .ok (.number n)
    | none => .error (token.blame .notFinite)
  | e => .ok (.expr e)

/-- A name in a calc expression, with the depth of what it stands for. -/
def calcName (env : Env) (name : Token) : Except ResolveError (Expr × Nat) := do
  let token ← env.substitute name
  match token.kind with
  | .number n => return (.number (Float.ofInt n), 0)
  | .constant (.key value) => return (.number (Float.ofNat value), 0)
  | .register _ => throw (token.blame .registerInCalc)
  | .string => throw (token.blame .strayString)
  | .name =>
    match env.names.get? token.text with
    | some (.const n) => return (.number (Float.ofInt n), 0)
    | some (.calcName e depth) => return (e, depth)
    | some (.label _) => throw (token.blame .bareLabel)
    | some (.register _) | some (.registerConst _) => throw (token.blame .registerInCalc)
    | some other => throw (token.blame (.expectedValue (.name other.kind)))
    | none => throw (token.blame .undeclared)
  | kind => throw (token.blame (.expectedValue (.token kind)))

/-- The operand of `@`. -/
def addressOf (env : Env) (token : Token) : CalcExpr → Except ResolveError (Expr × Nat)
  | .name name => do
    let label ← env.substitute name
    match label.kind, env.names.get? label.text with
    | .name, some (.label _) => return (.address label.text, 0)
    | .name, none => throw (label.blame .undeclared)
    | _, _ => throw (label.blame .addressOfNonLabel)
  | _ => throw (token.blame .addressOfNonLabel)

/-- The number of characters of a string token. -/
def lengthOf (token : Token) : Except ResolveError (Expr × Nat) :=
  if token.kind = .string then .ok (.number (Float.ofNat token.text.length), 0)
  else .error (token.blame .strlenNonString)

/-- The operand of `strlen`. -/
def strlen (env : Env) (token : Token) : CalcExpr → Except ResolveError (Expr × Nat)
  | .string s => lengthOf s
  | .name name => do lengthOf (← env.substitute name)
  | _ => throw (token.blame .strlenNonString)

/-- A unary operation, done at once on a number. -/
def foldUnary (op : Calc.UnaryOp) : Expr × Nat → Expr × Nat
  | (.number x, _) => (.number (op.apply x), 0)
  | (e, depth) => (.unary op e, depth + 1)

/-- A binary operation, done at once on two numbers. -/
def foldBinary (op : Calc.BinaryOp) : Expr × Nat → Expr × Nat → Expr × Nat
  | (.number x, _), (.number y, _) => (.number (op.apply x y), 0)
  | (a, da), (b, db) => (.binary op a b, max da db + 1)

/-- Resolves the names of an expression and does every operation that needs no label; gives the
    result and its depth. -/
def fold (env : Env) : CalcExpr → Except ResolveError (Expr × Nat)
  | .number _ x => .ok (.number x, 0)
  | .string token => .error (token.blame .strayString)
  | .name token => env.calcName token
  | .unary token op operand =>
    match op with
    | .addressOf => env.addressOf token operand
    | .strlen => env.strlen token operand
    | op => return foldUnary op (← fold env operand)
  | .binary _ op left right => do
    let a ← fold env left
    let b ← fold env right
    return foldBinary op a b

/-- Like `fold`, within the limit on the depth. -/
def bounded (env : Env) (e : CalcExpr) : Except ResolveError (Expr × Nat) := do
  let (result, depth) ← env.fold e
  if depth ≤ maxCalcDepth then return (result, depth)
  else throw (e.token.blame (.calcTooDeep maxCalcDepth))

/-- The value of an expression between braces. -/
def calcImm (env : Env) (e : CalcExpr) : Except ResolveError Imm := do
  let (result, _) ← env.bounded e
  immOf e.token result

/-! ## Values -/

/-- What a value operand stands for. -/
def value (env : Env) : ValueRef → Except ResolveError Imm
  | .number _ n => .ok (.number n)
  | .register reg => .error (reg.token.blame (.expectedValue (.token reg.token.kind)))
  | .named name => do
    let token ← env.substitute name
    match token.kind with
    | .number n => return .number n
    | .constant (.key _) => throw (token.blame .outsideCalc)
    | .name =>
      match env.names.get? token.text with
      | some (.label _) => return .label token.text
      | some (.const n) => return .number n
      | some (.calcName e _) => immOf token e
      | some other => throw (token.blame (.expectedValue (.name other.kind)))
      | none => throw (token.blame .undeclared)
    | kind => throw (token.blame (.expectedValue (.token kind)))

/-- A number that is known already must fit its field; all else is checked once labels have
    addresses. -/
def inRange (token : Token) (bits : Nat) : Imm → Except ResolveError Imm
  | .number n =>
    if Calc.fits n bits then .ok (.number n) else .error (token.blame (.outOfRange n bits))
  | imm => .ok imm

/-- A value for a field of `bits` bits. -/
def imm (env : Env) (bits : Nat) (v : ValueRef) : Except ResolveError Imm := do
  inRange v.token bits (← env.value v)

/-- A directive's argument for a field of `bits` bits. -/
def operand (env : Env) (bits : Nat) : Operand → Except ResolveError Imm
  | .value v => env.imm bits v
  | .braced e => do inRange e.token bits (← env.calcImm e)

end Env

end OctoAsm
