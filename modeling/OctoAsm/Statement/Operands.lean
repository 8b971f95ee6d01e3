/-
  Reading operands: registers, values, calc expressions and conditions.

  A calc expression has no precedence.  A unary operator takes everything after it, and a chain of
  binary operators nests to the right: `a - b - c` is `a - (b - c)`.  Every operator and every
  parenthesis goes one level deeper, and the number of levels is limited.
-/
import OctoAsm.Statement
import OctoAsm.Statement.Reader

namespace OctoAsm

open Reader

/-- A name. -/
def readName : Reader Token := expect .name "a name"

/-- A register, by number or by name. -/
def readRegister : Reader RegRef := do
  match ← peek with
  | some ⟨line, .register (.v n), text⟩ =>
    skip
    return .literal ⟨line, .register (.v n), text⟩ n
  | some ⟨line, .name, text⟩ =>
    skip
    return .named ⟨line, .name, text⟩
  | _ => refuse (.expected "a register")

/-- A number or a name, never a register. -/
def readValue : Reader ValueRef := do
  match ← peek with
  | some ⟨line, .number n, text⟩ =>
    skip
    return .number ⟨line, .number n, text⟩ n
  | some ⟨line, .name, text⟩ =>
    skip
    return .named ⟨line, .name, text⟩
  | some ⟨line, .constant c, text⟩ =>
    skip
    return .named ⟨line, .constant c, text⟩
  | _ => refuse (.expected "a number or name")

/-- A register by number, or else a number or a name. -/
def readRegisterOrValue : Reader ValueRef := do
  match ← peekKind with
  | some (.register (.v _)) => return .register (← readRegister)
  | _ => readValue

/-! ## Calc expressions -/

/-- The unary operation that an operator stands for at the start of an expression. -/
def unaryOp? : Operator → Option Calc.UnaryOp
  | .minus => some .neg
  | .tilde => some .not
  | .bang => some .logicalNot
  | .sin => some .sin
  | .cos => some .cos
  | .tan => some .tan
  | .exp => some .exp
  | .log => some .log
  | .abs => some .abs
  | .sqrt => some .sqrt
  | .sign => some .sign
  | .ceil => some .ceil
  | .floor => some .floor
  | .address => some .addressOf
  | .strlen => some .strlen
  | _ => none

/-- The binary operation that an operator stands for after a term. -/
def binaryOp? : Operator → Option Calc.BinaryOp
  | .plus => some .add
  | .minus => some .sub
  | .star => some .mul
  | .slash => some .div
  | .percent => some .rem
  | .amp => some .and
  | .pipe => some .or
  | .caret => some .xor
  | .shl => some .shl
  | .shr => some .shr
  | .pow => some .pow
  | .min => some .min
  | .max => some .max
  | .lt => some .lt
  | .gt => some .gt
  | .le => some .le
  | .ge => some .ge
  | .eq => some .eq
  | .ne => some .ne
  | _ => none

/-- The operator of a token, if it is one that `meaning?` knows. -/
def operatorAs {ω : Type} (meaning? : Operator → Option ω) : Option Token → Option (Token × ω)
  | some ⟨line, .operator op, text⟩ =>
    (meaning? op).map fun m => (⟨line, .operator op, text⟩, m)
  | _ => none

/-- The number of levels a calc expression may have. -/
def maxCalcDepth : Nat := 256

/-- A number, a name, a string, or an expression in parentheses. -/
def readCalcTerm (inner : Reader CalcExpr) : Reader CalcExpr := do
  let token ← take "an expression"
  match token.kind with
  | .number n => return .number token (Float.ofInt n)
  | .name | .constant _ => return .name token
  | .string => return .string token
  | .openParen =>
    let expr ← inner
    let _ ← expect .closeParen "`)`"
    return expr
  | _ => refuseAt token (.expected "a number, name or `(`")

/-- An expression of at most the given number of levels. -/
def readCalcLevels : Nat → Reader CalcExpr
  | 0 => refuse (.tooDeep maxCalcDepth)
  | levels + 1 => do
    match ← peek with
    | none => refuse (.expected "an expression")
    | some first =>
      match operatorAs unaryOp? (some first) with
      | some (token, op) =>
        skip
        return .unary token op (← readCalcLevels levels)
      | none =>
        let left ← readCalcTerm (readCalcLevels levels)
        match operatorAs binaryOp? (← peek) with
        | some (token, op) =>
          skip
          return .binary token op left (← readCalcLevels levels)
        | none => return left

/-- An expression between braces. -/
def readCalc : Reader CalcExpr := do
  let _ ← expect .openBrace "`\x7b`"
  let expr ← readCalcLevels maxCalcDepth
  let _ ← expect .closeBrace "`\x7d`"
  return expr

/-- A value, or an expression between braces. -/
def readOperand : Reader Operand := do
  match ← peekKind with
  | some .openBrace => return .braced (← readCalc)
  | _ => return .value (← readValue)

/-! ## Conditions -/

/-- A register, then `key`, `-key`, or a comparison with a value. -/
def readCondition : Reader Condition := do
  let reg ← readRegister
  let token ← take "a comparison"
  match token.kind with
  | .keyword .key => return .key reg true
  | .keyword .notKey => return .key reg false
  | .operator op =>
    match Comparison.ofOperator? op with
    | some comparison => return .compare reg comparison (← readRegisterOrValue)
    | none => refuseAt token (.expected "a comparison")
  | _ => refuseAt token (.expected "a comparison")

end OctoAsm
