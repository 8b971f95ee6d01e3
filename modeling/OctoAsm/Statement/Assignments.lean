/-
  Reading assignments.  The target decides which operators and sources are allowed; a name as a
  source stays open between a register and a value where both would do.
-/
import OctoAsm.Statement.Operands

namespace OctoAsm

open Reader

/-- The source of an assignment to a register. -/
def readRegisterSource (token : Token) (dst : RegRef) (op : Operator) (opToken : Token) :
    Reader Assignment := do
  match ← peek with
  | none => refuse (.expected "a register or value")
  | some src =>
    match op, src.kind with
    | .assign, .keyword .key =>
      skip
      return .keyInput token dst
    | .assign, .register .delay =>
      skip
      return .delayGet token dst
    | .assign, .keyword .random =>
      skip
      return .random token dst (← readValue)
    | op, .register (.v n) =>
      skip
      match RegOp.ofOperator? op with
      | some regOp => return .register token dst regOp (.literal src n)
      | none => refuseAt opToken (.expected "an assignment operator")
    | op, .number _ | op, .constant _ =>
      match ImmOp.ofOperator? op with
      | some immOp => return .immediate token dst immOp (← readValue)
      | none => refuseAt opToken (.expected "a register operand")
    | op, .name =>
      skip
      match ImmOp.ofOperator? op, RegOp.ofOperator? op with
      | some immOp, _ => return .ambiguous token dst immOp src
      | none, some regOp => return .register token dst regOp (.named src)
      | none, none => refuseAt opToken (.expected "an assignment operator")
    | _, _ => refuse (.expected "a register or value")

/-- An assignment, from its target on. -/
def readAssignment : Reader Assignment := do
  let token ← take "a register"
  let opToken ← take "an assignment operator"
  let op ← match opToken.kind with
    | .operator op =>
      if op.isAssignment then pure op
      else refuseAt opToken (.expected "an assignment operator")
    | _ => refuseAt opToken (.expected "an assignment operator")
  match token.kind with
  | .register .delay =>
    if op = .assign then return .delaySet token (← readRegister)
    else refuseAt opToken (.expected "`:=`")
  | .register .buzzer =>
    if op = .assign then return .buzzerSet token (← readRegister)
    else refuseAt opToken (.expected "`:=`")
  | .register .i =>
    match op, ← peekKind with
    | .assign, some (.keyword .hex) =>
      skip
      return .charSprite token (← readRegister)
    | .assign, _ => return .indexSet token (← readValue)
    | .addAssign, _ => return .indexAdd token (← readRegister)
    | _, _ => refuseAt opToken (.expected "`:=` or `+=`")
  | .register (.v n) => readRegisterSource token (.literal token n) op opToken
  | _ => readRegisterSource token (.named token) op opToken

/-- The token after the first makes the statement an assignment.  The comparisons are among them, to
    be refused as assignments. -/
def startsAssignment : List Token → Bool
  | _ :: ⟨_, .operator op, _⟩ :: _ => op.isAssignment || op == .eq || op == .ne
  | _ => false

end OctoAsm
