/-
  From tokens to statements.

  The forms that contain statements are written against a reader for the statements inside them, and
  the knot is tied over a nesting budget: a statement inside another begins at least one token later,
  so the number of tokens bounds the nesting.

  `if … then` may stand without a statement only as the last statement of a loop; the flag `inLoop`
  says that the statement being read stands directly in a loop's body.
-/
import OctoAsm.Statement.Assignments

namespace OctoAsm

open Reader

/-! ## Bodies -/

/-- The end of a block: one of the given keywords. -/
def blockEnd (ends : List Keyword) (what : String) : Reader (Option Keyword) := do
  skipNewlines
  match ← peekKind with
  | some (.keyword k) =>
    if k ∈ ends then
      skip
      return some k
    else return none
  | none | some .closeBrace => refuse (.expected what)
  | _ => return none

/-- Statements up to one of the given keywords, and that keyword. -/
def readBlock (ends : List Keyword) (what : String) (item : Reader Statement) :
    Reader (List Statement × Keyword) :=
  manyUntil (blockEnd ends what) item

/-- The end of a braced body. -/
def braceEnd : Reader (Option Unit) := do
  skipNewlines
  match ← peekKind with
  | some .closeBrace =>
    skip
    return some ()
  | none => refuse (.expected "`\x7d`")
  | _ => return none

/-- Statements between braces. -/
def readBraced (item : Reader Statement) : Reader (List Statement) := do
  let _ ← expect .openBrace "`\x7b`"
  let (body, _) ← manyUntil braceEnd item
  return body

/-! ## Directives -/

/-- The tag and value of an unpack; the tag may be missing. -/
def readUnpack (token : Token) : Reader Statement := do
  let first ← readValue
  let kind ← peekKind
  if atLineEnd kind || kind == some .closeBrace then
    return .simple (.unpack token none first)
  else
    return .simple (.unpack token (some first) (← readValue))

/-- The target and style of a monitor. -/
def readMonitor (token : Token) : Reader Statement := do
  let target ← readRegisterOrValue
  match ← peek with
  | some ⟨line, .number n, text⟩ =>
    skip
    return .simple (.monitor token target (.length ⟨line, .number n, text⟩ n))
  | some ⟨line, .string, text⟩ =>
    skip
    return .simple (.monitor token target (.format ⟨line, .string, text⟩))
  | _ => refuse (.expected "a length or format string")

/-- The name and target of an alias. -/
def readAlias (token : Token) : Reader Statement := do
  let name ← readName
  match ← peekKind with
  | some .openBrace => return .declaration (.aliasName token name (.braced (← readCalc)))
  | _ => return .declaration (.aliasName token name (.register (← readRegister)))

/-- The message, if there is one, and the expression of an assertion. -/
def readAssertion (token : Token) : Reader Statement := do
  match ← peek with
  | some ⟨line, .string, text⟩ =>
    skip
    return .simple (.assertion token (some ⟨line, .string, text⟩) (← readCalc))
  | _ => return .simple (.assertion token none (← readCalc))

/-- What follows the word of a directive, up to the end of its line.  The directive that labels the
    next statement is not among them: that statement ends itself. -/
def readDirectiveBody (item : Reader Statement) (token : Token) : Directive → Reader Statement
  | .label => return .label (← readName)
  | .aliasName => readAlias token
  | .call => return .simple (.callAddress token (← readValue))
  | .const => do
    let name ← readName
    return .declaration (.const token name (← readValue))
  | .unpack => readUnpack token
  | .next => do
    let name ← readName
    skipNewlines
    return .next token name (← item)
  | .org => return .simple (.org token (← readOperand))
  | .macroDef => do
    let name ← readName
    let params ← takeWhile (· == .name)
    return .macroDef token name params (← readBraced item)
  | .calcName => do
    let name ← readName
    return .declaration (.calcName token name (← readCalc))
  | .byte => return .simple (.byte token (← readOperand))
  | .pointer => return .simple (.pointer token (← readOperand))
  | .stringMode => do
    let name ← readName
    let alphabet ← expect .string "an alphabet string"
    return .stringMode token name alphabet (← readBraced item)
  | .assertion => readAssertion token
  | .breakpoint => return .simple (.breakpoint token (← readName))
  | .monitor => readMonitor token

/-- A directive, after its word. -/
def readDirective (item : Reader Statement) (token : Token) (word : Directive) :
    Reader Statement := do
  let statement ← readDirectiveBody item token word
  if word = .next then return statement
  else
    endOfLine
    return statement

/-! ## Control flow -/

/-- A statement cannot begin here. -/
def endsThen : Option TokenKind → Bool
  | none | some .closeBrace => true
  | some (.keyword k) => k == .again || k == .endWord || k == .elseWord
  | _ => false

/-- What follows the word `if`. -/
def readIf (item : Reader Statement) (token : Token) (inLoop : Bool) : Reader Statement := do
  let cond ← readCondition
  let keyword ← take "`then` or `begin`"
  match keyword.kind with
  | .keyword .thenWord =>
    skipNewlines
    let kind ← peekKind
    if inLoop && kind == some (.keyword .again) then return .breakIf token cond
    else if endsThen kind then refuseAt token .danglingIf
    else return .ifThen token cond (← item)
  | .keyword .beginWord =>
    let (body, ending) ← readBlock [.elseWord, .endWord] "`else` or `end`" item
    if ending = .elseWord then
      let (otherwise, _) ← readBlock [.endWord] "`end`" item
      return .ifElse token cond body otherwise
    else return .ifBegin token cond body
  | _ => refuseAt keyword (.expected "`then` or `begin`")

/-- What follows a keyword at the start of a statement. -/
def readKeyword (item : Bool → Reader Statement) (token : Token) (inLoop : Bool) :
    Keyword → Reader Statement
  | .ret => return .simple (.ret token)
  | .clear => return .simple (.clear token)
  | .bcd => return .simple (.bcd token (← readRegister))
  | .save => return .simple (.save token (← readRegister))
  | .load => return .simple (.load token (← readRegister))
  | .sprite => do
    let x ← readRegister
    let y ← readRegister
    return .simple (.sprite token x y (← readValue))
  | .jump => return .simple (.jump token (← readValue))
  | .jump0 => return .simple (.jumpOffset token (← readValue))
  | .ifWord => readIf (item false) token inLoop
  | .loop => do
    let (body, _) ← readBlock [.again] "`again`" (item true)
    return .loop token body
  | .whileWord => do
    let cond ← readCondition
    skipNewlines
    return .whileDo token cond (← item false)
  | _ => refuseAt token .unexpected

/-! ## Statements -/

/-- Tokens that may be arguments of an invocation: all up to the end of the line or a closing
    brace. -/
def isArgument (kind : TokenKind) : Bool := !(kind == .newline || kind == .closeBrace)

/-- A name that begins no assignment: an invocation, or a call if nothing follows. -/
def readInvocation (name : Token) : Reader Statement := do
  let args ← takeWhile isArgument
  if args.isEmpty then return .call name else return .invoke name args

/-- A statement, given a reader for the statements inside it. -/
def readStatementWith (item : Bool → Reader Statement) (inLoop : Bool) : Reader Statement
  | [] => .error (.refused none (.expected "a statement"))
  | token :: rest =>
    let ts := token :: rest
    match token.kind with
    | .directive word => readDirective (item false) token word rest
    | .keyword k => readKeyword item token inLoop k rest
    | .register _ =>
      if startsAssignment ts then (Statement.simple <$> .assign <$> readAssignment : Reader _) ts
      else (refuse (.expected "an assignment operator") : Reader _) rest
    | .name =>
      if startsAssignment ts then (Statement.simple <$> .assign <$> readAssignment : Reader _) ts
      else readInvocation token rest
    | .number n => .ok (.simple (.datum token n), rest)
    | _ => .error (.refused (some token) .unexpected)

/-- A statement that nests others no deeper than the budget. -/
def readStatement : Nat → Bool → Reader Statement
  | 0, _ => exhausted
  | budget + 1, inLoop => readStatementWith (readStatement budget) inLoop

/-- The end of a program: nothing but line feeds is left. -/
def programEnd : Reader (Option Unit) := do
  skipNewlines
  match ← peek with
  | none => return some ()
  | some _ => return none

/-- All statements of a program. -/
def readProgram : Reader (List Statement) := do
  let budget ← remaining
  let (program, _) ← manyUntil programEnd (readStatement (budget + 1) false)
  return program

/-- Where a reader stopped, as a diagnostic.  The end of the input lies on the last token's line. -/
def Stop.diagnose (tokens : List Token) : Stop → ParseError
  | .refused (some t) cause => ⟨t.line, t.describe, cause⟩
  | .refused none cause => ⟨(tokens.getLast?.map (·.line)).getD 1, "end of input", cause⟩
  | .exhausted => ⟨(tokens.getLast?.map (·.line)).getD 1, "end of input", .unexpected⟩

/-- The statements of a list of tokens. -/
def parse (tokens : List Token) : Except ParseError (List Statement) :=
  match readProgram tokens with
  | .ok (program, _) => .ok program
  | .error stop => .error (stop.diagnose tokens)

end OctoAsm
