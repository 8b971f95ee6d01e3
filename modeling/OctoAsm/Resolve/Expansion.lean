/-
  Resolving statements and expanding macros.

  Statements are walked in order.  Bodies of macros come from the names, not from the statement being
  walked, so the walk is written against an expander for them, and the knot is tied over the number
  of expansions that may still be nested.  The frames of the scope and that number add up to the
  limit.
-/
import OctoAsm.Options
import OctoAsm.Resolve.State

namespace OctoAsm

open Machine (Mnemonic)

/-- Resolves a body in the scope of an invocation extended by a frame; the token is blamed if
    expansions nest too deeply. -/
abbrev Expander := Token → Frame → Scope → List Statement → Resolver (List Item)

/-! ## Invocations -/

/-- The rule that covers a character, and the position of the character in its alphabet. -/
def coveringRule? (rules : List CharRule) (c : Char) : Option (CharRule × Nat) :=
  rules.findSome? fun r => (r.alphabet.text.toList.idxOf? c).map fun v => (r, v)

/-- Expands a stringmode for the characters of a string, from position `index` on. -/
def expandChars (expand : Expander) (scope : Scope) (name text : Token) (rules : List CharRule)
    (calls : Int) : Nat → List Char → Resolver (List Item)
  | _, [] => return []
  | index, c :: cs => do
    match coveringRule? rules c with
    | none => Resolver.fail (text.blame (.uncoveredChar c))
    | some (rule, value) =>
      let chars := CharValues.mk c.toNat index value
      let items ← expand name ⟨[], calls, some chars⟩ scope rule.body
      let rest ← expandChars expand scope name text rules calls (index + 1) cs
      return items ++ rest

/-- Expands a stringmode: its one argument must be a string. -/
def expandStringMode (expand : Expander) (scope : Scope) (name : Token) (rules : List CharRule) :
    List Token → Resolver (List Item)
  | [arg] => do
    let text ← Resolver.look scope (·.substitute arg)
    if text.kind = .string then
      let calls ← Resolver.startCall name.text
      expandChars expand scope name text rules calls 0 text.text.toList
    else Resolver.fail (text.blame (.expectedString (.token text.kind)))
  | args => Resolver.fail (name.blame (.arityMismatch 1 args.length))

/-- Expands a macro: one argument for each parameter. -/
def expandMacro (expand : Expander) (scope : Scope) (name : Token) (params : List Token)
    (body : List Statement) (args : List Token) : Resolver (List Item) := do
  if args.length = params.length then
    let calls ← Resolver.startCall name.text
    expand name ⟨(params.map (·.text)).zip args, calls, none⟩ scope body
  else Resolver.fail (name.blame (.arityMismatch params.length args.length))

/-- A name with its arguments: a macro or a stringmode. -/
def resolveInvocation (expand : Expander) (scope : Scope) (name : Token) (args : List Token) :
    Resolver (List Item) := do
  let name ← Resolver.look scope (·.substitute name)
  if name.kind = .name then
    match (← get).names.get? name.text with
    | some (.macroDef params body) => expandMacro expand scope name params body args
    | some (.stringMode rules) => expandStringMode expand scope name rules args
    | some other => Resolver.fail (name.blame (.notAMacro (.name other.kind)))
    | none => Resolver.fail (name.blame .undeclared)
  else Resolver.fail (name.blame (.notAMacro (.token name.kind)))

/-- A name alone: a subroutine call, a macro without arguments, or a byte of data where an argument
    puts a number in its place. -/
def resolveCall (expand : Expander) (scope : Scope) (name : Token) : Resolver (List Item) := do
  let target ← Resolver.look scope (·.substitute name)
  match target.kind with
  | .number n =>
    let imm ← Resolver.look scope fun _ => Env.inRange target 8 (.number n)
    return [.leaf name.site (.byte imm)]
  | .name =>
    match (← get).names.get? target.text with
    | some (.macroDef ..) | some (.stringMode _) => resolveInvocation expand scope name []
    | some (.label _) => return [.leaf name.site (.instr (.addr .call (.label target.text)))]
    | some _ =>
      let imm ← Resolver.look scope (·.imm 12 (.named name))
      return [.leaf name.site (.instr (.addr .call imm))]
    | none => Resolver.fail (target.blame .undeclared)
  | kind => Resolver.fail (target.blame (.expectedValue (.token kind)))

/-! ## Statements -/

/-- Declares a label where it stands.  Outside of expansions labels are known beforehand. -/
def declareLabel (scope : Scope) (name : Token) (next : Bool) : Resolver Unit :=
  if scope.isEmpty then pure () else Resolver.declare name (.label next)

mutual

/-- The items of a statement. -/
def resolveStatement (expand : Expander) (scope : Scope) : Statement → Resolver (List Item)
  | .simple s => do
    let (token, leaf) ← Resolver.look scope (·.simple s)
    return [.leaf token.site leaf]
  | .declaration d => do
    let (name, binding) ← Resolver.look scope (·.declaration d)
    Resolver.declare name binding
    return []
  | .label name => do
    let name ← Resolver.look scope (·.declaredName name)
    declareLabel scope name false
    return [.leaf name.site (.label name.text)]
  | .next _ name statement => do
    let name ← Resolver.look scope (·.declaredName name)
    declareLabel scope name true
    let items ← resolveStatement expand scope statement
    return .leaf name.site (.nextLabel name.text) :: items
  | .macroDef _ name params body => do
    let name ← Resolver.look scope (·.declaredName name)
    Resolver.declare name (.macroDef params body)
    return []
  | .stringMode _ name alphabet body => do
    let name ← Resolver.look scope (·.declaredName name)
    Resolver.declareRule name ⟨alphabet, body⟩
    return []
  | .invoke name args => resolveInvocation expand scope name args
  | .call name => resolveCall expand scope name
  | .ifThen token cond body => do
    let cond ← Resolver.look scope (·.condition cond)
    let items ← resolveStatement expand scope body
    return [.ifThen token.site cond items]
  | .breakIf token _ => Resolver.fail (token.blame .misplacedBreak)
  | .ifBegin token cond body => do
    let cond ← Resolver.look scope (·.condition cond)
    let items ← resolveBlock expand scope body
    return [.ifBegin token.site cond items]
  | .ifElse token cond body otherwise => do
    let cond ← Resolver.look scope (·.condition cond)
    let items ← resolveBlock expand scope body
    let others ← resolveBlock expand scope otherwise
    return [.ifElse token.site cond items others]
  | .loop token body => do
    match ← resolveLoop expand scope body with
    | (items, none) => return [.loop token.site items]
    | (items, some cond) => return [.loopUntil token.site items cond]
  | .whileDo token cond body => do
    let cond ← Resolver.look scope (·.condition cond)
    let items ← resolveStatement expand scope body
    return [.whileDo token.site cond items]

/-- The items of statements in a row. -/
def resolveBlock (expand : Expander) (scope : Scope) : List Statement → Resolver (List Item)
  | [] => return []
  | s :: rest => do
    let items ← resolveStatement expand scope s
    let others ← resolveBlock expand scope rest
    return items ++ others

/-- The items of a loop's body, and the condition that leaves the loop if the body ends in one. -/
def resolveLoop (expand : Expander) (scope : Scope) :
    List Statement → Resolver (List Item × Option Cond)
  | [] => return ([], none)
  | [.breakIf _ cond] => do
    let cond ← Resolver.look scope (·.condition cond)
    return ([], some cond)
  | s :: rest => do
    let items ← resolveStatement expand scope s
    let (others, cond) ← resolveLoop expand scope rest
    return (items ++ others, cond)

end

/-- Expands bodies, with `depth` more expansions to nest inside each other. -/
def expandWithin (limit : Nat) : Nat → Expander
  | 0, name, _, _, _ => Resolver.fail (name.blame (.tooDeep limit))
  | depth + 1, _, frame, outer, body =>
    resolveBlock (expandWithin limit depth) (frame :: outer) body

/-! ## Labels -/

/-- Declares a name; the token is blamed if it is refused. -/
def Naming.declareToken (name : Token) (b : Binding) : Naming ResolveError Unit :=
  EStateM.adaptExcept (fun cause => name.blame (.declare cause)) (Naming.declare name.text b)

/-- Declares a name in a table. -/
def declareIn (names : NameTable) (name : Token) (b : Binding) : Except ResolveError NameTable :=
  (Naming.declareToken name b).outcome names

mutual

/-- Declares the labels that a statement shows without any expansion. -/
def collectLabels (names : NameTable) : Statement → Except ResolveError NameTable
  | .label name => declareIn names name (.label false)
  | .next _ name statement => do
    collectLabels (← declareIn names name (.label true)) statement
  | .ifThen _ _ body => collectLabels names body
  | .ifBegin _ _ body => collectBlockLabels names body
  | .ifElse _ _ body otherwise => do
    collectBlockLabels (← collectBlockLabels names body) otherwise
  | .loop _ body => collectBlockLabels names body
  | .whileDo _ _ body => collectLabels names body
  | .simple _ | .declaration _ | .macroDef .. | .stringMode .. | .invoke .. | .call _
  | .breakIf .. => .ok names

/-- Declares the labels that statements in a row show without any expansion. -/
def collectBlockLabels (names : NameTable) : List Statement → Except ResolveError NameTable
  | [] => .ok names
  | s :: rest => do collectBlockLabels (← collectLabels names s) rest

end

/-! ## Programs -/

/-- Declares a constant before the first line. -/
def Naming.define (name : String) (value : Int) : Naming ResolveError Unit :=
  declareToken ⟨0, .name, name⟩ (.const value)

/-- Declares constants before the first line, in order, and goes on after those that are refused: what
    became of each, and the names in the end. -/
def defineEach (names : NameTable) :
    List (String × Int) → List (Except ResolveError Unit) × NameTable
  | [] => ([], names)
  | (name, value) :: rest =>
    let (result, names) := match Naming.define name value names with
      | .ok _ names => (.ok (), names)
      | .error e names => (.error e, names)
    let (results, names) := defineEach names rest
    (result :: results, names)

/-- Declares a constant before the first line. -/
def define (names : NameTable) (name : String) (value : Int) : Except ResolveError NameTable :=
  (Naming.define name value).outcome names

/-- Declares constants before the first line, in order. -/
def defineAll (names : NameTable) : List (String × Int) → Except ResolveError NameTable
  | [] => .ok names
  | (name, value) :: rest => do defineAll (← define names name value) rest

/-- The name is bound to a label. -/
def NameTable.isLabel (names : NameTable) (name : String) : Bool :=
  match names.get? name with
  | some (.label _) => true
  | _ => false

/-- The line that a missing `main` is blamed on: that of the last item. -/
def lastLine (items : List Item) : Nat := (items.getLast?.map (·.site.line)).getD 1

/-- Resolves a program in which some names are bound beforehand. -/
def resolveWith (names : NameTable) (limit : Nat) (program : List Statement) :
    Except ResolveError (List Item) := do
  let names ← collectBlockLabels names program
  let (items, state) ← resolveBlock (expandWithin limit limit) [] program ⟨names, []⟩
  if state.names.isLabel "main" then return items
  else throw ⟨lastLine items, "main", .missingMain⟩

/-- Resolves a program. -/
def resolve (options : Options) (program : List Statement) : Except ResolveError (List Item) := do
  resolveWith (← defineAll [] options.defines) options.maxExpansionDepth program

end OctoAsm
