/-
  Why a program cannot be resolved.
-/
import OctoAsm.Diagnostic
import OctoAsm.Names.Binding
import OctoAsm.Names.Scope
import OctoAsm.Text.Quoted

namespace OctoAsm

/-- What stands in the place of something else. -/
inductive Found where
  | name (kind : NameKind)
  | token (kind : TokenKind)
deriving DecidableEq, Repr

/-- What was found, as a diagnostic words it. -/
def Found.describe : Found → String
  | .name kind => kind.describe
  | .token kind => kind.category

/-- Why a program cannot be resolved. -/
inductive ResolveCause where
  | undeclared
  | declare (cause : DeclareCause)
  | reserved (cause : ReservedCause)
  | expectedRegister (found : Found)
  | expectedValue (found : Found)
  | expectedName (found : Found)
  | expectedString (found : Found)
  | notAMacro (found : Found)
  | arityMismatch (expected got : Nat)
  | uncoveredChar (c : Char)
  | outsideCalc
  | registerInCalc
  | bareLabel
  | addressOfNonLabel
  | strlenNonString
  | strayString
  | notConstant
  | notFinite
  | outOfRange (value : Int) (bits : Nat)
  | registerOutOfRange (value : Int)
  | compareTemp (r : Fin 16)
  | tooDeep (limit : Nat)
  | calcTooDeep (limit : Nat)
  | misplacedBreak
  | missingMain
deriving DecidableEq, Repr

/-- The cause as a diagnostic words it. -/
def ResolveCause.describe : ResolveCause → String
  | .undeclared => "undeclared name"
  | .declare (.nameInUse kind) => "name already declared as " ++ kind.describe
  | .declare .duplicateLabel => "label declared twice"
  | .declare (.alphabetOverlap c) =>
    "alphabet shares " ++ Text.quoteChar c ++ " with an earlier declaration"
  | .reserved .outsideMacro => "only valid inside a macro or stringmode body"
  | .reserved .outsideStringMode => "only valid inside a stringmode body"
  | .expectedRegister found => "expected a register, found " ++ found.describe
  | .expectedValue found => "expected a value, found " ++ found.describe
  | .expectedName found => "expected a name, found " ++ found.describe
  | .expectedString found => "expected a string, found " ++ found.describe
  | .notAMacro found => "not a macro or stringmode, it is " ++ found.describe
  | .arityMismatch expected got => s!"expected {expected} arguments, got {got}"
  | .uncoveredChar c => "no alphabet covers " ++ Text.quoteChar c
  | .outsideCalc => "only valid inside a calc expression"
  | .registerInCalc => "registers cannot appear in calc expressions"
  | .bareLabel => "labels in calc expressions need `@`"
  | .addressOfNonLabel => "`@` applies only to labels"
  | .strlenNonString => "`strlen` applies only to strings"
  | .strayString => "a string is only valid under `strlen`"
  | .notConstant => "not a compile-time constant"
  | .notFinite => "calc result is not a finite number"
  | .outOfRange value bits => s!"{value} does not fit in {bits} bits"
  | .registerOutOfRange value => s!"register constant {value} is not in 0..=15"
  | .compareTemp r =>
    "v" ++ Text.hexDigits 1 r.val ++
      " is the compare temporary and cannot be compared with `<`, `>`, `<=` or `>=`"
  | .tooDeep limit => s!"expansion nested deeper than {limit} levels"
  | .calcTooDeep limit => s!"calc expression nested deeper than {limit} levels"
  | .misplacedBreak => "conditional break outside a loop"
  | .missingMain => "program has no `main` label"

/-- A diagnostic of the resolver. -/
abbrev ResolveError := Diagnostic ResolveCause

/-- The wording of a resolver diagnostic. -/
def ResolveError.message (e : ResolveError) : String := e.textFirst ResolveCause.describe

/-- A diagnostic at a token. -/
def Token.blame (token : Token) (cause : ResolveCause) : ResolveError :=
  ⟨token.line, token.describe, cause⟩

end OctoAsm
