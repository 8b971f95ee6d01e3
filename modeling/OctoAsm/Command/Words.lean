/-
  The command line as a list of words.

  How words are cut into options and values is up to the library that the command leaves it to.  This is
  a stand-in for that library, enough to run the command; results about the command are about accepted
  arguments (`Arguments`), wherever they come from.  Requests for help or for the version are left out.

  The value of an option may be attached to it (`-oX`, `-o=X`, `--output=X`) or be the next argument,
  which then must not look like an option; a single dash does not.  After `--` everything is an
  input.  Only constants may be given more than once.
-/
import OctoAsm.Command.Arguments
import OctoAsm.Command.Number

namespace OctoAsm.Command

/-- The options of the command. -/
inductive Flag where
  | output | define | symbols | origin | logLevel
deriving DecidableEq, Repr

/-- The long names of options. -/
def Flag.ofLong? : List Char → Option Flag
  | name =>
    [("output", Flag.output), ("define", .define), ("symbols", .symbols), ("origin", .origin),
      ("log-level", .logLevel)].lookup (String.ofList name)

/-- The short names of options. -/
def Flag.ofShort? : Char → Option Flag
  | 'o' => some .output
  | 'D' => some .define
  | 'l' => some .logLevel
  | _ => none

/-- A log level: a name in any case, or a number from 1 to 5. -/
def isLogLevel (text : String) : Bool :=
  let named := ["error", "warn", "info", "debug", "trace"].contains
    (String.ofList (text.toList.map Char.toLower))
  let digits := match text.toList with
    | '+' :: cs => cs
    | cs => cs
  let numbered := match Text.accumulate 10 0xFFFFFFFFFFFFFFFF .tooLarge 0 digits with
    | .ok n => !digits.isEmpty && 1 ≤ n && n ≤ 5
    | .error _ => false
  named || numbered

namespace Arguments

/-- Takes a value for an option that may be given once. -/
def once {α : Type} (old : Option α) (new : α) : Option (Option α) :=
  if old.isSome then none else some (some new)

/-- A path is never empty. -/
def path? (text : String) : Option String := if text.isEmpty then none else some text

/-- Adds an option with its value. -/
def addFlag (a : Arguments) (flag : Flag) (value : String) : Option Arguments :=
  match flag with
  | .output => do return { a with output := ← once a.output (← path? value) }
  | .symbols => do return { a with symbols := ← once a.symbols (← path? value) }
  | .define => do return { a with defines := a.defines ++ [← (readDefine value).toOption] }
  | .origin => do return { a with origin := ← once a.origin (← (readAddress value).toOption) }
  | .logLevel =>
    if a.logLevel || !isLogLevel value then none else some { a with logLevel := true }

/-- Adds an input. -/
def addInput (a : Arguments) (value : String) : Option Arguments := do
  return { a with input := ← once a.input (← path? value) }

/-- What a single argument is. -/
inductive Shape where
  | positional
  /-- `--` -/
  | escape
  /-- an option, with the value attached to it -/
  | flag (flag : Flag) (value : Option String)
  | unknown

/-- A text with an equals sign in front loses it. -/
def afterEquals : List Char → List Char
  | '=' :: cs => cs
  | cs => cs

/-- The shape of an argument. -/
def shape (arg : List Char) : Shape :=
  match arg with
  | ['-'] => .positional
  | ['-', '-'] => .escape
  | '-' :: '-' :: long =>
    match Flag.ofLong? (long.takeWhile (· != '=')), long.dropWhile (· != '=') with
    | some flag, [] => .flag flag none
    | some flag, _ :: value => .flag flag (some (String.ofList value))
    | none, _ => .unknown
  | '-' :: short :: attached =>
    match Flag.ofShort? short, attached with
    | some flag, [] => .flag flag none
    | some flag, cs => .flag flag (some (String.ofList (afterEquals cs)))
    | none, _ => .unknown
  | _ => .positional

/-- Whether an argument may be the value of the option before it. -/
def isValue (arg : String) : Bool :=
  match arg.toList with
  | '-' :: _ :: _ => false
  | _ => true

/-- Adds arguments in order; none if they are refused. -/
def addAll (a : Arguments) : List String → Option Arguments
  | [] => some a
  | arg :: rest =>
    match shape arg.toList, rest with
    | .positional, rest => do addAll (← a.addInput arg) rest
    | .escape, rest => rest.foldlM addInput a
    | .flag flag (some value), rest => do addAll (← a.addFlag flag value) rest
    | .flag flag none, value :: rest =>
      if isValue value then do addAll (← a.addFlag flag value) rest else none
    | .flag _ none, [] => none
    | .unknown, _ => none

/-- The arguments of a command; none if they are refused. -/
def ofList? (args : List String) : Option Arguments := addAll {} args

end Arguments

end OctoAsm.Command
