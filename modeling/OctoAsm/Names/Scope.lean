/-
  The scope of a statement: the expansions it stands in, innermost first, each with the arguments
  bound to its parameters.

  An argument belongs to the place of the invocation, so once a name has been replaced by its
  argument the search goes on outside the frame that bound it.  A parameter is therefore never
  captured by the parameters of the macro it is passed to, and the search ends with the list.
-/
import OctoAsm.Token

namespace OctoAsm

/-- What the body of a stringmode knows about the character it is expanded for. -/
structure CharValues where
  /-- code point -/
  char : Int
  /-- position in the invoking string -/
  index : Int
  /-- position in the alphabet that covers the character -/
  value : Int
deriving DecidableEq, Repr

/-- The bindings of one expansion. -/
structure Frame where
  /-- arguments by parameter; the first of two equal parameters counts -/
  args : List (String × Token)
  /-- number of the invocation, from 1 -/
  calls : Int
  /-- present in the body of a stringmode -/
  chars : Option CharValues
deriving DecidableEq, Repr

/-- The expansions around a statement, innermost first. -/
abbrev Scope := List Frame

/-- Why a reserved name has no value where it stands. -/
inductive ReservedCause where
  | outsideMacro
  | outsideStringMode
deriving DecidableEq, Repr

/-- The value of a reserved name in the innermost expansion.  Keys keep their name: they have a value
    only in calc expressions. -/
def Constant.valueIn (frame : Option Frame) : Constant → Except ReservedCause (Option Int)
  | .key _ => .ok none
  | .calls =>
    match frame with
    | some f => .ok (some f.calls)
    | none => .error .outsideMacro
  | .char => chars fun v => v.char
  | .index => chars fun v => v.index
  | .value => chars fun v => v.value
where
  /-- One of the values of the current character. -/
  chars (select : CharValues → Int) : Except ReservedCause (Option Int) :=
    match frame.bind (·.chars) with
    | some v => .ok (some (select v))
    | none => .error .outsideStringMode

/-- A token that cannot be replaced, and why. -/
structure ReservedError where
  token : Token
  cause : ReservedCause
deriving DecidableEq, Repr

/-- A reserved name as the number it stands for. -/
def Token.reserved (frame : Option Frame) (token : Token) (c : Constant) :
    Except ReservedError Token :=
  match c.valueIn frame with
  | .ok none => .ok token
  | .ok (some n) => .ok { token with kind := .number n }
  | .error cause => .error ⟨token, cause⟩

/-- What a token stands for: names are followed through the arguments of the expansions around them,
    and reserved names become numbers. -/
def Scope.substitute : Scope → Token → Except ReservedError Token
  | [], token =>
    match token.kind with
    | .constant c => token.reserved none c
    | _ => .ok token
  | frame :: outer, token =>
    match token.kind with
    | .name => substitute outer ((frame.args.lookup token.text).getD token)
    | .constant c => token.reserved (some frame) c
    | _ => .ok token

end OctoAsm
