/-
  What changes while a program is resolved: the names bound so far, and the log of invocations.

  The log has an entry for every invocation of a macro or a stringmode that was started, newest
  first, with its number among the invocations of the same name.  The number of the next one is read
  off the log.
-/
import OctoAsm.Resolve.Statements

namespace OctoAsm

/-- The state of a resolution. -/
structure ResolveState where
  names : NameTable
  /-- invocations so far, newest first: the name and its running number -/
  log : List (String × Int)

/-- A step of a resolution. -/
abbrev Resolver (α : Type) := StateT ResolveState (Except ResolveError) α

namespace Resolver

variable {α : Type}

/-- Stops with a diagnostic. -/
def fail (e : ResolveError) : Resolver α := fun _ => .error e

/-- Looks something up in the names bound so far. -/
def look (scope : Scope) (f : Env → Except ResolveError α) : Resolver α := fun s =>
  match f ⟨s.names, scope⟩ with
  | .ok a => .ok (a, s)
  | .error e => .error e

/-- Binds a name. -/
def declare (name : Token) (b : Binding) : Resolver Unit := fun s =>
  match s.names.declare name.text b with
  | .ok names => .ok ((), { s with names })
  | .error cause => .error (name.blame (.declare cause))

/-- Binds a name to a stringmode, or extends the one it is bound to.  A shared character is the
    alphabet's fault, all else the name's. -/
def declareRule (name : Token) (rule : CharRule) : Resolver Unit := fun s =>
  match s.names.declareRule name.text rule with
  | .ok names => .ok ((), { s with names })
  | .error (.alphabetOverlap c) => .error (rule.alphabet.blame (.declare (.alphabetOverlap c)))
  | .error cause => .error (name.blame (.declare cause))

/-- Starts an invocation and gives its number. -/
def startCall (name : String) : Resolver Int := fun s =>
  let number := (s.log.lookup name).getD 0 + 1
  .ok (number, { s with log := (name, number) :: s.log })

end Resolver

end OctoAsm
