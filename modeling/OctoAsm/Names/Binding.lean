/-
  The names of a program.  All kinds of names share one space: a name is bound once, except that an
  alias, a register constant or a calc name may be bound again to another thing of its kind, a label
  of the `:next` kind may be declared again, and a stringmode grows by declarations with disjoint
  alphabets.

  Declarations change the table in place.  One that is refused leaves a table behind as well, so that
  whoever made it can go on.
-/
import OctoAsm.Program

namespace OctoAsm

/-- One declaration of a stringmode: the characters it covers, and what they expand to. -/
structure CharRule where
  alphabet : Token
  body : List Statement

/-- What a name stands for. -/
inductive Binding where
  /-- `next` marks the labels of second bytes -/
  | label (next : Bool)
  | register (r : Fin 16)
  | registerConst (r : Fin 16)
  | const (n : Int)
  /-- an expression and its depth -/
  | calcName (e : Expr) (depth : Nat)
  | macroDef (params : List Token) (body : List Statement)
  /-- one rule for each declaration, alphabets pairwise disjoint -/
  | stringMode (rules : List CharRule)

/-- The kinds of names. -/
inductive NameKind where
  | label | register | registerConst | const | calcName | macroDef | stringMode
deriving DecidableEq, Repr

/-- The kind as a diagnostic words it. -/
def NameKind.describe : NameKind → String
  | .label => "a label"
  | .register => "a register alias"
  | .registerConst => "a register constant"
  | .const => "a constant"
  | .calcName => "a calc name"
  | .macroDef => "a macro"
  | .stringMode => "a stringmode"

namespace Binding

/-- The kind of a name with this binding. -/
def kind : Binding → NameKind
  | .label _ => .label
  | .register _ => .register
  | .registerConst _ => .registerConst
  | .const _ => .const
  | .calcName _ _ => .calcName
  | .macroDef _ _ => .macroDef
  | .stringMode _ => .stringMode

/-- The register that a name stands for, if it stands for one. -/
def register? : Binding → Option (Fin 16)
  | .register r | .registerConst r => some r
  | _ => none

end Binding

/-! ## The table -/

/-- The bound names; a later entry hides an earlier one of the same name. -/
abbrev NameTable := List (String × Binding)

namespace NameTable

/-- What a name is bound to. -/
def get? (t : NameTable) (name : String) : Option Binding := t.lookup name

/-- Binds a name, whatever it was bound to before. -/
def set (t : NameTable) (name : String) (b : Binding) : NameTable := (name, b) :: t

@[simp] theorem get?_nil (name : String) : get? [] name = none := rfl

@[simp] theorem get?_set_self (t : NameTable) (name : String) (b : Binding) :
    (t.set name b).get? name = some b := by
  simp [get?, set]

theorem get?_set_of_ne (t : NameTable) {name other : String} (b : Binding) (h : other ≠ name) :
    (t.set name b).get? other = t.get? other := by
  have hne : (other == name) = false := by simpa using h
  simp [get?, set, List.lookup_cons, hne]

end NameTable

/-! ## Declarations -/

/-- Why a declaration is refused. -/
inductive DeclareCause where
  | nameInUse (kind : NameKind)
  | duplicateLabel
  | alphabetOverlap (c : Char)
deriving DecidableEq, Repr

/-- A name bound to the first may be bound again to the second. -/
def Binding.yieldsTo : Binding → Binding → Bool
  | .label true, .label true => true
  | .register _, .register _ => true
  | .registerConst _, .registerConst _ => true
  | .calcName _ _, .calcName _ _ => true
  | _, _ => false

/-- A change of the names, which may be refused.  It is made in place: there is a table afterwards in
    either case. -/
abbrev Naming (ε α : Type) := EStateM ε NameTable α

/-- The first character of the rules' alphabets, in order, that the given alphabet has too. -/
def NameTable.sharedChar? (rules : List CharRule) (alphabet : String) : Option Char :=
  (rules.flatMap fun r => r.alphabet.text.toList).find? (· ∈ alphabet.toList)

/-- Appends a rule to those of a stringmode. -/
def NameTable.appendRule (t : NameTable) (name : String) (rule : CharRule) : NameTable :=
  match t.get? name with
  | some (.stringMode rules) => t.set name (.stringMode (rules ++ [rule]))
  | _ => t

namespace Naming

/-- Binds a name that is free, or whose binding may be replaced. -/
def declare (name : String) (b : Binding) : Naming DeclareCause Unit := do
  if let some old := (← get).get? name then
    unless old.yieldsTo b do
      throw (if old.kind = .label ∧ b.kind = .label then .duplicateLabel else .nameInUse old.kind)
  modify (·.set name b)

/-- Adds a rule to a stringmode, or declares a new one with that rule. -/
def declareRule (name : String) (rule : CharRule) : Naming DeclareCause Unit := do
  match (← get).get? name with
  | some (.stringMode rules) =>
    if let some c := NameTable.sharedChar? rules rule.alphabet.text then
      throw (.alphabetOverlap c)
    modify (·.appendRule name rule)
  | _ => declare name (.stringMode [rule])

/-- The names after a change that is not refused.  Those after a refusal are of no use to a resolution,
    which ends there. -/
def outcome {ε : Type} (change : Naming ε Unit) (t : NameTable) : Except ε NameTable :=
  match change t with
  | .ok _ t' => .ok t'
  | .error e _ => .error e

end Naming

namespace NameTable

/-- Binds a name that is free, or whose binding may be replaced. -/
def declare (t : NameTable) (name : String) (b : Binding) : Except DeclareCause NameTable :=
  (Naming.declare name b).outcome t

/-- Adds a rule to a stringmode, or declares a new one with that rule. -/
def declareRule (t : NameTable) (name : String) (rule : CharRule) :
    Except DeclareCause NameTable :=
  (Naming.declareRule name rule).outcome t

end NameTable

end OctoAsm
