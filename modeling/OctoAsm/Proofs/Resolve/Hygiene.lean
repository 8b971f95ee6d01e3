/-
  Arguments are resolved where they are passed.

  A name in a body is followed outward through the arguments of the expansions around it, and only
  when it is used.  The other way would be to resolve the arguments of an invocation before its body
  is entered, so that a body needs one table of what its names stand for (`Bindings`), and one
  lookup in it.  Both ways agree for every chain of expansions and every token
  (`arguments_hygienic`).

  The induction is on the chain of expansions (`substitute_eq_lookup`).  A name that the innermost
  expansion binds goes on outside as the argument, and this is what the table of the caller was
  asked when the expansion was entered; any other name goes on outside as it is, where the table of
  the caller is the rest of the inner one.

  The search itself is a loop with two things in hand, the token and the expansions that are left
  (`Search`).  Each turn gives up the expansion that binds the name and all within it, so there is
  an end to it, and no parameter of theirs can capture the argument.
-/
import OctoAsm.Proofs.Resolve.Relocation
import Mathlib.Logic.Relation

namespace OctoAsm

/-! ## Eager bindings -/

/-- What names and reserved names stand for at some place, every argument resolved already. -/
structure Bindings where
  /-- by parameter, inner expansions first; an argument that cannot be resolved is kept as such -/
  args : List (String × Except ReservedError Token)
  /-- number of the innermost expansion -/
  calls : Option Int
  /-- present if the innermost expansion is one of a stringmode -/
  chars : Option CharValues

namespace Bindings

/-- Outside of all expansions. -/
def outside : Bindings := ⟨[], none, none⟩

/-- A token as a number, if there is one for it. -/
def numbered (token : Token) (cause : ReservedCause) : Option Int → Except ReservedError Token
  | some n => .ok { token with kind := .number n }
  | none => .error ⟨token, cause⟩

/-- What a token stands for, by a single lookup. -/
def lookup (b : Bindings) (token : Token) : Except ReservedError Token :=
  match token.kind with
  | .name => (b.args.lookup token.text).getD (.ok token)
  | .constant .calls => numbered token .outsideMacro b.calls
  | .constant .char => numbered token .outsideStringMode (b.chars.map (·.char))
  | .constant .index => numbered token .outsideStringMode (b.chars.map (·.index))
  | .constant .value => numbered token .outsideStringMode (b.chars.map (·.value))
  | _ => .ok token

/-- An expansion is entered: its arguments are resolved by the bindings of the caller and shadow
    them; the numbers are those of the expansion. -/
def enter (frame : Frame) (caller : Bindings) : Bindings where
  args := frame.args.map (fun arg => (arg.1, caller.lookup arg.2)) ++ caller.args
  calls := some frame.calls
  chars := frame.chars

theorem lookup_name {b : Bindings} {token : Token} (h : token.kind = .name) :
    b.lookup token = (b.args.lookup token.text).getD (.ok token) := by
  simp only [lookup, h]

/-- The arguments of the expansion are asked first, then the bindings of the caller. -/
theorem lookup_enter_name {frame : Frame} {caller : Bindings} {token : Token}
    (h : token.kind = .name) : (caller.enter frame).lookup token =
      caller.lookup ((frame.args.lookup token.text).getD token) := by
  have hargs : (caller.enter frame).args.lookup token.text =
      ((frame.args.lookup token.text).map caller.lookup).or (caller.args.lookup token.text) := by
    rw [enter, List.lookup_append, lookup_map_snd (f := caller.lookup)]
  rw [lookup_name h, hargs]
  cases frame.args.lookup token.text with
  | none => exact (lookup_name h).symm
  | some arg => rfl

end Bindings

/-- The bindings at a place, from the outermost expansion inwards. -/
def Scope.bindings (scope : Scope) : Bindings :=
  scope.foldr (fun frame caller => caller.enter frame) .outside

namespace Scope

variable {scope outer : Scope} {frame : Frame} {token : Token}

/-- A name that the innermost expansion does not bind goes on as it is. -/
theorem substitute_name (h : token.kind = .name) : Scope.substitute (frame :: outer) token =
    outer.substitute ((frame.args.lookup token.text).getD token) := by
  rw [Scope.substitute, h]

/-- Outside of all expansions a name stands for itself. -/
theorem substitute_nil_name (h : token.kind = .name) : Scope.substitute [] token = .ok token := by
  rw [Scope.substitute, h]

theorem substitute_constant {c : Constant} (h : token.kind = .constant c) :
    scope.substitute token = token.reserved scope.head? c := by
  cases scope <;> rw [Scope.substitute, h] <;> rfl

/-- What is neither a name nor reserved stands for itself. -/
theorem substitute_other (hname : token.kind ≠ .name) (hconstant : ∀ c, token.kind ≠ .constant c) :
    scope.substitute token = .ok token := by
  cases scope <;> unfold Scope.substitute <;> split <;> simp_all

/-- Reserved names stand for the numbers of the innermost expansion. -/
theorem reserved_eq_lookup {c : Constant} (h : token.kind = .constant c) :
    token.reserved scope.head? c = scope.bindings.lookup token := by
  rw [Bindings.lookup, h]
  rcases scope with _ | ⟨⟨args, calls, _ | chars⟩, outer⟩ <;> cases c <;> rfl

/-- **What a token stands for in a chain of expansions is one lookup in the eager bindings.** -/
theorem substitute_eq_lookup (scope : Scope) (token : Token) :
    scope.substitute token = scope.bindings.lookup token := by
  induction scope generalizing token with
  | nil =>
    cases hkind : token.kind with
    | name =>
      rw [substitute_nil_name hkind, Bindings.lookup_name hkind]
      rfl
    | constant c => rw [substitute_constant hkind, reserved_eq_lookup hkind]
    | _ => rw [substitute_other (by simp [hkind]) (by simp [hkind]), Bindings.lookup, hkind]
  | cons frame outer ih =>
    cases hkind : token.kind with
    | name => rw [substitute_name hkind, ih, ← Bindings.lookup_enter_name hkind]; rfl
    | constant c => rw [substitute_constant hkind, reserved_eq_lookup hkind]
    | _ => rw [substitute_other (by simp [hkind]) (by simp [hkind]), Bindings.lookup, hkind]

end Scope

/-! ## The search -/

/-- The innermost expansion that binds a name: the argument, and the expansions outside. -/
def Scope.binding? : Scope → String → Option (Token × Scope)
  | [], _ => none
  | frame :: outer, name =>
    match frame.args.lookup name with
    | some arg => some (arg, outer)
    | none => binding? outer name

/-- A search under way: the token in hand, and the expansions that are left. -/
structure Search where
  scope : Scope
  token : Token

namespace Search

/-- A name that is bound is replaced by its argument, which belongs to the outside. -/
inductive Step : Search → Search → Prop where
  | mk {scope outer token arg} (hkind : token.kind = .name)
      (hbound : scope.binding? token.text = some (arg, outer)) : Step ⟨scope, token⟩ ⟨outer, arg⟩

/-- Nothing is left to be replaced. -/
def Ended (s : Search) : Prop := ∀ t, ¬ Step s t

/-- What a search that has ended gives: reserved names become numbers. -/
def result (s : Search) : Except ReservedError Token :=
  match s.token.kind with
  | .constant c => s.token.reserved s.scope.head? c
  | _ => .ok s.token

/-- What the token in hand stands for. -/
def meaning (s : Search) : Except ReservedError Token := s.scope.substitute s.token

variable {s t : Search}

theorem substitute_of_binding? {scope outer : Scope} {token arg : Token}
    (hkind : token.kind = .name) (h : scope.binding? token.text = some (arg, outer)) :
    scope.substitute token = outer.substitute arg ∧ outer.length < scope.length := by
  induction scope with
  | nil => cases h
  | cons frame inner ih =>
    rw [Scope.substitute_name hkind]
    rw [Scope.binding?] at h
    cases hframe : frame.args.lookup token.text with
    | none =>
      rw [hframe] at h
      obtain ⟨hmeaning, hlength⟩ := ih h
      exact ⟨hmeaning, Nat.lt_succ_of_lt hlength⟩
    | some found =>
      rw [hframe] at h
      obtain ⟨rfl, rfl⟩ := Prod.mk.inj (Option.some.inj h)
      exact ⟨rfl, Nat.lt_succ_self _⟩

theorem substitute_of_unbound {scope : Scope} {token : Token} (hkind : token.kind = .name)
    (h : scope.binding? token.text = none) : scope.substitute token = .ok token := by
  induction scope with
  | nil => exact Scope.substitute_nil_name hkind
  | cons frame inner ih =>
    rw [Scope.substitute_name hkind]
    rw [Scope.binding?] at h
    cases hframe : frame.args.lookup token.text with
    | none =>
      rw [hframe] at h
      exact ih h
    | some found =>
      rw [hframe] at h
      cases h

/-- **A turn of the search changes nothing in what the token stands for.** -/
theorem Step.meaning_eq (h : Step s t) : s.meaning = t.meaning := by
  cases h with
  | mk hkind hbound => exact (substitute_of_binding? hkind hbound).1

/-- **A turn leaves fewer expansions.** -/
theorem Step.shorter (h : Step s t) : t.scope.length < s.scope.length := by
  cases h with
  | mk hkind hbound => exact (substitute_of_binding? hkind hbound).2

theorem meaning_of_ended (h : s.Ended) : s.meaning = s.result := by
  obtain ⟨scope, token⟩ := s
  show scope.substitute token = result ⟨scope, token⟩
  cases hkind : token.kind with
  | name =>
    cases hbound : scope.binding? token.text with
    | none =>
      rw [substitute_of_unbound hkind hbound]
      simp only [result, hkind]
    | some found => exact absurd (.mk hkind hbound) (h ⟨found.2, found.1⟩)
  | constant c =>
    rw [Scope.substitute_constant hkind]
    simp only [result, hkind]
  | _ =>
    rw [Scope.substitute_other (by simp [hkind]) (by simp [hkind])]
    simp only [result, hkind]

/-- Every search comes to an end, by its turns. -/
theorem ends (s : Search) : ∃ t, Relation.ReflTransGen Step s t ∧ t.Ended := by
  by_cases hs : s.Ended
  · exact ⟨s, .refl, hs⟩
  · obtain ⟨t, ht⟩ : ∃ t, Step s t := by simpa [Ended] using hs
    have hshorter := ht.shorter
    obtain ⟨u, hrun, hu⟩ := ends t
    exact ⟨u, .head ht hrun, hu⟩
termination_by s.scope.length

theorem meaning_of_run (h : Relation.ReflTransGen Step s t) : s.meaning = t.meaning := by
  induction h with
  | refl => rfl
  | tail _ hstep ih => exact ih.trans hstep.meaning_eq

end Search

/-! ## Expansions -/

/-- The frame of an invocation with these arguments: a macro binds them to its parameters, and
    a stringmode has its string to go through and binds nothing. -/
def Frame.Takes (frame : Frame) (args : List Token) : Prop :=
  (frame.chars = none ∧ ∃ params : List Token, params.length = args.length ∧
      frame.args = (params.map (·.text)).zip args) ∨
    (frame.chars.isSome ∧ frame.args = [])

/-- All that an invocation resolves stands in one more expansion. -/
theorem Expands.scope_eq {scope : Scope} {s t : ResolveState} {word : Token} {args : List Token}
    {tasks : List Task} (h : Expands scope s word args tasks t) :
    ∀ task ∈ tasks, ∃ frame : Frame, task.scope = frame :: scope ∧ frame.Takes args := by
  intro task htask
  cases h with
  | @macroDef name params body calls hname hkind hbound hargs hcalls =>
    obtain ⟨st, -, rfl⟩ := List.mem_map.mp htask
    exact ⟨_, rfl, .inl ⟨rfl, params, hargs.symm, rfl⟩⟩
  | stringMode =>
    obtain ⟨rule, -, chars, hbody⟩ := mem_charTasks htask
    obtain ⟨st, -, rfl⟩ := List.mem_map.mp hbody
    exact ⟨_, rfl, .inr ⟨rfl, rfl⟩⟩

/-! ## Hygiene -/

/-- Arguments mean in a chain of expansions what they mean where they are passed. -/
structure HygienicArguments (scope : Scope) : Prop where
  /-- a token stands for what one lookup in the eager bindings says; an argument that cannot be
      resolved is a failure of the tokens that use it -/
  eager : ∀ names token, Env.substitute ⟨names, scope⟩ token =
    (scope.bindings.lookup token).mapError fun e => e.token.blame (.reserved e.cause)
  /-- an expansion resolves its statements in the bindings of the invocation, extended by its own -/
  entered : ∀ s word args tasks t, Expands scope s word args tasks t → ∀ task ∈ tasks,
    ∃ frame : Frame, frame.Takes args ∧ task.scope = frame :: scope ∧
      task.scope.bindings = scope.bindings.enter frame
  /-- a parameter stands for what its argument stands for outside, whatever the parameters' names -/
  uncaptured : ∀ (frame : Frame) param arg, param.kind = .name →
    frame.args.lookup param.text = some arg →
    Scope.substitute (frame :: scope) param = scope.substitute arg
  /-- every turn of a search leaves fewer expansions, -/
  shorter : ∀ s t, Search.Step s t → t.scope.length < s.scope.length
  /-- and a search ends with what the token stands for -/
  ends : ∀ token, ∃ t, Relation.ReflTransGen Search.Step ⟨scope, token⟩ t ∧ t.Ended ∧
    scope.substitute token = t.result

/-- **Arguments are hygienic**, in every chain of expansions. A name is followed outward when it is
    used, and each turn of the search gives up the expansion that binds the name and all within it;
    so no inner parameter captures an argument, and resolving all arguments where they are passed,
    into one table, comes to the same (`substitute_eq_lookup`). -/
theorem arguments_hygienic (scope : Scope) : HygienicArguments scope := by
  constructor
  case eager =>
    intro names token
    rw [← scope.substitute_eq_lookup]
    unfold Env.substitute
    cases scope.substitute token <;> rfl
  case entered =>
    intro s word args tasks t h task htask
    obtain ⟨frame, hscope, hframe⟩ := h.scope_eq task htask
    exact ⟨frame, hframe, hscope, by rw [hscope]; rfl⟩
  case uncaptured =>
    intro frame param arg hkind hbound
    rw [Scope.substitute_name hkind, hbound, Option.getD_some]
  case shorter => exact fun s t h => h.shorter
  case ends =>
    intro token
    obtain ⟨t, hrun, hended⟩ := Search.ends ⟨scope, token⟩
    exact ⟨t, hrun, hended, (Search.meaning_of_run hrun).trans (Search.meaning_of_ended hended)⟩

/-- Two macros with parameters `x` and `y`, the outer one invoked with `1 2`, the inner one from
    there with `y x`: each level swaps the names. -/
example :
    let swapping : Scope := [⟨[("x", ⟨2, .name, "y"⟩), ("y", ⟨2, .name, "x"⟩)], 1, none⟩,
      ⟨[("x", ⟨3, .number 1, "1"⟩), ("y", ⟨3, .number 2, "2"⟩)], 1, none⟩]
    swapping.substitute ⟨1, .name, "x"⟩ = .ok ⟨3, .number 2, "2"⟩ ∧
      swapping.substitute ⟨1, .name, "y"⟩ = .ok ⟨3, .number 1, "1"⟩ := ⟨rfl, rfl⟩

end OctoAsm
