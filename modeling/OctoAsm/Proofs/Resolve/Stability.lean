/-
  One space of names, in which nothing once bound is lost.

  An analysis goes through three phases: constants are declared from outside, and whoever declares
  them may go on after a failure; then the labels are collected; then the statements are resolved,
  depth first.  `Analysis.Step` takes the three apart into single steps, so that the tables passed
  through by an analysis that fails half-way are there as well.

  A declaration works on the table in place.  If it is refused, it has not touched the table
  (`Attempt.run_atomic`); if not, it has changed no entry but its own, and that one only within its
  kind (`Attempt.run_eq_ok`).  So every step leaves the names alone or makes one declaration that
  succeeds (`Step.attempt`), and a table is extended all along a run (`names_extends`).
-/
import OctoAsm.Proofs.Names
import OctoAsm.Proofs.Resolve.Derivation
import Mathlib.Logic.Relation

namespace OctoAsm

/-! ## What stays of a binding -/

/-- The kinds of names whose binding is never replaced by another. -/
def NameKind.fixed : NameKind → Bool
  | .label | .const | .macroDef => true
  | .register | .registerConst | .calcName | .stringMode => false

/-- A name with the first binding may have the second one later. -/
structure Binding.Becomes (b b' : Binding) : Prop where
  kind : b'.kind = b.kind
  /-- the value of a constant, the body of a macro, the flag of a label -/
  fixed : b.kind.fixed = true → b' = b

theorem Binding.Becomes.refl (b : Binding) : b.Becomes b := ⟨rfl, fun _ => rfl⟩

theorem Binding.Becomes.trans {a b c : Binding} (h : a.Becomes b) (h' : b.Becomes c) :
    a.Becomes c := by
  refine ⟨h'.kind.trans h.kind, fun hfixed => ?_⟩
  obtain rfl := h.fixed hfixed
  exact h'.fixed hfixed

/-- A binding that may be replaced keeps its kind, and a label its flag. -/
theorem Binding.becomes_of_yieldsTo {b b' : Binding} (h : b.yieldsTo b' = true) : b.Becomes b' := by
  cases b with
  | label next =>
    cases b' with
    | label next' =>
      cases next <;> cases next' <;> simp [Binding.yieldsTo] at h
      exact .refl _
    | _ => cases next <;> simp [Binding.yieldsTo] at h
  | _ =>
    cases b' <;> simp [Binding.yieldsTo] at h <;>
      exact ⟨rfl, by simp [Binding.kind, NameKind.fixed]⟩

namespace NameTable

variable {t t' : NameTable}

/-- Every name bound in the first table is bound in the second, to what its binding may become. -/
def Extends (t t' : NameTable) : Prop :=
  ∀ name b, t.get? name = some b → ∃ b', t'.get? name = some b' ∧ b.Becomes b'

theorem Extends.refl (t : NameTable) : Extends t t := fun _ b h => ⟨b, h, .refl b⟩

theorem Extends.trans {t₁ t₂ t₃ : NameTable} (h : Extends t₁ t₂) (h' : Extends t₂ t₃) :
    Extends t₁ t₃ := by
  intro name b hb
  obtain ⟨b₂, hb₂, hbecomes₂⟩ := h name b hb
  obtain ⟨b₃, hb₃, hbecomes₃⟩ := h' name b₂ hb₂
  exact ⟨b₃, hb₃, hbecomes₂.trans hbecomes₃⟩

theorem Extends.set {name : String} {b : Binding} (h : ∀ old, t.get? name = some old → old.Becomes b) :
    Extends t (t.set name b) := by
  intro other b₀ hb₀
  by_cases hother : other = name
  · subst hother
    exact ⟨b, get?_set_self t other b, h b₀ hb₀⟩
  · exact ⟨b₀, by rw [get?_set_of_ne t b hother]; exact hb₀, .refl b₀⟩

/-! ## Declarations -/

/-- An attempt to declare a name. -/
inductive Attempt where
  | bind (name : String) (b : Binding)
  /-- one more rule of a stringmode -/
  | rule (name : String) (r : CharRule)

/-- The name that an attempt is about. -/
def Attempt.name : Attempt → String
  | .bind name _ | .rule name _ => name

/-- What an attempt does to a table, in place. -/
def Attempt.run : Attempt → Naming DeclareCause Unit
  | .bind name b => Naming.declare name b
  | .rule name r => Naming.declareRule name r

/-- An attempt that is refused has not touched the table. -/
theorem Attempt.run_atomic (a : Attempt) : a.run.Atomic := by
  cases a with
  | bind name b => exact Naming.declare_atomic name b
  | rule name r => exact Naming.declareRule_atomic name r

/-- A successful attempt sets the entry of its name, and an old one there becomes the new one. -/
theorem Attempt.run_eq_set {a : Attempt} (h : a.run t = .ok () t') :
    ∃ b, t' = t.set a.name b ∧ ∀ old, t.get? a.name = some old → old.Becomes b := by
  cases a with
  | bind name b =>
    obtain ⟨rfl, hold⟩ := declare_eq_ok (Naming.outcome_eq_ok.mpr h)
    refine ⟨b, rfl, fun old hbound => ?_⟩
    rcases hold with hfree | ⟨old', hold', hyields⟩
    · rw [Attempt.name, hfree] at hbound; cases hbound
    · rw [Attempt.name, hold'] at hbound
      obtain rfl := Option.some.inj hbound
      exact Binding.becomes_of_yieldsTo hyields
  | rule name r =>
    obtain ⟨rules, rfl, hold⟩ := declareRule_eq_ok (Naming.outcome_eq_ok.mpr h)
    refine ⟨_, rfl, fun old hbound => ?_⟩
    rcases hold with hfree | ⟨earlier, hold'⟩
    · rw [Attempt.name, hfree] at hbound; cases hbound
    · rw [Attempt.name, hold'] at hbound
      obtain rfl := Option.some.inj hbound
      exact ⟨rfl, by simp [Binding.kind, NameKind.fixed]⟩

/-- **A successful attempt changes the entry of its name only, and that within its kind.** -/
theorem Attempt.run_eq_ok {a : Attempt} (h : a.run t = .ok () t') :
    (∀ other, other ≠ a.name → t'.get? other = t.get? other) ∧ t.Extends t' := by
  obtain ⟨b, rfl, hbecomes⟩ := Attempt.run_eq_set h
  exact ⟨fun other hother => get?_set_of_ne t b hother, .set hbecomes⟩

end NameTable

open NameTable (Attempt)

/-! ## Single steps -/

/-- The statements that a statement of control flow holds, in the order of the walk. -/
def Statement.parts : Statement → List Statement
  | .ifThen _ _ body | .whileDo _ _ body => [body]
  | .ifBegin _ _ body | .loop _ body => body
  | .ifElse _ _ body otherwise => body ++ otherwise
  | _ => []

/-- A statement that binds no name itself; what it holds may. -/
def Statement.bindsNothing : Statement → Bool
  | .declaration _ | .label _ | .next .. | .macroDef .. | .stringMode .. | .invoke .. => false
  | _ => true

/-- A statement that is itself a label. -/
def Statement.isLabel : Statement → Bool
  | .label _ | .next .. => true
  | _ => false

/-- An analysis under way. -/
inductive Analysis where
  /-- constants are declared from outside -/
  | defining (names : NameTable)
  /-- the labels of these statements are still to be collected -/
  | collecting (todo : List Statement) (names : NameTable)
  /-- these tasks are still to be resolved -/
  | resolving (todo : List Task) (state : ResolveState)

namespace Analysis

/-- The names bound so far. -/
def names : Analysis → NameTable
  | .defining names | .collecting _ names => names
  | .resolving _ state => state.names

/-- The steps of an analysis of a program.  A step that binds nothing is possible here whether or not
    all operands of its statement make sense, and an invocation whether or not its string is covered to
    the end, so no table of an analysis is missed. -/
inductive Step (program : List Statement) : Analysis → Analysis → Prop where
  | define {names name value names'} (h : Naming.define name value names = .ok () names') :
      Step program (.defining names) (.defining names')
  /-- a constant is refused, and the declarations from outside go on with the table that is left -/
  | refuse {names name value e names'} (h : Naming.define name value names = .error e names') :
      Step program (.defining names) (.defining names')
  | collect {names} : Step program (.defining names) (.collecting program names)
  | collectLabel {names name rest names'} (h : declareIn names name (.label false) = .ok names') :
      Step program (.collecting (.label name :: rest) names) (.collecting rest names')
  | collectNext {names word name inner rest names'}
      (h : declareIn names name (.label true) = .ok names') :
      Step program (.collecting (.next word name inner :: rest) names)
        (.collecting (inner :: rest) names')
  | collectParts {names st rest} (h : st.isLabel = false) :
      Step program (.collecting (st :: rest) names) (.collecting (st.parts ++ rest) names)
  | resolve {names} :
      Step program (.collecting [] names) (.resolving (tasksOf [] program) ⟨names, []⟩)
  | parts {scope st rest s} (h : st.bindsNothing = true) :
      Step program (.resolving (⟨scope, st⟩ :: rest) s)
        (.resolving (tasksOf scope st.parts ++ rest) s)
  | declaration {scope d rest s name b names}
      (h : Env.declaration ⟨s.names, scope⟩ d = .ok (name, b))
      (hd : s.names.declare name.text b = .ok names) :
      Step program (.resolving (⟨scope, .declaration d⟩ :: rest) s)
        (.resolving rest { s with names })
  | label {scope token rest s name t} (h : Env.declaredName ⟨s.names, scope⟩ token = .ok name)
      (hd : declareLabel scope name false s = .ok ((), t)) :
      Step program (.resolving (⟨scope, .label token⟩ :: rest) s) (.resolving rest t)
  | next {scope word token inner rest s name t}
      (h : Env.declaredName ⟨s.names, scope⟩ token = .ok name)
      (hd : declareLabel scope name true s = .ok ((), t)) :
      Step program (.resolving (⟨scope, .next word token inner⟩ :: rest) s)
        (.resolving (⟨scope, inner⟩ :: rest) t)
  | macroDef {scope word token params body rest s name names}
      (h : Env.declaredName ⟨s.names, scope⟩ token = .ok name)
      (hd : s.names.declare name.text (.macroDef params body) = .ok names) :
      Step program (.resolving (⟨scope, .macroDef word token params body⟩ :: rest) s)
        (.resolving rest { s with names })
  | stringMode {scope word token alphabet body rest s name names}
      (h : Env.declaredName ⟨s.names, scope⟩ token = .ok name)
      (hd : s.names.declareRule name.text ⟨alphabet, body⟩ = .ok names) :
      Step program (.resolving (⟨scope, .stringMode word token alphabet body⟩ :: rest) s)
        (.resolving rest { s with names })
  | invoke {scope word args rest s tasks t} (h : Expands scope s word args tasks t) :
      Step program (.resolving (⟨scope, .invoke word args⟩ :: rest) s) (.resolving (tasks ++ rest) t)
  | call {scope word rest s tasks t} (h : Expands scope s word [] tasks t) :
      Step program (.resolving (⟨scope, .call word⟩ :: rest) s) (.resolving (tasks ++ rest) t)

/-- The steps of an analysis, one after the other. -/
abbrev Run (program : List Statement) : Analysis → Analysis → Prop :=
  Relation.ReflTransGen (Step program)

variable {program : List Statement} {c c' : Analysis}

/-- The label of a step is one declaration in an expansion, and none outside of all of them. -/
theorem attempt_of_declareLabel {scope : Scope} {name : Token} {next : Bool} {s t : ResolveState}
    (h : declareLabel scope name next s = .ok ((), t)) :
    t.names = s.names ∨ s.names.declare name.text (.label next) = .ok t.names := by
  unfold declareLabel at h
  split at h
  · obtain ⟨-, rfl⟩ := Resolver.pure_eq_ok.mp h
    exact .inl rfl
  · obtain ⟨names, hd, rfl⟩ := Resolver.declare_eq_ok.mp h
    exact .inr hd

/-- An invocation is logged, and binds nothing yet. -/
theorem names_of_expands {scope : Scope} {s t : ResolveState} {word : Token} {args : List Token}
    {tasks : List Task} (h : Expands scope s word args tasks t) : t.names = s.names := by
  cases h <;> rfl

/-- **What a step does to the names**: it leaves them alone, or makes one declaration that succeeds. -/
theorem Step.attempt (h : Step program c c') :
    c'.names = c.names ∨ ∃ a : Attempt, a.run c.names = .ok () c'.names := by
  have hdeclared : ∀ {names names' : NameTable} {name b}, names.declare name b = .ok names' →
      ∃ a : Attempt, a.run names = .ok () names' := fun hd =>
    ⟨.bind _ _, Naming.outcome_eq_ok.mp hd⟩
  cases h with
  | define h => exact .inr (hdeclared (declareIn_eq_ok (Naming.outcome_eq_ok.mpr h)))
  | refuse h => exact .inl (Naming.define_atomic _ _ _ _ _ h)
  | collectLabel h | collectNext h => exact .inr (hdeclared (declareIn_eq_ok h))
  | declaration h hd | macroDef h hd => exact .inr (hdeclared hd)
  | label h hd | next h hd => exact (attempt_of_declareLabel hd).imp_right hdeclared
  | stringMode h hd => exact .inr ⟨.rule _ _, Naming.outcome_eq_ok.mp hd⟩
  | invoke h | call h => exact .inl (names_of_expands h)
  | collect | collectParts _ | resolve | parts _ => exact .inl rfl

theorem Step.names_extends (h : Step program c c') : c.names.Extends c'.names := by
  rcases h.attempt with heq | ⟨a, ha⟩
  · rw [heq]; exact .refl _
  · exact (Attempt.run_eq_ok ha).2

/-- **Along a run the names are only extended.** -/
theorem names_extends (h : Run program c c') : c.names.Extends c'.names := by
  induction h with
  | refl => exact .refl _
  | tail _ hstep ih => exact ih.trans hstep.names_extends

/-! ## Runs of whole phases -/

/-- A statement that holds others is replaced by them. -/
theorem run_parts {scope : Scope} {st : Statement} {rest : List Task} {s t : ResolveState}
    (hst : st.bindsNothing = true)
    (h : Run program (.resolving (tasksOf scope st.parts ++ rest) s) (.resolving rest t)) :
    Run program (.resolving (⟨scope, st⟩ :: rest) s) (.resolving rest t) :=
  .head (.parts hst) h

theorem tasksOf_append (scope : Scope) (a b : List Statement) :
    tasksOf scope (a ++ b) = tasksOf scope a ++ tasksOf scope b := by
  simp [tasksOf]

/-- Tasks that can be resolved are worked off, one after the other. -/
theorem run_of_resolves {tasks : List Task} {s t : ResolveState} {items : List Item}
    (h : Resolves tasks s items t) : ∀ rest, Run program (.resolving (tasks ++ rest) s)
      (.resolving rest t) := by
  induction h with
  | nil => exact fun rest => .refl
  | append ha hb iha ihb =>
    intro rest
    rw [List.append_assoc]
    exact (iha _).trans (ihb rest)
  | simple h => exact fun rest => .single (.parts rfl)
  | declaration h hd => exact fun rest => .single (.declaration h hd)
  | label h hd => exact fun rest => .single (.label h hd)
  | next h hd hi ih => exact fun rest => .head (.next h hd) (ih rest)
  | macroDef h hd => exact fun rest => .single (.macroDef h hd)
  | stringMode h hd => exact fun rest => .single (.stringMode h hd)
  | invoke h hi ih => exact fun rest => .head (.invoke h) (ih rest)
  | callMacro h hi ih => exact fun rest => .head (.call h) (ih rest)
  | callNumber h hkind hv => exact fun rest => .single (.parts rfl)
  | callLabel h hkind hbound => exact fun rest => .single (.parts rfl)
  | callValue h => exact fun rest => .single (.parts rfl)
  | ifThen hc hb ih => exact fun rest => run_parts rfl (ih rest)
  | ifBegin hc hb ih => exact fun rest => run_parts rfl (ih rest)
  | whileDo hc hb ih => exact fun rest => run_parts rfl (ih rest)
  | loop hb ih => exact fun rest => run_parts rfl (ih rest)
  | ifElse hc hb ho ihb iho =>
    intro rest
    refine run_parts rfl ?_
    show Run program (.resolving (tasksOf _ (_ ++ _) ++ rest) _) _
    rw [tasksOf_append, List.append_assoc]
    exact (ihb _).trans (iho rest)
  | @loopUntil scope s token body leave condition cond items t hb hc ih =>
    intro rest
    refine run_parts rfl ?_
    show Run program (.resolving (tasksOf _ (_ ++ _) ++ rest) _) _
    rw [tasksOf_append, List.append_assoc]
    -- the condition at the end of the loop binds nothing
    have hleave : Step program (.resolving (⟨scope, .breakIf leave condition⟩ :: rest) t)
        (.resolving rest t) := .parts rfl
    exact (ih _).trans (.single hleave)

theorem run_collectParts (st : Statement) {rest : List Statement} {names names' : NameTable}
    (hst : st.isLabel = false)
    (h : Run program (.collecting (st.parts ++ rest) names) (.collecting rest names')) :
    Run program (.collecting (st :: rest) names) (.collecting rest names') :=
  .head (.collectParts hst) h

mutual

theorem run_of_collectLabels : ∀ (st : Statement) {names names' : NameTable}
    (rest : List Statement), collectLabels names st = .ok names' →
      Run program (.collecting (st :: rest) names) (.collecting rest names')
  | .label name, names, names', rest, h => .single (.collectLabel h)
  | .next word name inner, names, names', rest, h => by
    obtain ⟨names₁, hname, h⟩ := bind_eq_ok.mp h
    exact .head (.collectNext hname) (run_of_collectLabels inner rest h)
  | .ifThen token cond body, names, names', rest, h =>
    run_collectParts (.ifThen token cond body) rfl (run_of_collectLabels body rest h)
  | .whileDo token cond body, names, names', rest, h =>
    run_collectParts (.whileDo token cond body) rfl (run_of_collectLabels body rest h)
  | .ifBegin token cond body, names, names', rest, h =>
    run_collectParts (.ifBegin token cond body) rfl (run_of_collectBlockLabels body rest h)
  | .loop token body, names, names', rest, h =>
    run_collectParts (.loop token body) rfl (run_of_collectBlockLabels body rest h)
  | .ifElse token cond body otherwise, names, names', rest, h => by
    obtain ⟨names₁, hbody, h⟩ := bind_eq_ok.mp h
    refine run_collectParts (.ifElse token cond body otherwise) rfl ?_
    show Run program (.collecting ((body ++ otherwise) ++ rest) names) _
    rw [List.append_assoc]
    exact (run_of_collectBlockLabels body _ hbody).trans (run_of_collectBlockLabels otherwise rest h)
  | .simple _, names, names', rest, h | .declaration _, names, names', rest, h
  | .macroDef .., names, names', rest, h | .stringMode .., names, names', rest, h
  | .invoke .., names, names', rest, h | .call _, names, names', rest, h
  | .breakIf .., names, names', rest, h => by
    obtain rfl := Except.ok.inj h
    exact run_collectParts _ rfl .refl

theorem run_of_collectBlockLabels : ∀ (body : List Statement) {names names' : NameTable}
    (rest : List Statement), collectBlockLabels names body = .ok names' →
      Run program (.collecting (body ++ rest) names) (.collecting rest names')
  | [], names, names', rest, h => by
    obtain rfl := Except.ok.inj h
    exact .refl
  | st :: body, names, names', rest, h => by
    obtain ⟨names₁, hst, h⟩ := bind_eq_ok.mp h
    exact (run_of_collectLabels st _ hst).trans (run_of_collectBlockLabels body rest h)

end

end Analysis

/-! ## Declarations from outside -/

/-- The constants that were not refused, by what became of each. -/
def successful (defines : List (String × Int)) (results : List (Except ResolveError Unit)) :
    List (String × Int) :=
  ((defines.zip results).filter (·.2.isOk)).map (·.1)

/-- Without the refused constants all declarations succeed, and lead to the same names. -/
theorem defineAll_successful (names : NameTable) (defines : List (String × Int)) :
    defineAll names (successful defines (defineEach names defines).1) =
      .ok (defineEach names defines).2 := by
  induction defines generalizing names with
  | nil => rfl
  | cons entry rest ih =>
    obtain ⟨name, value⟩ := entry
    rw [defineEach]
    cases h : Naming.define name value names with
    | ok u names' =>
      have hdefine : define names name value = .ok names' := Naming.outcome_eq_ok.mpr h
      show (define names name value >>= fun t => defineAll t (successful rest _)) = _
      rw [hdefine, ok_bind]
      exact ih names'
    | error e names' =>
      -- the refused constant has left the table as it was
      obtain rfl := Naming.define_atomic name value names e names' h
      exact ih names'

theorem Analysis.run_of_defineEach {program : List Statement} (names : NameTable)
    (defines : List (String × Int)) :
    Run program (.defining names) (.defining (defineEach names defines).2) := by
  induction defines generalizing names with
  | nil => exact .refl
  | cons entry rest ih =>
    obtain ⟨name, value⟩ := entry
    rw [defineEach]
    cases h : Naming.define name value names with
    | ok u names' => exact .head (.define h) (ih names')
    | error e names' => exact .head (.refuse h) (ih names')

/-! ## All analyses -/

/-- What holds of the names along every analysis of a program. -/
structure StableNames (program : List Statement) : Prop where
  /-- a declaration that fails leaves the table as it was -/
  failed : ∀ (names : NameTable) (a : Attempt) cause names', a.run names = .error cause names' →
    names' = names
  /-- one that succeeds changes the entry of its name only -/
  succeeded : ∀ (names : NameTable) (a : Attempt) names', a.run names = .ok () names' →
    ∀ other, other ≠ a.name → names'.get? other = names.get? other
  /-- every step leaves the names alone or makes one such declaration -/
  step : ∀ c c', Analysis.Step program c c' →
    c'.names = c.names ∨ ∃ a : Attempt, a.run c.names = .ok () c'.names
  /-- no name is lost or changes its kind, and labels, constants and macros stay what they are -/
  later : ∀ c c', Analysis.Run program c c' → ∀ name b, c.names.get? name = some b →
    ∃ b', c'.names.get? name = some b' ∧ b'.kind = b.kind ∧ (b.kind.fixed = true → b' = b)
  /-- an analysis gets through its phases by such steps, as far as its statements resolve -/
  passes : ∀ defines labelled before rest limit items state, program = before ++ rest →
    collectBlockLabels (defineEach [] defines).2 program = .ok labelled →
    resolveBlock (expandWithin limit limit) [] before ⟨labelled, []⟩ = .ok (items, state) →
    Analysis.Run program (.defining []) (.defining (defineEach [] defines).2) ∧
      Analysis.Run program (.defining (defineEach [] defines).2) (.collecting [] labelled) ∧
      Analysis.Run program (.collecting [] labelled) (.resolving (tasksOf [] rest) state)
  /-- constants that were refused leave no trace in the result -/
  refused : ∀ (options : Options) defines,
    resolveWith (defineEach [] defines).2 options.maxExpansionDepth program =
      resolve { options with defines := successful defines (defineEach [] defines).1 } program

/-- **Names are stable**: whatever is declared, in whatever order, and whatever fails.  What carries all
    of it is that a declaration checks before it changes the table, and then changes one entry into what
    that entry may become; a run is a chain of such changes. -/
theorem names_stable (program : List Statement) : StableNames program where
  failed := fun names a cause names' h => a.run_atomic names cause names' h
  succeeded := fun names a names' h => (Attempt.run_eq_ok h).1
  step := fun c c' h => h.attempt
  later := by
    intro c c' h name b hb
    obtain ⟨b', hb', hbecomes⟩ := Analysis.names_extends h name b hb
    exact ⟨b', hb', hbecomes.kind, hbecomes.fixed⟩
  passes := by
    rintro defines labelled before rest limit items state rfl hlabelled hresolved
    have hcollected : Analysis.Run (before ++ rest)
        (.collecting (before ++ rest ++ []) (defineEach [] defines).2) (.collecting [] labelled) :=
      Analysis.run_of_collectBlockLabels _ [] hlabelled
    have hbefore := resolveBlock_derivation (expandWithin_derives limit limit) before hresolved
    have hrun : Analysis.Run (before ++ rest)
        (.resolving (tasksOf [] before ++ tasksOf [] rest) ⟨labelled, []⟩)
        (.resolving (tasksOf [] rest) state) := Analysis.run_of_resolves hbefore _
    rw [List.append_nil] at hcollected
    rw [← Analysis.tasksOf_append] at hrun
    exact ⟨Analysis.run_of_defineEach [] defines, .head .collect hcollected, .head .resolve hrun⟩
  refused := by
    intro options defines
    rw [resolve, defineAll_successful, ok_bind]

end OctoAsm
