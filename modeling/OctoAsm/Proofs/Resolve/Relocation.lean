/-
  Resolving the same statements on other lines.

  Lines go into diagnostics and into the sites of items, and nowhere else.  Two resolutions of the
  same statements on different lines therefore take the same turns: either both fail, or both give
  the same items at sites that differ in their lines only (`resolveBlock_relined`).  What has to be
  carried along are the tokens that a resolution keeps, in the bodies of macros and stringmodes and in
  the arguments of expansions (`ResolveState.Relined`).  The tables of names are compared by what they
  bind, not by how they came about.

  The walk follows the definitions, one lemma to a function.  Every lemma says that two outcomes
  agree, so success and failure are settled together.
-/
import OctoAsm.Proofs.Names
import OctoAsm.Proofs.Program
import OctoAsm.Proofs.Resolve.Derivation
import OctoAsm.Proofs.Statement.Relocation
import OctoAsm.Resolve.Expansion

namespace OctoAsm

/-! ## What a resolution keeps -/

/-- A rule of a stringmode with its tokens changed. -/
def CharRule.mapTokens (f : Token → Token) (r : CharRule) : CharRule :=
  ⟨f r.alphabet, mapTokensAll f r.body⟩

/-- A binding with its tokens changed. -/
def Binding.mapTokens (f : Token → Token) : Binding → Binding
  | .macroDef params body => .macroDef (params.map f) (mapTokensAll f body)
  | .stringMode rules => .stringMode (rules.map (CharRule.mapTokens f))
  | b => b

/-- The bindings of an expansion with their tokens changed. -/
def Frame.mapTokens (f : Token → Token) (frame : Frame) : Frame :=
  { frame with args := frame.args.map fun a => (a.1, f a.2) }

/-- The second table binds the names of the first one, to the same things on other lines. -/
def NameTable.Relined (f : Token → Token) (t t' : NameTable) : Prop :=
  ∀ name, t'.get? name = (t.get? name).map (Binding.mapTokens f)

/-- What a statement sees, and what it sees on other lines. -/
structure Env.Relined (f : Token → Token) (env env' : Env) : Prop where
  names : env.names.Relined f env'.names
  scope : env'.scope = env.scope.map (Frame.mapTokens f)

/-- A state of a resolution, and the same state on other lines. -/
structure ResolveState.Relined (f : Token → Token) (s s' : ResolveState) : Prop where
  names : s.names.Relined f s'.names
  log : s'.log = s.log

/-- Sites with the same text. -/
def SameText (x y : Site) : Prop := x.text = y.text

/-- A site names its text and its line, and only the line is another one. -/
theorem Relines.sameText {f : Token → Token} (hf : Relines f) (t : Token) :
    SameText t.site (f t).site := (hf.text t).symm

/-- Changing tokens leaves the kind of a binding alone, so a table refuses the same declarations. -/
@[simp] theorem Binding.kind_mapTokens (f : Token → Token) (b : Binding) :
    (b.mapTokens f).kind = b.kind := by
  cases b <;> rfl

/-- A binding to a register has no tokens that could change. -/
@[simp] theorem Binding.register?_mapTokens (f : Token → Token) (b : Binding) :
    (b.mapTokens f).register? = b.register? := by
  cases b <;> rfl

/-- Whether a declaration yields to an earlier one is read off the two kinds. -/
@[simp] theorem Binding.yieldsTo_mapTokens (f : Token → Token) (b b' : Binding) :
    (b.mapTokens f).yieldsTo (b'.mapTokens f) = b.yieldsTo b' := by
  cases b with
  | label next => cases next <;> cases b' <;> rfl
  | _ => cases b' <;> rfl

/-! ## Names -/

namespace NameTable.Relined

variable {f : Token → Token} {t t' : NameTable}

/-- Binding a name on both sides keeps the tables alike, at this name and at every other one. -/
theorem set (h : t.Relined f t') (name : String) (b : Binding) :
    (t.set name b).Relined f (t'.set name (b.mapTokens f)) := by
  intro other
  by_cases hother : other = name
  · subst hother
    rw [get?_set_self, get?_set_self]
    rfl
  · rw [get?_set_of_ne _ _ hother, get?_set_of_ne _ _ hother, h other]

/-- A declaration asks for one binding only, that of its name. -/
theorem declare_agree {R : NameTable → NameTable → Prop} {name : String} {b : Binding}
    (hget : t'.get? name = (t.get? name).map (Binding.mapTokens f))
    (hset : R (t.set name b) (t'.set name (b.mapTokens f))) :
    Agree R (t.declare name b) (t'.declare name (b.mapTokens f)) := by
  rw [NameTable.declare_def, NameTable.declare_def, hget]
  cases t.get? name with
  | none => exact .ok hset
  | some old =>
    simp only [Option.map_some, Binding.yieldsTo_mapTokens, Binding.kind_mapTokens]
    split
    · exact .ok hset
    · split <;> exact .error

/-- A name is declared in both tables or refused by both. -/
theorem declare (h : t.Relined f t') (name : String) (b : Binding) :
    Agree (Relined f) (t.declare name b) (t'.declare name (b.mapTokens f)) :=
  declare_agree (h name) (h.set name b)

/-- Which character two rules share is read off the texts of their alphabets. -/
theorem sharedChar?_mapTokens (hf : Relines f) (rules : List CharRule) (alphabet : String) :
    sharedChar? (rules.map (CharRule.mapTokens f)) alphabet = sharedChar? rules alphabet := by
  unfold sharedChar?
  rw [List.flatMap_map]
  simp only [CharRule.mapTokens, hf.text]

/-- Declaring a rule looks at kinds and alphabets only: both tables take it, or both refuse it for
    the same character. -/
theorem declareRule (hf : Relines f) (h : t.Relined f t') (name : String) (rule : CharRule) :
    Agree (Relined f) (t.declareRule name rule) (t'.declareRule name (rule.mapTokens f)) := by
  have hfresh := h.declare name (.stringMode [rule])
  rw [NameTable.declareRule_def, NameTable.declareRule_def, h name]
  cases t.get? name with
  | none => exact hfresh
  | some old =>
    cases old with
    | stringMode rules =>
      have hshared : sharedChar? (rules.map (CharRule.mapTokens f)) (rule.mapTokens f).alphabet.text =
          sharedChar? rules rule.alphabet.text := by
        rw [sharedChar?_mapTokens hf, CharRule.mapTokens, hf.text]
      simp only [Option.map_some, Binding.mapTokens, hshared]
      split
      · exact .error
      · have hrules := h.set name (.stringMode (rules ++ [rule]))
        rw [Binding.mapTokens, List.map_append] at hrules
        exact .ok hrules
    | _ => exact hfresh

/-- What is a label stays one, as the two tables bind the same names to the same kinds. -/
theorem isLabel (h : t.Relined f t') (name : String) : t'.isLabel name = t.isLabel name := by
  unfold NameTable.isLabel
  rw [h name]
  cases t.get? name with
  | none => rfl
  | some b => cases b <;> rfl

end NameTable.Relined

/-! ## Substitution -/

section Scopes

variable {f : Token → Token}

/-- Mapping the values of an association list maps what is looked up. -/
theorem lookup_map_snd {α β : Type} {f : α → β} (name : String) (table : List (String × α)) :
    (table.map fun entry => (entry.1, f entry.2)).lookup name = (table.lookup name).map f := by
  induction table with
  | nil => rfl
  | cons entry rest ih =>
    rw [List.map_cons, List.lookup_cons, List.lookup_cons, ih]
    cases name == entry.1 <;> rfl

/-- The reserved constants take their texts from the frame, which has the same name, number and
    character on both sides. -/
theorem reserved_relined (hf : Relines f) (frame : Option Frame) (t : Token) (c : Constant) :
    Agree (fun u u' => u' = f u) (t.reserved frame c)
      ((f t).reserved (frame.map (Frame.mapTokens f)) c) := by
  have hvalue : c.valueIn (frame.map (Frame.mapTokens f)) = c.valueIn frame := by
    cases frame <;> cases c <;> rfl
  unfold Token.reserved
  rw [hvalue]
  cases c.valueIn frame with
  | error cause => exact .error
  | ok value =>
    cases value with
    | none => exact .ok rfl
    | some n => exact .ok (hf.setKind t _).symm

/-- A token is replaced by the same argument on other lines: the look-up goes by text, and the
    frames of both scopes have the same parameters. -/
theorem Scope.substitute_relined (hf : Relines f) (scope : Scope) (t : Token) :
    Agree (fun u u' => u' = f u) (scope.substitute t)
      (Scope.substitute (scope.map (Frame.mapTokens f)) (f t)) := by
  induction scope generalizing t with
  | nil =>
    unfold Scope.substitute
    simp only [List.map_nil, hf.kind]
    cases t.kind with
    | constant c => exact reserved_relined hf none t c
    | _ => exact .ok rfl
  | cons frame outer ih =>
    unfold Scope.substitute
    simp only [List.map_cons, hf.kind]
    cases t.kind with
    | name =>
      -- the search goes on outside with the argument, or with the name itself
      have harg : ((Frame.mapTokens f frame).args.lookup (f t).text).getD (f t) =
          f ((frame.args.lookup t.text).getD t) := by
        rw [hf.text, Frame.mapTokens, lookup_map_snd]
        cases frame.args.lookup t.text <;> rfl
      rw [harg]
      exact ih _
    | constant c => exact reserved_relined hf (some frame) t c
    | _ => exact .ok rfl

end Scopes

/-! ## Operands -/

section Operands

variable {f : Token → Token} {env env' : Env}

/-- Substitution reads the scope alone, and the scopes correspond. -/
theorem substitute_relined (hf : Relines f) (h : env.Relined f env') (t : Token) :
    Agree (fun u u' => u' = f u) (env.substitute t) (env'.substitute (f t)) := by
  have hscope := Scope.substitute_relined hf env.scope t
  unfold Env.substitute
  rw [h.scope]
  generalize env.scope.substitute t = x, Scope.substitute (env.scope.map (Frame.mapTokens f)) (f t) = y
    at hscope
  cases hscope with
  | ok hu => exact .ok hu
  | error => exact .error

/-- A declared name is refused for its text, whatever its line is. -/
theorem declaredName_relined (hf : Relines f) (h : env.Relined f env') (t : Token) :
    Agree (fun u u' => u' = f u) (env.declaredName t) (env'.declaredName (f t)) := by
  refine (substitute_relined hf h t).bind fun u _ hu => ?_
  subst hu
  simp only [hf.kind]
  cases u.kind with
  | name => exact .ok rfl
  | _ => exact .error

/-- A register is found by its digit or by an alias of the same text. -/
theorem registerOf?_relined (hf : Relines f) (h : env.Relined f env') (t : Token) :
    env'.registerOf? (f t) = env.registerOf? t := by
  unfold Env.registerOf?
  rw [hf.kind, hf.text, h.names]
  split
  · rfl
  · cases env.names.get? t.text with
    | none => rfl
    | some b => exact b.register?_mapTokens f
  · rfl

/-- Being a register is decided by the substituted token, which has the same kind and text. -/
theorem register?_relined (hf : Relines f) (h : env.Relined f env') (t : Token) :
    Agree Eq (env.register? t) (env'.register? (f t)) := by
  refine (substitute_relined hf h t).bind fun u _ hu => ?_
  subst hu
  rw [registerOf?_relined hf h]
  exact .ok rfl

/-- A register operand gives the same register, or an error on both sides. -/
theorem register_relined (hf : Relines f) (h : env.Relined f env') (r : RegRef) :
    Agree Eq (env.register r) (env'.register (r.mapTokens f)) := by
  cases r with
  | literal t n => exact .ok rfl
  | named t =>
    refine (substitute_relined hf h t).bind fun u _ hu => ?_
    subst hu
    rw [registerOf?_relined hf h]
    cases env.registerOf? u with
    | some n => exact .ok rfl
    | none =>
      simp only [hf.kind, hf.text, h.names u.text]
      cases u.kind with
      | name => cases env.names.get? u.text <;> exact .error
      | _ => exact .error

/-- A configurable register is looked up by its fixed name, and no tokens enter. -/
theorem hook_relined (h : env.Relined f env') (name : String) (usual : Fin 16) :
    env'.hook name usual = env.hook name usual := by
  unfold Env.hook
  rw [h.names]
  cases env.names.get? name with
  | none => rfl
  | some b => simp only [Option.map_some, Option.bind_some, Binding.register?_mapTokens]

/-! ## Calc expressions and values -/

/-- An expression becomes an immediate at any token: the token serves the error only. -/
theorem immOf_relined (t t' : Token) (e : Expr) : Agree Eq (Env.immOf t e) (Env.immOf t' e) := by
  cases e with
  | number x =>
    simp only [Env.immOf]
    cases Calc.toInt? x with
    | some n => exact .ok rfl
    | none => exact .error
  | _ => exact .ok rfl

/-- A calc name stands for the same expression in both tables, or is refused by both. -/
theorem calcName_relined (hf : Relines f) (h : env.Relined f env') (t : Token) :
    Agree Eq (env.calcName t) (env'.calcName (f t)) := by
  refine (substitute_relined hf h t).bind fun u _ hu => ?_
  subst hu
  simp only [hf.kind, hf.text, h.names u.text]
  cases u.kind with
  | number n => exact .ok rfl
  | constant c =>
    cases c with
    | key value => exact .ok rfl
    | _ => exact .error
  | name =>
    cases env.names.get? u.text with
    | none => exact .error
    | some b =>
      cases b with
      | const n => exact .ok rfl
      | calcName e depth => exact .ok rfl
      | _ => exact .error
  | _ => exact .error

/-- An address is taken of a label of the same text. -/
theorem addressOf_relined (hf : Relines f) (h : env.Relined f env') (t : Token) (e : CalcExpr) :
    Agree Eq (env.addressOf t e) (env'.addressOf (f t) (e.mapTokens f)) := by
  cases e with
  | name name =>
    refine (substitute_relined hf h name).bind fun u _ hu => ?_
    subst hu
    simp only [hf.kind, hf.text, h.names u.text]
    cases u.kind with
    | name =>
      cases env.names.get? u.text with
      | none => exact .error
      | some b =>
        cases b with
        | label next => exact .ok rfl
        | _ => exact .error
    | _ => exact .error
  | _ => exact .error

/-- The length of a text is read off the text. -/
theorem lengthOf_relined (hf : Relines f) (t : Token) :
    Agree Eq (Env.lengthOf t) (Env.lengthOf (f t)) := by
  unfold Env.lengthOf
  rw [hf.kind, hf.text]
  split
  · exact .ok rfl
  · exact .error

/-- `strlen` substitutes its operand and then reads a text, and both steps agree. -/
theorem strlen_relined (hf : Relines f) (h : env.Relined f env') (t : Token) (e : CalcExpr) :
    Agree Eq (env.strlen t e) (env'.strlen (f t) (e.mapTokens f)) := by
  cases e with
  | string s => exact lengthOf_relined hf s
  | name name =>
    refine (substitute_relined hf h name).bind fun u _ hu => ?_
    subst hu
    exact lengthOf_relined hf u
  | _ => exact .error

/-- By induction on the expression: folding reads names, numbers and lengths, and none
    has a line. -/
theorem fold_relined (hf : Relines f) (h : env.Relined f env') (e : CalcExpr) :
    Agree Eq (env.fold e) (env'.fold (e.mapTokens f)) := by
  induction e with
  | number t x => exact .ok rfl
  | string t => exact .error
  | name t => exact calcName_relined hf h t
  | unary t op e ih =>
    cases op with
    | addressOf => exact addressOf_relined hf h t e
    | strlen => exact strlen_relined hf h t e
    | _ => exact ih.bind_eq fun r => .ok rfl
  | binary t op a b iha ihb => exact iha.bind_eq fun x => ihb.bind_eq fun y => .ok rfl

/-- The bound on the depth is checked on the folded expression, which is the same one. -/
theorem bounded_relined (hf : Relines f) (h : env.Relined f env') (e : CalcExpr) :
    Agree Eq (env.bounded e) (env'.bounded (e.mapTokens f)) := by
  refine (fold_relined hf h e).bind_eq fun r => ?_
  dsimp only
  split
  · exact .ok rfl
  · exact .error

/-- A braced expression is folded under its bound, and made an immediate at a token of its own. -/
theorem calcImm_relined (hf : Relines f) (h : env.Relined f env') (e : CalcExpr) :
    Agree Eq (env.calcImm e) (env'.calcImm (e.mapTokens f)) :=
  (bounded_relined hf h e).bind_eq fun r => immOf_relined _ _ r.1

/-- A value is a number, a constant of the table or a name kept for the generator; the two sides
    take the same case. -/
theorem value_relined (hf : Relines f) (h : env.Relined f env') (v : ValueRef) :
    Agree Eq (env.value v) (env'.value (v.mapTokens f)) := by
  cases v with
  | number t n => exact .ok rfl
  | register r => exact .error
  | named t =>
    refine (substitute_relined hf h t).bind fun u _ hu => ?_
    subst hu
    simp only [hf.kind, hf.text, h.names u.text]
    cases u.kind with
    | number n => exact .ok rfl
    | constant c => cases c <;> exact .error
    | name =>
      cases env.names.get? u.text with
      | none => exact .error
      | some b =>
        cases b with
        | label next => exact .ok rfl
        | const n => exact .ok rfl
        | calcName e depth => exact immOf_relined _ _ e
        | _ => exact .error
    | _ => exact .error

/-- The check of a range looks at the number; the token is there for the error. -/
theorem inRange_relined (t t' : Token) (bits : Nat) (v : Imm) :
    Agree Eq (Env.inRange t bits v) (Env.inRange t' bits v) := by
  cases v with
  | number n =>
    simp only [Env.inRange]
    by_cases hfits : Calc.fits n bits = true
    · rw [if_pos hfits, if_pos hfits]
      exact .ok rfl
    · rw [if_neg hfits, if_neg hfits]
      exact .error
  | _ => exact .ok rfl

/-- A value with its range checked, both steps in agreement. -/
theorem imm_relined (hf : Relines f) (h : env.Relined f env') (bits : Nat) (v : ValueRef) :
    Agree Eq (env.imm bits v) (env'.imm bits (v.mapTokens f)) :=
  (value_relined hf h v).bind_eq fun n => inRange_relined _ _ bits n

/-- The argument of a directive, bare or in braces. -/
theorem operand_relined (hf : Relines f) (h : env.Relined f env') (bits : Nat) (o : Operand) :
    Agree Eq (env.operand bits o) (env'.operand bits (o.mapTokens f)) := by
  cases o with
  | value v => exact imm_relined hf h bits v
  | braced e => exact (calcImm_relined hf h e).bind_eq fun v => inRange_relined _ _ bits v

/-- Where a name may be a register's or a value's. -/
theorem either_relined {α : Type} (hf : Relines f) (h : env.Relined f env') (bits : Nat)
    (t : Token) (reg : Fin 16 → α) (val : Imm → α) :
    Agree Eq (env.register? t >>= fun
        | some r => pure (reg r)
        | none => env.imm bits (.named t) >>= fun v => pure (val v))
      (env'.register? (f t) >>= fun
        | some r => pure (reg r)
        | none => env'.imm bits (.named (f t)) >>= fun v => pure (val v)) := by
  refine (register?_relined hf h t).bind_eq fun r => ?_
  cases r with
  | some r => exact .ok rfl
  | none => exact (imm_relined hf h bits (.named t)).bind_eq fun v => .ok rfl

/-! ## Statements that stand alone -/

/-- One case to a form of assignment, each a row of operands that agree; the site has the
    same text. -/
theorem assignment_relined (hf : Relines f) (h : env.Relined f env') (a : Assignment) :
    Agree (fun p p' => p' = (f p.1, p.2)) (env.assignment a) (env'.assignment (a.mapTokens f)) := by
  have hreg := register_relined hf h
  have himm := imm_relined hf h
  cases a with
  | delaySet t src | buzzerSet t src | delayGet t src | keyInput t src | indexAdd t src
  | charSprite t src => exact (hreg src).bind_eq fun x => .ok rfl
  | random t dst mask =>
    exact (hreg dst).bind_eq fun x => (himm 8 mask).bind_eq fun v => .ok rfl
  | indexSet t v => exact (himm 12 v).bind_eq fun v => .ok rfl
  | register t dst op src =>
    exact (hreg dst).bind_eq fun x => (hreg src).bind_eq fun y => .ok rfl
  | immediate t dst op v =>
    exact (hreg dst).bind_eq fun x => (himm 8 v).bind_eq fun v => .ok rfl
  | ambiguous t dst op src =>
    refine (hreg dst).bind_eq fun x => (register?_relined hf h src).bind_eq fun y => ?_
    cases y with
    | some y => exact .ok rfl
    | none => exact (himm 8 (.named src)).bind_eq fun v => .ok rfl

/-- The target of a monitor is a register or a value, decided by the substituted token. -/
theorem monitorTarget_relined (hf : Relines f) (h : env.Relined f env') (v : ValueRef) :
    Agree Eq (env.monitorTarget v) (env'.monitorTarget (v.mapTokens f)) := by
  cases v with
  | register r => exact (register_relined hf h r).bind_eq fun x => .ok rfl
  | named t => exact either_relined hf h 12 t _ _
  | number t n => exact (imm_relined hf h 12 (.number t n)).bind_eq fun v => .ok rfl

/-- The format of a monitor is read off a text. -/
theorem monitorFormat_relined (hf : Relines f) (style : MonitorStyle) :
    Env.monitorFormat (style.mapTokens f) = Env.monitorFormat style := by
  cases style with
  | length t n => rfl
  | format t => exact congrArg MonitorFormat.format (hf.text t)

/-- The tag of a sprite is a nibble where there is one. -/
theorem tag_relined (hf : Relines f) (h : env.Relined f env') (tag : Option ValueRef) :
    Agree Eq (tag.mapM (env.imm 4)) ((tag.map (ValueRef.mapTokens f)).mapM (env'.imm 4)) := by
  cases tag with
  | none => exact .ok rfl
  | some v => exact (imm_relined hf h 4 v).bind_eq fun v => .ok rfl

/-- One case to a simple statement, each a row of operands that agree. -/
theorem simple_relined (hf : Relines f) (h : env.Relined f env') (s : Simple) :
    Agree (fun p p' => p' = (f p.1, p.2)) (env.simple s) (env'.simple (s.mapTokens f)) := by
  have hreg := register_relined hf h
  have himm := imm_relined hf h
  cases s with
  | ret t | clear t => exact .ok rfl
  | bcd t r | save t r | load t r => exact (hreg r).bind_eq fun x => .ok rfl
  | sprite t x y v =>
    exact (hreg x).bind_eq fun x => (hreg y).bind_eq fun y => (himm 4 v).bind_eq fun v => .ok rfl
  | jump t v | jumpOffset t v | callAddress t v => exact (himm 12 v).bind_eq fun v => .ok rfl
  | datum t n => exact (inRange_relined t (f t) 8 (.number n)).bind_eq fun v => .ok rfl
  | assign a =>
    refine (assignment_relined hf h a).bind fun p _ hp => ?_
    subst hp
    exact .ok rfl
  | unpack t tag v =>
    refine (tag_relined hf h tag).bind_eq fun tag => (himm 16 v).bind_eq fun v => ?_
    rw [hook_relined h, hook_relined h]
    exact .ok rfl
  | org t o | pointer t o => exact (operand_relined hf h 16 o).bind_eq fun v => .ok rfl
  | byte t o => exact (operand_relined hf h 8 o).bind_eq fun v => .ok rfl
  | assertion t message e =>
    refine (calcImm_relined hf h e).bind_eq fun v => ?_
    have hmessage : (message.map f).map (·.text) = message.map (·.text) := by
      cases message with
      | none => rfl
      | some m => exact congrArg some (hf.text m)
    rw [hmessage]
    exact .ok rfl
  | breakpoint t name =>
    refine (declaredName_relined hf h name).bind fun u _ hu => ?_
    subst hu
    rw [hf.text]
    exact .ok rfl
  | monitor t v style =>
    refine (monitorTarget_relined hf h v).bind_eq fun target => ?_
    rw [monitorFormat_relined hf]
    exact .ok rfl

/-- The right side of a condition is a register or a byte, decided by the substituted token. -/
theorem condRhs_relined (hf : Relines f) (h : env.Relined f env') (v : ValueRef) :
    Agree Eq (env.condRhs v) (env'.condRhs (v.mapTokens f)) := by
  cases v with
  | register r => exact (register_relined hf h r).bind_eq fun x => .ok rfl
  | named t => exact either_relined hf h 8 t _ _
  | number t n => exact (imm_relined hf h 8 (.number t n)).bind_eq fun v => .ok rfl

/-- A condition is resolved to the same comparison, on the same scratch registers. -/
theorem condition_relined (hf : Relines f) (h : env.Relined f env') (c : Condition) :
    Agree Eq (env.condition c) (env'.condition (c.mapTokens f)) := by
  cases c with
  | key r pressed => exact (register_relined hf h r).bind_eq fun x => .ok rfl
  | compare r op rhs =>
    refine (register_relined hf h r).bind_eq fun x => (condRhs_relined hf h rhs).bind_eq fun y => ?_
    rw [hook_relined h]
    dsimp only
    split
    · exact .error
    · exact .ok rfl

/-- An alias is bound to the same register or the same expression. -/
theorem aliasBinding_relined (hf : Relines f) (h : env.Relined f env') (target : AliasTarget) :
    Agree (fun b b' => b' = b.mapTokens f) (env.aliasBinding target)
      (env'.aliasBinding (target.mapTokens f)) := by
  cases target with
  | register r => exact (register_relined hf h r).bind_eq fun x => .ok rfl
  | braced e =>
    refine (calcImm_relined hf h e).bind_eq fun v => ?_
    cases v with
    | number n =>
      dsimp only
      split
      · exact .ok rfl
      · exact .error
    | _ => exact .error

/-- What a declaration binds: the same name to the same thing, with the tokens of its bodies on
    other lines. -/
theorem declaration_relined (hf : Relines f) (h : env.Relined f env') (d : Declaration) :
    Agree (fun p p' => p' = (f p.1, p.2.mapTokens f)) (env.declaration d)
      (env'.declaration (d.mapTokens f)) := by
  cases d with
  | aliasName t name target =>
    refine (declaredName_relined hf h name).bind fun u _ hu => ?_
    subst hu
    refine (aliasBinding_relined hf h target).bind fun b _ hb => ?_
    subst hb
    exact .ok rfl
  | const t name v =>
    refine (declaredName_relined hf h name).bind fun u _ hu => ?_
    subst hu
    refine (value_relined hf h v).bind_eq fun n => ?_
    cases n with
    | number n => exact .ok rfl
    | _ => exact .error
  | calcName t name e =>
    refine (declaredName_relined hf h name).bind fun u _ hu => ?_
    subst hu
    exact (bounded_relined hf h e).bind_eq fun r => .ok rfl

end Operands

/-! ## Steps of a resolution -/

/-- Two steps agree on states that differ in their lines. -/
def Resolver.Agree {α β : Type} (f : Token → Token) (R : α → β → Prop) (x : Resolver α)
    (y : Resolver β) : Prop :=
  ∀ s s', s.Relined f s' →
    OctoAsm.Agree (fun p p' => R p.1 p'.1 ∧ p.2.Relined f p'.2) (x s) (y s')

namespace Resolver.Agree

variable {α β γ δ : Type} {f : Token → Token} {R : α → β → Prop} {S : γ → δ → Prop}

/-- Runs in agreement one after the other, where the results of the first ones are related. -/
theorem bind {x : Resolver α} {y : Resolver β} {g : α → Resolver γ} {g' : β → Resolver δ}
    (h : Agree f R x y) (hg : ∀ a b, R a b → Agree f S (g a) (g' b)) :
    Agree f S (x >>= g) (y >>= g') := by
  intro s s' hs
  show OctoAsm.Agree _ (x s >>= fun p => g p.1 p.2) (y s' >>= fun p => g' p.1 p.2)
  exact (h s s' hs).bind fun p p' hp => hg p.1 p'.1 hp.1 p.2 p'.2 hp.2

/-- The rule for results that are the same on both sides. -/
theorem bind_eq {x y : Resolver α} {g : α → Resolver γ} {g' : α → Resolver δ}
    (h : Agree f Eq x y) (hg : ∀ a, Agree f S (g a) (g' a)) : Agree f S (x >>= g) (y >>= g') :=
  h.bind fun a _ hab => hab ▸ hg a

/-- A run that does nothing but give a result. -/
theorem pure {a : α} {b : β} (h : R a b) :
    Agree f R (Pure.pure a : Resolver α) (Pure.pure b : Resolver β) :=
  fun _ _ hs => .ok ⟨h, hs⟩

/-- Two failures agree whatever their diagnostics are, since those carry lines. -/
theorem fail (e e' : ResolveError) :
    Agree f R (Resolver.fail e : Resolver α) (Resolver.fail e' : Resolver β) :=
  fun _ _ _ => .error

/-- Looking something up. -/
theorem look {scope : Scope} {g : Env → Except ResolveError α} {g' : Env → Except ResolveError β}
    (h : ∀ env env', env.Relined f env' → OctoAsm.Agree R (g env) (g' env')) :
    Agree f R (Resolver.look scope g) (Resolver.look (scope.map (Frame.mapTokens f)) g') := by
  intro s s' hs
  have hfound := h ⟨s.names, scope⟩ ⟨s'.names, scope.map (Frame.mapTokens f)⟩ ⟨hs.names, rfl⟩
  unfold Resolver.look
  generalize g ⟨s.names, scope⟩ = x, g' ⟨s'.names, scope.map (Frame.mapTokens f)⟩ = y at hfound
  cases hfound with
  | ok hab => exact .ok ⟨hab, hs⟩
  | error => exact .error

/-- A step that declares a name keeps the tables alike, or fails on both sides. -/
theorem declare (hf : Relines f) (name : Token) (b : Binding) :
    Agree f Eq (Resolver.declare name b) (Resolver.declare (f name) (b.mapTokens f)) := by
  intro s s' hs
  have hnames := hs.names.declare name.text b
  unfold Resolver.declare
  rw [hf.text]
  generalize s.names.declare name.text b = x, s'.names.declare name.text (b.mapTokens f) = y
    at hnames
  cases hnames with
  | ok h => exact .ok ⟨rfl, h, hs.log⟩
  | error => exact .error

/-- A step that declares a rule keeps the tables alike, or fails on both sides. -/
theorem declareRule (hf : Relines f) (name : Token) (rule : CharRule) :
    Agree f Eq (Resolver.declareRule name rule)
      (Resolver.declareRule (f name) (rule.mapTokens f)) := by
  intro s s' hs
  have hnames := NameTable.Relined.declareRule hf hs.names name.text rule
  unfold Resolver.declareRule
  rw [hf.text]
  generalize s.names.declareRule name.text rule = x,
    s'.names.declareRule name.text (rule.mapTokens f) = y at hnames
  cases hnames with
  | ok h => exact .ok ⟨rfl, h, hs.log⟩
  | @error e e' => cases e <;> cases e' <;> exact .error

/-- The number of an invocation is counted by name, and the logs are the same. -/
theorem startCall (name : String) :
    Agree f Eq (Resolver.startCall name) (Resolver.startCall name) := by
  intro s s' hs
  unfold Resolver.startCall
  rw [hs.log]
  exact .ok ⟨rfl, hs.names, rfl⟩

/-- Looking at the states gives states that are alike. -/
theorem get : Agree f (ResolveState.Relined f) (MonadState.get : Resolver ResolveState)
    (MonadState.get : Resolver ResolveState) :=
  fun _ _ hs => .ok ⟨hs, hs⟩

end Resolver.Agree

/-! ## Expansions -/

/-- Two expanders agree on bodies that differ in their lines. -/
def Expander.Relined (f : Token → Token) (expand expand' : Expander) : Prop :=
  ∀ token frame scope body, Resolver.Agree f (Alike SameText) (expand token frame scope body)
    (expand' (f token) (frame.mapTokens f) (scope.map (Frame.mapTokens f)) (mapTokensAll f body))

section Expansions

variable {f : Token → Token} {expand expand' : Expander}

/-- The rule for a character is found by the texts of the alphabets, and its body has its tokens
    changed. -/
theorem coveringRule?_relined (hf : Relines f) (rules : List CharRule) (c : Char) :
    coveringRule? (rules.map (CharRule.mapTokens f)) c =
      (coveringRule? rules c).map fun r => (r.1.mapTokens f, r.2) := by
  unfold coveringRule?
  induction rules with
  | nil => rfl
  | cons rule rest ih =>
    rw [List.map_cons, List.findSome?_cons, List.findSome?_cons, ih, CharRule.mapTokens, hf.text]
    cases rule.alphabet.text.toList.idxOf? c <;> rfl

/-- By induction on the characters left: each has a rule on both sides or on neither, and its body
    is expanded in frames that correspond. -/
theorem expandChars_relined (hf : Relines f) (hexp : expand.Relined f expand') (scope : Scope)
    (name text : Token) (rules : List CharRule) (calls : Int) (index : Nat) (cs : List Char) :
    Resolver.Agree f (Alike SameText) (expandChars expand scope name text rules calls index cs)
      (expandChars expand' (scope.map (Frame.mapTokens f)) (f name) (f text)
        (rules.map (CharRule.mapTokens f)) calls index cs) := by
  induction cs generalizing index with
  | nil => exact .pure .nil
  | cons c cs ih =>
    unfold expandChars
    rw [coveringRule?_relined hf]
    cases coveringRule? rules c with
    | none => exact .fail _ _
    | some covering =>
      refine (hexp name _ scope covering.1.body).bind fun xs xs' hxs => ?_
      exact (ih (index + 1)).bind fun ys ys' hys => .pure (hxs.append hys)

/-- A string is spelled after its one argument has been substituted and counted. -/
theorem expandStringMode_relined (hf : Relines f) (hexp : expand.Relined f expand') (scope : Scope)
    (name : Token) (rules : List CharRule) (args : List Token) :
    Resolver.Agree f (Alike SameText) (expandStringMode expand scope name rules args)
      (expandStringMode expand' (scope.map (Frame.mapTokens f)) (f name)
        (rules.map (CharRule.mapTokens f)) (args.map f)) := by
  rcases args with _ | ⟨arg, _ | ⟨arg', rest⟩⟩
  · exact .fail _ _
  · refine (Resolver.Agree.look fun env env' h => substitute_relined hf h arg).bind fun u _ hu => ?_
    subst hu
    rw [hf.kind, hf.text, hf.text]
    split
    · exact (Resolver.Agree.startCall name.text).bind_eq fun calls =>
        expandChars_relined hf hexp scope name u rules calls 0 _
    · exact .fail _ _
  · exact .fail _ _

/-- A macro is expanded in a frame that binds its parameters to the same arguments on
    other lines. -/
theorem expandMacro_relined (hf : Relines f) (hexp : expand.Relined f expand') (scope : Scope)
    (name : Token) (params : List Token) (body : List Statement) (args : List Token) :
    Resolver.Agree f (Alike SameText) (expandMacro expand scope name params body args)
      (expandMacro expand' (scope.map (Frame.mapTokens f)) (f name) (params.map f)
        (mapTokensAll f body) (args.map f)) := by
  have hargs : ((params.map f).map (·.text)).zip (args.map f) =
      ((params.map (·.text)).zip args).map fun a => (a.1, f a.2) := by
    have htexts : (params.map f).map (·.text) = params.map (·.text) := by
      rw [List.map_map]
      exact List.map_congr_left fun p _ => hf.text p
    rw [htexts, List.zip_map_right]
    rfl
  unfold expandMacro
  rw [List.length_map, List.length_map, hf.text, hargs]
  split
  · exact (Resolver.Agree.startCall name.text).bind_eq fun calls => hexp name _ scope body
  · exact .fail _ _

/-- An invocation substitutes its arguments and then goes by the kind of what the name is
    bound to. -/
theorem resolveInvocation_relined (hf : Relines f) (hexp : expand.Relined f expand') (scope : Scope)
    (name : Token) (args : List Token) :
    Resolver.Agree f (Alike SameText) (resolveInvocation expand scope name args)
      (resolveInvocation expand' (scope.map (Frame.mapTokens f)) (f name) (args.map f)) := by
  refine (Resolver.Agree.look fun env env' h => substitute_relined hf h name).bind fun u _ hu => ?_
  subst hu
  rw [hf.kind, hf.text]
  split
  · refine Resolver.Agree.get.bind fun s s' hs => ?_
    rw [hs.names]
    cases s.names.get? u.text with
    | none => exact .fail _ _
    | some b =>
      cases b with
      | macroDef params body => exact expandMacro_relined hf hexp scope u params body args
      | stringMode rules => exact expandStringMode_relined hf hexp scope u rules args
      | _ => exact .fail _ _
  · exact .fail _ _

/-- A bare name is an invocation without arguments, or a call of an address. -/
theorem resolveCall_relined (hf : Relines f) (hexp : expand.Relined f expand') (scope : Scope)
    (name : Token) : Resolver.Agree f (Alike SameText) (resolveCall expand scope name)
      (resolveCall expand' (scope.map (Frame.mapTokens f)) (f name)) := by
  have hleaf : ∀ l, Alike SameText [.leaf name.site l] [.leaf (f name).site l] :=
    fun l => .leaf (hf.sameText name) .nil
  refine (Resolver.Agree.look fun env env' h => substitute_relined hf h name).bind fun u _ hu => ?_
  subst hu
  rw [hf.kind, hf.text]
  cases u.kind with
  | number n =>
    refine (Resolver.Agree.look fun _ _ _ => inRange_relined u (f u) 8 (.number n)).bind_eq fun v => ?_
    exact .pure (hleaf _)
  | name =>
    -- what neither expands nor names a label is called as a value
    have himm : Resolver.Agree f Eq (Resolver.look scope (·.imm 12 (.named name)))
        (Resolver.look (scope.map (Frame.mapTokens f)) (·.imm 12 (.named (f name)))) :=
      .look fun env env' h => imm_relined hf h 12 (.named name)
    have hvalue := himm.bind_eq fun v => Resolver.Agree.pure (hleaf (.instr (.addr .call v)))
    refine Resolver.Agree.get.bind fun s s' hs => ?_
    rw [hs.names]
    cases s.names.get? u.text with
    | none => exact .fail _ _
    | some b =>
      cases b with
      | macroDef params body => exact resolveInvocation_relined hf hexp scope name []
      | stringMode rules => exact resolveInvocation_relined hf hexp scope name []
      | label next => exact .pure (hleaf _)
      | _ => exact hvalue
  | _ => exact .fail _ _

end Expansions

/-! ## Statements -/

section Statements

variable {f : Token → Token} {expand expand' : Expander}

/-- A label is declared under a name of the same text. -/
theorem declareLabel_relined (hf : Relines f) (scope : Scope) (name : Token) (next : Bool) :
    Resolver.Agree f Eq (declareLabel scope name next)
      (declareLabel (scope.map (Frame.mapTokens f)) (f name) next) := by
  unfold declareLabel
  rw [List.isEmpty_map]
  split
  · exact .pure rfl
  · exact .declare hf name (.label next)

/-- Resolving a condition is a step that reads the table only. -/
theorem condition_step (hf : Relines f) (scope : Scope) (c : Condition) :
    Resolver.Agree f Eq (Resolver.look scope (·.condition c))
      (Resolver.look (scope.map (Frame.mapTokens f)) (·.condition (c.mapTokens f))) :=
  .look fun _ _ h => condition_relined hf h c

/-- So is finding the name that a declaration declares. -/
theorem declaredName_step (hf : Relines f) (scope : Scope) (name : Token) :
    Resolver.Agree f (fun u u' => u' = f u) (Resolver.look scope (·.declaredName name))
      (Resolver.look (scope.map (Frame.mapTokens f)) (·.declaredName (f name))) :=
  .look fun _ _ h => declaredName_relined hf h name

/-- Whether a statement of a loop's body is the condition at its end does not depend on lines. -/
theorem leaves_loop_relined {st : Statement} {rest : List Statement}
    (h : ¬ ∃ token condition, st = .breakIf token condition ∧ rest = []) :
    ¬ ∃ token condition, st.mapTokens f = .breakIf token condition ∧ mapTokensAll f rest = [] := by
  rintro ⟨token, condition, hst, hrest⟩
  apply h
  rw [mapTokensAll_eq_map, List.map_eq_nil_iff] at hrest
  cases st with
  | breakIf t c => exact ⟨t, c, rfl, hrest⟩
  | _ => cases hst

mutual

/-- The items of a statement on other lines. -/
theorem resolveStatement_relined (hf : Relines f) (hexp : expand.Relined f expand') :
    ∀ (st : Statement) (scope : Scope), Resolver.Agree f (Alike SameText)
      (resolveStatement expand scope st)
      (resolveStatement expand' (scope.map (Frame.mapTokens f)) (st.mapTokens f))
  | .simple s, scope => by
    refine (Resolver.Agree.look fun env env' h => simple_relined hf h s).bind fun p _ hp => ?_
    subst hp
    -- the only trace of a line is the site of the item
    exact .pure (.leaf (hf.sameText p.1) .nil)
  | .declaration d, scope => by
    refine (Resolver.Agree.look fun env env' h => declaration_relined hf h d).bind fun p _ hp => ?_
    subst hp
    exact (Resolver.Agree.declare hf p.1 p.2).bind_eq fun _ => .pure .nil
  | .label name, scope => by
    refine (declaredName_step hf scope name).bind fun u _ hu => ?_
    subst hu
    refine (declareLabel_relined hf scope u false).bind_eq fun _ => ?_
    -- a label is declared under its text, which is the same on both sides
    rw [hf.text]
    exact .pure (.leaf (hf.sameText u) .nil)
  | .next t name st, scope => by
    refine (declaredName_step hf scope name).bind fun u _ hu => ?_
    subst hu
    refine (declareLabel_relined hf scope u true).bind_eq fun _ => ?_
    refine (resolveStatement_relined hf hexp st scope).bind fun xs xs' hxs => ?_
    rw [hf.text]
    exact .pure (.leaf (hf.sameText u) hxs)
  | .macroDef t name params body, scope => by
    refine (declaredName_step hf scope name).bind fun u _ hu => ?_
    subst hu
    exact (Resolver.Agree.declare hf u (.macroDef params body)).bind_eq fun _ => .pure .nil
  | .stringMode t name alphabet body, scope => by
    refine (declaredName_step hf scope name).bind fun u _ hu => ?_
    subst hu
    exact (Resolver.Agree.declareRule hf u ⟨alphabet, body⟩).bind_eq fun _ => .pure .nil
  | .invoke name args, scope => resolveInvocation_relined hf hexp scope name args
  | .call name, scope => resolveCall_relined hf hexp scope name
  | .ifThen t cond body, scope => by
    refine (condition_step hf scope cond).bind_eq fun c => ?_
    refine (resolveStatement_relined hf hexp body scope).bind fun xs xs' hxs => ?_
    exact .pure (.ifThen (hf.sameText t) hxs .nil)
  -- both sides fail, whatever they say about it
  | .breakIf t cond, scope => .fail _ _
  | .ifBegin t cond body, scope => by
    refine (condition_step hf scope cond).bind_eq fun c => ?_
    refine (resolveBlock_relined hf hexp body scope).bind fun xs xs' hxs => ?_
    exact .pure (.ifBegin (hf.sameText t) hxs .nil)
  | .ifElse t cond body otherwise, scope => by
    refine (condition_step hf scope cond).bind_eq fun c => ?_
    refine (resolveBlock_relined hf hexp body scope).bind fun xs xs' hxs => ?_
    refine (resolveBlock_relined hf hexp otherwise scope).bind fun ys ys' hys => ?_
    exact .pure (.ifElse (hf.sameText t) hxs hys .nil)
  | .loop t body, scope => by
    refine (resolveLoop_relined hf hexp body scope).bind fun p p' hp => ?_
    obtain ⟨xs, leave⟩ := p
    obtain ⟨xs', leave'⟩ := p'
    obtain ⟨hxs, hleave⟩ := hp
    obtain rfl : leave = leave' := hleave
    cases leave with
    | none => exact .pure (.loop (hf.sameText t) hxs .nil)
    | some c => exact .pure (.loopUntil (hf.sameText t) hxs .nil)
  | .whileDo t cond body, scope => by
    refine (condition_step hf scope cond).bind_eq fun c => ?_
    refine (resolveStatement_relined hf hexp body scope).bind fun xs xs' hxs => ?_
    exact .pure (.whileDo (hf.sameText t) hxs .nil)

/-- **The items of statements on other lines.** -/
theorem resolveBlock_relined (hf : Relines f) (hexp : expand.Relined f expand') :
    ∀ (body : List Statement) (scope : Scope), Resolver.Agree f (Alike SameText)
      (resolveBlock expand scope body)
      (resolveBlock expand' (scope.map (Frame.mapTokens f)) (mapTokensAll f body))
  | [], scope => .pure .nil
  | st :: rest, scope => by
    refine (resolveStatement_relined hf hexp st scope).bind fun xs xs' hxs => ?_
    exact (resolveBlock_relined hf hexp rest scope).bind fun ys ys' hys => .pure (hxs.append hys)

/-- The items of a loop's body on other lines, and the condition that leaves the loop. -/
theorem resolveLoop_relined (hf : Relines f) (hexp : expand.Relined f expand') :
    ∀ (body : List Statement) (scope : Scope), Resolver.Agree f
      (fun p p' => Alike SameText p.1 p'.1 ∧ p.2 = p'.2) (resolveLoop expand scope body)
      (resolveLoop expand' (scope.map (Frame.mapTokens f)) (mapTokensAll f body))
  | [], scope => .pure ⟨.nil, rfl⟩
  | st :: rest, scope => by
    by_cases hleave : ∃ token condition, st = .breakIf token condition ∧ rest = []
    · obtain ⟨token, condition, rfl, rfl⟩ := hleave
      exact (condition_step hf scope condition).bind_eq fun c => .pure ⟨.nil, rfl⟩
    · rw [resolveLoop_cons hleave, mapTokensAll, resolveLoop_cons (leaves_loop_relined hleave)]
      refine (resolveStatement_relined hf hexp st scope).bind fun xs xs' hxs => ?_
      refine (resolveLoop_relined hf hexp rest scope).bind fun p p' hp => ?_
      exact .pure ⟨hxs.append hp.1, hp.2⟩

end

/-- Bodies are expanded in the same way on other lines, and to the same depth. -/
theorem expandWithin_relined (hf : Relines f) (limit depth : Nat) :
    (expandWithin limit depth).Relined f (expandWithin limit depth) := by
  induction depth with
  | zero => exact fun _ _ _ _ => .fail _ _
  | succ depth ih => exact fun _ frame scope body => resolveBlock_relined hf ih body (frame :: scope)

end Statements

end OctoAsm
