/-
  What a resolution can do, said once.

  `Resolves tasks s items t` derives the items of some tasks, the state going from `s` to `t`.  A task
  is a statement with the expansions it stands in, so an expansion is nothing but the tasks of a body
  in a longer scope, and there is no limit on the depth here.  Every successful resolution has a
  derivation (`resolveBlock_derivation`); what holds of all resolutions is proved by induction on it.
-/
import OctoAsm.Proofs.Outcome
import OctoAsm.Resolve.Expansion

namespace OctoAsm

/-- A statement, with the expansions it stands in. -/
structure Task where
  scope : Scope
  statement : Statement

/-- The statements of a body as tasks. -/
def tasksOf (scope : Scope) (body : List Statement) : List Task := body.map (Task.mk scope)

/-- The rule that covers a character is one of the rules. -/
theorem mem_of_coveringRule? {rules : List CharRule} {c : Char} {rule : CharRule} {value : Nat}
    (h : coveringRule? rules c = some (rule, value)) : rule ∈ rules := by
  obtain ⟨r, hr, hfound⟩ := List.exists_of_findSome?_eq_some h
  obtain ⟨v, -, hpair⟩ := Option.map_eq_some_iff.mp hfound
  obtain ⟨rfl, -⟩ := Prod.mk.inj hpair
  exact hr

/-- The tasks of a stringmode for the characters of a string, from position `index` on, as far as they
    are covered. -/
def charTasks (scope : Scope) (rules : List CharRule) (calls : Int) : Nat → List Char → List Task
  | _, [] => []
  | index, c :: cs =>
    match coveringRule? rules c with
    | some (rule, value) =>
      tasksOf (⟨[], calls, some ⟨c.toNat, index, value⟩⟩ :: scope) rule.body ++
        charTasks scope rules calls (index + 1) cs
    | none => []

/-- The tasks of a stringmode are those of bodies of its rules, each in one more expansion. -/
theorem mem_charTasks {scope : Scope} {rules : List CharRule} {calls : Int} {index : Nat}
    {cs : List Char} {task : Task} (h : task ∈ charTasks scope rules calls index cs) :
    ∃ rule ∈ rules, ∃ chars, task ∈ tasksOf (⟨[], calls, some chars⟩ :: scope) rule.body := by
  induction cs generalizing index with
  | nil => cases h
  | cons c cs ih =>
    rw [charTasks] at h
    split at h
    · rename_i rule value hcovering
      rcases List.mem_append.mp h with hbody | hrest
      · exact ⟨rule, mem_of_coveringRule? hcovering, _, hbody⟩
      · exact ih hrest
    · cases h

/-- An invocation starts: the tasks it stands for, and the state with the invocation logged.  A string
    need not be covered: the bodies of its first characters are resolved before that is noticed. -/
inductive Expands (scope : Scope) (s : ResolveState) (word : Token) (args : List Token) :
    List Task → ResolveState → Prop where
  | macroDef {name : Token} {params : List Token} {body : List Statement} {calls : Int}
      (hname : Env.substitute ⟨s.names, scope⟩ word = .ok name) (hkind : name.kind = .name)
      (hbound : s.names.get? name.text = some (.macroDef params body))
      (hargs : args.length = params.length) (hcalls : calls = (s.log.lookup name.text).getD 0 + 1) :
      Expands scope s word args
        (tasksOf (⟨(params.map (·.text)).zip args, calls, none⟩ :: scope) body)
        { s with log := (name.text, calls) :: s.log }
  | stringMode {name arg text : Token} {rules : List CharRule} {calls : Int}
      (hname : Env.substitute ⟨s.names, scope⟩ word = .ok name) (hkind : name.kind = .name)
      (hbound : s.names.get? name.text = some (.stringMode rules)) (hargs : args = [arg])
      (htext : Env.substitute ⟨s.names, scope⟩ arg = .ok text) (hstring : text.kind = .string)
      (hcalls : calls = (s.log.lookup name.text).getD 0 + 1) :
      Expands scope s word args (charTasks scope rules calls 0 text.text.toList)
        { s with log := (name.text, calls) :: s.log }

/-- The items of tasks in a row, and how they change the state. -/
inductive Resolves : List Task → ResolveState → List Item → ResolveState → Prop where
  | nil {s} : Resolves [] s [] s
  | append {as bs s t u xs ys} (ha : Resolves as s xs t) (hb : Resolves bs t ys u) :
      Resolves (as ++ bs) s (xs ++ ys) u
  | simple {scope s st token leaf} (h : Env.simple ⟨s.names, scope⟩ st = .ok (token, leaf)) :
      Resolves [⟨scope, .simple st⟩] s [.leaf token.site leaf] s
  | declaration {scope s d name b names} (h : Env.declaration ⟨s.names, scope⟩ d = .ok (name, b))
      (hd : s.names.declare name.text b = .ok names) :
      Resolves [⟨scope, .declaration d⟩] s [] { s with names }
  | label {scope s token name t} (h : Env.declaredName ⟨s.names, scope⟩ token = .ok name)
      (hd : declareLabel scope name false s = .ok ((), t)) :
      Resolves [⟨scope, .label token⟩] s [.leaf name.site (.label name.text)] t
  | next {scope s word token name t inner items u}
      (h : Env.declaredName ⟨s.names, scope⟩ token = .ok name)
      (hd : declareLabel scope name true s = .ok ((), t))
      (hi : Resolves [⟨scope, inner⟩] t items u) :
      Resolves [⟨scope, .next word token inner⟩] s
        (.leaf name.site (.nextLabel name.text) :: items) u
  | macroDef {scope s word token name params body names}
      (h : Env.declaredName ⟨s.names, scope⟩ token = .ok name)
      (hd : s.names.declare name.text (.macroDef params body) = .ok names) :
      Resolves [⟨scope, .macroDef word token params body⟩] s [] { s with names }
  | stringMode {scope s word token name alphabet body names}
      (h : Env.declaredName ⟨s.names, scope⟩ token = .ok name)
      (hd : s.names.declareRule name.text ⟨alphabet, body⟩ = .ok names) :
      Resolves [⟨scope, .stringMode word token alphabet body⟩] s [] { s with names }
  | invoke {scope s word args tasks t items u} (h : Expands scope s word args tasks t)
      (hi : Resolves tasks t items u) : Resolves [⟨scope, .invoke word args⟩] s items u
  | callMacro {scope s word tasks t items u} (h : Expands scope s word [] tasks t)
      (hi : Resolves tasks t items u) : Resolves [⟨scope, .call word⟩] s items u
  | callNumber {scope s word target n v} (h : Env.substitute ⟨s.names, scope⟩ word = .ok target)
      (hkind : target.kind = .number n) (hv : Env.inRange target 8 (.number n) = .ok v) :
      Resolves [⟨scope, .call word⟩] s [.leaf word.site (.byte v)] s
  | callLabel {scope s word target next} (h : Env.substitute ⟨s.names, scope⟩ word = .ok target)
      (hkind : target.kind = .name) (hbound : s.names.get? target.text = some (.label next)) :
      Resolves [⟨scope, .call word⟩] s
        [.leaf word.site (.instr (.addr .call (.label target.text)))] s
  | callValue {scope s word v} (h : Env.imm ⟨s.names, scope⟩ 12 (.named word) = .ok v) :
      Resolves [⟨scope, .call word⟩] s [.leaf word.site (.instr (.addr .call v))] s
  | ifThen {scope s token condition cond body items t}
      (hc : Env.condition ⟨s.names, scope⟩ condition = .ok cond)
      (hb : Resolves [⟨scope, body⟩] s items t) :
      Resolves [⟨scope, .ifThen token condition body⟩] s [.ifThen token.site cond items] t
  | ifBegin {scope s token condition cond body items t}
      (hc : Env.condition ⟨s.names, scope⟩ condition = .ok cond)
      (hb : Resolves (tasksOf scope body) s items t) :
      Resolves [⟨scope, .ifBegin token condition body⟩] s [.ifBegin token.site cond items] t
  | ifElse {scope s token condition cond body otherwise items t others u}
      (hc : Env.condition ⟨s.names, scope⟩ condition = .ok cond)
      (hb : Resolves (tasksOf scope body) s items t)
      (ho : Resolves (tasksOf scope otherwise) t others u) :
      Resolves [⟨scope, .ifElse token condition body otherwise⟩] s
        [.ifElse token.site cond items others] u
  | loop {scope s token body items t} (hb : Resolves (tasksOf scope body) s items t) :
      Resolves [⟨scope, .loop token body⟩] s [.loop token.site items] t
  | loopUntil {scope s token body leave condition cond items t}
      (hb : Resolves (tasksOf scope body) s items t)
      (hc : Env.condition ⟨t.names, scope⟩ condition = .ok cond) :
      Resolves [⟨scope, .loop token (body ++ [.breakIf leave condition])⟩] s
        [.loopUntil token.site items cond] t
  | whileDo {scope s token condition cond body items t}
      (hc : Env.condition ⟨s.names, scope⟩ condition = .ok cond)
      (hb : Resolves [⟨scope, body⟩] s items t) :
      Resolves [⟨scope, .whileDo token condition body⟩] s [.whileDo token.site cond items] t

/-- An expander all of whose results can be derived. -/
def Expander.Derives (expand : Expander) : Prop :=
  ∀ {token frame scope body s items t}, expand token frame scope body s = .ok (items, t) →
    Resolves (tasksOf (frame :: scope) body) s items t

/-! ## Every resolution has a derivation -/

section Derivations

variable {expand : Expander} {scope : Scope} {s t : ResolveState} {items : List Item}

theorem expandChars_derivation (hexp : expand.Derives) {name text : Token} {rules : List CharRule}
    {calls : Int} {index : Nat} {cs : List Char}
    (h : expandChars expand scope name text rules calls index cs s = .ok (items, t)) :
    Resolves (charTasks scope rules calls index cs) s items t := by
  induction cs generalizing index s items with
  | nil =>
    obtain ⟨rfl, rfl⟩ := Resolver.pure_eq_ok.mp h
    exact .nil
  | cons c cs ih =>
    rw [expandChars] at h
    rw [charTasks]
    cases hrule : coveringRule? rules c with
    | none =>
      rw [hrule] at h
      exact absurd h Resolver.fail_ne_ok
    | some covering =>
      obtain ⟨rule, value⟩ := covering
      rw [hrule] at h
      obtain ⟨xs, s₁, hxs, h⟩ := Resolver.bind_eq_ok.mp h
      obtain ⟨ys, s₂, hys, h⟩ := Resolver.bind_eq_ok.mp h
      obtain ⟨rfl, rfl⟩ := Resolver.pure_eq_ok.mp h
      exact .append (hexp hxs) (ih hys)

/-- A stringmode that expands has one argument, a string. -/
theorem expandStringMode_eq_ok {name : Token} {rules : List CharRule} {args : List Token}
    (h : expandStringMode expand scope name rules args s = .ok (items, t)) :
    ∃ arg text, args = [arg] ∧ Env.substitute ⟨s.names, scope⟩ arg = .ok text ∧
      text.kind = .string ∧ (Resolver.startCall name.text >>= fun calls =>
        expandChars expand scope name text rules calls 0 text.text.toList) s = .ok (items, t) := by
  rcases args with _ | ⟨arg, _ | ⟨arg', rest⟩⟩
  · cases h
  · obtain ⟨text, s₁, hlook, h⟩ := Resolver.bind_eq_ok.mp h
    obtain ⟨htext, rfl⟩ := Resolver.look_eq_ok.mp hlook
    split at h
    · rename_i hstring
      exact ⟨arg, text, rfl, htext, hstring, h⟩
    · exact absurd h Resolver.fail_ne_ok
  · cases h

theorem resolveInvocation_derivation (hexp : expand.Derives) {word : Token} {args : List Token}
    (h : resolveInvocation expand scope word args s = .ok (items, t)) :
    ∃ tasks s₁, Expands scope s word args tasks s₁ ∧ Resolves tasks s₁ items t := by
  obtain ⟨name, s₀, hlook, h⟩ := Resolver.bind_eq_ok.mp h
  obtain ⟨hname, rfl⟩ := Resolver.look_eq_ok.mp hlook
  split at h
  -- what the name is bound to decides; only macros and stringmodes expand
  · rename_i hkind
    obtain ⟨s', s'', hget, h⟩ := Resolver.bind_eq_ok.mp h
    obtain ⟨rfl, rfl⟩ := Resolver.get_eq_ok.mp hget
    cases hbound : s.names.get? name.text with
    | none =>
      rw [hbound] at h
      exact absurd h Resolver.fail_ne_ok
    | some binding =>
      rw [hbound] at h
      cases binding with
      | macroDef params body =>
        simp only [expandMacro] at h
        split at h
        · rename_i hargs
          obtain ⟨calls, s₁, hstart, h⟩ := Resolver.bind_eq_ok.mp h
          obtain ⟨hcalls, rfl⟩ := Resolver.startCall_eq_ok.mp hstart
          exact ⟨_, _, .macroDef hname hkind hbound hargs hcalls, hexp h⟩
        · exact absurd h Resolver.fail_ne_ok
      | stringMode rules =>
        obtain ⟨arg, text, rfl, htext, hstring, h⟩ := expandStringMode_eq_ok h
        obtain ⟨calls, s₁, hstart, h⟩ := Resolver.bind_eq_ok.mp h
        obtain ⟨hcalls, rfl⟩ := Resolver.startCall_eq_ok.mp hstart
        have hres := expandChars_derivation hexp h
        exact ⟨_, _, .stringMode hname hkind hbound rfl htext hstring hcalls, hres⟩
      | label _ => exact absurd h Resolver.fail_ne_ok
      | register _ => exact absurd h Resolver.fail_ne_ok
      | registerConst _ => exact absurd h Resolver.fail_ne_ok
      | const _ => exact absurd h Resolver.fail_ne_ok
      | calcName _ _ => exact absurd h Resolver.fail_ne_ok
  · exact absurd h Resolver.fail_ne_ok

theorem resolveCall_derivation (hexp : expand.Derives) {word : Token}
    (h : resolveCall expand scope word s = .ok (items, t)) :
    Resolves [⟨scope, .call word⟩] s items t := by
  obtain ⟨target, s₀, hlook, h⟩ := Resolver.bind_eq_ok.mp h
  obtain ⟨htarget, rfl⟩ := Resolver.look_eq_ok.mp hlook
  cases hkind : target.kind with
  | number n =>
    rw [hkind] at h
    obtain ⟨v, s₁, hlook, h⟩ := Resolver.bind_eq_ok.mp h
    obtain ⟨hv, rfl⟩ := Resolver.look_eq_ok.mp hlook
    obtain ⟨rfl, rfl⟩ := Resolver.pure_eq_ok.mp h
    exact .callNumber htarget hkind hv
  | name =>
    rw [hkind] at h
    obtain ⟨s₁, s₂, hget, h⟩ := Resolver.bind_eq_ok.mp h
    obtain ⟨rfl, rfl⟩ := Resolver.get_eq_ok.mp hget
    -- what neither expands nor names a label is called as a value
    have hvalue : (Resolver.look scope (·.imm 12 (.named word)) >>= fun v =>
        pure [Item.leaf word.site (.instr (.addr .call v))]) s = .ok (items, t) →
        Resolves [⟨scope, .call word⟩] s items t := by
      intro h
      obtain ⟨v, s₁, hlook, h⟩ := Resolver.bind_eq_ok.mp h
      obtain ⟨hv, rfl⟩ := Resolver.look_eq_ok.mp hlook
      obtain ⟨rfl, rfl⟩ := Resolver.pure_eq_ok.mp h
      exact .callValue hv
    cases hbound : s.names.get? target.text with
    | none => rw [hbound] at h; cases h
    | some binding =>
      rw [hbound] at h
      cases binding with
      | macroDef params body =>
        obtain ⟨tasks, s₁, hstart, hres⟩ := resolveInvocation_derivation hexp h
        exact .callMacro hstart hres
      | stringMode rules =>
        obtain ⟨tasks, s₁, hstart, hres⟩ := resolveInvocation_derivation hexp h
        exact .callMacro hstart hres
      | label next =>
        obtain ⟨rfl, rfl⟩ := Resolver.pure_eq_ok.mp h
        exact .callLabel htarget hkind hbound
      | register _ => exact hvalue h
      | registerConst _ => exact hvalue h
      | const _ => exact hvalue h
      | calcName _ _ => exact hvalue h
  | _ => rw [hkind] at h; cases h

end Derivations

section Statements

variable {expand : Expander} {scope : Scope}

/-- A statement of a loop's body that is not the condition at its end. -/
theorem resolveLoop_cons {st : Statement} {rest : List Statement}
    (h : ¬ ∃ token condition, st = .breakIf token condition ∧ rest = []) :
    resolveLoop expand scope (st :: rest) = (do
      let items ← resolveStatement expand scope st
      let (others, cond) ← resolveLoop expand scope rest
      return (items ++ others, cond)) :=
  resolveLoop.eq_3 expand scope st rest fun token cond hst hrest => h ⟨token, cond, hst, hrest⟩

mutual

theorem resolveStatement_derivation (hexp : expand.Derives) :
    ∀ (st : Statement) {s t : ResolveState} {items : List Item},
      resolveStatement expand scope st s = .ok (items, t) → Resolves [⟨scope, st⟩] s items t
  -- each step of the resolver that succeeded is a premise of the rule
  | .simple st, s, t, items, h => by
    obtain ⟨⟨token, leaf⟩, s₁, hlook, h⟩ := Resolver.bind_eq_ok.mp h
    obtain ⟨hst, rfl⟩ := Resolver.look_eq_ok.mp hlook
    obtain ⟨rfl, rfl⟩ := Resolver.pure_eq_ok.mp h
    exact .simple hst
  | .declaration d, s, t, items, h => by
    obtain ⟨⟨name, b⟩, s₁, hlook, h⟩ := Resolver.bind_eq_ok.mp h
    obtain ⟨hd, rfl⟩ := Resolver.look_eq_ok.mp hlook
    obtain ⟨u, s₁, hdecl, h⟩ := Resolver.bind_eq_ok.mp h
    obtain ⟨names, hnames, rfl⟩ := Resolver.declare_eq_ok.mp hdecl
    obtain ⟨rfl, rfl⟩ := Resolver.pure_eq_ok.mp h
    exact .declaration hd hnames
  | .label token, s, t, items, h => by
    obtain ⟨name, s₁, hlook, h⟩ := Resolver.bind_eq_ok.mp h
    obtain ⟨hname, rfl⟩ := Resolver.look_eq_ok.mp hlook
    obtain ⟨u, s₁, hdecl, h⟩ := Resolver.bind_eq_ok.mp h
    obtain ⟨rfl, rfl⟩ := Resolver.pure_eq_ok.mp h
    exact .label hname hdecl
  | .next word token inner, s, t, items, h => by
    obtain ⟨name, s₁, hlook, h⟩ := Resolver.bind_eq_ok.mp h
    obtain ⟨hname, rfl⟩ := Resolver.look_eq_ok.mp hlook
    obtain ⟨u, s₁, hdecl, h⟩ := Resolver.bind_eq_ok.mp h
    obtain ⟨xs, s₂, hxs, h⟩ := Resolver.bind_eq_ok.mp h
    obtain ⟨rfl, rfl⟩ := Resolver.pure_eq_ok.mp h
    exact .next hname hdecl (resolveStatement_derivation hexp inner hxs)
  | .macroDef word token params body, s, t, items, h => by
    obtain ⟨name, s₁, hlook, h⟩ := Resolver.bind_eq_ok.mp h
    obtain ⟨hname, rfl⟩ := Resolver.look_eq_ok.mp hlook
    obtain ⟨u, s₁, hdecl, h⟩ := Resolver.bind_eq_ok.mp h
    obtain ⟨names, hnames, rfl⟩ := Resolver.declare_eq_ok.mp hdecl
    obtain ⟨rfl, rfl⟩ := Resolver.pure_eq_ok.mp h
    exact .macroDef hname hnames
  | .stringMode word token alphabet body, s, t, items, h => by
    obtain ⟨name, s₁, hlook, h⟩ := Resolver.bind_eq_ok.mp h
    obtain ⟨hname, rfl⟩ := Resolver.look_eq_ok.mp hlook
    obtain ⟨u, s₁, hdecl, h⟩ := Resolver.bind_eq_ok.mp h
    obtain ⟨names, hnames, rfl⟩ := Resolver.declareRule_eq_ok.mp hdecl
    obtain ⟨rfl, rfl⟩ := Resolver.pure_eq_ok.mp h
    exact .stringMode hname hnames
  | .invoke word args, s, t, items, h => by
    obtain ⟨tasks, s₁, hstart, hres⟩ := resolveInvocation_derivation hexp h
    exact .invoke hstart hres
  | .call word, s, t, items, h => resolveCall_derivation hexp h
  | .ifThen token condition body, s, t, items, h => by
    obtain ⟨cond, s₁, hlook, h⟩ := Resolver.bind_eq_ok.mp h
    obtain ⟨hcond, rfl⟩ := Resolver.look_eq_ok.mp hlook
    obtain ⟨xs, s₁, hxs, h⟩ := Resolver.bind_eq_ok.mp h
    obtain ⟨rfl, rfl⟩ := Resolver.pure_eq_ok.mp h
    exact .ifThen hcond (resolveStatement_derivation hexp body hxs)
  -- a break is no statement of its own
  | .breakIf token condition, s, t, items, h => nomatch h
  | .ifBegin token condition body, s, t, items, h => by
    obtain ⟨cond, s₁, hlook, h⟩ := Resolver.bind_eq_ok.mp h
    obtain ⟨hcond, rfl⟩ := Resolver.look_eq_ok.mp hlook
    obtain ⟨xs, s₁, hxs, h⟩ := Resolver.bind_eq_ok.mp h
    obtain ⟨rfl, rfl⟩ := Resolver.pure_eq_ok.mp h
    exact .ifBegin hcond (resolveBlock_derivation hexp body hxs)
  | .ifElse token condition body otherwise, s, t, items, h => by
    obtain ⟨cond, s₁, hlook, h⟩ := Resolver.bind_eq_ok.mp h
    obtain ⟨hcond, rfl⟩ := Resolver.look_eq_ok.mp hlook
    obtain ⟨xs, s₁, hxs, h⟩ := Resolver.bind_eq_ok.mp h
    obtain ⟨ys, s₂, hys, h⟩ := Resolver.bind_eq_ok.mp h
    obtain ⟨rfl, rfl⟩ := Resolver.pure_eq_ok.mp h
    exact .ifElse hcond (resolveBlock_derivation hexp body hxs)
      (resolveBlock_derivation hexp otherwise hys)
  | .loop token body, s, t, items, h => by
    obtain ⟨⟨xs, leave⟩, s₁, hxs, h⟩ := Resolver.bind_eq_ok.mp h
    have hloop := resolveLoop_derivation hexp body hxs
    cases leave with
    -- without a condition at its end the loop is an endless one
    | none =>
      obtain ⟨rfl, rfl⟩ := Resolver.pure_eq_ok.mp h
      exact .loop hloop
    | some cond =>
      obtain ⟨rfl, rfl⟩ := Resolver.pure_eq_ok.mp h
      obtain ⟨front, token', condition, rfl, hfront, hcond⟩ := hloop
      exact .loopUntil hfront hcond
  | .whileDo token condition body, s, t, items, h => by
    obtain ⟨cond, s₁, hlook, h⟩ := Resolver.bind_eq_ok.mp h
    obtain ⟨hcond, rfl⟩ := Resolver.look_eq_ok.mp hlook
    obtain ⟨xs, s₁, hxs, h⟩ := Resolver.bind_eq_ok.mp h
    obtain ⟨rfl, rfl⟩ := Resolver.pure_eq_ok.mp h
    exact .whileDo hcond (resolveStatement_derivation hexp body hxs)

theorem resolveBlock_derivation (hexp : expand.Derives) :
    ∀ (body : List Statement) {s t : ResolveState} {items : List Item},
      resolveBlock expand scope body s = .ok (items, t) →
      Resolves (tasksOf scope body) s items t
  | [], s, t, items, h => by
    obtain ⟨rfl, rfl⟩ := Resolver.pure_eq_ok.mp h
    exact .nil
  | st :: rest, s, t, items, h => by
    obtain ⟨xs, s₁, hxs, h⟩ := Resolver.bind_eq_ok.mp h
    obtain ⟨ys, s₂, hys, h⟩ := Resolver.bind_eq_ok.mp h
    obtain ⟨rfl, rfl⟩ := Resolver.pure_eq_ok.mp h
    exact .append (resolveStatement_derivation hexp st hxs) (resolveBlock_derivation hexp rest hys)

/-- A loop's body resolves as a block, without the condition it may end in. -/
theorem resolveLoop_derivation (hexp : expand.Derives) :
    ∀ (body : List Statement) {s t : ResolveState} {items : List Item} {leave : Option Cond},
      resolveLoop expand scope body s = .ok ((items, leave), t) →
      match leave with
      | none => Resolves (tasksOf scope body) s items t
      | some cond => ∃ front token condition, body = front ++ [.breakIf token condition] ∧
          Resolves (tasksOf scope front) s items t ∧
          Env.condition ⟨t.names, scope⟩ condition = .ok cond
  | [], s, t, items, leave, h => by
    obtain ⟨heq, rfl⟩ := Resolver.pure_eq_ok.mp h
    obtain ⟨rfl, rfl⟩ := Prod.mk.inj heq
    exact .nil
  | st :: rest, s, t, items, leave, h => by
    -- only at the very end of the body a condition leaves the loop
    by_cases hleave : ∃ token condition, st = .breakIf token condition ∧ rest = []
    · obtain ⟨token, condition, rfl, rfl⟩ := hleave
      obtain ⟨cond, s₁, hlook, h⟩ := Resolver.bind_eq_ok.mp h
      obtain ⟨hcond, rfl⟩ := Resolver.look_eq_ok.mp hlook
      obtain ⟨heq, rfl⟩ := Resolver.pure_eq_ok.mp h
      obtain ⟨rfl, rfl⟩ := Prod.mk.inj heq
      exact ⟨[], token, condition, rfl, .nil, hcond⟩
    · rw [resolveLoop_cons hleave] at h
      obtain ⟨xs, s₁, hxs, h⟩ := Resolver.bind_eq_ok.mp h
      obtain ⟨⟨ys, leave'⟩, s₂, hys, h⟩ := Resolver.bind_eq_ok.mp h
      obtain ⟨heq, rfl⟩ := Resolver.pure_eq_ok.mp h
      obtain ⟨rfl, rfl⟩ := Prod.mk.inj heq
      have hhead := resolveStatement_derivation hexp st hxs
      have hrest := resolveLoop_derivation hexp rest hys
      cases leave' with
      | none => exact .append hhead hrest
      | some cond =>
        obtain ⟨front, token, condition, rfl, hfront, hcond⟩ := hrest
        exact ⟨st :: front, token, condition, rfl, .append hhead hfront, hcond⟩

end

end Statements

theorem expandWithin_derives (limit depth : Nat) : (expandWithin limit depth).Derives := by
  induction depth with
  | zero => intro token frame scope body s items t h; cases h
  | succ depth ih =>
    intro token frame scope body s items t h
    exact resolveBlock_derivation ih body h

/-! ## Programs -/

/-- What is left of `resolve` without the question for `main`: the items, and the final state. -/
theorem resolve_eq_ok {options : Options} {program : List Statement} {items : List Item}
    (h : resolve options program = .ok items) :
    ∃ defined labelled final, defineAll [] options.defines = .ok defined ∧
      collectBlockLabels defined program = .ok labelled ∧
      resolveBlock (expandWithin options.maxExpansionDepth options.maxExpansionDepth) [] program
        ⟨labelled, []⟩ = .ok (items, final) ∧ final.names.isLabel "main" = true := by
  obtain ⟨defined, hdefined, h⟩ := bind_eq_ok.mp h
  obtain ⟨labelled, hlabelled, h⟩ := bind_eq_ok.mp h
  obtain ⟨⟨xs, final⟩, hfinal, h⟩ := bind_eq_ok.mp h
  simp only at h
  split at h
  · rename_i hmain
    obtain rfl := pure_eq_ok.mp h
    exact ⟨defined, labelled, final, hdefined, hlabelled, hfinal, hmain⟩
  · cases h

end OctoAsm
