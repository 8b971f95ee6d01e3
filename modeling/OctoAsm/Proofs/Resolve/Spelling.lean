/-
  Names and formats are spelled as in the text.

  A resolution makes up no words: the name that a leaf declares or notes is a token of the text, and
  so is the format of a monitor (`Leaf.SpelledIn`).  A name may come by way of arguments, so the
  invariant of an analysis has three parts (`Analysis.WrittenIn`): the statements that are still to be
  resolved are statements of the program, at some depth; what the expansions around them bind are
  arguments of its invocations; and names expand to its bodies (`Sourced`).  It is kept by every step
  (`Step.writtenIn`), and which tokens the statements of a program have is read off the grammar.
-/
import OctoAsm.Proofs.Resolve.Breaks
import OctoAsm.Proofs.Resolve.Provenance

namespace OctoAsm

/-! ## Statements of a program -/

/-- A statement of a program, at any depth. -/
def Inside (program : List Statement) (st : Statement) : Prop :=
  ∃ b body, Within program b body ∧ st ∈ body

/-- An argument of an invocation in a program. -/
def PassedIn (program : List Statement) (t : Token) : Prop :=
  ∃ name args, Inside program (.invoke name args) ∧ t ∈ args

section Statements

variable {program : List Statement} {st inner : Statement} {ts : List Token}
  {next : Option TokenKind}

theorem Inside.of_bodies (h : Inside program st) {b : Bool} {body : List Statement}
    (hbody : (b, body) ∈ st.bodies) : Within program b body := by
  obtain ⟨b', body', hwithin, hst⟩ := h
  exact hwithin.inner hst hbody

/-- The parts of a statement are in its bodies. -/
theorem Inside.of_parts (h : Inside program st) (hinner : inner ∈ st.parts) :
    Inside program inner := by
  have hbody : ∃ b body, (b, body) ∈ st.bodies ∧ inner ∈ body := by
    cases st with
    | ifElse token cond body otherwise =>
      rcases List.mem_append.mp hinner with hinner | hinner
      · exact ⟨false, body, List.mem_cons_self, hinner⟩
      · exact ⟨false, otherwise, List.mem_cons_of_mem _ List.mem_cons_self, hinner⟩
    | ifThen | whileDo | ifBegin | loop => exact ⟨_, _, List.mem_cons_self, hinner⟩
    | _ => cases hinner
  obtain ⟨b, body, hbody, hmem⟩ := hbody
  exact ⟨b, body, h.of_bodies hbody, hmem⟩

/-- Every statement of a parsed program has a text, with tokens of the program's. -/
theorem Inside.reads (hprogram : Reads (.body false) ts program next) (h : Inside program st) :
    ∃ b us next', us ⊆ ts ∧ Reads (.statement b) us [st] next' := by
  obtain ⟨b, body, hwithin, hst⟩ := h
  obtain ⟨us, next', hus, hbody⟩ := hwithin.reads hprogram
  obtain ⟨front, rest, rfl⟩ := List.append_of_mem hst
  obtain ⟨vs, _, hvs, hreads, -⟩ := hbody.of_append
  exact ⟨b, vs, _, List.Subset.trans hvs hus, hreads⟩

/-! ## Tokens of statements -/

section Tokens

variable {word name token : Token} {args : List Token} {target : ValueRef}
  (hprogram : Reads (.body false) ts program next)

include hprogram

/-- The name of a label is a token of the text. -/
theorem Inside.label_mem (h : Inside program (.label name)) : name ∈ ts := by
  obtain ⟨b, us, next', hus, hreads⟩ := h.reads hprogram
  cases hreads with
  | line hline =>
    cases hline
    exact hus (by simp)

theorem Inside.next_mem (h : Inside program (.next word name inner)) : name ∈ ts := by
  obtain ⟨b, us, next', hus, hreads⟩ := h.reads hprogram
  cases hreads with
  | line hline => cases hline
  | next => exact hus (by simp)

theorem Inside.breakpoint_mem (h : Inside program (.simple (.breakpoint word name))) :
    name ∈ ts := by
  obtain ⟨b, us, next', hus, hreads⟩ := h.reads hprogram
  cases hreads with
  | inline hinline => cases hinline
  | line hline =>
    cases hline
    exact hus (by simp)

/-- The format of a monitor is a string. -/
theorem Inside.format_mem (h : Inside program (.simple (.monitor word target (.format token)))) :
    token ∈ ts ∧ token.kind = .string := by
  obtain ⟨b, us, next', hus, hreads⟩ := h.reads hprogram
  cases hreads with
  | inline hinline => cases hinline
  | line hline =>
    cases hline with
    | monitorFormat _ _ hstring => exact ⟨hus (by simp), hstring⟩

/-- What is passed to an expansion is a token of the text. -/
theorem PassedIn.mem (h : PassedIn program token) : token ∈ ts := by
  obtain ⟨name, args, hinvoke, hmem⟩ := h
  obtain ⟨b, us, next', hus, hreads⟩ := hinvoke.reads hprogram
  cases hreads with
  | line hline => cases hline
  | invoke => exact hus (List.mem_cons_of_mem _ hmem)

end Tokens

end Statements

/-! ## Names and arguments -/

/-- A reserved name that becomes a number is a name no longer. -/
theorem Token.eq_of_reserved {frame : Option Frame} {t u : Token} {c : Constant}
    (h : t.reserved frame c = .ok u) (hkind : u.kind = .name) : u = t := by
  unfold reserved at h
  split at h
  · exact (Except.ok.inj h).symm
  · obtain rfl := Except.ok.inj h
    cases hkind
  · cases h

/-- A name stands for a name that is written there, or bound by an expansion around it. -/
theorem Scope.name_of_substitute {scope : Scope} {t u : Token} (h : scope.substitute t = .ok u)
    (hkind : u.kind = .name) : u = t ∨ ∃ frame ∈ scope, ∃ a ∈ frame.args, a.2 = u := by
  induction scope generalizing t with
  | nil =>
    unfold substitute at h
    split at h
    · exact .inl (Token.eq_of_reserved h hkind)
    · exact .inl (Except.ok.inj h).symm
  | cons frame outer ih =>
    unfold substitute at h
    split at h
    · rcases ih h with heq | ⟨frame', hframe', a, ha, hvalue⟩
      · cases hlookup : frame.args.lookup t.text with
        | none =>
          rw [hlookup] at heq
          exact .inl heq
        | some v =>
          -- what is bound here is not bound again further out
          rw [hlookup] at heq
          obtain ⟨before, behind, hargs, -⟩ := List.lookup_eq_some_iff.mp hlookup
          have hmem : (t.text, v) ∈ frame.args := hargs ▸ by simp
          exact .inr ⟨frame, List.mem_cons_self, _, hmem, heq.symm⟩
      · exact .inr ⟨frame', List.mem_cons_of_mem _ hframe', a, ha, hvalue⟩
    · exact .inl (Token.eq_of_reserved h hkind)
    · exact .inl (Except.ok.inj h).symm

/-- A declared name is the one that is written, or an argument that stands in its place. -/
theorem Env.name_of_declaredName {env : Env} {t name : Token} (h : env.declaredName t = .ok name) :
    name.kind = .name ∧ (name = t ∨ ∃ frame ∈ env.scope, ∃ a ∈ frame.args, a.2 = name) := by
  obtain ⟨u, hu, h⟩ := bind_eq_ok.mp h
  split at h
  · rename_i hkind
    obtain rfl := pure_eq_ok.mp h
    unfold substitute at hu
    split at hu
    · rename_i hscope
      obtain rfl := Except.ok.inj hu
      exact ⟨hkind, Scope.name_of_substitute hscope hkind⟩
    · cases hu
  · cases h

/-! ## Tasks -/

/-- The expansions of a scope bind arguments of the program only. -/
def Scope.PassedIn (program : List Statement) (scope : Scope) : Prop :=
  ∀ frame ∈ scope, ∀ a ∈ frame.args, OctoAsm.PassedIn program a.2

/-- A task is a statement of the program, in expansions of its invocations. -/
structure Task.WrittenIn (program : List Statement) (task : Task) : Prop where
  statement : Inside program task.statement
  scope : task.scope.PassedIn program

namespace Analysis

/-- What is still to be resolved. -/
def tasks : Analysis → List Task
  | .defining _ | .collecting _ _ => []
  | .resolving todo _ => todo

/-- An analysis has nothing but the statements, the arguments and the bodies of its program. -/
structure WrittenIn (program : List Statement) (c : Analysis) : Prop where
  tasks : ∀ task ∈ c.tasks, task.WrittenIn program
  names : Sourced program c.names

section Runs

variable {program : List Statement} {scope : Scope} {body : List Statement} {c c' : Analysis}

theorem writtenIn_tasksOf (hscope : scope.PassedIn program) (hbody : ∀ st ∈ body, Inside program st) :
    ∀ task ∈ tasksOf scope body, task.WrittenIn program := by
  intro task htask
  obtain ⟨st, hst, rfl⟩ := List.mem_map.mp htask
  exact ⟨hbody st hst, hscope⟩

theorem passedIn_cons {frame : Frame} (hframe : ∀ a ∈ frame.args, PassedIn program a.2)
    (hscope : scope.PassedIn program) : Scope.PassedIn program (frame :: scope) := by
  intro frame' hframe'
  rcases List.mem_cons.mp hframe' with rfl | hmem
  · exact hframe
  · exact hscope frame' hmem

/-- What a string expands to are the bodies of rules, in a scope with one frame more. -/
theorem writtenIn_charTasks {rules : List CharRule} {calls : Int} (hscope : scope.PassedIn program)
    (hrules : ∀ rule ∈ rules, Within program false rule.body) (index : Nat) (cs : List Char) :
    ∀ task ∈ charTasks scope rules calls index cs, task.WrittenIn program := by
  intro task htask
  obtain ⟨rule, hmem, chars, hbody⟩ := mem_charTasks htask
  refine writtenIn_tasksOf (passedIn_cons (fun a ha => ?_) hscope)
    (fun st hst => ⟨_, _, hrules rule hmem, hst⟩) task hbody
  cases ha

/-- What an invocation expands to is written in the program: its body, and what its frame binds. -/
theorem writtenIn_of_expands {s t : ResolveState} {word : Token} {args : List Token}
    {tasks : List Task} (h : Expands scope s word args tasks t) (hs : Sourced program s.names)
    (hscope : scope.PassedIn program) (hargs : ∀ a ∈ args, PassedIn program a) :
    ∀ task ∈ tasks, task.WrittenIn program := by
  cases h with
  | macroDef hname hkind hbound hlength hcalls =>
    have hbody := hs _ _ hbound _ List.mem_cons_self
    refine writtenIn_tasksOf (passedIn_cons (fun a ha => ?_) hscope) fun st hst => ⟨_, _, hbody, hst⟩
    exact hargs a.2 (List.of_mem_zip ha).2
  | stringMode hname hkind hbound =>
    exact writtenIn_charTasks hscope
      (fun rule hrule => hs _ _ hbound rule.body (List.mem_map_of_mem hrule)) 0 _

/-- A step binds names to bodies of the program only. -/
theorem Step.sourced (h : Step program c c') (hc : c.WrittenIn program) :
    Sourced program c'.names := by
  have hnames := hc.names
  have hsame {names : NameTable} (heq : names = c.names) : Sourced program names := heq ▸ hnames
  have hplain {names : NameTable} {name : String} {b : Binding}
      (hd : c.names.declare name b = .ok names) (hb : b.bodies = []) : Sourced program names :=
    hnames.declare (by simp [hb]) hd
  cases h with
  | define h => exact hplain (declareIn_eq_ok (Naming.outcome_eq_ok.mpr h)) rfl
  | refuse h => exact hsame (Naming.define_atomic _ _ _ _ _ h)
  | collectLabel h | collectNext h => exact hplain (declareIn_eq_ok h) rfl
  | declaration h hd => exact hplain hd (declaration_bodies h)
  | label h hd | next h hd =>
    rcases attempt_of_declareLabel hd with heq | hd
    · exact hsame heq
    · exact hplain hd rfl
  | macroDef h hd =>
    have hst := (hc.tasks _ List.mem_cons_self).statement
    refine hnames.declare (fun body hbody => ?_) hd
    rw [List.mem_singleton.mp hbody]
    exact hst.of_bodies List.mem_cons_self
  | stringMode h hd =>
    have hst := (hc.tasks _ List.mem_cons_self).statement
    exact hnames.declareRule (hst.of_bodies List.mem_cons_self) hd
  | invoke h | call h => exact hsame (names_of_expands h)
  | collect | collectParts _ | resolve | parts _ => exact hnames

/-- A step goes on with statements of the program only. -/
theorem Step.tasks_writtenIn (h : Step program c c') (hc : c.WrittenIn program) :
    ∀ task ∈ c'.tasks, task.WrittenIn program := by
  have hfirst {task : Task} {rest : List Task} (htasks : c.tasks = task :: rest) :
      task.WrittenIn program := hc.tasks task (htasks ▸ List.mem_cons_self)
  have hrest {task : Task} {rest : List Task} (htasks : c.tasks = task :: rest) :
      ∀ task ∈ rest, task.WrittenIn program :=
    fun task' hmem => hc.tasks task' (htasks ▸ List.mem_cons_of_mem task hmem)
  cases h with
  | define | refuse | collect | collectLabel | collectNext | collectParts => nofun
  | resolve => exact writtenIn_tasksOf nofun fun st hst => ⟨false, program, .program, hst⟩
  | parts =>
    obtain ⟨hst, hscope⟩ := hfirst rfl
    exact List.forall_mem_append.mpr
      ⟨writtenIn_tasksOf hscope fun inner hinner => hst.of_parts hinner, hrest rfl⟩
  | declaration | label | macroDef | stringMode => exact hrest rfl
  | next =>
    obtain ⟨hst, hscope⟩ := hfirst rfl
    have hinner : Inside program _ := ⟨_, _, hst.of_bodies List.mem_cons_self, List.mem_cons_self⟩
    exact List.forall_mem_cons.mpr ⟨⟨hinner, hscope⟩, hrest rfl⟩
  | invoke h =>
    obtain ⟨hst, hscope⟩ := hfirst rfl
    exact List.forall_mem_append.mpr
      ⟨writtenIn_of_expands h hc.names hscope fun a ha => ⟨_, _, hst, ha⟩, hrest rfl⟩
  | call h =>
    exact List.forall_mem_append.mpr
      ⟨writtenIn_of_expands h hc.names (hfirst rfl).scope nofun, hrest rfl⟩

/-- **An analysis never leaves its program.** -/
theorem writtenIn_of_run (h : Run program (.defining []) c) : c.WrittenIn program := by
  induction h with
  | refl => exact ⟨nofun, .nil⟩
  | tail _ hstep ih => exact ⟨hstep.tasks_writtenIn ih, hstep.sourced ih⟩

end Runs

end Analysis

/-! ## Leaves -/

/-- A name that a leaf declares or notes is a name of the text, and a format is a string of it. -/
def Leaf.SpelledIn (ts : List Token) : Leaf → Prop
  | .label name | .nextLabel name | .breakpoint name => ∃ t ∈ ts, t.kind = .name ∧ t.text = name
  | .monitor _ (.format text) => ∃ t ∈ ts, t.kind = .string ∧ t.text = text
  | _ => True

section Leaves

variable {ts : List Token} {program : List Statement} {next : Option TokenKind}
  (hprogram : Reads (.body false) ts program next)

include hprogram

/-- A declared name is spelled in the text, whether it is written there or passed. -/
theorem spelled_of_declaredName {env : Env} (hscope : env.scope.PassedIn program) {t name : Token}
    (ht : t ∈ ts) (h : env.declaredName t = .ok name) :
    ∃ u ∈ ts, u.kind = .name ∧ u.text = name.text := by
  obtain ⟨hkind, rfl | ⟨frame, hframe, a, ha, rfl⟩⟩ := Env.name_of_declaredName h
  · exact ⟨name, ht, hkind, rfl⟩
  · exact ⟨a.2, (hscope frame hframe a ha).mem hprogram, hkind, rfl⟩

/-- A leaf is spelled as in the text, one case to a simple statement. -/
theorem spelled_of_simple {env : Env} (hscope : env.scope.PassedIn program) {st : Simple}
    (hst : Inside program (.simple st)) {token : Token} {l : Leaf}
    (h : env.simple st = .ok (token, l)) : l.SpelledIn ts := by
  cases st with
  | breakpoint word name =>
    obtain ⟨u, hu, h⟩ := bind_eq_ok.mp h
    obtain ⟨-, rfl⟩ := Prod.mk.inj (pure_eq_ok.mp h)
    exact spelled_of_declaredName hprogram hscope (hst.breakpoint_mem hprogram) hu
  | monitor word v style =>
    obtain ⟨target, -, h⟩ := bind_eq_ok.mp h
    obtain ⟨-, rfl⟩ := Prod.mk.inj (pure_eq_ok.mp h)
    cases style with
    | length => trivial
    | format text =>
      obtain ⟨hmem, hstring⟩ := hst.format_mem hprogram
      exact ⟨text, hmem, hstring, rfl⟩
  | ret _ | clear _ =>
    obtain ⟨-, rfl⟩ := Prod.mk.inj (pure_eq_ok.mp h)
    trivial
  | bcd _ _ | save _ _ | load _ _ | jump _ _ | jumpOffset _ _ | callAddress _ _ | datum _ _
  | assign _ | org _ _ | byte _ _ | pointer _ _ | assertion _ _ _ =>
    obtain ⟨x, -, h⟩ := bind_eq_ok.mp h
    obtain ⟨-, rfl⟩ := Prod.mk.inj (pure_eq_ok.mp h)
    trivial
  | unpack _ _ _ =>
    obtain ⟨tag, -, h⟩ := bind_eq_ok.mp h
    obtain ⟨v, -, h⟩ := bind_eq_ok.mp h
    obtain ⟨-, rfl⟩ := Prod.mk.inj (pure_eq_ok.mp h)
    trivial
  | sprite _ _ _ _ =>
    obtain ⟨x, -, h⟩ := bind_eq_ok.mp h
    obtain ⟨y, -, h⟩ := bind_eq_ok.mp h
    obtain ⟨v, -, h⟩ := bind_eq_ok.mp h
    obtain ⟨-, rfl⟩ := Prod.mk.inj (pure_eq_ok.mp h)
    trivial

/-- A leaf of the program, wherever it came from. -/
theorem SourcedLeaf.spelled {l : Leaf} (h : SourcedLeaf program l) : l.SpelledIn ts := by
  obtain ⟨scope, st, rest, s, hrun, hmakes⟩ := h
  obtain ⟨hst, hscope⟩ := (Analysis.writtenIn_of_run hrun).tasks _ List.mem_cons_self
  cases hmakes with
  | simple h => exact spelled_of_simple hprogram hscope hst h
  | label h => exact spelled_of_declaredName hprogram hscope (hst.label_mem hprogram) h
  | nextLabel h => exact spelled_of_declaredName hprogram hscope (hst.next_mem hprogram) h
  | datum | call | callValue => trivial

end Leaves

/-- **Names and formats of a resolved program are words of its text.** -/
theorem spelled_of_resolve {options : Options} {ts : List Token} {program : List Statement}
    {items : List Item} (hparse : parse ts = .ok program) (h : resolve options program = .ok items) :
    ∀ l ∈ leavesOf items, l.SpelledIn ts :=
  fun l hl => ((resolve_sourced h).leaves l hl).spelled (parse_eq_ok.mp hparse)

end OctoAsm
