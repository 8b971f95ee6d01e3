/-
  A parsed program never leaves a loop where there is none.

  The resolver recognises the end of a loop by itself and blames every other break.  Where the
  breaks of a program end its loops, no statement that is resolved on its own is a break: bodies come
  from the program, also those that macros and stringmodes expand to, because nothing else is ever
  bound to a name (`Sourced`).  `Safe` puts the two together: a step does not stop at a break, and
  the bodies that are bound after it are still bodies of the program.  It is kept by every step of
  the walk, and the depth of expansions is the last induction (`expandWithin_safe`).
-/
import OctoAsm.Proofs.Names
import OctoAsm.Proofs.Resolve.Blame
import OctoAsm.Proofs.Resolve.Derivation
import OctoAsm.Proofs.Resolve.Values
import OctoAsm.Proofs.Statement.Breaks

namespace OctoAsm

variable {α β : Type}

/-! ## Failures for other reasons -/

/-- A failure has another reason than a misplaced break. -/
def Spares (x : Except ResolveError α) : Prop := ∀ e, x = .error e → e.cause ≠ .misplacedBreak

/-- A success has no cause. -/
theorem Spares.ok (a : α) : Spares (.ok a : Except ResolveError α) := nofun

/-- A failure for any other cause is spared. -/
theorem Spares.error {e : ResolveError} (h : e.cause ≠ .misplacedBreak) :
    Spares (.error e : Except ResolveError α) := by
  intro e' he
  obtain rfl := Except.error.inj he
  exact h

/-- What blames nothing but causes other than that. -/
theorem Spares.of_ends {x : Except ResolveError α} {Q : α → Prop}
    (h : ∀ {E : ResolveError → Prop}, Blames id E → Ends E Q x) : Spares x := by
  intro e he
  have hends : Ends (fun e => e.cause ≠ .misplacedBreak) Q x := h fun _ _ _ hcause => hcause
  exact hends.of_error he

namespace Env

variable (env : Env)

/-- A change of nothing leaves every scope alone, so the account of whom an environment blames holds
    of all of them. -/
theorem scope_id : env.scope = env.scope.map (Frame.mapTokens id) := by
  have hframe : Frame.mapTokens id = id := by
    funext frame
    simp [Frame.mapTokens]
  rw [hframe, List.map_id]

/-- Substitution never blames a break. -/
theorem substitute_spares (token : Token) : Spares (env.substitute token) :=
  .of_ends fun hE => substitute_ends .id hE env.scope_id rfl

/-- Names of declarations are refused for what they are. -/
theorem declaredName_spares (token : Token) : Spares (env.declaredName token) :=
  .of_ends fun hE => declaredName_ends .id hE env.scope_id rfl

/-- Values out of range are no breaks. -/
theorem inRange_spares (token : Token) (bits : Nat) (v : Imm) : Spares (inRange token bits v) :=
  .of_ends fun hE => inRange_ends hE rfl bits v

/-- Values are refused for their names or their ranges. -/
theorem imm_spares (bits : Nat) (v : ValueRef) : Spares (env.imm bits v) :=
  .of_ends fun hE => imm_ends .id hE env.scope_id bits v.mapTokens_id

/-- A statement that stands alone is resolved without looking at loops. -/
theorem simple_spares (st : Simple) : Spares (env.simple st) :=
  .of_ends fun hE => simple_ends .id hE env.scope_id st.mapTokens_id

/-- So is a condition. -/
theorem condition_spares (c : Condition) : Spares (env.condition c) :=
  .of_ends fun hE => condition_ends .id hE env.scope_id c.mapTokens_id

/-- So is a declaration. -/
theorem declaration_spares (d : Declaration) : Spares (env.declaration d) :=
  .of_ends fun hE => declaration_ends .id hE env.scope_id d.mapTokens_id

end Env

/-! ## Bodies that names are bound to -/

/-- The bodies that a name with this binding expands to. -/
def Binding.bodies : Binding → List (List Statement)
  | .macroDef _ body => [body]
  | .stringMode rules => rules.map (·.body)
  | .label _ | .register _ | .registerConst _ | .const _ | .calcName _ _ => []

/-- Names expand to bodies of the program only. -/
def Sourced (program : List Statement) (names : NameTable) : Prop :=
  ∀ name b, names.get? name = some b → ∀ body ∈ b.bodies, Within program false body

namespace Sourced

variable {program : List Statement} {names names' : NameTable} {name : String}

/-- The empty table binds no bodies. -/
theorem nil : Sourced program [] := by
  intro name b h
  cases h

/-- Binding a name to bodies of the program. -/
theorem set (h : Sourced program names) {b : Binding}
    (hb : ∀ body ∈ b.bodies, Within program false body) : Sourced program (names.set name b) := by
  intro other b' hother
  by_cases hname : other = name
  · subst hname
    rw [NameTable.get?_set_self] at hother
    obtain rfl := Option.some.inj hother
    exact hb
  · rw [NameTable.get?_set_of_ne _ _ hname] at hother
    exact h other b' hother

/-- A declaration that succeeds binds its name, and leaves the others alone. -/
theorem declare (h : Sourced program names) {b : Binding}
    (hb : ∀ body ∈ b.bodies, Within program false body)
    (hd : names.declare name b = .ok names') : Sourced program names' := by
  obtain ⟨rfl, -⟩ := NameTable.declare_eq_ok hd
  exact h.set hb

/-- A rule adds its body to those that its stringmode has. -/
theorem declareRule (h : Sourced program names) {rule : CharRule}
    (hrule : Within program false rule.body) (hd : names.declareRule name rule = .ok names') :
    Sourced program names' := by
  obtain ⟨earlier, rfl, hearlier⟩ := NameTable.declareRule_eq_set hd
  refine h.set fun body hbody => ?_
  rw [Binding.bodies, List.map_append, List.mem_append] at hbody
  rcases hbody with hbody | hbody
  · rcases hearlier with ⟨-, rfl⟩ | hbound
    · cases hbody
    · exact h name _ hbound body hbody
  · rw [List.mem_singleton.mp hbody]
    exact hrule

end Sourced

/-- A declaration of a value binds a name to no body. -/
theorem declaration_bodies {env : Env} {d : Declaration} {name : Token} {b : Binding}
    (h : env.declaration d = .ok (name, b)) : b.bodies = [] := by
  rcases Env.declaration_eq_ok h with hkind | ⟨expr, e, depth, rfl, -⟩
  · cases b with
    | macroDef | stringMode => simp [Binding.kind] at hkind
    | _ => rfl
  · rfl

/-! ## Steps of a resolution -/

/-- From the given state a step does not stop at a misplaced break, and it binds names to no bodies
    but those of the program. -/
structure Safe (program : List Statement) (r : Resolver α) (s : ResolveState) : Prop where
  spares : ∀ e, r s = .error e → e.cause ≠ .misplacedBreak
  keeps : ∀ a t, r s = .ok (a, t) → Sourced program t.names

namespace Safe

variable {program : List Statement} {s : ResolveState}

/-- A step that does nothing is safe. -/
theorem pure (h : Sourced program s.names) (a : α) : Safe program (Pure.pure a) s where
  spares := nofun
  keeps b t hb := by
    obtain ⟨-, rfl⟩ := Resolver.pure_eq_ok.mp hb
    exact h

/-- So is one that fails for another cause. -/
theorem fail {e : ResolveError} (h : e.cause ≠ .misplacedBreak) :
    Safe program (Resolver.fail e : Resolver α) s where
  spares e' he := by
    obtain rfl := Except.error.inj he
    exact h
  keeps a t ha := absurd ha Resolver.fail_ne_ok

/-- Steps one after the other: the second one starts from bodies of the program, as the first one
    ends with them. -/
theorem bind {x : Resolver α} {f : α → Resolver β} (hx : Safe program x s)
    (hf : ∀ a t, x s = .ok (a, t) → Sourced program t.names → Safe program (f a) t) :
    Safe program (x >>= f) s where
  spares e he := by
    rcases Resolver.bind_eq_error.mp he with he | ⟨a, t, ha, he⟩
    · exact hx.spares e he
    · exact (hf a t ha (hx.keeps a t ha)).spares e he
  keeps b u hb := by
    obtain ⟨a, t, ha, hb⟩ := Resolver.bind_eq_ok.mp hb
    exact (hf a t ha (hx.keeps a t ha)).keeps b u hb

/-- What reads the names only, in any environment. -/
theorem look (h : Sourced program s.names) {scope : Scope} {f : Env → Except ResolveError α}
    (hf : ∀ env, Spares (f env)) : Safe program (Resolver.look scope f) s where
  spares e he := by
    unfold Resolver.look at he
    split at he
    · cases he
    · rename_i e' he'
      obtain rfl := Except.error.inj he
      exact hf _ _ he'
  keeps a t ha := by
    obtain ⟨-, rfl⟩ := Resolver.look_eq_ok.mp ha
    exact h

/-- Declaring a name is safe where its bodies are the program's. -/
theorem declare (h : Sourced program s.names) {name : Token} {b : Binding}
    (hb : ∀ body ∈ b.bodies, Within program false body) :
    Safe program (Resolver.declare name b) s where
  spares e he := by
    unfold Resolver.declare at he
    split at he
    · cases he
    · obtain rfl := Except.error.inj he
      simp [Token.blame]
  keeps u t hu := by
    obtain ⟨names, hnames, rfl⟩ := Resolver.declare_eq_ok.mp hu
    exact h.declare hb hnames

/-- Declaring a rule is safe where its body is the program's. -/
theorem declareRule (h : Sourced program s.names) {name : Token} {rule : CharRule}
    (hrule : Within program false rule.body) : Safe program (Resolver.declareRule name rule) s where
  spares e he := by
    unfold Resolver.declareRule at he
    split at he
    · cases he
    all_goals
      obtain rfl := Except.error.inj he
      simp [Token.blame]
  keeps u t hu := by
    obtain ⟨names, hnames, rfl⟩ := Resolver.declareRule_eq_ok.mp hu
    exact h.declareRule hrule hnames

/-- A label is declared without a body. -/
theorem declareLabel (h : Sourced program s.names) {scope : Scope} {name : Token} {next : Bool} :
    Safe program (OctoAsm.declareLabel scope name next) s := by
  unfold OctoAsm.declareLabel
  split
  · exact .pure h ()
  · exact .declare h (by simp [Binding.bodies])

/-- What goes on from the state as it is. -/
theorem get_bind {f : ResolveState → Resolver β} (h : Safe program (f s) s) :
    Safe program (get >>= f) s :=
  ⟨h.spares, h.keeps⟩

/-- Counting an invocation does not look at bodies. -/
theorem startCall (h : Sourced program s.names) {name : String} :
    Safe program (Resolver.startCall name) s where
  spares := nofun
  keeps n t hn := by
    obtain ⟨-, rfl⟩ := Resolver.startCall_eq_ok.mp hn
    exact h

end Safe

/-! ## The walk -/

/-- An expander that resolves the bodies of a program safely. -/
def Expander.Safe (program : List Statement) (expand : Expander) : Prop :=
  ∀ {token frame scope body s}, Within program false body → Sourced program s.names →
    OctoAsm.Safe program (expand token frame scope body) s

section Expansions

variable {program : List Statement} {expand : Expander} {scope : Scope} {s : ResolveState}

/-- By induction on the characters: the body of each rule is one of the program, and so are those
    bound after it. -/
theorem expandChars_safe (hexp : expand.Safe program) {name text : Token} {rules : List CharRule}
    {calls : Int} (hrules : ∀ rule ∈ rules, Within program false rule.body) {index : Nat}
    {cs : List Char} (hs : Sourced program s.names) :
    Safe program (expandChars expand scope name text rules calls index cs) s := by
  induction cs generalizing index s with
  | nil => exact .pure hs []
  | cons c cs ih =>
    rw [expandChars]
    cases hrule : coveringRule? rules c with
    | none => exact .fail (by simp [Token.blame])
    | some covering =>
      obtain ⟨rule, value⟩ := covering
      have hmem := mem_of_coveringRule? hrule
      refine .bind (hexp (hrules rule hmem) hs) fun items t _ ht => ?_
      exact .bind (ih ht) fun others u _ hu => .pure hu _

/-- A string is refused for its argument or for a character without a rule, or spelled. -/
theorem expandStringMode_safe (hexp : expand.Safe program) {name : Token} {rules : List CharRule}
    (hrules : ∀ rule ∈ rules, Within program false rule.body) {args : List Token}
    (hs : Sourced program s.names) :
    Safe program (expandStringMode expand scope name rules args) s := by
  unfold expandStringMode
  split
  · refine .bind (.look hs fun env => env.substitute_spares _) fun text t _ ht => ?_
    split
    · exact .bind (.startCall ht) fun calls u _ hu => expandChars_safe hexp hrules hu
    · exact .fail (by simp [Token.blame])
  · exact .fail (by simp [Token.blame])

/-- The body of a macro is expanded in a scope of its own, and bodies are safe in every scope. -/
theorem expandMacro_safe (hexp : expand.Safe program) {name : Token} {params args : List Token}
    {body : List Statement} (hbody : Within program false body) (hs : Sourced program s.names) :
    Safe program (expandMacro expand scope name params body args) s := by
  unfold expandMacro
  split
  · exact .bind (.startCall hs) fun calls t _ ht => hexp hbody ht
  · exact .fail (by simp [Token.blame])

/-- An invocation finds its bodies in the table, where all are bodies of the program. -/
theorem resolveInvocation_safe (hexp : expand.Safe program) {word : Token} {args : List Token}
    (hs : Sourced program s.names) :
    Safe program (resolveInvocation expand scope word args) s := by
  refine .bind (.look hs fun env => env.substitute_spares word) fun name t _ ht => ?_
  split
  · refine .get_bind ?_
    split
    · rename_i params body hbound
      exact expandMacro_safe hexp (ht _ _ hbound body List.mem_cons_self) ht
    · rename_i rules hbound
      refine expandStringMode_safe hexp (fun rule hrule => ?_) ht
      exact ht _ _ hbound _ (List.mem_map.mpr ⟨rule, hrule, rfl⟩)
    · exact .fail (by simp [Token.blame])
    · exact .fail (by simp [Token.blame])
  · exact .fail (by simp [Token.blame])

/-- A bare name expands what it is bound to, or calls an address. -/
theorem resolveCall_safe (hexp : expand.Safe program) {word : Token}
    (hs : Sourced program s.names) : Safe program (resolveCall expand scope word) s := by
  refine .bind (.look hs fun env => env.substitute_spares word) fun target t _ ht => ?_
  split
  · exact .bind (.look ht fun _ => Env.inRange_spares _ _ _) fun v u _ hu => .pure hu _
  · refine .get_bind ?_
    split
    · exact resolveInvocation_safe hexp ht
    · exact resolveInvocation_safe hexp ht
    · exact .pure ht _
    · exact .bind (.look ht fun env => env.imm_spares _ _) fun v u _ hu => .pure hu _
    · exact .fail (by simp [Token.blame])
  · exact .fail (by simp [Token.blame])

end Expansions

section Statements

variable {program : List Statement} {expand : Expander} {scope : Scope}

/-- A statement that is not a break, in a body of the program. -/
structure StandsAlone (program : List Statement) (st : Statement) : Prop where
  within : ∃ b body, Within program b body ∧ st ∈ body
  unbroken : ∀ token cond, st ≠ .breakIf token cond

/-- The bodies in a statement of the program are bodies of the program. -/
theorem StandsAlone.body {st : Statement} (h : StandsAlone program st) {b : Bool}
    {body : List Statement} (hbody : (b, body) ∈ st.bodies) : Within program b body := by
  obtain ⟨b₀, body₀, hwithin, hst⟩ := h.within
  exact hwithin.inner hst hbody

/-- The statements of a body that is not a loop's are resolved on their own. -/
theorem Within.stands (hbreaks : BreaksEndLoops program) {body : List Statement}
    (h : Within program false body) : ∀ st ∈ body, StandsAlone program st := by
  intro st hst
  refine ⟨⟨false, body, h, hst⟩, ?_⟩
  rintro token cond rfl
  obtain ⟨front, rest, hsplit⟩ := List.append_of_mem hst
  exact absurd (hbreaks _ _ h _ _ _ _ hsplit).1 (by decide)

/-- So are those of a loop, up to the break that may end it. -/
theorem Within.stands_loop (hbreaks : BreaksEndLoops program) {front rest : List Statement}
    {st : Statement} (h : Within program true (front ++ st :: rest))
    (hlast : ¬ ∃ token cond, st = .breakIf token cond ∧ rest = []) : StandsAlone program st := by
  refine ⟨⟨true, _, h, by simp⟩, ?_⟩
  rintro token cond rfl
  exact hlast ⟨token, cond, rfl, (hbreaks _ _ h _ _ _ _ rfl).2⟩

mutual

/-- By recursion on the statement, with the walks over blocks and loops. A break is no statement
    that stands alone, and loops take their own. -/
theorem resolveStatement_safe (hbreaks : BreaksEndLoops program) (hexp : expand.Safe program) :
    ∀ (st : Statement) {s : ResolveState}, StandsAlone program st → Sourced program s.names →
      Safe program (resolveStatement expand scope st) s
  | .simple st, s, _, hs => by
    rw [resolveStatement]
    exact .bind (.look hs fun env => env.simple_spares st) fun _ t _ ht => .pure ht _
  | .declaration d, s, _, hs => by
    rw [resolveStatement]
    refine .bind (.look hs fun env => env.declaration_spares d) fun ⟨name, b⟩ t hlook ht => ?_
    -- what a declaration binds has no body
    obtain ⟨hd, -⟩ := Resolver.look_eq_ok.mp hlook
    exact .bind (.declare ht (by simp [declaration_bodies hd])) fun _ u _ hu => .pure hu _
  | .label name, s, _, hs => by
    rw [resolveStatement]
    refine .bind (.look hs fun env => env.declaredName_spares name) fun name t _ ht => ?_
    exact .bind (.declareLabel ht) fun _ u _ hu => .pure hu _
  | .next word name inner, s, hst, hs => by
    rw [resolveStatement]
    refine .bind (.look hs fun env => env.declaredName_spares name) fun name t _ ht => ?_
    refine .bind (.declareLabel ht) fun _ u _ hu => ?_
    -- the statement behind `:next` counts as a body of its own
    have hinner : Within program false [inner] := hst.body List.mem_cons_self
    exact .bind (resolveStatement_safe hbreaks hexp inner
      (hinner.stands hbreaks inner List.mem_cons_self) hu) fun _ v _ hv => .pure hv _
  | .macroDef word name params body, s, hst, hs => by
    rw [resolveStatement]
    refine .bind (.look hs fun env => env.declaredName_spares name) fun name t _ ht => ?_
    have hbody : Within program false body := hst.body List.mem_cons_self
    refine .bind (.declare ht ?_) fun _ u _ hu => .pure hu _
    simpa [Binding.bodies] using hbody
  | .stringMode word name alphabet body, s, hst, hs => by
    rw [resolveStatement]
    refine .bind (.look hs fun env => env.declaredName_spares name) fun name t _ ht => ?_
    exact .bind (.declareRule ht (hst.body List.mem_cons_self)) fun _ u _ hu => .pure hu _
  | .invoke name args, s, _, hs => by
    rw [resolveStatement]
    exact resolveInvocation_safe hexp hs
  | .call name, s, _, hs => by
    rw [resolveStatement]
    exact resolveCall_safe hexp hs
  | .ifThen token cond body, s, hst, hs => by
    rw [resolveStatement]
    refine .bind (.look hs fun env => env.condition_spares cond) fun _ t _ ht => ?_
    have hbody : Within program false [body] := hst.body List.mem_cons_self
    exact .bind (resolveStatement_safe hbreaks hexp body
      (hbody.stands hbreaks body List.mem_cons_self) ht) fun _ u _ hu => .pure hu _
  -- a break that stands alone is against the assumption; this is where it is used
  | .breakIf token cond, s, hst, _ => absurd rfl (hst.unbroken token cond)
  | .ifBegin token cond body, s, hst, hs => by
    rw [resolveStatement]
    refine .bind (.look hs fun env => env.condition_spares cond) fun _ t _ ht => ?_
    have hbody : Within program false body := hst.body List.mem_cons_self
    exact .bind (resolveBlock_safe hbreaks hexp body (hbody.stands hbreaks) ht)
      fun _ u _ hu => .pure hu _
  | .ifElse token cond body otherwise, s, hst, hs => by
    rw [resolveStatement]
    refine .bind (.look hs fun env => env.condition_spares cond) fun _ t _ ht => ?_
    have hbody : Within program false body := hst.body List.mem_cons_self
    have hother : Within program false otherwise :=
      hst.body (List.mem_cons_of_mem _ List.mem_cons_self)
    refine .bind (resolveBlock_safe hbreaks hexp body (hbody.stands hbreaks) ht) fun _ u _ hu => ?_
    exact .bind (resolveBlock_safe hbreaks hexp otherwise (hother.stands hbreaks) hu)
      fun _ v _ hv => .pure hv _
  | .loop token body, s, hst, hs => by
    rw [resolveStatement]
    -- the loop takes its last statement itself, so its body may end in a break
    have hbody : Within program true ([] ++ body) := hst.body List.mem_cons_self
    refine .bind (resolveLoop_safe hbreaks hexp body [] hbody hs) fun ⟨items, leave⟩ t _ ht => ?_
    cases leave with
    | none => exact .pure ht _
    | some cond => exact .pure ht _
  | .whileDo token cond body, s, hst, hs => by
    rw [resolveStatement]
    refine .bind (.look hs fun env => env.condition_spares cond) fun _ t _ ht => ?_
    have hbody : Within program false [body] := hst.body List.mem_cons_self
    exact .bind (resolveStatement_safe hbreaks hexp body
      (hbody.stands hbreaks body List.mem_cons_self) ht) fun _ u _ hu => .pure hu _

/-- A block resolves its statements one after the other, each standing alone. -/
theorem resolveBlock_safe (hbreaks : BreaksEndLoops program) (hexp : expand.Safe program) :
    ∀ (body : List Statement) {s : ResolveState}, (∀ st ∈ body, StandsAlone program st) →
      Sourced program s.names → Safe program (resolveBlock expand scope body) s
  | [], s, _, hs => .pure hs []
  | st :: rest, s, hbody, hs => by
    rw [resolveBlock]
    refine .bind (resolveStatement_safe hbreaks hexp st (hbody st List.mem_cons_self) hs)
      fun _ t _ ht => ?_
    exact .bind (resolveBlock_safe hbreaks hexp rest
      (fun st' hst' => hbody st' (List.mem_cons_of_mem _ hst')) ht) fun _ u _ hu => .pure hu _

/-- The rest of a loop's body, behind the statements that were resolved already. -/
theorem resolveLoop_safe (hbreaks : BreaksEndLoops program) (hexp : expand.Safe program) :
    ∀ (body front : List Statement) {s : ResolveState}, Within program true (front ++ body) →
      Sourced program s.names → Safe program (resolveLoop expand scope body) s
  | [], _, s, _, hs => .pure hs _
  | st :: rest, front, s, hwithin, hs => by
    by_cases hlast : ∃ token cond, st = .breakIf token cond ∧ rest = []
    · obtain ⟨token, cond, rfl, rfl⟩ := hlast
      rw [resolveLoop]
      exact .bind (.look hs fun env => env.condition_spares cond) fun _ t _ ht => .pure ht _
    · rw [resolveLoop_cons hlast]
      refine .bind (resolveStatement_safe hbreaks hexp st (hwithin.stands_loop hbreaks hlast) hs)
        fun _ t _ ht => ?_
      have hrest : Within program true ((front ++ [st]) ++ rest) := by
        rwa [List.append_assoc, List.singleton_append]
      exact .bind (resolveLoop_safe hbreaks hexp rest (front ++ [st]) hrest ht)
        fun _ u _ hu => .pure hu _

end

end Statements

/-- By induction on the depth: the expansions within an expansion are those of one level less. -/
theorem expandWithin_safe {program : List Statement} (hbreaks : BreaksEndLoops program)
    (limit depth : Nat) : (expandWithin limit depth).Safe program := by
  induction depth with
  | zero =>
    intro token frame scope body s _ _
    exact .fail (by simp [Token.blame])
  | succ depth ih =>
    intro token frame scope body s hbody hs
    exact resolveBlock_safe hbreaks ih body (hbody.stands hbreaks) hs

/-! ## Programs -/

/-- The labels of a program are collected without a break in the way, and they bind no bodies. -/
structure Collects (program : List Statement) (x : Except ResolveError NameTable) : Prop where
  spares : Spares x
  keeps : ∀ names, x = .ok names → Sourced program names

section Labels

variable {program : List Statement} {names : NameTable}

/-- A table whose bodies are the program's is a result that is spared. -/
theorem Collects.ok (h : Sourced program names) : Collects program (.ok names) where
  spares := .ok names
  keeps := by
    rintro names' hnames
    obtain rfl := Except.ok.inj hnames
    exact h

/-- Tables built one after the other. -/
theorem Collects.bind {x : Except ResolveError NameTable}
    {f : NameTable → Except ResolveError NameTable} (hx : Collects program x)
    (hf : ∀ names, Sourced program names → Collects program (f names)) :
    Collects program (x >>= f) where
  spares e he := by
    rcases bind_eq_error.mp he with he | ⟨names, hnames, he⟩
    · exact hx.spares e he
    · exact (hf names (hx.keeps names hnames)).spares e he
  keeps names' h := by
    obtain ⟨names, hnames, h⟩ := bind_eq_ok.mp h
    exact (hf names (hx.keeps names hnames)).keeps names' h

/-- Names without bodies leave the bodies as they are. -/
theorem declareIn_collects (h : Sourced program names) {name : Token} {b : Binding}
    (hb : b.bodies = []) : Collects program (declareIn names name b) where
  spares := by
    rw [declareIn_def]
    split
    · exact .ok _
    · exact .error (by simp [Token.blame])
  keeps names' hd := h.declare (by simp [hb]) (declareIn_eq_ok hd)

mutual

/-- The first walk declares labels only, and goes into bodies by the same recursion. -/
theorem collectLabels_collects : ∀ (st : Statement) {names : NameTable}, Sourced program names →
    Collects program (collectLabels names st)
  | .label _, _, h => declareIn_collects h rfl
  | .next _ _ st, _, h =>
    (declareIn_collects h rfl).bind fun _ h' => collectLabels_collects st h'
  | .ifThen _ _ body, _, h | .whileDo _ _ body, _, h => collectLabels_collects body h
  | .ifBegin _ _ body, _, h | .loop _ body, _, h => collectBlockLabels_collects body h
  | .ifElse _ _ body otherwise, _, h =>
    (collectBlockLabels_collects body h).bind fun _ h' => collectBlockLabels_collects otherwise h'
  | .simple _, _, h | .declaration _, _, h | .macroDef .., _, h | .stringMode .., _, h
  | .invoke .., _, h | .call _, _, h | .breakIf .., _, h => .ok h

/-- The first walk over a block. -/
theorem collectBlockLabels_collects : ∀ (body : List Statement) {names : NameTable},
    Sourced program names → Collects program (collectBlockLabels names body)
  | [], _, h => .ok h
  | st :: rest, _, h =>
    (collectLabels_collects st h).bind fun _ h' => collectBlockLabels_collects rest h'

end

/-- Names given from outside are constants. -/
theorem defineAll_collects (defines : List (String × Int)) (h : Sourced program names) :
    Collects program (defineAll names defines) := by
  induction defines generalizing names with
  | nil => exact .ok h
  | cons entry rest ih => exact (declareIn_collects h rfl).bind fun _ h' => ih h'

end Labels

/-- Where breaks end loops, no resolution stops at a break. -/
theorem resolve_spares {program : List Statement} (hbreaks : BreaksEndLoops program)
    (options : Options) : Spares (resolve options program) := by
  intro e he
  have hempty : Sourced program [] := .nil
  have hdefine := defineAll_collects options.defines hempty
  rcases bind_eq_error.mp he with he | ⟨defined, hdefined, he⟩
  · exact hdefine.spares e he
  have hlabels := collectBlockLabels_collects program (hdefine.keeps defined hdefined)
  rcases bind_eq_error.mp he with he | ⟨labelled, hlabelled, he⟩
  · exact hlabels.spares e he
  have hexp : (expandWithin options.maxExpansionDepth options.maxExpansionDepth).Safe program :=
    expandWithin_safe hbreaks _ _
  have hblock : Safe program (resolveBlock (expandWithin options.maxExpansionDepth
      options.maxExpansionDepth) [] program) ⟨labelled, []⟩ :=
    resolveBlock_safe hbreaks hexp program (Within.program.stands hbreaks)
      (hlabels.keeps labelled hlabelled)
  rcases bind_eq_error.mp he with he | ⟨⟨items, final⟩, -, he⟩
  · exact hblock.spares e he
  · -- all that is left is the question for `main`
    dsimp only at he
    split at he
    · cases he
    · obtain rfl := throw_eq_error.mp he
      simp

/-- **A break without a loop cannot arise from a text.**  In a parsed program breaks stand only at
    the very end of loops, at any depth, and so no resolution of it ends with a misplaced break. -/
theorem breaks_in_place {tokens : List Token} {program : List Statement}
    (h : parse tokens = .ok program) :
    BreaksEndLoops program ∧
      ∀ options e, resolve options program = .error e → e.cause ≠ .misplacedBreak := by
  have hbreaks : BreaksEndLoops program := breaksEndLoops_of_parse h
  exact ⟨hbreaks, fun options => resolve_spares hbreaks options⟩

/-- A loop with a break inside a macro that is reached through another one:
    `:macro poll r { loop if r key then again }`, `:macro twice r { poll r`, `poll r }`, `: main`,
    `twice v0`. -/
def pollingText : List Token :=
  [⟨1, .directive .macroDef, ":macro"⟩, ⟨1, .name, "poll"⟩, ⟨1, .name, "r"⟩,
    ⟨1, .openBrace, "\x7b"⟩, ⟨1, .keyword .loop, "loop"⟩, ⟨1, .keyword .ifWord, "if"⟩,
    ⟨1, .name, "r"⟩, ⟨1, .keyword .key, "key"⟩, ⟨1, .keyword .thenWord, "then"⟩,
    ⟨1, .keyword .again, "again"⟩, ⟨1, .closeBrace, "\x7d"⟩, ⟨1, .newline, "\n"⟩,
    ⟨2, .directive .macroDef, ":macro"⟩, ⟨2, .name, "twice"⟩, ⟨2, .name, "r"⟩,
    ⟨2, .openBrace, "\x7b"⟩, ⟨2, .name, "poll"⟩, ⟨2, .name, "r"⟩, ⟨2, .newline, "\n"⟩,
    ⟨3, .name, "poll"⟩, ⟨3, .name, "r"⟩, ⟨3, .closeBrace, "\x7d"⟩, ⟨3, .newline, "\n"⟩,
    ⟨4, .directive .label, ":"⟩, ⟨4, .name, "main"⟩, ⟨4, .newline, "\n"⟩,
    ⟨5, .name, "twice"⟩, ⟨5, .register (.v (vReg 0)), "v0"⟩]

/-- The statements of `pollingText`. -/
def pollingProgram : List Statement :=
  [.macroDef ⟨1, .directive .macroDef, ":macro"⟩ ⟨1, .name, "poll"⟩ [⟨1, .name, "r"⟩]
      [.loop ⟨1, .keyword .loop, "loop"⟩
        [.breakIf ⟨1, .keyword .ifWord, "if"⟩ (.key (.named ⟨1, .name, "r"⟩) true)]],
    .macroDef ⟨2, .directive .macroDef, ":macro"⟩ ⟨2, .name, "twice"⟩ [⟨2, .name, "r"⟩]
      [.invoke ⟨2, .name, "poll"⟩ [⟨2, .name, "r"⟩], .invoke ⟨3, .name, "poll"⟩ [⟨3, .name, "r"⟩]],
    .label ⟨4, .name, "main"⟩,
    .invoke ⟨5, .name, "twice"⟩ [⟨5, .register (.v (vReg 0)), "v0"⟩]]

/-- A macro that polls a key in a loop, expanded twice through another macro. -/
theorem breaks_in_place_polling :
    parse pollingText = .ok pollingProgram ∧ BreaksEndLoops pollingProgram ∧
      ∀ options e, resolve options pollingProgram = .error e → e.cause ≠ .misplacedBreak := by
  have hparse : parse pollingText = .ok pollingProgram := rfl
  exact ⟨hparse, breaks_in_place hparse⟩

end OctoAsm
