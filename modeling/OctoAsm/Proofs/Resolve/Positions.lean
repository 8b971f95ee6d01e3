/-
  Whom the resolver blames.

  The resolver blames tokens of the statement at hand and of the arguments in scope, as the
  environments of its statements do (`Env.simple_ends` and the like); bodies come from names.  So the
  invariant of its steps is `Settled`: the change of lines `f` that leaves the program alone leaves
  every binding alone, too.  Items are followed along, since their sites are what a later stage will
  blame.
-/
import OctoAsm.Proofs.Resolve.Blame

namespace OctoAsm

variable {α β : Type} {f : Token → Token}

/-! ## Steps of a resolution -/

/-- The bindings of a table are settled. -/
abbrev NameTable.Settled (f : Token → Token) (names : NameTable) : Prop := names.Relined f names

/-- A declaration binds one name to something settled, and leaves the others alone. -/
theorem NameTable.Settled.declare {names names' : NameTable} (h : names.Settled f) {name : String}
    {b : Binding} (hb : b.mapTokens f = b) (hd : names.declare name b = .ok names') :
    names'.Settled f := by
  have hagree := NameTable.Relined.declare h name b
  rw [hb] at hagree
  exact hagree.self hd

/-- What a settled table binds is left alone. -/
theorem NameTable.Settled.bound {names : NameTable} (h : names.Settled f) {name : String}
    {b : Binding} (hb : names.get? name = some b) : b.mapTokens f = b := by
  have hname := h name
  rw [hb] at hname
  exact (Option.some.inj hname).symm

/-- From a state with settled bindings, a step fails on a line in `L`, or it gives a result with a
    property and leaves the bindings settled. -/
def Resolver.Ends (f : Token → Token) (L : Nat → Prop) (Q : α → Prop) (r : Resolver α) : Prop :=
  ∀ s, s.names.Settled f →
    OctoAsm.Ends (fun e => L e.line) (fun p => Q p.1 ∧ p.2.names.Settled f) (r s)

namespace Resolver.Ends

variable {L : Nat → Prop} {Q : α → Prop} {R : β → Prop}

/-- A step that does nothing but give a result. -/
theorem pure {a : α} (h : Q a) : Ends f L Q (Pure.pure a) := fun _ hs => .ok ⟨h, hs⟩

/-- Steps one after the other; settled tables are handed on. -/
theorem bind {x : Resolver α} {g : α → Resolver β} (hx : Ends f L Q x)
    (hg : ∀ a, Q a → Ends f L R (g a)) : Ends f L R (x >>= g) := by
  intro s hs
  show OctoAsm.Ends _ _ (x s >>= fun p => g p.1 p.2)
  exact (hx s hs).bind fun p hp => hg p.1 hp.1 p.2 hp.2

/-- A failure at a line where it may be. -/
theorem fail {e : ResolveError} (h : L e.line) : Ends f L Q (Resolver.fail e : Resolver α) :=
  fun _ _ => .error h

/-- What reads the names only. -/
theorem look {scope : Scope} {g : Env → Except ResolveError α}
    (h : ∀ names : NameTable, names.Settled f → OctoAsm.Ends (fun e => L e.line) Q (g ⟨names, scope⟩)) :
    Ends f L Q (Resolver.look scope g) := by
  intro s hs
  have hfound := h s.names hs
  unfold Resolver.look
  generalize g ⟨s.names, scope⟩ = x at hfound
  cases hfound with
  | ok ha => exact .ok ⟨ha, hs⟩
  | error he => exact .error he

/-- A declaration blames its name, and binds what is left alone. -/
theorem declare {name : Token} {b : Binding} (hname : L name.line) (hb : b.mapTokens f = b) :
    Ends f L (fun _ => True) (Resolver.declare name b) := by
  intro s hs
  unfold Resolver.declare
  split
  · rename_i names hd
    exact .ok ⟨trivial, hs.declare hb hd⟩
  · exact .error hname

/-- A rule blames its name or its alphabet, and its stringmode stays settled. -/
theorem declareRule (hf : Relines f) {name : Token} {rule : CharRule} (hname : L name.line)
    (halphabet : L rule.alphabet.line) (hrule : rule.mapTokens f = rule) :
    Ends f L (fun _ => True) (Resolver.declareRule name rule) := by
  intro s hs
  have hagree := NameTable.Relined.declareRule hf hs name.text rule
  rw [hrule] at hagree
  unfold Resolver.declareRule
  split
  · rename_i names hd
    exact .ok ⟨trivial, hagree.self hd⟩
  · exact .error halphabet
  · exact .error hname

/-- Counting an invocation blames nobody. -/
theorem startCall (name : String) : Ends f L (fun _ => True) (Resolver.startCall name) :=
  fun _ hs => .ok ⟨trivial, hs⟩

/-- What goes on from the state as it is. -/
theorem get_bind {g : ResolveState → Resolver β}
    (h : ∀ s, s.names.Settled f → Ends f L R (g s)) : Ends f L R (get >>= g) :=
  fun s hs => h s hs s hs

end Resolver.Ends

/-! ## The walk -/

/-- Items, at every depth, stand on lines in `L`. -/
abbrev Placed (L : Nat → Prop) (items : List Item) : Prop := Alike (fun x _ => L x.line) items items

/-- An expander of settled bodies with settled arguments. -/
def Expander.Settles (f : Token → Token) (L : Nat → Prop) (expand : Expander) : Prop :=
  ∀ {token frame scope body}, f token = token → frame = frame.mapTokens f →
    scope = scope.map (Frame.mapTokens f) → mapTokensAll f body = body →
    Resolver.Ends f L (Placed L) (expand token frame scope body)

section Walk

variable {L : Nat → Prop} {expand : Expander} {scope : Scope} (hf : Relines f)
  (hL : ∀ t, f t = t → L t.line) (hexp : expand.Settles f L)
  (hscope : scope = scope.map (Frame.mapTokens f))

include hL

/-- Tokens that are left alone are on lines that may be blamed. -/
theorem blames_of_line : Blames f fun e => L e.line := fun t _ ht _ => hL t ht

include hf hscope in
/-- Substitution as a step of a resolution. -/
theorem substitute_step {t : Token} (ht : f t = t) :
    Resolver.Ends f L (fun u => f u = u) (Resolver.look scope (·.substitute t)) :=
  .look fun _ _ => Env.substitute_ends hf (blames_of_line hL) hscope ht

include hexp hscope

/-- By induction on the characters: the body of a rule is settled, and the text of the string is
    blamed for a character without a rule. -/
theorem expandChars_ends {name text : Token} (hname : f name = name) (htext : f text = text)
    {rules : List CharRule} (hrules : rules.map (CharRule.mapTokens f) = rules) {calls : Int}
    {index : Nat} {cs : List Char} :
    Resolver.Ends f L (Placed L) (expandChars expand scope name text rules calls index cs) := by
  induction cs generalizing index with
  | nil => exact .pure .nil
  | cons c cs ih =>
    rw [expandChars]
    cases hcovering : coveringRule? rules c with
    | none => exact .fail (hL text htext)
    | some covering =>
      obtain ⟨rule, value⟩ := covering
      have hmem := mem_of_coveringRule? hcovering
      have hrule : rule.mapTokens f = rule :=
        List.map_inj_left.mp (hrules.trans (List.map_id rules).symm) rule hmem
      have hbody : mapTokensAll f rule.body = rule.body := congrArg CharRule.body hrule
      exact (hexp hname rfl hscope hbody).bind fun items hitems => ih.bind fun others hothers =>
        .pure (hitems.append hothers)

include hf

/-- A string is blamed for its argument, or spelled in a frame that is left alone. -/
theorem expandStringMode_ends {name : Token} (hname : f name = name) {rules : List CharRule}
    (hrules : rules.map (CharRule.mapTokens f) = rules) {args : List Token}
    (hargs : args.map f = args) :
    Resolver.Ends f L (Placed L) (expandStringMode expand scope name rules args) := by
  unfold expandStringMode
  split
  · refine (substitute_step hf hL hscope (List.cons.inj hargs).1).bind fun text htext => ?_
    split
    · exact (Resolver.Ends.startCall name.text).bind fun calls _ =>
        expandChars_ends hL hexp hscope hname htext hrules
    · exact .fail (hL text htext)
  · exact .fail (hL name hname)

omit hf in
/-- A macro is blamed for the number of its arguments, or expanded in a frame that binds them. -/
theorem expandMacro_ends {name : Token} (hname : f name = name) {params args : List Token}
    (hargs : args.map f = args) {body : List Statement} (hbody : mapTokensAll f body = body) :
    Resolver.Ends f L (Placed L) (expandMacro expand scope name params body args) := by
  have hbound : (params.map (·.text)).zip (args.map f) =
      ((params.map (·.text)).zip args).map fun a => (a.1, f a.2) := by
    rw [List.zip_map_right]
    rfl
  rw [hargs] at hbound
  unfold expandMacro
  split
  · refine (Resolver.Ends.startCall name.text).bind fun calls _ => hexp hname ?_ hscope hbody
    rw [Frame.mapTokens, ← hbound]
  · exact .fail (hL name hname)

/-- An invocation blames its name, and finds settled bodies in the table. -/
theorem resolveInvocation_ends {word : Token} (hword : f word = word) {args : List Token}
    (hargs : args.map f = args) :
    Resolver.Ends f L (Placed L) (resolveInvocation expand scope word args) := by
  refine (substitute_step hf hL hscope hword).bind fun name hname => ?_
  split
  · refine .get_bind fun s hs => ?_
    split
    · rename_i params body hbound
      have hbody := (Binding.macroDef.inj (hs.bound hbound)).2
      exact expandMacro_ends hL hexp hscope hname hargs hbody
    · rename_i rules hbound
      have hrules := Binding.stringMode.inj (hs.bound hbound)
      exact expandStringMode_ends hf hL hexp hscope hname hrules hargs
    · exact .fail (hL name hname)
    · exact .fail (hL name hname)
  · exact .fail (hL name hname)

/-- A bare name is blamed itself. -/
theorem resolveCall_ends {word : Token} (hword : f word = word) :
    Resolver.Ends f L (Placed L) (resolveCall expand scope word) := by
  have hleaf (l : Leaf) : Placed L [.leaf word.site l] := .leaf (hL word hword) .nil
  refine (substitute_step hf hL hscope hword).bind fun target htarget => ?_
  split
  · have himm (n : Int) : Resolver.Ends f L (fun _ => True)
        (Resolver.look scope fun _ => Env.inRange target 8 (.number n)) :=
      .look fun _ _ => Env.inRange_ends (blames_of_line hL) htarget 8 _
    exact (himm _).bind fun v _ => .pure (hleaf _)
  · refine .get_bind fun s hs => ?_
    split
    · exact resolveInvocation_ends hf hL hexp hscope hword rfl
    · exact resolveInvocation_ends hf hL hexp hscope hword rfl
    · exact .pure (hleaf _)
    · have hvalue : (ValueRef.named word).mapTokens f = .named word := congrArg ValueRef.named hword
      have himm : Resolver.Ends f L (fun _ => True)
          (Resolver.look scope (·.imm 12 (.named word))) :=
        .look fun _ hs => Env.imm_ends hf (blames_of_line hL) hscope 12 hvalue
      exact himm.bind fun v _ => .pure (hleaf _)
    · exact .fail (hL target htarget)
  · exact .fail (hL target htarget)

omit hexp in
/-- Finding a declared name as a step of a resolution. -/
theorem declaredName_step_ends {t : Token} (ht : f t = t) :
    Resolver.Ends f L (fun u => f u = u) (Resolver.look scope (·.declaredName t)) :=
  .look fun _ _ => Env.declaredName_ends hf (blames_of_line hL) hscope ht

omit hexp in
/-- Resolving a condition as a step of a resolution. -/
theorem condition_step_ends {c : Condition} (hc : c.mapTokens f = c) :
    Resolver.Ends f L (fun _ => True) (Resolver.look scope (·.condition c)) :=
  .look fun _ _ => Env.condition_ends hf (blames_of_line hL) hscope hc

omit hf hexp hscope in
/-- A label blames its own name. -/
theorem declareLabel_ends {t : Token} (ht : f t = t) (next : Bool) :
    Resolver.Ends f L (fun _ => True) (declareLabel scope t next) := by
  unfold declareLabel
  split
  · exact .pure trivial
  · exact .declare (hL t ht) rfl

end Walk

section Statements

variable {L : Nat → Prop} {expand : Expander} {scope : Scope}

mutual

/-- By recursion on the statement, with the walks over blocks and loops: the sites of the items are
    tokens of the statement, or those of a body that is settled. -/
theorem resolveStatement_ends (hf : Relines f) (hL : ∀ t, f t = t → L t.line)
    (hexp : expand.Settles f L) (hscope : scope = scope.map (Frame.mapTokens f)) :
    ∀ (st : Statement), st.mapTokens f = st →
    Resolver.Ends f L (Placed L) (resolveStatement expand scope st)
  | .simple s, hst => by
    have hlook : Resolver.Ends f L (fun p => f p.1 = p.1) (Resolver.look scope (·.simple s)) :=
      .look fun _ hs =>
        Env.simple_ends hf (blames_of_line hL) hscope (Statement.simple.inj hst)
    rw [resolveStatement]
    -- the site is the blamed token itself
    exact hlook.bind fun p hp => .pure (.leaf (hL p.1 hp) .nil)
  | .declaration d, hst => by
    have hlook : Resolver.Ends f L (fun p => f p.1 = p.1 ∧ p.2.mapTokens f = p.2)
        (Resolver.look scope (·.declaration d)) :=
      .look fun _ hs =>
        Env.declaration_ends hf (blames_of_line hL) hscope (Statement.declaration.inj hst)
    rw [resolveStatement]
    exact hlook.bind fun p hp => (Resolver.Ends.declare (hL p.1 hp.1) hp.2).bind fun _ _ => .pure .nil
  | .label name, hst => by
    rw [resolveStatement]
    refine (declaredName_step_ends hf hL hscope (Statement.label.inj hst)).bind fun u hu => ?_
    exact (declareLabel_ends hL hu false).bind fun _ _ => .pure (.leaf (hL u hu) .nil)
  | .next t name inner, hst => by
    obtain ⟨-, hname, hinner⟩ := Statement.next.inj hst
    rw [resolveStatement]
    refine (declaredName_step_ends hf hL hscope hname).bind fun u hu => ?_
    refine (declareLabel_ends hL hu true).bind fun _ _ => ?_
    exact (resolveStatement_ends hf hL hexp hscope inner hinner).bind fun items hitems =>
      -- the site is the name as it was substituted, not the word `:next`
      .pure (.leaf (hL u hu) hitems)
  | .macroDef t name params body, hst => by
    obtain ⟨-, hname, hparams, hbody⟩ := Statement.macroDef.inj hst
    -- what is bound holds tokens of the program only, so the table stays settled
    have hbinding : (Binding.macroDef params body).mapTokens f = .macroDef params body := by
      rw [Binding.mapTokens, hparams, hbody]
    rw [resolveStatement]
    refine (declaredName_step_ends hf hL hscope hname).bind fun u hu => ?_
    exact (Resolver.Ends.declare (hL u hu) hbinding).bind fun _ _ => .pure .nil
  | .stringMode t name alphabet body, hst => by
    obtain ⟨-, hname, halphabet, hbody⟩ := Statement.stringMode.inj hst
    have hrule : (CharRule.mk alphabet body).mapTokens f = ⟨alphabet, body⟩ := by
      rw [CharRule.mapTokens, halphabet, hbody]
    rw [resolveStatement]
    refine (declaredName_step_ends hf hL hscope hname).bind fun u hu => ?_
    exact (Resolver.Ends.declareRule hf (hL u hu) (hL alphabet halphabet) hrule).bind fun _ _ =>
      .pure .nil
  | .invoke name args, hst => by
    obtain ⟨hname, hargs⟩ := Statement.invoke.inj hst
    exact resolveInvocation_ends hf hL hexp hscope hname hargs
  | .call name, hst => resolveCall_ends hf hL hexp hscope (Statement.call.inj hst)
  | .ifThen t cond body, hst => by
    obtain ⟨ht, hcond, hbody⟩ := Statement.ifThen.inj hst
    rw [resolveStatement]
    refine (condition_step_ends hf hL hscope hcond).bind fun c _ => ?_
    exact (resolveStatement_ends hf hL hexp hscope body hbody).bind fun items hitems =>
      .pure (.ifThen (hL t ht) hitems .nil)
  | .breakIf t cond, hst => by
    rw [resolveStatement]
    -- the token of a stray break is one of the program, too
    exact .fail (hL t (Statement.breakIf.inj hst).1)
  | .ifBegin t cond body, hst => by
    obtain ⟨ht, hcond, hbody⟩ := Statement.ifBegin.inj hst
    rw [resolveStatement]
    refine (condition_step_ends hf hL hscope hcond).bind fun c _ => ?_
    exact (resolveBlock_ends hf hL hexp hscope body hbody).bind fun items hitems =>
      .pure (.ifBegin (hL t ht) hitems .nil)
  | .ifElse t cond body otherwise, hst => by
    obtain ⟨ht, hcond, hbody, hother⟩ := Statement.ifElse.inj hst
    rw [resolveStatement]
    refine (condition_step_ends hf hL hscope hcond).bind fun c _ => ?_
    refine (resolveBlock_ends hf hL hexp hscope body hbody).bind fun items hitems => ?_
    exact (resolveBlock_ends hf hL hexp hscope otherwise hother).bind fun others hothers =>
      .pure (.ifElse (hL t ht) hitems hothers .nil)
  | .loop t body, hst => by
    obtain ⟨ht, hbody⟩ := Statement.loop.inj hst
    rw [resolveStatement]
    refine (resolveLoop_ends hf hL hexp hscope body hbody).bind fun ⟨items, leave⟩ hitems => ?_
    cases leave with
    | none => exact .pure (.loop (hL t ht) hitems .nil)
    | some cond => exact .pure (.loopUntil (hL t ht) hitems .nil)
  | .whileDo t cond body, hst => by
    obtain ⟨ht, hcond, hbody⟩ := Statement.whileDo.inj hst
    rw [resolveStatement]
    refine (condition_step_ends hf hL hscope hcond).bind fun c _ => ?_
    exact (resolveStatement_ends hf hL hexp hscope body hbody).bind fun items hitems =>
      .pure (.whileDo (hL t ht) hitems .nil)

/-- The walk over a block. -/
theorem resolveBlock_ends (hf : Relines f) (hL : ∀ t, f t = t → L t.line)
    (hexp : expand.Settles f L) (hscope : scope = scope.map (Frame.mapTokens f)) :
    ∀ (body : List Statement), mapTokensAll f body = body →
    Resolver.Ends f L (Placed L) (resolveBlock expand scope body)
  | [], _ => .pure .nil
  | st :: rest, hbody => by
    obtain ⟨hst, hrest⟩ := List.cons.inj hbody
    rw [resolveBlock]
    exact (resolveStatement_ends hf hL hexp hscope st hst).bind fun items hitems =>
      (resolveBlock_ends hf hL hexp hscope rest hrest).bind fun others hothers => .pure (hitems.append hothers)

/-- The walk over a loop, which gives its condition besides. -/
theorem resolveLoop_ends (hf : Relines f) (hL : ∀ t, f t = t → L t.line)
    (hexp : expand.Settles f L) (hscope : scope = scope.map (Frame.mapTokens f)) :
    ∀ (body : List Statement), mapTokensAll f body = body →
    Resolver.Ends f L (fun p => Placed L p.1) (resolveLoop expand scope body)
  | [], _ => .pure .nil
  | st :: rest, hbody => by
    obtain ⟨hst, hrest⟩ := List.cons.inj hbody
    by_cases hleave : ∃ token cond, st = .breakIf token cond ∧ rest = []
    · obtain ⟨token, cond, rfl, rfl⟩ := hleave
      rw [resolveLoop]
      exact (condition_step_ends hf hL hscope (Statement.breakIf.inj hst).2).bind fun c _ =>
        .pure .nil
    · rw [resolveLoop_cons hleave]
      exact (resolveStatement_ends hf hL hexp hscope st hst).bind fun items hitems =>
        (resolveLoop_ends hf hL hexp hscope rest hrest).bind fun p hp => .pure (hitems.append hp)

end

end Statements

/-- Expansions of any depth. -/
theorem expandWithin_settles {L : Nat → Prop} (hf : Relines f) (hL : ∀ t, f t = t → L t.line)
    (limit depth : Nat) : (expandWithin limit depth).Settles f L := by
  induction depth with
  | zero => exact fun htoken _ _ _ => .fail (hL _ htoken)
  | succ depth ih =>
    intro token frame scope body _ hframe hscope hbody
    have hinner : frame :: scope = (frame :: scope).map (Frame.mapTokens f) := by
      rw [List.map_cons, ← hframe, ← hscope]
    exact resolveBlock_ends hf hL ih hinner body hbody

/-! ## Programs -/

section Programs

variable {L : Nat → Prop}

/-- A declaration of the first walk blames its name. -/
theorem declareIn_ends {names : NameTable} (hs : names.Settled f) {name : Token} {b : Binding}
    (hname : L name.line) (hb : b.mapTokens f = b) :
    Ends (fun e => L e.line) (NameTable.Settled f) (declareIn names name b) := by
  rw [declareIn_def]
  split
  · rename_i names' hd
    exact .ok (hs.declare hb hd)
  · exact .error hname

mutual

/-- The first walk blames names of labels, at any depth. -/
theorem collectLabels_ends (hL : ∀ t, f t = t → L t.line) :
    ∀ (st : Statement) {names : NameTable}, st.mapTokens f = st →
    names.Settled f → Ends (fun e => L e.line) (NameTable.Settled f) (collectLabels names st)
  | .label _, _, hst, hs => declareIn_ends hs (hL _ (Statement.label.inj hst)) rfl
  | .next _ _ inner, _, hst, hs =>
    (declareIn_ends hs (hL _ (Statement.next.inj hst).2.1) rfl).bind fun _ hs' =>
      collectLabels_ends hL inner (Statement.next.inj hst).2.2 hs'
  | .ifThen _ _ body, _, hst, hs => collectLabels_ends hL body (Statement.ifThen.inj hst).2.2 hs
  | .whileDo _ _ body, _, hst, hs => collectLabels_ends hL body (Statement.whileDo.inj hst).2.2 hs
  | .ifBegin _ _ body, _, hst, hs => collectBlockLabels_ends hL body (Statement.ifBegin.inj hst).2.2 hs
  | .loop _ body, _, hst, hs => collectBlockLabels_ends hL body (Statement.loop.inj hst).2 hs
  | .ifElse _ _ body otherwise, _, hst, hs =>
    (collectBlockLabels_ends hL body (Statement.ifElse.inj hst).2.2.1 hs).bind fun _ hs' =>
      collectBlockLabels_ends hL otherwise (Statement.ifElse.inj hst).2.2.2 hs'
  | .simple _, _, _, hs | .declaration _, _, _, hs | .macroDef .., _, _, hs
  | .stringMode .., _, _, hs | .invoke .., _, _, hs | .call _, _, _, hs | .breakIf .., _, _, hs =>
    .ok hs

/-- The first walk over a block. -/
theorem collectBlockLabels_ends (hL : ∀ t, f t = t → L t.line) :
    ∀ (body : List Statement) {names : NameTable},
    mapTokensAll f body = body → names.Settled f →
    Ends (fun e => L e.line) (NameTable.Settled f) (collectBlockLabels names body)
  | [], _, _, hs => .ok hs
  | st :: rest, _, hbody, hs =>
    (collectLabels_ends hL st (List.cons.inj hbody).1 hs).bind fun _ hs' =>
      collectBlockLabels_ends hL rest (List.cons.inj hbody).2 hs'

end

/-- Constants from outside have no line in the source. -/
theorem defineAll_ends {names : NameTable} (hs : names.Settled f) (defines : List (String × Int)) :
    Ends (fun e => e.line = 0) (NameTable.Settled f) (defineAll names defines) := by
  induction defines generalizing names with
  | nil => exact .ok hs
  | cons entry rest ih =>
    exact (declareIn_ends (L := (· = 0)) hs rfl rfl).bind fun _ hs' => ih hs'

/-- Items that are alike have sites that are. -/
theorem site_of_alike {same : Site → Site → Prop} {is js : List Item} (h : Alike same is js) :
    ∀ i ∈ is, ∃ y, same i.site y := by
  induction h with
  | nil => nofun
  | leaf hsite _ ih | ifThen hsite _ _ _ ih | ifBegin hsite _ _ _ ih | loop hsite _ _ _ ih
  | loopUntil hsite _ _ _ ih | whileDo hsite _ _ _ ih =>
    exact List.forall_mem_cons.mpr ⟨⟨_, hsite⟩, ih⟩
  | ifElse hsite _ _ _ _ _ ih => exact List.forall_mem_cons.mpr ⟨⟨_, hsite⟩, ih⟩

/-- **Diagnostics and items of a program lie on the lines of its tokens**, but for a missing `main`
    in a program without any item, which is blamed on the first line. -/
theorem resolveWith_ends (hf : Relines f) (hL : ∀ t, f t = t → L t.line) (hfirst : L 1)
    {names : NameTable} (hs : names.Settled f) (limit : Nat) {program : List Statement}
    (hprogram : mapTokensAll f program = program) :
    Ends (fun e => L e.line) (Placed L) (resolveWith names limit program) := by
  refine (collectBlockLabels_ends hL program hprogram hs).bind fun labelled hlabelled => ?_
  have hexp : (expandWithin limit limit).Settles f L := expandWithin_settles hf hL limit limit
  refine (resolveBlock_ends hf hL hexp rfl program hprogram ⟨labelled, []⟩ hlabelled).bind
    fun ⟨items, state⟩ hitems => ?_
  dsimp only
  split
  · exact .pure hitems.1
  · have hlast : L (lastLine items) := by
      unfold lastLine
      cases hitem : items.getLast? with
      | none => exact hfirst
      | some item =>
        obtain ⟨-, hline⟩ := site_of_alike hitems.1 item (List.mem_of_getLast? hitem)
        exact hline
    exact .error hlast

end Programs

end OctoAsm
