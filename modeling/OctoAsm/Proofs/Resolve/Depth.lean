/-
  The depth of expansions, point by point.

  `Work.step` takes a resolution apart into single steps, with a counter for the expansions that are
  open: it goes up where a body is entered, which the limit may forbid, and down where the body has
  been worked off.  Work that waits knows the expansions around it.  The steps are those of the
  resolver (`performs_block`): they end where it ends, and stop with its diagnostic where it fails.
  What a step can do is said once, by `Work.Does` and `Invoked`.

  The invariant is `Counted`: the counter has come to as many frames as the work at hand has around
  it, and each pending end of an expansion takes one of them away.  With `resolve_of_le` it makes
  the limit a mere cut-off (`limit_cuts_off`).
-/
import OctoAsm.Proofs.Resolve.Limit
import Mathlib.Logic.Relation

namespace OctoAsm

/-! ## Work -/

/-- What is still to be done. -/
inductive Work where
  | statement (scope : Scope) (st : Statement)
  /-- the condition at the end of a loop's body -/
  | leaveIf (scope : Scope) (cond : Condition)
  /-- a stringmode goes on with these characters -/
  | chars (scope : Scope) (name text : Token) (rules : List CharRule) (calls : Int) (index : Nat)
      (cs : List Char)
  /-- a body is to be expanded -/
  | enter (name : Token) (frame : Frame) (scope : Scope) (body : List Statement)
  /-- the end of an expansion -/
  | leave

/-- The expansions around a piece of work. -/
def Work.scope? : Work → Option Scope
  | .statement scope _ | .leaveIf scope _ | .chars scope .. | .enter _ _ scope _ => some scope
  | .leave => none

/-- Statements in a row. -/
def blockWork (scope : Scope) (body : List Statement) : List Work := body.map (.statement scope)

/-- The body of a loop. -/
def loopWork (scope : Scope) : List Statement → List Work
  | [] => []
  | [.breakIf _ cond] => [.leaveIf scope cond]
  | st :: rest => .statement scope st :: loopWork scope rest

/-- The work that an invocation starts. -/
def invocationWork (scope : Scope) (name : Token) (args : List Token) : Resolver (List Work) := do
  let name ← Resolver.look scope (·.substitute name)
  if name.kind = .name then
    match (← get).names.get? name.text with
    | some (.macroDef params body) =>
      if args.length = params.length then
        let calls ← Resolver.startCall name.text
        return [.enter name ⟨(params.map (·.text)).zip args, calls, none⟩ scope body]
      else Resolver.fail (name.blame (.arityMismatch params.length args.length))
    | some (.stringMode rules) =>
      match args with
      | [arg] =>
        let text ← Resolver.look scope (·.substitute arg)
        if text.kind = .string then
          let calls ← Resolver.startCall name.text
          return [.chars scope name text rules calls 0 text.text.toList]
        else Resolver.fail (text.blame (.expectedString (.token text.kind)))
      | args => Resolver.fail (name.blame (.arityMismatch 1 args.length))
    | some other => Resolver.fail (name.blame (.notAMacro (.name other.kind)))
    | none => Resolver.fail (name.blame .undeclared)
  else Resolver.fail (name.blame (.notAMacro (.token name.kind)))

/-- The work that a name alone starts. -/
def callWork (scope : Scope) (name : Token) : Resolver (List Work) := do
  let target ← Resolver.look scope (·.substitute name)
  match target.kind with
  | .number n =>
    let _ ← Resolver.look scope fun _ => Env.inRange target 8 (.number n)
    return []
  | .name =>
    match (← get).names.get? target.text with
    | some (.macroDef ..) | some (.stringMode _) => invocationWork scope name []
    | some (.label _) => return []
    | some _ =>
      let _ ← Resolver.look scope (·.imm 12 (.named name))
      return []
    | none => Resolver.fail (target.blame .undeclared)
  | kind => Resolver.fail (target.blame (.expectedValue (.token kind)))

/-- What a statement does itself, and the work that is left then. -/
def statementWork (scope : Scope) : Statement → Resolver (List Work)
  | .simple s => do
    let _ ← Resolver.look scope (·.simple s)
    return []
  | .declaration d => do
    let (name, binding) ← Resolver.look scope (·.declaration d)
    Resolver.declare name binding
    return []
  | .label name => do
    let name ← Resolver.look scope (·.declaredName name)
    declareLabel scope name false
    return []
  | .next _ name st => do
    let name ← Resolver.look scope (·.declaredName name)
    declareLabel scope name true
    return [.statement scope st]
  | .macroDef _ name params body => do
    let name ← Resolver.look scope (·.declaredName name)
    Resolver.declare name (.macroDef params body)
    return []
  | .stringMode _ name alphabet body => do
    let name ← Resolver.look scope (·.declaredName name)
    Resolver.declareRule name ⟨alphabet, body⟩
    return []
  | .invoke name args => invocationWork scope name args
  | .call name => callWork scope name
  | .breakIf token _ => Resolver.fail (token.blame .misplacedBreak)
  | .ifThen _ cond body | .whileDo _ cond body => do
    let _ ← Resolver.look scope (·.condition cond)
    return [.statement scope body]
  | .ifBegin _ cond body => do
    let _ ← Resolver.look scope (·.condition cond)
    return blockWork scope body
  | .ifElse _ cond body otherwise => do
    let _ ← Resolver.look scope (·.condition cond)
    return blockWork scope body ++ blockWork scope otherwise
  | .loop _ body => return loopWork scope body

/-! ## Points -/

/-- A point of a resolution. -/
structure Point where
  todo : List Work
  /-- the expansions that are open -/
  depth : Nat
  state : ResolveState

/-- One step: the work that comes in place of the given one, and the depth afterwards. -/
def Work.step (limit depth : Nat) : Work → Resolver (List Work × Nat)
  | .statement scope st => do return (← statementWork scope st, depth)
  | .leaveIf scope cond => do
    let _ ← Resolver.look scope (·.condition cond)
    return ([], depth)
  | .chars _ _ _ _ _ _ [] => return ([], depth)
  | .chars scope name text rules calls index (c :: cs) =>
    match coveringRule? rules c with
    | none => Resolver.fail (text.blame (.uncoveredChar c))
    | some (rule, value) =>
      return ([.enter name ⟨[], calls, some ⟨c.toNat, index, value⟩⟩ scope rule.body,
        .chars scope name text rules calls (index + 1) cs], depth)
  | .enter name frame scope body =>
    if limit ≤ depth then Resolver.fail (name.blame (.tooDeep limit))
    else return (blockWork (frame :: scope) body ++ [.leave], depth + 1)
  | .leave => return ([], depth - 1)

namespace Point

/-- The first piece of work is done. -/
inductive Step (limit : Nat) : Point → Point → Prop where
  | mk {w rest depth s todo depth' t} (h : w.step limit depth s = .ok ((todo, depth'), t)) :
      Step limit ⟨w :: rest, depth, s⟩ ⟨todo ++ rest, depth', t⟩

/-- Steps, one after the other. -/
abbrev Run (limit : Nat) : Point → Point → Prop := Relation.ReflTransGen (Step limit)

/-- The first piece of work cannot be done. -/
def Stops (limit : Nat) (p : Point) (e : ResolveError) : Prop :=
  ∃ w rest, p.todo = w :: rest ∧ w.step limit p.depth p.state = .error e

/-- The start of a resolution. -/
def start (names : NameTable) (program : List Statement) : Point :=
  ⟨blockWork [] program, 0, ⟨names, []⟩⟩

end Point

/-! ## The steps are those of the resolver -/

/-- To do the work at the depth is to make the run `x`; the depth is the same again afterwards. -/
structure Performs {α : Type} (limit depth : Nat) (work : List Work) (x : Resolver α) : Prop where
  ok : ∀ rest s a t, x s = .ok (a, t) →
    Point.Run limit ⟨work ++ rest, depth, s⟩ ⟨rest, depth, t⟩
  error : ∀ rest s e, x s = .error e →
    ∃ p, Point.Run limit ⟨work ++ rest, depth, s⟩ p ∧ p.Stops limit e

/-- The run `x` does what `u` does, and then the work that is left. -/
def Begins {α : Type} (limit depth : Nat) (u : Resolver (List Work)) (x : Resolver α) : Prop :=
  ∀ s, (∃ e, u s = .error e ∧ x s = .error e) ∨
    ∃ work t y, u s = .ok (work, t) ∧ x s = y t ∧ Performs limit depth work (y : Resolver α)

section Rules

variable {α β : Type} {limit depth : Nat} {work work' : List Work} {x : Resolver α}

namespace Performs

/-- A result takes no work. -/
theorem pure (a : α) : Performs limit depth [] (Pure.pure a : Resolver α) where
  ok rest s b t h := by
    obtain ⟨-, rfl⟩ := Resolver.pure_eq_ok.mp h
    exact .refl
  error rest s e h := by cases h

/-- What one step leaves to do and what the next one does, in this order; a failure of the first one
    ends both. -/
theorem bind {f : α → Resolver β} (hx : Performs limit depth work x)
    (hf : ∀ a, Performs limit depth work' (f a)) :
    Performs limit depth (work ++ work') (x >>= f) where
  ok rest s b u h := by
    obtain ⟨a, t, ha, hb⟩ := Resolver.bind_eq_ok.mp h
    rw [List.append_assoc]
    exact (hx.ok _ s a t ha).trans ((hf a).ok rest t b u hb)
  error rest s e h := by
    rw [List.append_assoc]
    rcases Resolver.bind_eq_error.mp h with h | ⟨a, t, ha, hb⟩
    · exact hx.error _ s e h
    · obtain ⟨p, hrun, hstops⟩ := (hf a).error rest t e hb
      exact ⟨p, (hx.ok _ s a t ha).trans hrun, hstops⟩

/-- A result made from that of the work. -/
theorem map (hx : Performs limit depth work x) (g : α → β) :
    Performs limit depth work (x >>= fun a => Pure.pure (g a)) := by
  have hpure : ∀ a, Performs limit depth [] (Pure.pure (g a) : Resolver β) := fun a => .pure (g a)
  simpa using hx.bind hpure

/-- A first step, and the work that comes in its place. -/
theorem step {w : Work} {u : Resolver (List Work)} (h : Begins limit depth u x)
    (hstep : w.step limit depth = u >>= fun work => Pure.pure (work, depth)) :
    Performs limit depth [w] x where
  ok rest s a t hx := by
    rcases h s with ⟨e, -, he⟩ | ⟨work, s', y, hu, hxy, hy⟩
    · rw [he] at hx; cases hx
    · rw [hxy] at hx
      have hfirst : Point.Step limit ⟨w :: rest, depth, s⟩ ⟨work ++ rest, depth, s'⟩ :=
        .mk (hstep ▸ Resolver.bind_eq_ok.mpr ⟨work, s', hu, rfl⟩)
      exact .head hfirst (hy.ok rest s' a t hx)
  error rest s e hx := by
    rcases h s with ⟨e', hu, he⟩ | ⟨work, s', y, hu, hxy, hy⟩
    · obtain rfl := Except.error.inj (he.symm.trans hx)
      refine ⟨_, .refl, w, rest, rfl, ?_⟩
      rw [hstep]
      exact Resolver.bind_eq_error.mpr (.inl hu)
    · rw [hxy] at hx
      obtain ⟨p, hrun, hstops⟩ := hy.error rest s' e hx
      have hfirst : Point.Step limit ⟨w :: rest, depth, s⟩ ⟨work ++ rest, depth, s'⟩ :=
        .mk (hstep ▸ Resolver.bind_eq_ok.mpr ⟨work, s', hu, rfl⟩)
      exact ⟨p, .head hfirst hrun, hstops⟩

end Performs

namespace Begins

/-- Work that is put down at once, and then done. -/
theorem done (h : Performs limit depth work x) : Begins limit depth (Pure.pure work) x :=
  fun s => .inr ⟨work, s, x, rfl, rfl, h⟩

/-- A failure before any work. -/
theorem fail (e : ResolveError) :
    Begins limit depth (Resolver.fail e) (Resolver.fail e : Resolver α) :=
  fun _ => .inl ⟨e, rfl, rfl⟩

/-- What has to be found out first is found out in the same way on both sides. -/
theorem after (z : Resolver β) {u : β → Resolver (List Work)} {f : β → Resolver α}
    (h : ∀ b, Begins limit depth (u b) (f b)) : Begins limit depth (z >>= u) (z >>= f) := by
  intro s
  cases hz : z s with
  | error e =>
    exact .inl ⟨e, Resolver.bind_eq_error.mpr (.inl hz), Resolver.bind_eq_error.mpr (.inl hz)⟩
  | ok p =>
    obtain ⟨b, t⟩ := p
    rcases h b t with ⟨e, hu, hx⟩ | ⟨work, t', y, hu, hxy, hy⟩
    · exact .inl ⟨e, Resolver.bind_eq_error.mpr (.inr ⟨b, t, hz, hu⟩),
        Resolver.bind_eq_error.mpr (.inr ⟨b, t, hz, hx⟩)⟩
    · refine .inr ⟨work, t', y, Resolver.bind_eq_ok.mpr ⟨b, t, hz, hu⟩, ?_, hy⟩
      show (z s >>= fun p => f p.1 p.2) = y t'
      rw [hz, ← hxy]
      rfl

/-- Nothing is left to be done. -/
theorem all (z : Resolver β) (g : β → α) :
    Begins limit depth (z >>= fun _ => Pure.pure []) (z >>= fun b => Pure.pure (g b)) :=
  .after z fun b => .done (.pure (g b))

end Begins

end Rules

/-! ## Invocations -/

/-- The expander does the work of entering a body. -/
def Expander.Performs (limit depth : Nat) (expand : Expander) : Prop :=
  ∀ name frame scope body,
    OctoAsm.Performs limit depth [.enter name frame scope body] (expand name frame scope body)

section Walk

variable {limit depth : Nat} {expand : Expander}

/-- By induction on the characters: the work on a string enters the body of the first rule, and is
    then the work on the rest. -/
theorem performs_chars (hexp : expand.Performs limit depth) (scope : Scope) (name text : Token)
    (rules : List CharRule) (calls : Int) (index : Nat) (cs : List Char) :
    Performs limit depth [.chars scope name text rules calls index cs]
      (expandChars expand scope name text rules calls index cs) := by
  induction cs generalizing index with
  | nil => exact .step (.done (.pure [])) rfl
  | cons c cs ih =>
    unfold expandChars
    cases hrule : coveringRule? rules c with
    | none =>
      refine .step (u := Resolver.fail (text.blame (.uncoveredChar c))) (.fail _) ?_
      simp only [Work.step, hrule]
      rfl
    | some covering =>
      refine .step (u := Pure.pure _) (.done ((hexp name _ scope covering.1.body).bind fun xs =>
        (ih (index + 1)).map _)) ?_
      simp only [Work.step, hrule]
      rfl

/-- An invocation is found out about and then put down as work: a body to be entered, or a string to
    be spelled. -/
theorem begins_invocation (hexp : expand.Performs limit depth) (scope : Scope) (name : Token)
    (args : List Token) : Begins limit depth (invocationWork scope name args)
      (resolveInvocation expand scope name args) := by
  refine .after _ fun target => ?_
  split
  · refine .after _ fun s => ?_
    cases s.names.get? target.text with
    | none => exact .fail _
    | some b =>
      cases b with
      | macroDef params body =>
        unfold expandMacro
        simp only
        split
        · exact .after _ fun calls => .done (hexp target _ scope body)
        · exact .fail _
      | stringMode rules =>
        rcases args with _ | ⟨arg, _ | ⟨arg', rest⟩⟩
        · exact .fail _
        · refine .after _ fun text => ?_
          split
          · exact .after _ fun calls =>
              .done (performs_chars hexp scope target text rules calls 0 _)
          · exact .fail _
        · exact .fail _
      | _ => exact .fail _
  · exact .fail _

/-- A bare name is put down as an invocation without arguments, or it is done with at once. -/
theorem begins_call (hexp : expand.Performs limit depth) (scope : Scope) (name : Token) :
    Begins limit depth (callWork scope name) (resolveCall expand scope name) := by
  refine .after _ fun target => ?_
  cases target.kind with
  | number n => exact .all _ _
  | name =>
    refine .after _ fun s => ?_
    cases s.names.get? target.text with
    | none => exact .fail _
    | some b =>
      cases b with
      | macroDef params body => exact begins_invocation hexp scope name []
      | stringMode rules => exact begins_invocation hexp scope name []
      | label next => exact .done (.pure _)
      | _ => exact .all _ _
  | _ => exact .fail _

/-! ## Statements -/

/-- A statement of a loop that is no `while` at its end is put down as a statement. -/
theorem loopWork_cons {scope : Scope} {st : Statement} {rest : List Statement}
    (h : ¬ ∃ token condition, st = .breakIf token condition ∧ rest = []) :
    loopWork scope (st :: rest) = .statement scope st :: loopWork scope rest :=
  loopWork.eq_3 scope st rest fun token cond hst hrest => h ⟨token, cond, hst, hrest⟩

mutual

/-- By recursion on the statement, with the walks over blocks and loops: what is put down for a
    statement, when worked off, is what the resolver does with it. -/
theorem performs_statement (hexp : expand.Performs limit depth) :
    ∀ (st : Statement) (scope : Scope),
    Performs limit depth [.statement scope st] (resolveStatement expand scope st)
  | .simple s, scope => .step (.all _ _) rfl
  | .declaration d, scope => .step (.after _ fun _ => .all _ _) rfl
  | .label name, scope => .step (.after _ fun _ => .all _ _) rfl
  | .next _ name st, scope =>
    .step (.after _ fun _ => .after _ fun _ => .done ((performs_statement hexp st scope).map _)) rfl
  | .macroDef .., scope => .step (.after _ fun _ => .all _ _) rfl
  | .stringMode .., scope => .step (.after _ fun _ => .all _ _) rfl
  | .invoke name args, scope => .step (begins_invocation hexp scope name args) rfl
  | .call name, scope => .step (begins_call hexp scope name) rfl
  | .breakIf .., scope => .step (.fail _) rfl
  | .ifThen _ cond body, scope =>
    .step (.after _ fun _ => .done ((performs_statement hexp body scope).map _)) rfl
  | .whileDo _ cond body, scope =>
    .step (.after _ fun _ => .done ((performs_statement hexp body scope).map _)) rfl
  | .ifBegin _ cond body, scope =>
    .step (.after _ fun _ => .done ((performs_block hexp body scope).map _)) rfl
  | .ifElse _ cond body otherwise, scope =>
    .step (.after _ fun _ => .done ((performs_block hexp body scope).bind fun _ =>
      (performs_block hexp otherwise scope).map _)) rfl
  | .loop _ body, scope => by
    refine .step (.done ?_) rfl
    rw [← List.append_nil (loopWork scope body)]
    refine (performs_loop hexp body scope).bind fun p => ?_
    obtain ⟨items, leave⟩ := p
    cases leave <;> exact .pure _

/-- **A block is resolved by the steps of its work.** -/
theorem performs_block (hexp : expand.Performs limit depth) :
    ∀ (body : List Statement) (scope : Scope),
    Performs limit depth (blockWork scope body) (resolveBlock expand scope body)
  | [], _ => .pure []
  | st :: rest, scope =>
    (performs_statement hexp st scope).bind fun _ => (performs_block hexp rest scope).map _

/-- The work on a loop is that on its statements, with the condition at its end put down as such. -/
theorem performs_loop (hexp : expand.Performs limit depth) :
    ∀ (body : List Statement) (scope : Scope),
    Performs limit depth (loopWork scope body) (resolveLoop expand scope body)
  | [], _ => .pure _
  | st :: rest, scope => by
    by_cases hleave : ∃ token condition, st = .breakIf token condition ∧ rest = []
    · obtain ⟨token, condition, rfl, rfl⟩ := hleave
      exact .step (.all _ _) (by simp [Work.step])
    · rw [resolveLoop_cons hleave, loopWork_cons hleave]
      exact (performs_statement hexp st scope).bind fun _ => (performs_loop hexp rest scope).map _

end

end Walk

/-- A body that may still be entered is worked off one level deeper, and left again. -/
theorem expandWithin_performs {limit n depth : Nat} (h : depth + n = limit) :
    (expandWithin limit n).Performs limit depth := by
  induction n generalizing depth with
  | zero =>
    refine fun name frame scope body => .step (u := Resolver.fail _) (.fail _) ?_
    -- no level is left: the step that would enter stops with the diagnostic of the resolver
    have hle : limit ≤ depth := by omega
    simp only [Work.step, if_pos hle]
    rfl
  | succ n ih =>
    intro name frame scope body
    have hdeeper : (expandWithin limit n).Performs limit (depth + 1) := ih (by omega)
    have hbody := performs_block hdeeper body (frame :: scope)
    have henter : ∀ rest s, Point.Step limit ⟨.enter name frame scope body :: rest, depth, s⟩
        -- behind the body stands its end, which lowers the counter again
        ⟨blockWork (frame :: scope) body ++ .leave :: rest, depth + 1, s⟩ := by
      intro rest s
      have hlt : ¬ limit ≤ depth := by omega
      have hstep : Point.Step limit ⟨.enter name frame scope body :: rest, depth, s⟩
          ⟨blockWork (frame :: scope) body ++ [.leave] ++ rest, depth + 1, s⟩ :=
        .mk (by simp only [Work.step, if_neg hlt]; rfl)
      simpa using hstep
    constructor
    · intro rest s items t hok
      have hleave : Point.Step limit ⟨.leave :: rest, depth + 1, t⟩ ⟨[] ++ rest, depth, t⟩ :=
        .mk rfl
      exact .head (henter rest s) ((hbody.ok _ s items t hok).tail hleave)
    · intro rest s e herror
      obtain ⟨p, hrun, hstops⟩ := hbody.error (.leave :: rest) s e herror
      exact ⟨p, .head (henter rest s) hrun, hstops⟩

/-! ## What a step can do -/

/-- The invocation that a piece of work belongs to: its name and its number. -/
def Work.invocation? : Work → Option (String × Int)
  | .enter name frame _ _ => some (name.text, frame.calls)
  | .chars _ name _ _ calls _ _ => some (name.text, calls)
  | _ => none

/-- An invocation of the word has started: it counts as one of the name that the word stands for. -/
inductive Invoked (scope : Scope) (word : Token) (s : ResolveState) :
    List Work → ResolveState → Prop where
  | mk {target : Token} {w : Work} {number : Int}
      (hname : Env.substitute ⟨s.names, scope⟩ word = .ok target) (hscope : w.scope? = some scope)
      (hw : w.invocation? = some (target.text, number))
      (hnumber : number = (s.log.lookup target.text).getD 0 + 1) :
      Invoked scope word s [w] { s with log := (target.text, number) :: s.log }

/-- All that finding out about an invocation can put down, read off the kinds of bindings. -/
theorem invocationWork_eq_ok {scope : Scope} {word : Token} {args : List Token}
    {s t : ResolveState} {todo : List Work}
    (h : invocationWork scope word args s = .ok (todo, t)) : Invoked scope word s todo t := by
  obtain ⟨target, s₀, hlook, h⟩ := Resolver.bind_eq_ok.mp h
  obtain ⟨hname, rfl⟩ := Resolver.look_eq_ok.mp hlook
  -- the number is given, and handed to the only piece of work
  have hstart : ∀ {w : Int → Work}, (∀ calls, (w calls).scope? = some scope) →
      (∀ calls, (w calls).invocation? = some (target.text, calls)) →
      (Resolver.startCall target.text >>= fun calls => pure [w calls]) s = .ok (todo, t) →
      Invoked scope word s todo t := by
    intro w hscope hw h
    obtain ⟨calls, s₁, hcall, h⟩ := Resolver.bind_eq_ok.mp h
    obtain ⟨hcalls, rfl⟩ := Resolver.startCall_eq_ok.mp hcall
    obtain ⟨rfl, rfl⟩ := Resolver.pure_eq_ok.mp h
    exact .mk hname (hscope calls) (hw calls) hcalls
  split at h
  · obtain ⟨s', s'', hget, h⟩ := Resolver.bind_eq_ok.mp h
    obtain ⟨rfl, rfl⟩ := Resolver.get_eq_ok.mp hget
    cases hbound : s.names.get? target.text with
    | none =>
      rw [hbound] at h
      exact absurd h Resolver.fail_ne_ok
    | some b =>
      rw [hbound] at h
      cases b with
      | macroDef params body =>
        simp only at h
        split at h
        · exact hstart (fun _ => rfl) (fun _ => rfl) h
        · exact absurd h Resolver.fail_ne_ok
      | stringMode rules =>
        rcases args with _ | ⟨arg, _ | ⟨arg', rest⟩⟩
        · exact absurd h Resolver.fail_ne_ok
        · obtain ⟨text, s₁, hlook, h⟩ := Resolver.bind_eq_ok.mp h
          obtain ⟨-, rfl⟩ := Resolver.look_eq_ok.mp hlook
          split at h
          · exact hstart (fun _ => rfl) (fun _ => rfl) h
          · exact absurd h Resolver.fail_ne_ok
        · exact absurd h Resolver.fail_ne_ok
      | _ => exact absurd h Resolver.fail_ne_ok
  · exact absurd h Resolver.fail_ne_ok

/-- A name alone is an invocation, or nothing is left to be done. -/
theorem callWork_eq_ok {scope : Scope} {word : Token} {s t : ResolveState} {todo : List Work}
    (h : callWork scope word s = .ok (todo, t)) :
    (t.log = s.log ∧ todo = []) ∨ invocationWork scope word [] s = .ok (todo, t) := by
  obtain ⟨target, s₀, hlook, h⟩ := Resolver.bind_eq_ok.mp h
  obtain ⟨-, rfl⟩ := Resolver.look_eq_ok.mp hlook
  have hlooked : ∀ {α : Type} {f : Env → Except ResolveError α},
      (Resolver.look scope f >>= fun _ => pure []) s = .ok (todo, t) →
      t.log = s.log ∧ todo = [] := by
    intro α f h
    obtain ⟨a, s₁, hlook, h⟩ := Resolver.bind_eq_ok.mp h
    obtain ⟨-, rfl⟩ := Resolver.look_eq_ok.mp hlook
    obtain ⟨rfl, rfl⟩ := Resolver.pure_eq_ok.mp h
    exact ⟨rfl, rfl⟩
  cases hkind : target.kind with
  | number n =>
    rw [hkind] at h
    exact .inl (hlooked h)
  | name =>
    rw [hkind] at h
    obtain ⟨s₁, s₂, hget, h⟩ := Resolver.bind_eq_ok.mp h
    obtain ⟨rfl, rfl⟩ := Resolver.get_eq_ok.mp hget
    cases hbound : s.names.get? target.text with
    | none => rw [hbound] at h; cases h
    | some b =>
      rw [hbound] at h
      cases b with
      | macroDef params body => exact .inr h
      | stringMode rules => exact .inr h
      | label next =>
        obtain ⟨rfl, rfl⟩ := Resolver.pure_eq_ok.mp h
        exact .inl ⟨rfl, rfl⟩
      | _ => exact .inl (hlooked h)
  | _ => rw [hkind] at h; cases h

/-- One step of a piece of work: the work that comes in its place, the depth and the state then. -/
inductive Work.Does (limit depth : Nat) (s : ResolveState) :
    Work → List Work → Nat → ResolveState → Prop where
  | statement {scope st todo t} (h : statementWork scope st s = .ok (todo, t)) :
      Does limit depth s (.statement scope st) todo depth t
  | leaveIf {scope cond} : Does limit depth s (.leaveIf scope cond) [] depth s
  | charsDone {scope name text rules calls index} :
      Does limit depth s (.chars scope name text rules calls index []) [] depth s
  | char {scope name text rules calls} {index : Nat} {c cs rule} {value : Nat}
      (hrule : coveringRule? rules c = some (rule, value)) :
      Does limit depth s (.chars scope name text rules calls index (c :: cs))
        [.enter name ⟨[], calls, some ⟨c.toNat, index, value⟩⟩ scope rule.body,
          .chars scope name text rules calls (index + 1) cs] depth s
  | enter {name frame scope body} (hlt : depth < limit) :
      Does limit depth s (.enter name frame scope body)
        (blockWork (frame :: scope) body ++ [.leave]) (depth + 1) s
  | leave : Does limit depth s .leave [] (depth - 1) s

/-- All that one step can do: the depth goes up by one where a body is entered, down by one where it
    ends, and stays otherwise. -/
theorem Work.does_of_step {limit depth depth' : Nat} {w : Work} {todo : List Work}
    {s t : ResolveState} (h : w.step limit depth s = .ok ((todo, depth'), t)) :
    w.Does limit depth s todo depth' t := by
  have hpure : ∀ {x : List Work × Nat},
      (pure x : Resolver (List Work × Nat)) s = .ok ((todo, depth'), t) →
      x.1 = todo ∧ x.2 = depth' ∧ s = t := by
    intro x hx
    obtain ⟨rfl, rfl⟩ := Resolver.pure_eq_ok.mp hx
    exact ⟨rfl, rfl, rfl⟩
  cases w with
  | statement scope st =>
    obtain ⟨work, u, hst, h⟩ := Resolver.bind_eq_ok.mp h
    obtain ⟨heq, rfl⟩ := Resolver.pure_eq_ok.mp h
    obtain ⟨rfl, rfl⟩ := Prod.mk.inj heq
    exact .statement hst
  | leaveIf scope cond =>
    obtain ⟨c, u, hlook, h⟩ := Resolver.bind_eq_ok.mp h
    obtain ⟨-, rfl⟩ := Resolver.look_eq_ok.mp hlook
    obtain ⟨rfl, rfl, rfl⟩ := hpure h
    exact .leaveIf
  | chars scope name text rules calls index cs =>
    cases cs with
    | nil =>
      obtain ⟨rfl, rfl, rfl⟩ := hpure h
      exact .charsDone
    | cons c cs =>
      cases hrule : coveringRule? rules c with
      | none => simp [Work.step, hrule] at h
      | some covering =>
        simp only [Work.step, hrule] at h
        obtain ⟨rfl, rfl, rfl⟩ := hpure h
        exact .char hrule
  | enter name frame scope body =>
    simp only [Work.step] at h
    split at h
    · exact absurd h Resolver.fail_ne_ok
    · rename_i hlt
      obtain ⟨rfl, rfl, rfl⟩ := hpure h
      exact .enter (Nat.lt_of_not_le hlt)
  | leave =>
    obtain ⟨rfl, rfl, rfl⟩ := hpure h
    exact .leave

/-! ## Frames and depth -/

/-- The depth counts the frames around each piece of work, up to the next end of an expansion;
    behind that end there is one less. -/
inductive Counted : Nat → List Work → Prop where
  | nil : Counted 0 []
  | cons {w scope rest} (h : w.scope? = some scope) (hrest : Counted scope.length rest) :
      Counted scope.length (w :: rest)
  | leave {depth rest} (hrest : Counted depth rest) : Counted (depth + 1) (.leave :: rest)

/-- New work in the scope at hand goes in front of the work that waits. -/
theorem Counted.append {scope : Scope} {todo rest : List Work}
    (h : ∀ w ∈ todo, w.scope? = some scope) (hrest : Counted scope.length rest) :
    Counted scope.length (todo ++ rest) := by
  induction todo with
  | nil => exact hrest
  | cons w todo ih =>
    obtain ⟨hw, htodo⟩ := List.forall_mem_cons.mp h
    exact .cons hw (ih htodo)

/-- Work that stands in a scope stands as deep as the counter says. -/
theorem Counted.of_scope? {depth : Nat} {w : Work} {rest : List Work} {scope : Scope}
    (h : Counted depth (w :: rest)) (hw : w.scope? = some scope) :
    scope.length = depth ∧ Counted depth rest := by
  cases h with
  | cons hw' hrest =>
    obtain rfl := Option.some.inj (hw.symm.trans hw')
    exact ⟨rfl, hrest⟩
  | leave hrest => cases hw

/-- What holds of all statements holds of the work on a block. -/
theorem forall_mem_blockWork {P : Work → Prop} {scope : Scope} {body : List Statement}
    (h : ∀ st, P (.statement scope st)) : ∀ w ∈ blockWork scope body, P w := by
  intro w hw
  obtain ⟨st, -, rfl⟩ := List.mem_map.mp hw
  exact h st

/-- What holds of all statements, and of the condition at the end, holds of the work on a loop. -/
theorem forall_mem_loopWork {P : Work → Prop} {scope : Scope} {body : List Statement}
    (h : ∀ st, P (.statement scope st)) (hleave : ∀ cond, P (.leaveIf scope cond)) :
    ∀ w ∈ loopWork scope body, P w := by
  induction body using loopWork.induct with
  | case1 => simp [loopWork]
  | case2 token cond => simpa [loopWork] using hleave cond
  | case3 st rest hlast ih =>
    rw [loopWork.eq_3 scope st rest hlast]
    exact List.forall_mem_cons.mpr ⟨h st, ih⟩

/-- The work on a block stands in the scope of the block. -/
theorem scope?_of_mem_blockWork {scope : Scope} {body : List Statement} :
    ∀ w ∈ blockWork scope body, w.scope? = some scope := forall_mem_blockWork fun _ => rfl

/-- The work on a loop stands in the scope of the loop. -/
theorem scope?_of_mem_loopWork {scope : Scope} {body : List Statement} :
    ∀ w ∈ loopWork scope body, w.scope? = some scope :=
  forall_mem_loopWork (fun _ => rfl) fun _ => rfl

/-- All that a step leaves to be done stands in the same expansions. -/
def Leaves (scope : Scope) (u : Resolver (List Work)) : Prop :=
  ∀ s work t, u s = .ok (work, t) → ∀ w ∈ work, w.scope? = some scope

namespace Leaves

variable {α : Type} {scope : Scope}

/-- Putting down work of the same scope. -/
theorem done {work : List Work} (h : ∀ w ∈ work, w.scope? = some scope) :
    Leaves scope (pure work) := by
  intro s work' t hok
  obtain ⟨rfl, -⟩ := Resolver.pure_eq_ok.mp hok
  exact h

/-- Putting down nothing. -/
theorem nothing : Leaves scope (pure []) := .done (by simp)

/-- A failure puts down nothing. -/
theorem fail (e : ResolveError) : Leaves scope (Resolver.fail e) :=
  fun _ _ _ h => absurd h Resolver.fail_ne_ok

/-- What is found out first puts down nothing itself. -/
theorem after (z : Resolver α) {u : α → Resolver (List Work)} (h : ∀ a, Leaves scope (u a)) :
    Leaves scope (z >>= u) := by
  intro s work t hok
  obtain ⟨a, s', -, hu⟩ := Resolver.bind_eq_ok.mp hok
  exact h a s' work t hu

end Leaves

/-- Finding out about an invocation puts down work of the scope at hand, as the frame is made when
    the body is entered. -/
theorem leaves_invocation (scope : Scope) (name : Token) (args : List Token) :
    Leaves scope (invocationWork scope name args) := by
  intro s work t h
  cases invocationWork_eq_ok h with
  | mk hname hscope hw hnumber => simpa using hscope

/-- So does finding out about a bare name. -/
theorem leaves_call (scope : Scope) (name : Token) : Leaves scope (callWork scope name) := by
  intro s work t h
  rcases callWork_eq_ok h with ⟨-, rfl⟩ | hinvoked
  · simp
  · exact leaves_invocation scope name [] s work t hinvoked

/-- One case to a form of statement; bodies are put down in the scope at hand. -/
theorem leaves_statement (scope : Scope) (st : Statement) :
    Leaves scope (statementWork scope st) := by
  cases st with
  | simple => exact .after _ fun _ => .nothing
  | declaration d => exact .after _ fun _ => .after _ fun _ => .nothing
  | label | macroDef | stringMode => exact .after _ fun _ => .after _ fun _ => .nothing
  | next => exact .after _ fun _ => .after _ fun _ => .done (by simp [Work.scope?])
  | invoke name args => exact leaves_invocation scope name args
  | call name => exact leaves_call scope name
  | breakIf => exact .fail _
  | ifThen | whileDo => exact .after _ fun _ => .done (by simp [Work.scope?])
  | ifBegin => exact .after _ fun _ => .done scope?_of_mem_blockWork
  | ifElse token cond body otherwise =>
    refine .after _ fun _ => .done ?_
    exact List.forall_mem_append.mpr ⟨scope?_of_mem_blockWork, scope?_of_mem_blockWork⟩
  | loop => exact .done scope?_of_mem_loopWork

namespace Point

variable {limit : Nat} {p q : Point}

/-- The depth is within the limit, and counts the frames. -/
structure Sound (limit : Nat) (p : Point) : Prop where
  bounded : p.depth ≤ limit
  counted : Counted p.depth p.todo

/-- **A step keeps count of the frames.** -/
theorem Sound.step (h : p.Sound limit) (hstep : Step limit p q) : q.Sound limit := by
  obtain ⟨hbounded, hcounted⟩ := h
  cases hstep with
  | @mk w rest depth s todo depth' t hw =>
    -- but for the two ends of an expansion, a step stays at its depth
    have hwithin : ∀ {scope}, w.scope? = some scope → (∀ v ∈ todo, v.scope? = some scope) →
        Sound limit ⟨todo ++ rest, depth, t⟩ := by
      intro scope hscope htodo
      obtain ⟨hlength, hrest⟩ := hcounted.of_scope? hscope
      subst hlength
      exact ⟨hbounded, hrest.append htodo⟩
    cases Work.does_of_step hw with
    | @statement scope st _ _ hst => exact hwithin rfl (leaves_statement scope st _ _ _ hst)
    | leaveIf => exact hwithin rfl (by simp)
    | charsDone => exact hwithin rfl (by simp)
    | char hrule => exact hwithin rfl (by simp [Work.scope?])
    | @enter name frame scope body hlt =>
      obtain ⟨hlength, hrest⟩ := hcounted.of_scope? rfl
      subst hlength
      refine ⟨hlt, ?_⟩
      rw [List.append_assoc]
      exact @Counted.append (frame :: scope) _ _ scope?_of_mem_blockWork (.leave hrest)
    | leave =>
      cases hcounted with
      | cons hscope => cases hscope
      | leave hrest => exact ⟨Nat.le_of_succ_le hbounded, hrest⟩

/-- At the start no expansion is open, and the counter is at zero. -/
theorem sound_start (limit : Nat) (names : NameTable) (program : List Statement) :
    (start names program).Sound limit :=
  ⟨Nat.zero_le _, by
    simpa [start] using @Counted.append [] (blockWork [] program) [] scope?_of_mem_blockWork .nil⟩

/-- By induction on the run: every point of a resolution counts its frames and stays within the
    limit. -/
theorem Sound.run (h : p.Sound limit) (hrun : Run limit p q) : q.Sound limit := by
  induction hrun with
  | refl => exact h
  | tail _ hstep ih => exact ih.step hstep

/-- There is no more than one way on from a point. -/
theorem Step.unique {q' : Point} (h : Step limit p q) (h' : Step limit p q') : q = q' := by
  cases h with
  | mk hw =>
    cases h' with
    | mk hw' =>
      obtain ⟨heq, rfl⟩ := Prod.mk.inj (Except.ok.inj (hw.symm.trans hw'))
      obtain ⟨rfl, rfl⟩ := Prod.mk.inj heq
      rfl

end Point

/-! ## The limit -/

/-- The limit on the depth of expansions only cuts a resolution off. -/
structure LimitCutsOff (program : List Statement) : Prop where
  /-- the points of a resolution: they lead to its end, at the depth zero again, -/
  ends : ∀ limit names items state,
    resolveBlock (expandWithin limit limit) [] program ⟨names, []⟩ = .ok (items, state) →
    Point.Run limit (.start names program) ⟨[], 0, state⟩
  /-- or to where it fails; -/
  fails : ∀ limit names e,
    resolveBlock (expandWithin limit limit) [] program ⟨names, []⟩ = .error e →
    ∃ p, Point.Run limit (.start names program) p ∧ p.Stops limit e
  /-- and there are no others -/
  unique : ∀ limit p q q', Point.Step limit p q → Point.Step limit p q' → q = q'
  /-- at every point the depth is the number of frames, and within the limit -/
  frames : ∀ limit names p, Point.Run limit (.start names program) p → p.depth ≤ limit ∧
    ∀ w rest scope, p.todo = w :: rest → w.scope? = some scope → scope.length = p.depth
  /-- what a limit does not cut off is the same under every greater one: items or diagnostic -/
  monotone : ∀ (options : Options) limit limit', limit ≤ limit' →
    (∀ e, resolve { options with maxExpansionDepth := limit } program = .error e →
      ¬ e.IsTooDeep) →
    resolve { options with maxExpansionDepth := limit' } program =
      resolve { options with maxExpansionDepth := limit } program

/-- **The expansion limit is a pure cut-off**, for whatever macros and stringmodes. The counter of
    open expansions is the number of frames around the work at hand at every point (`Counted`, kept
    by each step), so the limit bounds the frames; and as nothing else looks at it, a smaller limit
    ends a resolution early or changes nothing (`resolve_of_le`). -/
theorem limit_cuts_off (program : List Statement) : LimitCutsOff program := by
  have hperforms : ∀ limit, Performs limit 0 (blockWork [] program)
      (resolveBlock (expandWithin limit limit) [] program) := fun limit =>
    performs_block (expandWithin_performs (Nat.zero_add limit)) program []
  constructor
  case ends =>
    intro limit names items state h
    simpa [Point.start] using (hperforms limit).ok [] _ _ _ h
  case fails =>
    intro limit names e h
    simpa [Point.start] using (hperforms limit).error [] _ _ h
  case unique => exact fun limit p q q' h h' => h.unique h'
  case frames =>
    intro limit names p hrun
    obtain ⟨hbounded, hcounted⟩ := (Point.sound_start limit names program).run hrun
    refine ⟨hbounded, fun w rest scope htodo hscope => ?_⟩
    rw [htodo] at hcounted
    exact (hcounted.of_scope? hscope).1
  case monotone => exact fun options limit limit' hle h => resolve_of_le hle h

/-- The macro `outer` expands the macro `inner`. -/
def nestedProgram : List Statement :=
  [.macroDef (word 1 ":macro") (word 1 "inner") [] [.simple (.clear (word 1 "clear"))],
    .macroDef (word 2 ":macro") (word 2 "outer") [] [.call (word 2 "inner")],
    .label (word 3 "main"),
    .call (word 4 "outer")]
where
  word (line : Nat) (text : String) : Token := ⟨line, .name, text⟩

/-- The items of `nestedProgram`. -/
def nestedItems : List Item :=
  [.leaf ⟨3, "main"⟩ (.label "main"), .leaf ⟨1, "clear"⟩ (.instr (.bare .clr))]

/-- One level is not enough for `nestedProgram`, any limit from two on is. -/
theorem limit_cuts_off_nested :
    resolve { maxExpansionDepth := 1 } nestedProgram = .error ⟨2, "inner", .tooDeep 1⟩ ∧
      ∀ limit, 2 ≤ limit →
        resolve { maxExpansionDepth := limit } nestedProgram = .ok nestedItems := by
  have hresolved : resolve { maxExpansionDepth := 2 } nestedProgram = .ok nestedItems := rfl
  refine ⟨rfl, fun limit hlimit => ?_⟩
  refine ((limit_cuts_off nestedProgram).monotone {} 2 limit hlimit fun e he => ?_).trans hresolved
  cases hresolved.symm.trans he

end OctoAsm
