/-
  Whom an environment blames.

  Every diagnostic about a statement is tied to a token, and the environment makes up no tokens: it
  blames those of the statement, and those that the statement's names stand for, which are arguments
  of the expansions around it.  "Among these tokens" is said by a change of lines `f` that leaves all
  of them alone: the statement and the arguments in scope are what they are after the change, and so
  is whatever token is blamed (`Blames`).  No statement that stands alone is a break, so none of the
  causes is a break out of place.
-/
import OctoAsm.Proofs.Resolve.Arguments
import OctoAsm.Proofs.Resolve.Relocation

namespace OctoAsm

variable {α : Type} {f : Token → Token} {E : ResolveError → Prop}

/-! ## Blame -/

/-- A property of every failure that is blamed on a token that `f` leaves alone, but for a break out
    of place. -/
def Blames (f : Token → Token) (E : ResolveError → Prop) : Prop :=
  ∀ t cause, f t = t → cause ≠ .misplacedBreak → E (t.blame cause)

/-- Throwing the blame at a token that the change leaves alone. -/
theorem Blames.throw {Q : α → Prop} (hE : Blames f E) {t : Token} {cause : ResolveCause}
    (ht : f t = t) (hcause : cause ≠ .misplacedBreak) :
    Ends E Q (throw (t.blame cause) : Except ResolveError α) :=
  .error (hE t cause ht hcause)

/-! ## Substitution -/

/-- A reserved constant is one of the frame; it is read, or refused, in place of the
    token itself. -/
theorem reserved_ends (hf : Relines f) {frame : Option Frame} {t : Token} {c : Constant}
    (ht : f t = t) :
    Ends (fun e => f e.token = e.token) (fun u => f u = u) (t.reserved frame c) := by
  unfold Token.reserved
  split
  · exact .ok ht
  · refine .ok ?_
    rw [hf.setKind, ht]
  · exact .error ht

/-- What a name stands for is an argument in scope, or the name itself. -/
theorem scope_substitute_ends (hf : Relines f) {scope : Scope}
    (hscope : scope = scope.map (Frame.mapTokens f)) {t : Token} (ht : f t = t) :
    Ends (fun e => f e.token = e.token) (fun u => f u = u) (scope.substitute t) := by
  induction scope generalizing t with
  | nil =>
    unfold Scope.substitute
    split
    · exact reserved_ends hf ht
    · exact .ok ht
  | cons frame outer ih =>
    obtain ⟨hframe, houter⟩ := List.cons.inj hscope
    unfold Scope.substitute
    split
    · refine ih houter ?_
      have hargs : frame.args.lookup t.text = (frame.args.lookup t.text).map f := by
        rw [← lookup_map_snd]
        exact congrArg (List.lookup t.text) (congrArg Frame.args hframe)
      cases harg : frame.args.lookup t.text with
      | none => exact ht
      | some u =>
        rw [harg] at hargs
        exact (Option.some.inj hargs).symm
    · exact reserved_ends hf ht
    · exact .ok ht

/-! ## Operands -/

/-- An operand that is left alone has a token that is left alone. -/
theorem RegRef.token_settled {r : RegRef} (h : r.mapTokens f = r) : f r.token = r.token := by
  cases r with
  | literal => exact (RegRef.literal.inj h).1
  | named => exact RegRef.named.inj h

/-- The same of a value, whichever of its forms it has. -/
theorem ValueRef.token_settled {v : ValueRef} (h : v.mapTokens f = v) : f v.token = v.token := by
  cases v with
  | number => exact (ValueRef.number.inj h).1
  | register => exact RegRef.token_settled (ValueRef.register.inj h)
  | named => exact ValueRef.named.inj h

/-- The same of an expression, whose token is that of its outermost operator. -/
theorem CalcExpr.token_settled {e : CalcExpr} (h : e.mapTokens f = e) : f e.token = e.token := by
  cases e with
  | number => exact (CalcExpr.number.inj h).1
  | name => exact CalcExpr.name.inj h
  | string => exact CalcExpr.string.inj h
  | unary => exact (CalcExpr.unary.inj h).1
  | binary => exact (CalcExpr.binary.inj h).1

namespace Env

section Operands

variable {env : Env} (hf : Relines f) (hE : Blames f E)
  (h : env.scope = env.scope.map (Frame.mapTokens f))

include hf hE h

/-- What is substituted is the token or an argument of the scope, and both are left alone; so is the
    token blamed for a reserved constant that is not there. -/
theorem substitute_ends {t : Token}
    (ht : f t = t) : Ends E (fun u => f u = u) (env.substitute t) := by
  have hscope := scope_substitute_ends hf h ht
  unfold substitute
  cases hsub : env.scope.substitute t with
  | ok u => exact .ok (hscope.of_ok hsub)
  | error e => exact .error (hE _ _ (hscope.of_error hsub) nofun)

/-- A name that may not be declared is blamed itself, after substitution. -/
theorem declaredName_ends {t : Token}
    (ht : f t = t) : Ends E (fun u => f u = u) (env.declaredName t) := by
  refine (substitute_ends hf hE h ht).bind fun name hname => ?_
  split
  · exact .pure hname
  · exact hE.throw hname nofun

/-- To ask whether a token is a register fails only where substitution does. -/
theorem register?_ends {t : Token}
    (ht : f t = t) : Ends E (fun _ => True) (env.register? t) :=
  (substitute_ends hf hE h ht).bind fun _ _ => .pure trivial

/-- What is not a register is blamed itself, after substitution. -/
theorem register_ends {r : RegRef}
    (hr : r.mapTokens f = r) : Ends E (fun _ => True) (env.register r) := by
  cases r with
  | literal => exact .ok trivial
  | named name =>
    refine (substitute_ends hf hE h (RegRef.named.inj hr)).bind fun token htoken => ?_
    split
    · exact .pure trivial
    · split
      · exact hE.throw htoken nofun
      · exact hE.throw htoken nofun
      · exact hE.throw htoken nofun

/-! ## Calc expressions -/

omit hf h in
/-- An expression that has no value yet is blamed at the token it came with. -/
theorem immOf_ends {t : Token} (ht : f t = t) (e : Expr) :
    Ends E (fun _ => True) (immOf t e) := by
  unfold immOf
  split
  · split
    · exact .ok trivial
    · exact hE.throw ht nofun
  · exact .ok trivial

/-- A name that may not stand in an expression is blamed itself. -/
theorem calcName_ends {name : Token}
    (hname : f name = name) : Ends E (fun _ => True) (env.calcName name) := by
  refine (substitute_ends hf hE h hname).bind fun token htoken => ?_
  split
  · exact .pure trivial
  · exact .pure trivial
  · exact hE.throw htoken nofun
  · exact hE.throw htoken nofun
  · split
    · exact .pure trivial
    · exact .pure trivial
    · exact hE.throw htoken nofun
    · exact hE.throw htoken nofun
    · exact hE.throw htoken nofun
    · exact hE.throw htoken nofun
    · exact hE.throw htoken nofun
  · exact hE.throw htoken nofun

/-- The operand of an address is a label or is blamed. -/
theorem addressOf_ends {t : Token}
    (ht : f t = t) {e : CalcExpr} (he : e.mapTokens f = e) :
    Ends E (fun _ => True) (env.addressOf t e) := by
  unfold addressOf
  split
  · refine (substitute_ends hf hE h (CalcExpr.name.inj he)).bind fun label hlabel => ?_
    split
    · exact .pure trivial
    · exact hE.throw hlabel nofun
    · exact hE.throw hlabel nofun
  · exact hE.throw ht nofun

omit hf h in
/-- A word where a text should stand is blamed. -/
theorem lengthOf_ends {t : Token} (ht : f t = t) :
    Ends E (fun _ => True) (lengthOf t) := by
  unfold lengthOf
  split
  · exact .ok trivial
  · exact hE.throw ht nofun

/-- `strlen` blames its operand, or what the scope put in its place. -/
theorem strlen_ends {t : Token}
    (ht : f t = t) {e : CalcExpr} (he : e.mapTokens f = e) :
    Ends E (fun _ => True) (env.strlen t e) := by
  unfold strlen
  split
  · exact lengthOf_ends hE (CalcExpr.string.inj he)
  · exact (substitute_ends hf hE h (CalcExpr.name.inj he)).bind fun _ hs => lengthOf_ends hE hs
  · exact hE.throw ht nofun

/-- By induction on the expression; every operator blames a token of its own operands. -/
theorem fold_ends {e : CalcExpr}
    (he : e.mapTokens f = e) : Ends E (fun _ => True) (env.fold e) := by
  induction e with
  | number => exact .ok trivial
  | string t => exact hE.throw (CalcExpr.string.inj he) nofun
  | name t => exact calcName_ends hf hE h (CalcExpr.name.inj he)
  | unary t op operand ih =>
    obtain ⟨ht, -, hoperand⟩ := CalcExpr.unary.inj he
    unfold fold
    split
    · exact addressOf_ends hf hE h ht hoperand
    · exact strlen_ends hf hE h ht hoperand
    · exact (ih hoperand).bind fun _ _ => .pure trivial
  | binary t op left right ihl ihr =>
    obtain ⟨-, -, hleft, hright⟩ := CalcExpr.binary.inj he
    exact (ihl hleft).bind fun _ _ => (ihr hright).bind fun _ _ => .pure trivial

/-- An expression that is too deep is blamed at its own token. -/
theorem bounded_ends {e : CalcExpr}
    (he : e.mapTokens f = e) : Ends E (fun _ => True) (env.bounded e) := by
  refine (fold_ends hf hE h he).bind fun ⟨result, depth⟩ _ => ?_
  dsimp only
  split
  · exact .pure trivial
  · exact hE.throw (CalcExpr.token_settled he) nofun

/-- Braces add no token that could be blamed. -/
theorem calcImm_ends {e : CalcExpr}
    (he : e.mapTokens f = e) : Ends E (fun _ => True) (env.calcImm e) :=
  (bounded_ends hf hE h he).bind fun _ _ => immOf_ends hE (CalcExpr.token_settled he) _

/-! ## Values -/

/-- A value is blamed at its token, after substitution. -/
theorem value_ends {v : ValueRef}
    (hv : v.mapTokens f = v) : Ends E (fun _ => True) (env.value v) := by
  cases v with
  | number => exact .ok trivial
  | register r =>
    exact hE.throw (RegRef.token_settled (ValueRef.register.inj hv)) nofun
  | named name =>
    refine (substitute_ends hf hE h (ValueRef.named.inj hv)).bind fun token htoken => ?_
    split
    · exact .pure trivial
    · exact hE.throw htoken nofun
    · split
      · exact .pure trivial
      · exact .pure trivial
      · exact immOf_ends hE htoken _
      · exact hE.throw htoken nofun
      · exact hE.throw htoken nofun
    · exact hE.throw htoken nofun

omit hf h in
/-- A value out of range is blamed at the token it came with. -/
theorem inRange_ends {t : Token} (ht : f t = t) (bits : Nat) (v : Imm) :
    Ends E (fun _ => True) (inRange t bits v) := by
  unfold inRange
  split
  · split
    · exact .ok trivial
    · exact hE.throw ht nofun
  · exact .ok trivial

/-- A value that must fit is blamed as a value, or as one out of range. -/
theorem imm_ends (bits : Nat) {v : ValueRef} (hv : v.mapTokens f = v) :
    Ends E (fun _ => True) (env.imm bits v) :=
  (value_ends hf hE h hv).bind fun _ _ =>
    inRange_ends hE (ValueRef.token_settled hv) bits _

/-- An argument of a directive is blamed as a value or as an expression. -/
theorem operand_ends (bits : Nat) {o : Operand} (ho : o.mapTokens f = o) :
    Ends E (fun _ => True) (env.operand bits o) := by
  cases o with
  | value v => exact imm_ends hf hE h bits (Operand.value.inj ho)
  | braced e =>
    have he := Operand.braced.inj ho
    exact (calcImm_ends hf hE h he).bind fun _ _ =>
      inRange_ends hE (CalcExpr.token_settled he) bits _

/-- An operand that may be a register is asked for one first and read as a value otherwise. -/
theorem either_ends (bits : Nat) {v : ValueRef} (hv : v.mapTokens f = v) :
    Ends E (fun _ => True) (env.either bits v) := by
  cases v with
  | register r =>
    exact (register_ends hf hE h (ValueRef.register.inj hv)).bind fun _ _ => .pure trivial
  | number t n => exact (imm_ends hf hE h bits hv).bind fun _ _ => .pure trivial
  | named name =>
    refine (register?_ends hf hE h (ValueRef.named.inj hv)).bind fun r _ => ?_
    cases r with
    | some r => exact .pure trivial
    | none => exact (imm_ends hf hE h bits hv).bind fun _ _ => .pure trivial

/-- The target of a monitor is an operand of either kind. -/
theorem monitorTarget_ends {v : ValueRef} (hv : v.mapTokens f = v) :
    Ends E (fun _ => True) (env.monitorTarget v) := by
  rw [monitorTarget_eq]
  exact (either_ends hf hE h 12 hv).map fun _ _ => trivial

/-- The right side of a condition is an operand of either kind. -/
theorem condRhs_ends {v : ValueRef} (hv : v.mapTokens f = v) :
    Ends E (fun _ => True) (env.condRhs v) := by
  rw [condRhs_eq]
  exact (either_ends hf hE h 8 hv).map fun _ _ => trivial

/-! ## Statements that stand alone -/

/-- One case to a form of assignment: its registers and values are all blamed by their own tokens,
    and the site is a token of the statement. -/
theorem assignment_ends {a : Assignment} (ha : a.mapTokens f = a) :
    Ends E (fun p => f p.1 = p.1) (env.assignment a) := by
  -- registers and immediates blame tokens that are left alone; every form is a row of these
  have hreg {r : RegRef} := register_ends hf hE h (r := r)
  have himm (bits : Nat) {v : ValueRef} := imm_ends hf hE h bits (v := v)
  cases a with
  | delaySet t r =>
    obtain ⟨ht, hr⟩ := Assignment.delaySet.inj ha
    exact (hreg hr).bind fun _ _ => .pure ht
  | buzzerSet t r =>
    obtain ⟨ht, hr⟩ := Assignment.buzzerSet.inj ha
    exact (hreg hr).bind fun _ _ => .pure ht
  | delayGet t r =>
    obtain ⟨ht, hr⟩ := Assignment.delayGet.inj ha
    exact (hreg hr).bind fun _ _ => .pure ht
  | keyInput t r =>
    obtain ⟨ht, hr⟩ := Assignment.keyInput.inj ha
    exact (hreg hr).bind fun _ _ => .pure ht
  | random t r v =>
    obtain ⟨ht, hr, hv⟩ := Assignment.random.inj ha
    exact (hreg hr).bind fun _ _ => (himm 8 hv).bind fun _ _ => .pure ht
  | indexSet t v =>
    obtain ⟨ht, hv⟩ := Assignment.indexSet.inj ha
    exact (himm 12 hv).bind fun _ _ => .pure ht
  | indexAdd t r =>
    obtain ⟨ht, hr⟩ := Assignment.indexAdd.inj ha
    exact (hreg hr).bind fun _ _ => .pure ht
  | charSprite t r =>
    obtain ⟨ht, hr⟩ := Assignment.charSprite.inj ha
    exact (hreg hr).bind fun _ _ => .pure ht
  | register t r op r' =>
    obtain ⟨ht, hr, -, hr'⟩ := Assignment.register.inj ha
    exact (hreg hr).bind fun _ _ => (hreg hr').bind fun _ _ => .pure ht
  | immediate t r op v =>
    obtain ⟨ht, hr, -, hv⟩ := Assignment.immediate.inj ha
    exact (hreg hr).bind fun _ _ => (himm 8 hv).bind fun _ _ => .pure ht
  -- a name is asked for a register first, and its token is blamed as a value otherwise
  | ambiguous t r op src =>
    obtain ⟨ht, hr, -, hsrc⟩ := Assignment.ambiguous.inj ha
    refine (hreg hr).bind fun _ _ => (register?_ends hf hE h hsrc).bind fun y _ => ?_
    cases y with
    | some y => exact .pure ht
    | none =>
      have hvalue : (ValueRef.named src).mapTokens f = .named src := congrArg ValueRef.named hsrc
      exact (himm 8 hvalue).bind fun _ _ => .pure ht

/-- One case to a simple statement; directives, assignments and instructions are rows of
    operands. -/
theorem simple_ends {s : Simple} (hs : s.mapTokens f = s) :
    Ends E (fun p => f p.1 = p.1) (env.simple s) := by
  have hreg {r : RegRef} := register_ends hf hE h (r := r)
  have himm (bits : Nat) {v : ValueRef} := imm_ends hf hE h bits (v := v)
  have hoperand (bits : Nat) {o : Operand} := operand_ends hf hE h bits (o := o)
  cases s with
  | ret t => exact .pure (Simple.ret.inj hs)
  | clear t => exact .pure (Simple.clear.inj hs)
  | bcd t r =>
    obtain ⟨ht, hr⟩ := Simple.bcd.inj hs
    exact (hreg hr).bind fun _ _ => .pure ht
  | save t r =>
    obtain ⟨ht, hr⟩ := Simple.save.inj hs
    exact (hreg hr).bind fun _ _ => .pure ht
  | load t r =>
    obtain ⟨ht, hr⟩ := Simple.load.inj hs
    exact (hreg hr).bind fun _ _ => .pure ht
  | sprite t x y v =>
    obtain ⟨ht, hx, hy, hv⟩ := Simple.sprite.inj hs
    exact (hreg hx).bind fun _ _ => (hreg hy).bind fun _ _ => (himm 4 hv).bind fun _ _ => .pure ht
  | jump t v =>
    obtain ⟨ht, hv⟩ := Simple.jump.inj hs
    exact (himm 12 hv).bind fun _ _ => .pure ht
  | jumpOffset t v =>
    obtain ⟨ht, hv⟩ := Simple.jumpOffset.inj hs
    exact (himm 12 hv).bind fun _ _ => .pure ht
  | callAddress t v =>
    obtain ⟨ht, hv⟩ := Simple.callAddress.inj hs
    exact (himm 12 hv).bind fun _ _ => .pure ht
  | datum t n =>
    have ht := (Simple.datum.inj hs).1
    exact (inRange_ends hE ht 8 _).bind fun _ _ => .pure ht
  | assign a => exact (assignment_ends hf hE h (Simple.assign.inj hs)).bind fun _ hp => .pure hp
  -- the tag is read before the value, where there is one
  | unpack t tag v =>
    obtain ⟨ht, htag, hv⟩ := Simple.unpack.inj hs
    have hread : Ends E (fun _ => True) (tag.mapM (env.imm 4)) := by
      cases tag with
      | none => exact .pure trivial
      | some w => exact (himm 4 (Option.some.inj htag)).bind fun _ _ => .pure trivial
    exact hread.bind fun _ _ => (himm 16 hv).bind fun _ _ => .pure ht
  | org t o =>
    obtain ⟨ht, ho⟩ := Simple.org.inj hs
    exact (hoperand 16 ho).bind fun _ _ => .pure ht
  | byte t o =>
    obtain ⟨ht, ho⟩ := Simple.byte.inj hs
    exact (hoperand 8 ho).bind fun _ _ => .pure ht
  | pointer t o =>
    obtain ⟨ht, ho⟩ := Simple.pointer.inj hs
    exact (hoperand 16 ho).bind fun _ _ => .pure ht
  | assertion t message e =>
    obtain ⟨ht, -, he⟩ := Simple.assertion.inj hs
    exact (calcImm_ends hf hE h he).bind fun _ _ => .pure ht
  | breakpoint t name =>
    obtain ⟨ht, hname⟩ := Simple.breakpoint.inj hs
    exact (declaredName_ends hf hE h hname).bind fun _ _ => .pure ht
  | monitor t v style =>
    obtain ⟨ht, hv, -⟩ := Simple.monitor.inj hs
    exact (monitorTarget_ends hf hE h hv).bind fun _ _ => .pure ht

/-- A condition blames its register, its right side, or the clash with the scratch register at one
    of them. -/
theorem condition_ends {c : Condition} (hc : c.mapTokens f = c) :
    Ends E (fun _ => True) (env.condition c) := by
  cases c with
  | key r pressed =>
    exact (register_ends hf hE h (Condition.key.inj hc).1).bind fun _ _ => .pure trivial
  | compare r op rhs =>
    obtain ⟨hr, -, hrhs⟩ := Condition.compare.inj hc
    refine (register_ends hf hE h hr).bind fun _ _ => (condRhs_ends hf hE h hrhs).bind fun _ _ => ?_
    dsimp only
    split
    · exact hE.throw (RegRef.token_settled hr) nofun
    · exact .pure trivial

/-! ## Declarations of values -/

/-- What an alias stands for is left alone, as it holds no token but those of the statement. -/
theorem aliasBinding_ends {target : AliasTarget} (ht : target.mapTokens f = target) :
    Ends E (fun b => b.mapTokens f = b) (env.aliasBinding target) := by
  cases target with
  | register r =>
    exact (register_ends hf hE h (AliasTarget.register.inj ht)).bind fun _ _ => .pure rfl
  | braced e =>
    have he := AliasTarget.braced.inj ht
    refine (calcImm_ends hf hE h he).bind fun v _ => ?_
    cases v with
    | number n =>
      dsimp only
      split
      · exact .pure rfl
      · exact hE.throw (CalcExpr.token_settled he) nofun
    | label | expr => exact hE.throw (CalcExpr.token_settled he) nofun

/-- What is declared is left alone, and so is the name it is declared under. -/
theorem declaration_ends {d : Declaration} (hd : d.mapTokens f = d) :
    Ends E (fun p => f p.1 = p.1 ∧ p.2.mapTokens f = p.2) (env.declaration d) := by
  cases d with
  | aliasName t name target =>
    obtain ⟨-, hname, htarget⟩ := Declaration.aliasName.inj hd
    exact (declaredName_ends hf hE h hname).bind fun _ hu =>
      (aliasBinding_ends hf hE h htarget).bind fun _ hb => .pure ⟨hu, hb⟩
  | const t name v =>
    obtain ⟨-, hname, hv⟩ := Declaration.const.inj hd
    refine (declaredName_ends hf hE h hname).bind fun _ hu =>
      (value_ends hf hE h hv).bind fun n _ => ?_
    cases n with
    | number n => exact .pure ⟨hu, rfl⟩
    | label | expr => exact hE.throw (ValueRef.token_settled hv) nofun
  | calcName t name e =>
    obtain ⟨-, hname, he⟩ := Declaration.calcName.inj hd
    exact (declaredName_ends hf hE h hname).bind fun _ hu =>
      (bounded_ends hf hE h he).bind fun _ _ => .pure ⟨hu, rfl⟩

end Operands

end Env

end OctoAsm
