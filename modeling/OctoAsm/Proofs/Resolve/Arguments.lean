/-
  Operands inside an expansion.

  An operand that is a name is looked up when it is used: inside an expansion it is replaced by the
  argument of its name first.  The same result is reached by putting the argument into the text
  beforehand (`putIn`) and reading the text again outside of any expansion.  For a name this holds by
  `substitute_inside`; what is left to show is that the new text still has the form of an operand.
  The argument may change that form, a name into a number or a register, but where the operand has a
  meaning at all its argument is one that may stand in its place.
-/
import OctoAsm.Proofs.Outcome
import OctoAsm.Proofs.Statement.Grammar
import OctoAsm.Resolve.Statements

namespace OctoAsm

/-! ## Arguments in the place of parameters -/

/-- A token with the arguments put in: a name that is a parameter becomes its argument. -/
def putIn (args : List (String × Token)) (t : Token) : Token :=
  if t.kind = .name then (args.lookup t.text).getD t else t

theorem putIn_of_ne {args : List (String × Token)} {t : Token} (h : t.kind ≠ .name) :
    putIn args t = t := if_neg h

/-- Only names are replaced. -/
theorem kind_putIn {args : List (String × Token)} {t : Token} {kind : TokenKind}
    (ht : t.kind = kind) (hkind : kind ≠ .name) : (putIn args t).kind = kind := by
  rw [putIn_of_ne (ht ▸ hkind), ht]

section

variable {names : NameTable} {frame : Frame} {t u : Token}

/-- Inside the expansion of a macro a token stands for what it stands for outside with the arguments
    put in.  Only the number of the invocation is not known outside. -/
theorem substitute_inside (hchars : frame.chars = none) (ht : t.kind ≠ .constant .calls) :
    Env.substitute ⟨names, [frame]⟩ t = Env.substitute ⟨names, []⟩ (putIn frame.args t) := by
  have hscope : Scope.substitute [frame] t = Scope.substitute [] (putIn frame.args t) := by
    obtain ⟨line, kind, text⟩ := t
    cases kind with
    | name => rfl
    | constant c =>
      rw [putIn_of_ne (by simp)]
      cases c with
      | calls => exact absurd rfl ht
      | key value => rfl
      | char | index | value =>
        simp [Scope.substitute, Token.reserved, Constant.valueIn, Constant.valueIn.chars, hchars]
    | _ => rfl
  simp only [Env.substitute, hscope]

/-- Outside of expansions a token stands for itself. -/
theorem substitute_outside (h : Env.substitute ⟨names, []⟩ t = .ok u) : u = t := by
  obtain ⟨line, kind, text⟩ := t
  cases kind with
  | constant c => cases c <;> cases h; rfl
  | _ => cases h; rfl

/-- Outside of any expansion a token stands for itself, but for the reserved constants. -/
theorem substitute_self (ht : ∀ c, t.kind ≠ .constant c) :
    Env.substitute ⟨names, []⟩ t = .ok t := by
  obtain ⟨line, kind, text⟩ := t
  cases kind with
  | constant c => exact absurd rfl (ht c)
  | _ => rfl

end

/-! ## Registers and values -/

section Operands

variable {names : NameTable} {frame : Frame} {t : Token}

/-- A name is the register of its argument, in the expansion as outside. -/
theorem register_named_inside (hchars : frame.chars = none) (ht : t.kind ≠ .constant .calls) :
    Env.register ⟨names, [frame]⟩ (.named t) =
      Env.register ⟨names, []⟩ (.named (putIn frame.args t)) := by
  rw [Env.register, Env.register, substitute_inside hchars ht]
  rfl

/-- A name is the value of its argument, in the expansion as outside. -/
theorem value_named_inside (hchars : frame.chars = none) (ht : t.kind ≠ .constant .calls) :
    Env.value ⟨names, [frame]⟩ (.named t) =
      Env.value ⟨names, []⟩ (.named (putIn frame.args t)) := by
  rw [Env.value, Env.value, substitute_inside hchars ht]

theorem register?_inside (hchars : frame.chars = none) (ht : t.kind ≠ .constant .calls) :
    Env.register? ⟨names, [frame]⟩ t = Env.register? ⟨names, []⟩ (putIn frame.args t) := by
  rw [Env.register?, Env.register?, substitute_inside hchars ht]
  rfl

theorem declaredName_inside (hchars : frame.chars = none) (ht : t.kind ≠ .constant .calls) :
    Env.declaredName ⟨names, [frame]⟩ t = Env.declaredName ⟨names, []⟩ (putIn frame.args t) := by
  rw [Env.declaredName, Env.declaredName, substitute_inside hchars ht]

/-- A token that stands for a register in the place of a name may stand there by itself. -/
theorem register_reshape {n : Fin 16} (h : Env.register ⟨names, []⟩ (.named t) = .ok n) :
    ∃ reg, RegRef.ofToken? t = some reg ∧ Env.register ⟨names, []⟩ reg = .ok n := by
  obtain ⟨line, kind, text⟩ := t
  cases kind with
  | register r =>
    cases r with
    | v m => exact ⟨.literal _ m, rfl, h⟩
    | _ => cases h
  | name => exact ⟨.named _, rfl, h⟩
  | constant c => cases c <;> cases h
  | _ => cases h

/-- A token that stands for a value in the place of a name may stand there by itself. -/
theorem value_reshape {v : Imm} (h : Env.value ⟨names, []⟩ (.named t) = .ok v) :
    ∃ value, ValueRef.ofToken? t = some value ∧ Env.value ⟨names, []⟩ value = .ok v := by
  obtain ⟨line, kind, text⟩ := t
  cases kind with
  | number n => exact ⟨.number _ n, rfl, h⟩
  | name => exact ⟨.named _, rfl, h⟩
  | constant c => cases c <;> cases h
  | _ => cases h

/-- A register that is written as a digit stays; one that is written as a name becomes the argument,
    which is a register in its own way. -/
theorem register_inside (hchars : frame.chars = none) {reg : RegRef} {n : Fin 16}
    (hreg : RegRef.ofToken? t = some reg) (h : Env.register ⟨names, [frame]⟩ reg = .ok n) :
    ∃ reg', RegRef.ofToken? (putIn frame.args t) = some reg' ∧
      Env.register ⟨names, []⟩ reg' = .ok n := by
  obtain ⟨m, hkind, rfl⟩ | ⟨hkind, rfl⟩ := RegRef.kind_of_ofToken? hreg
  · rw [putIn_of_ne (by simp [hkind])]
    exact ⟨_, hreg, h⟩
  · rw [register_named_inside hchars (by simp [hkind])] at h
    exact register_reshape h

/-- The same of values, where the argument may be a number, a register's alias or a constant. -/
theorem value_inside (hchars : frame.chars = none) (ht : t.kind ≠ .constant .calls)
    {value : ValueRef} {v : Imm} (hvalue : ValueRef.ofToken? t = some value)
    (h : Env.value ⟨names, [frame]⟩ value = .ok v) :
    ∃ value', ValueRef.ofToken? (putIn frame.args t) = some value' ∧
      Env.value ⟨names, []⟩ value' = .ok v := by
  cases value with
  | number t' n =>
    have hkind : t.kind ≠ .name := by
      intro hkind
      simp [ValueRef.ofToken?, hkind] at hvalue
    rw [putIn_of_ne hkind]
    exact ⟨_, hvalue, h⟩
  | named t' =>
    obtain rfl : t = t' := by
      unfold ValueRef.ofToken? at hvalue
      split at hvalue <;> cases hvalue <;> rfl
    rw [value_named_inside hchars ht] at h
    exact value_reshape h
  | register reg => cases h

/-- Whether a value fits its field does not depend on the token that is blamed. -/
theorem inRange_token (token token' : Token) {bits : Nat} {v v' : Imm}
    (h : Env.inRange token bits v = .ok v') : Env.inRange token' bits v = .ok v' := by
  cases v with
  | number n =>
    simp only [Env.inRange] at h ⊢
    split at h
    · rename_i hfits
      rw [if_pos hfits]
      exact h
    · cases h
  | label _ | expr _ => exact h

/-- A value within its range stays within it. -/
theorem imm_inside (hchars : frame.chars = none) (ht : t.kind ≠ .constant .calls)
    {value : ValueRef} {bits : Nat} {v : Imm} (hvalue : ValueRef.ofToken? t = some value)
    (h : Env.imm ⟨names, [frame]⟩ bits value = .ok v) :
    ∃ value', ValueRef.ofToken? (putIn frame.args t) = some value' ∧
      Env.imm ⟨names, []⟩ bits value' = .ok v := by
  obtain ⟨v₀, hv₀, hrange⟩ := bind_eq_ok.mp h
  obtain ⟨value', hvalue', hv'⟩ := value_inside hchars ht hvalue hv₀
  exact ⟨value', hvalue', bind_eq_ok.mpr ⟨v₀, hv', inRange_token _ _ hrange⟩⟩

end Operands

/-! ## Where a register or a value may stand -/

/-- A register, or else a value for a field of `bits` bits. -/
def Env.either (env : Env) (bits : Nat) : ValueRef → Except ResolveError (Fin 16 ⊕ Imm)
  | .register reg => return .inl (← env.register reg)
  | .named name => do
    match ← env.register? name with
    | some r => return .inl r
    | none => return .inr (← env.imm bits (.named name))
  | .number token n => return .inr (← env.imm bits (.number token n))

/-- The right side of a condition is an operand of either kind. -/
theorem condRhs_eq (env : Env) (v : ValueRef) :
    env.condRhs v = (env.either 8 v).map (Sum.elim .reg .imm) := by
  cases v with
  | register reg =>
    rw [Env.condRhs, Env.either]
    cases env.register reg <;> rfl
  | named name =>
    rw [Env.condRhs, Env.either]
    cases env.register? name with
    | error e => rfl
    | ok found =>
      cases found with
      | some r => rfl
      | none => simp only [ok_bind]; cases env.imm 8 (.named name) <;> rfl
  | number token n =>
    rw [Env.condRhs, Env.either]
    cases env.imm 8 (.number token n) <;> rfl

/-- The target of a monitor is an operand of either kind. -/
theorem monitorTarget_eq (env : Env) (v : ValueRef) :
    env.monitorTarget v = (env.either 12 v).map (Sum.elim .register .address) := by
  cases v with
  | register reg =>
    rw [Env.monitorTarget, Env.either]
    cases env.register reg <;> rfl
  | named name =>
    rw [Env.monitorTarget, Env.either]
    cases env.register? name with
    | error e => rfl
    | ok found =>
      cases found with
      | some r => rfl
      | none => simp only [ok_bind]; cases env.imm 12 (.named name) <;> rfl
  | number token n =>
    rw [Env.monitorTarget, Env.either]
    cases env.imm 12 (.number token n) <;> rfl

section Either

variable {names : NameTable} {frame : Frame} {t : Token} {bits : Nat} {x : Fin 16 ⊕ Imm}

theorem imm_named_inside (hchars : frame.chars = none) (ht : t.kind ≠ .constant .calls) {v : Imm}
    (h : Env.imm ⟨names, [frame]⟩ bits (.named t) = .ok v) :
    Env.imm ⟨names, []⟩ bits (.named (putIn frame.args t)) = .ok v := by
  obtain ⟨v₀, hv₀, hrange⟩ := bind_eq_ok.mp h
  rw [value_named_inside hchars ht] at hv₀
  exact bind_eq_ok.mpr ⟨v₀, hv₀, inRange_token _ _ hrange⟩

theorem either_named_inside (hchars : frame.chars = none) (ht : t.kind ≠ .constant .calls)
    (h : Env.either ⟨names, [frame]⟩ bits (.named t) = .ok x) :
    Env.either ⟨names, []⟩ bits (.named (putIn frame.args t)) = .ok x := by
  obtain ⟨found, hfound, h⟩ := bind_eq_ok.mp h
  rw [register?_inside hchars ht] at hfound
  refine bind_eq_ok.mpr ⟨found, hfound, ?_⟩
  cases found with
  | some r => exact h
  | none =>
    obtain ⟨v, hv, h⟩ := bind_eq_ok.mp h
    exact bind_eq_ok.mpr ⟨v, imm_named_inside hchars ht hv, h⟩

/-- A token that stands for a register or a value in the place of a name may stand there by itself. -/
theorem either_reshape (h : Env.either ⟨names, []⟩ bits (.named t) = .ok x) :
    ∃ v, ValueRef.ofEither? t = some v ∧ Env.either ⟨names, []⟩ bits v = .ok x := by
  obtain ⟨line, kind, text⟩ := t
  cases kind with
  | register r =>
    cases r with
    | v m => exact ⟨.register (.literal _ m), rfl, h⟩
    | _ => cases h
  | number n => exact ⟨.number _ n, rfl, h⟩
  | name => exact ⟨.named _, rfl, h⟩
  | constant c => cases c <;> cases h
  | _ => cases h

/-- An operand of either kind becomes the argument in its place, which is of the same kind. -/
theorem either_inside (hchars : frame.chars = none) (ht : t.kind ≠ .constant .calls) {v : ValueRef}
    (hv : ValueRef.ofEither? t = some v) (h : Env.either ⟨names, [frame]⟩ bits v = .ok x) :
    ∃ v', ValueRef.ofEither? (putIn frame.args t) = some v' ∧
      Env.either ⟨names, []⟩ bits v' = .ok x := by
  -- What is no name is kept, and looks nothing up.
  have kept : t.kind ≠ .name → Env.either ⟨names, []⟩ bits v = .ok x →
      ∃ v', ValueRef.ofEither? (putIn frame.args t) = some v' ∧
        Env.either ⟨names, []⟩ bits v' = .ok x := by
    intro hkind h
    rw [putIn_of_ne hkind]
    exact ⟨v, hv, h⟩
  obtain ⟨line, kind, text⟩ := t
  cases kind with
  | register r =>
    cases r with
    | v m => cases hv; exact kept nofun h
    | _ => cases hv
  | number n => cases hv; exact kept nofun h
  | name | constant c =>
    cases hv
    exact either_reshape (either_named_inside hchars ht h)
  | _ => cases hv

theorem condRhs_inside (hchars : frame.chars = none) (ht : t.kind ≠ .constant .calls) {v : ValueRef}
    (hv : ValueRef.ofEither? t = some v) {y : CondRhs}
    (h : Env.condRhs ⟨names, [frame]⟩ v = .ok y) :
    ∃ v', ValueRef.ofEither? (putIn frame.args t) = some v' ∧
      Env.condRhs ⟨names, []⟩ v' = .ok y := by
  rw [condRhs_eq] at h
  obtain ⟨x, hx, rfl⟩ := map_eq_ok.mp h
  obtain ⟨v', hv', hx'⟩ := either_inside hchars ht hv hx
  refine ⟨v', hv', ?_⟩
  rw [condRhs_eq]
  exact map_eq_ok.mpr ⟨x, hx', rfl⟩

theorem monitorTarget_inside (hchars : frame.chars = none) (ht : t.kind ≠ .constant .calls)
    {v : ValueRef} (hv : ValueRef.ofEither? t = some v) {y : MonitorTarget}
    (h : Env.monitorTarget ⟨names, [frame]⟩ v = .ok y) :
    ∃ v', ValueRef.ofEither? (putIn frame.args t) = some v' ∧
      Env.monitorTarget ⟨names, []⟩ v' = .ok y := by
  rw [monitorTarget_eq] at h
  obtain ⟨x, hx, rfl⟩ := map_eq_ok.mp h
  obtain ⟨v', hv', hx'⟩ := either_inside hchars ht hv hx
  refine ⟨v', hv', ?_⟩
  rw [monitorTarget_eq]
  exact map_eq_ok.mpr ⟨x, hx', rfl⟩

end Either

/-! ## Expressions -/

/-- The value of an expression does not depend on the token that is blamed. -/
theorem immOf_token (token token' : Token) {e : Expr} {v : Imm} (h : Env.immOf token e = .ok v) :
    Env.immOf token' e = .ok v := by
  cases e with
  | number x =>
    simp only [Env.immOf] at h ⊢
    split at h
    · exact h
    · cases h
  | address _ | unary _ _ | binary _ _ _ => exact h

/-- The bound on the depth holds or fails for the folded expression. -/
theorem bounded_eq_ok {env : Env} {e : CalcExpr} {r : Expr × Nat} :
    env.bounded e = .ok r ↔ env.fold e = .ok r ∧ r.2 ≤ maxCalcDepth := by
  rw [Env.bounded, bind_eq_ok]
  constructor
  · rintro ⟨⟨result, depth⟩, hfold, h⟩
    by_cases hdepth : depth ≤ maxCalcDepth
    · obtain rfl := pure_eq_ok.mp ((if_pos hdepth).symm.trans h)
      exact ⟨hfold, hdepth⟩
    · cases (if_neg hdepth).symm.trans h
  · rintro ⟨hfold, hdepth⟩
    exact ⟨r, hfold, if_pos hdepth⟩

section Expressions

variable {names : NameTable} {frame : Frame} {place : CalcPlace} {n : Nat} {ts : List Token}

/-- A calc name is looked up as the argument of its name. -/
theorem calcName_inside (hchars : frame.chars = none) {t : Token} (ht : t.kind ≠ .constant .calls) :
    Env.calcName ⟨names, [frame]⟩ t = Env.calcName ⟨names, []⟩ (putIn frame.args t) := by
  rw [Env.calcName, Env.calcName, substitute_inside hchars ht]

/-- A token that has a value in the place of a name may stand there by itself. -/
theorem calcName_reshape {t : Token} {r : Expr × Nat} (h : Env.calcName ⟨names, []⟩ t = .ok r) :
    ∃ e, CalcExpr.ofToken? t = some e ∧ Env.fold ⟨names, []⟩ e = .ok r := by
  obtain ⟨line, kind, text⟩ := t
  cases kind with
  | number m => exact ⟨.number _ _, rfl, h⟩
  | name => exact ⟨.name _, rfl, h⟩
  | constant c =>
    cases c with
    | key value => exact ⟨.name _, rfl, h⟩
    | _ => cases h
  | _ => cases h

theorem CalcExpr.token_of_ofToken? {t : Token} {e : CalcExpr} (h : CalcExpr.ofToken? t = some e) :
    t = e.token := by
  unfold CalcExpr.ofToken? at h
  split at h <;> cases h <;> rfl

/-- A name or a string as a whole expression, up to parentheses: another token may take its place. -/
theorem CalcText.put_atom (args : List (String × Token)) {e : CalcExpr}
    (h : CalcText place n ts e) {t : Token} (ht : e = .name t ∨ e = .string t) :
    t ∈ ts ∧ ∀ e', CalcExpr.ofToken? (putIn args t) = some e' →
      CalcText place n (ts.map (putIn args)) e' := by
  induction h with
  | @atom _ u e hu =>
    obtain rfl : t = u := by
      rw [CalcExpr.token_of_ofToken? hu]
      obtain rfl | rfl := ht <;> rfl
    exact ⟨by simp, fun e' he' => .atom he'⟩
  | @paren _ o us c e ho _ hc ih =>
    obtain ⟨hmem, hput⟩ := ih ht
    refine ⟨by simp [hmem], fun e' he' => ?_⟩
    rw [List.map_cons, List.map_append]
    exact .paren (kind_putIn ho nofun) (hput e' he') (kind_putIn hc nofun)
  | term _ ih =>
    obtain ⟨hmem, hput⟩ := ih ht
    exact ⟨hmem, fun e' he' => .term (hput e' he')⟩
  | unary | binary => obtain ht | ht := ht <;> cases ht

/-- The operand of an address may be put in beforehand. -/
theorem addressOf_inside (hchars : frame.chars = none) {e : CalcExpr}
    (htext : CalcText place n ts e) (hcalls : ∀ t ∈ ts, t.kind ≠ .constant .calls)
    {token : Token} {r : Expr × Nat} (h : Env.addressOf ⟨names, [frame]⟩ token e = .ok r) :
    ∃ e', CalcText place n (ts.map (putIn frame.args)) e' ∧
      Env.addressOf ⟨names, []⟩ (putIn frame.args token) e' = .ok r := by
  cases e with
  | name t =>
    obtain ⟨hmem, hput⟩ := htext.put_atom frame.args (.inl rfl)
    obtain ⟨label, hlabel, h⟩ := bind_eq_ok.mp h
    rw [substitute_inside hchars (hcalls t hmem)] at hlabel
    obtain rfl := substitute_outside hlabel
    -- Only a name may stand for a label.
    have hkind : (putIn frame.args t).kind = .name := by
      split at h
      · assumption
      · cases h
      · cases h
    exact ⟨.name _, hput _ (by simp [CalcExpr.ofToken?, hkind]), bind_eq_ok.mpr ⟨_, hlabel, h⟩⟩
  | _ => cases h

/-- The operand of `strlen` may be put in beforehand. -/
theorem strlen_inside (hchars : frame.chars = none) {e : CalcExpr}
    (htext : CalcText place n ts e) (hcalls : ∀ t ∈ ts, t.kind ≠ .constant .calls)
    {token : Token} {r : Expr × Nat} (h : Env.strlen ⟨names, [frame]⟩ token e = .ok r) :
    ∃ e', CalcText place n (ts.map (putIn frame.args)) e' ∧
      Env.strlen ⟨names, []⟩ (putIn frame.args token) e' = .ok r := by
  -- Whatever stands there, it has a length, so it is a string.
  have string : ∀ {t : Token}, Env.lengthOf t = .ok r → t.kind = .string := by
    intro t ht
    unfold Env.lengthOf at ht
    split at ht
    · assumption
    · cases ht
  cases e with
  | name t =>
    obtain ⟨hmem, hput⟩ := htext.put_atom frame.args (.inl rfl)
    obtain ⟨text, hsub, h⟩ := bind_eq_ok.mp h
    rw [substitute_inside hchars (hcalls t hmem)] at hsub
    obtain rfl := substitute_outside hsub
    exact ⟨.string _, hput _ (by simp [CalcExpr.ofToken?, string h]), h⟩
  | string t =>
    obtain ⟨hmem, hput⟩ := htext.put_atom frame.args (.inr rfl)
    rw [putIn_of_ne (by simp [string h])] at hput
    exact ⟨.string t, hput _ (by simp [CalcExpr.ofToken?, string h]), h⟩
  | _ => cases h

/-- By induction on the text of the expression: arguments stand in the place of single operands
    only, so the operators and their nesting stay. -/
theorem fold_inside (hchars : frame.chars = none) {e : CalcExpr} (htext : CalcText place n ts e)
    (hcalls : ∀ t ∈ ts, t.kind ≠ .constant .calls) {r : Expr × Nat}
    (h : Env.fold ⟨names, [frame]⟩ e = .ok r) :
    ∃ e', CalcText place n (ts.map (putIn frame.args)) e' ∧ Env.fold ⟨names, []⟩ e' = .ok r := by
  induction htext generalizing r with
  | @atom _ t e he =>
    have ht : t.kind ≠ .constant .calls := hcalls t (by simp)
    cases e with
    | number u x =>
      have hkind : t.kind ≠ .name := by
        intro hkind
        simp [CalcExpr.ofToken?, hkind] at he
      rw [List.map_singleton, putIn_of_ne hkind]
      exact ⟨_, .atom he, h⟩
    | name u =>
      obtain rfl : t = u := CalcExpr.token_of_ofToken? he
      rw [Env.fold, calcName_inside hchars ht] at h
      obtain ⟨e', he', h'⟩ := calcName_reshape h
      exact ⟨e', .atom he', h'⟩
    | string u => cases h
    | unary | binary =>
      unfold CalcExpr.ofToken? at he
      split at he <;> cases he
  | @paren _ o us c e ho _ hc ih =>
    obtain ⟨e', htext', he'⟩ := ih (fun t ht => hcalls t (by simp [ht])) h
    refine ⟨e', ?_, he'⟩
    rw [List.map_cons, List.map_append]
    exact .paren (kind_putIn ho nofun) htext' (kind_putIn hc nofun)
  | term _ ih =>
    obtain ⟨e', htext', he'⟩ := ih hcalls h
    exact ⟨e', .term htext', he'⟩
  | @unary _ t op m us e ht hop htext ih =>
    have hcalls' : ∀ u ∈ us, u.kind ≠ .constant .calls := fun u hu => hcalls u (by simp [hu])
    -- Whatever the operation makes of its operand, it makes the same of the new text's.
    suffices hoperand : ∃ e', CalcText .whole _ (us.map (putIn frame.args)) e' ∧
        Env.fold ⟨names, []⟩ (.unary (putIn frame.args t) m e') = .ok r by
      obtain ⟨e', htext', he'⟩ := hoperand
      exact ⟨_, .unary (kind_putIn ht nofun) hop htext', he'⟩
    cases m with
    | addressOf => exact addressOf_inside hchars htext hcalls' h
    | strlen => exact strlen_inside hchars htext hcalls' h
    | _ =>
      obtain ⟨a, ha, h⟩ := bind_eq_ok.mp h
      obtain ⟨e', htext', ha'⟩ := ih hcalls' ha
      exact ⟨e', htext', bind_eq_ok.mpr ⟨a, ha', h⟩⟩
  | @binary _ ls l t op m rs r' _ ht hop _ ihl ihr =>
    obtain ⟨a, ha, h⟩ := bind_eq_ok.mp h
    obtain ⟨b, hb, h⟩ := bind_eq_ok.mp h
    obtain ⟨l', hl', ha'⟩ := ihl (fun t ht => hcalls t (by simp [ht])) ha
    obtain ⟨r', hr', hb'⟩ := ihr (fun t ht => hcalls t (by simp [ht])) hb
    refine ⟨.binary (putIn frame.args t) m l' r', ?_, ?_⟩
    · rw [List.map_append, List.map_cons]
      exact .binary hl' (kind_putIn ht nofun) hop hr'
    · exact bind_eq_ok.mpr ⟨a, ha', bind_eq_ok.mpr ⟨b, hb', h⟩⟩

/-- A braced expression with the arguments put in has the same value. -/
theorem calcImm_inside (hchars : frame.chars = none) {e : CalcExpr} (htext : BracedText ts e)
    (hcalls : ∀ t ∈ ts, t.kind ≠ .constant .calls) {v : Imm}
    (h : Env.calcImm ⟨names, [frame]⟩ e = .ok v) :
    ∃ e', BracedText (ts.map (putIn frame.args)) e' ∧ Env.calcImm ⟨names, []⟩ e' = .ok v := by
  obtain ⟨ho, htext, hc⟩ := htext
  obtain ⟨result, hbounded, himm⟩ := bind_eq_ok.mp h
  obtain ⟨hfold, hdepth⟩ := bounded_eq_ok.mp hbounded
  obtain ⟨e', htext', hfold'⟩ := fold_inside hchars htext (fun t ht => hcalls t (by simp [ht])) hfold
  refine ⟨e', ?_, ?_⟩
  · rw [List.map_cons, List.map_append]
    exact .mk (kind_putIn ho nofun) htext' (kind_putIn hc nofun)
  · have hbounded' : Env.bounded ⟨names, []⟩ e' = .ok result :=
      bounded_eq_ok.mpr ⟨hfold', hdepth⟩
    exact bind_eq_ok.mpr ⟨result, hbounded', immOf_token _ _ himm⟩

/-- An argument of a directive with the arguments put in has the same value. -/
theorem operand_inside (hchars : frame.chars = none) {o : Operand} (htext : OperandText ts o)
    (hcalls : ∀ t ∈ ts, t.kind ≠ .constant .calls) {bits : Nat} {v : Imm}
    (h : Env.operand ⟨names, [frame]⟩ bits o = .ok v) :
    ∃ o', OperandText (ts.map (putIn frame.args)) o' ∧
      Env.operand ⟨names, []⟩ bits o' = .ok v := by
  cases htext with
  | @value t value hvalue =>
    obtain ⟨value', hvalue', h'⟩ := imm_inside hchars (hcalls t (by simp)) hvalue h
    exact ⟨.value value', .value hvalue', h'⟩
  | braced htext =>
    obtain ⟨v₀, hv₀, hrange⟩ := bind_eq_ok.mp h
    obtain ⟨e', htext', hv₀'⟩ := calcImm_inside hchars htext hcalls hv₀
    exact ⟨.braced e', .braced htext', bind_eq_ok.mpr ⟨v₀, hv₀', inRange_token _ _ hrange⟩⟩

end Expressions

/-! ## Conditions and assignments -/

section Texts

variable {names : NameTable} {frame : Frame} {ts : List Token}

/-- A condition with the arguments put in is the same comparison. -/
theorem condition_inside (hchars : frame.chars = none) {cond : Condition}
    (htext : ConditionText ts cond) (hcalls : ∀ t ∈ ts, t.kind ≠ .constant .calls) {c : Cond}
    (h : Env.condition ⟨names, [frame]⟩ cond = .ok c) :
    ∃ cond', ConditionText (ts.map (putIn frame.args)) cond' ∧
      Env.condition ⟨names, []⟩ cond' = .ok c := by
  cases htext with
  | key hr hk =>
    obtain ⟨n, hn, h⟩ := bind_eq_ok.mp h
    obtain ⟨reg', hr', hn'⟩ := register_inside hchars hr hn
    exact ⟨_, .key hr' (kind_putIn hk nofun), bind_eq_ok.mpr ⟨n, hn', h⟩⟩
  | notKey hr hk =>
    obtain ⟨n, hn, h⟩ := bind_eq_ok.mp h
    obtain ⟨reg', hr', hn'⟩ := register_inside hchars hr hn
    exact ⟨_, .notKey hr' (kind_putIn hk nofun), bind_eq_ok.mpr ⟨n, hn', h⟩⟩
  | @compare r reg t op m v rhs hr ht hop hv =>
    obtain ⟨n, hn, h⟩ := bind_eq_ok.mp h
    obtain ⟨x, hx, h⟩ := bind_eq_ok.mp h
    obtain ⟨reg', hr', hn'⟩ := register_inside hchars hr hn
    obtain ⟨rhs', hv', hx'⟩ := condRhs_inside hchars (hcalls v (by simp)) hv hx
    refine ⟨_, .compare hr' (kind_putIn ht nofun) hop hv', ?_⟩
    refine bind_eq_ok.mpr ⟨n, hn', bind_eq_ok.mpr ⟨x, hx', ?_⟩⟩
    -- The scratch register is chosen by the names alone.
    simp only [] at h ⊢
    split at h
    · cases h
    · rename_i htemp
      exact (if_neg htemp).trans h

/-- An assignment whose source may be a register or a value, once that is decided. -/
theorem ambiguous_eq (env : Env) (token src : Token) (dst : RegRef) (op : ImmOp) :
    env.assignment (.ambiguous token dst op src) =
      (env.register dst >>= fun x => (env.either 8 (.named src)).map fun y =>
        (token, y.elim (.regReg op.toRegOp.mnemonic x) (op.instr x))) := by
  rw [Env.assignment, Env.either]
  cases env.register dst with
  | error e => rfl
  | ok x =>
    cases env.register? src with
    | error e => rfl
    | ok found =>
      cases found with
      | some r => rfl
      | none => simp only [ok_bind]; cases env.imm 8 (.named src) <;> rfl

/-- The source of an assignment put in place of a name: the form of the assignment follows it. -/
theorem ambiguous_reshape {t o s : Token} {dst : RegRef} {op : Operator} {m : ImmOp}
    (ht : RegRef.ofToken? t = some dst) (ho : o.kind = .operator op)
    (hop : ImmOp.ofOperator? op = some m) {r : Token × Instr}
    (h : Env.assignment ⟨names, []⟩ (.ambiguous t dst m s) = .ok r) :
    ∃ a, AssignmentText [t, o, s] a ∧ Env.assignment ⟨names, []⟩ a = .ok r := by
  obtain ⟨x, -, hmap⟩ := bind_eq_ok.mp (ambiguous_eq .. ▸ h)
  obtain ⟨y, hy, -⟩ := map_eq_ok.mp hmap
  have hreg : RegOp.ofOperator? op = some m.toRegOp := by
    cases op <;> cases hop <;> rfl
  obtain ⟨line, kind, text⟩ := s
  cases kind with
  | register k =>
    cases k with
    | v n => exact ⟨_, .register ht ho hreg rfl, h⟩
    | _ => cases hy
  | number n => exact ⟨_, .immediate ht ho hop rfl nofun, h⟩
  | name => exact ⟨_, .ambiguous ht ho hop rfl, h⟩
  | constant c => cases c <;> cases hy
  | _ => cases hy

/-- One case to a form of assignment. Where the right side is a name, the form that is read with the
    argument in its place may be another one, with the same meaning. -/
theorem assignment_inside (hchars : frame.chars = none) {a : Assignment}
    (htext : AssignmentText ts a) (hcalls : ∀ t ∈ ts, t.kind ≠ .constant .calls) {token : Token}
    {instr : Instr} (h : Env.assignment ⟨names, [frame]⟩ a = .ok (token, instr)) :
    token ∈ ts ∧ ∃ a', AssignmentText (ts.map (putIn frame.args)) a' ∧
      Env.assignment ⟨names, []⟩ a' = .ok (putIn frame.args token, instr) := by
  cases htext with
  -- fixed words stay what they are, since only names are put in; registers and values become the
  -- argument in their place
  | delaySet ht ho hr =>
    obtain ⟨n, hn, h⟩ := bind_eq_ok.mp h
    cases h
    obtain ⟨reg', hr', hn'⟩ := register_inside hchars hr hn
    exact ⟨by simp, _, .delaySet (kind_putIn ht nofun) (kind_putIn ho nofun) hr',
      bind_eq_ok.mpr ⟨n, hn', rfl⟩⟩
  | buzzerSet ht ho hr =>
    obtain ⟨n, hn, h⟩ := bind_eq_ok.mp h
    cases h
    obtain ⟨reg', hr', hn'⟩ := register_inside hchars hr hn
    exact ⟨by simp, _, .buzzerSet (kind_putIn ht nofun) (kind_putIn ho nofun) hr',
      bind_eq_ok.mpr ⟨n, hn', rfl⟩⟩
  | delayGet ht ho hs =>
    obtain ⟨n, hn, h⟩ := bind_eq_ok.mp h
    cases h
    obtain ⟨reg', hr', hn'⟩ := register_inside hchars ht hn
    exact ⟨by simp, _, .delayGet hr' (kind_putIn ho nofun) (kind_putIn hs nofun),
      bind_eq_ok.mpr ⟨n, hn', rfl⟩⟩
  | keyInput ht ho hk =>
    obtain ⟨n, hn, h⟩ := bind_eq_ok.mp h
    cases h
    obtain ⟨reg', hr', hn'⟩ := register_inside hchars ht hn
    exact ⟨by simp, _, .keyInput hr' (kind_putIn ho nofun) (kind_putIn hk nofun),
      bind_eq_ok.mpr ⟨n, hn', rfl⟩⟩
  | @random t dst o k v mask ht ho hk hv =>
    obtain ⟨n, hn, h⟩ := bind_eq_ok.mp h
    obtain ⟨w, hw, h⟩ := bind_eq_ok.mp h
    cases h
    obtain ⟨dst', ht', hn'⟩ := register_inside hchars ht hn
    obtain ⟨mask', hv', hw'⟩ := imm_inside hchars (hcalls v (by simp)) hv hw
    exact ⟨by simp, _, .random ht' (kind_putIn ho nofun) (kind_putIn hk nofun) hv',
      bind_eq_ok.mpr ⟨n, hn', bind_eq_ok.mpr ⟨w, hw', rfl⟩⟩⟩
  | @indexSet t o v value ht ho hv =>
    obtain ⟨w, hw, h⟩ := bind_eq_ok.mp h
    cases h
    obtain ⟨value', hv', hw'⟩ := imm_inside hchars (hcalls v (by simp)) hv hw
    exact ⟨by simp, _, .indexSet (kind_putIn ht nofun) (kind_putIn ho nofun) hv',
      bind_eq_ok.mpr ⟨w, hw', rfl⟩⟩
  | indexAdd ht ho hr =>
    obtain ⟨n, hn, h⟩ := bind_eq_ok.mp h
    cases h
    obtain ⟨reg', hr', hn'⟩ := register_inside hchars hr hn
    exact ⟨by simp, _, .indexAdd (kind_putIn ht nofun) (kind_putIn ho nofun) hr',
      bind_eq_ok.mpr ⟨n, hn', rfl⟩⟩
  | charSprite ht ho hk hr =>
    obtain ⟨n, hn, h⟩ := bind_eq_ok.mp h
    cases h
    obtain ⟨reg', hr', hn'⟩ := register_inside hchars hr hn
    exact ⟨by simp, _, .charSprite (kind_putIn ht nofun) (kind_putIn ho nofun)
      (kind_putIn hk nofun) hr', bind_eq_ok.mpr ⟨n, hn', rfl⟩⟩
  | register ht ho hop hs =>
    obtain ⟨n, hn, h⟩ := bind_eq_ok.mp h
    obtain ⟨k, hk, h⟩ := bind_eq_ok.mp h
    cases h
    obtain ⟨dst', ht', hn'⟩ := register_inside hchars ht hn
    exact ⟨by simp, _, .register ht' (kind_putIn ho nofun) hop (kind_putIn hs nofun),
      bind_eq_ok.mpr ⟨n, hn', bind_eq_ok.mpr ⟨k, hk, rfl⟩⟩⟩
  -- the source is a name: its argument is a register, as a digit or as an alias, and the first of
  -- the two is another form of assignment
  | @named t dst o op m s ht ho hop hno hs =>
    obtain ⟨n, hn, h⟩ := bind_eq_ok.mp h
    obtain ⟨k, hk, h⟩ := bind_eq_ok.mp h
    obtain ⟨rfl, rfl⟩ := Prod.mk.inj (pure_eq_ok.mp h)
    obtain ⟨dst', ht', hn'⟩ := register_inside hchars ht hn
    rw [register_named_inside hchars (by simp [hs])] at hk
    obtain ⟨src', hs', hk'⟩ := register_reshape hk
    have hassign : Env.assignment ⟨names, []⟩ (.register (putIn frame.args t) dst' m src') =
        .ok (putIn frame.args t, .regReg m.mnemonic n k) :=
      bind_eq_ok.mpr ⟨n, hn', bind_eq_ok.mpr ⟨k, hk', rfl⟩⟩
    obtain ⟨j, hkind, rfl⟩ | ⟨hkind, rfl⟩ := RegRef.kind_of_ofToken? hs'
    · exact ⟨by simp, _, .register ht' (kind_putIn ho nofun) hop hkind, hassign⟩
    · exact ⟨by simp, _, .named ht' (kind_putIn ho nofun) hop hno hkind, hassign⟩
  | @immediate t dst o op m v value ht ho hop hv hname =>
    obtain ⟨n, hn, h⟩ := bind_eq_ok.mp h
    obtain ⟨w, hw, h⟩ := bind_eq_ok.mp h
    cases h
    obtain ⟨dst', ht', hn'⟩ := register_inside hchars ht hn
    obtain ⟨value', hv', hw'⟩ := imm_inside hchars (hcalls v (by simp)) hv hw
    exact ⟨by simp, _, .immediate ht' (kind_putIn ho nofun) hop hv' (by rwa [putIn_of_ne hname]),
      bind_eq_ok.mpr ⟨n, hn', bind_eq_ok.mpr ⟨w, hw', rfl⟩⟩⟩
  -- the source may be a register or a value; which one it is shows in the argument, so the new form
  -- is found from the meaning
  | ambiguous ht ho hop hs =>
    rw [ambiguous_eq] at h
    obtain ⟨n, hn, h⟩ := bind_eq_ok.mp h
    obtain ⟨y, hy, h⟩ := map_eq_ok.mp h
    cases h
    obtain ⟨dst', ht', hn'⟩ := register_inside hchars ht hn
    have hy' := either_named_inside hchars (by simp [hs]) hy
    refine ⟨by simp, ambiguous_reshape ht' (kind_putIn ho nofun) hop ?_⟩
    rw [ambiguous_eq]
    exact bind_eq_ok.mpr ⟨n, hn', map_eq_ok.mpr ⟨y, hy', rfl⟩⟩

/-! ## Statements that stand alone -/

/-- One case to a statement within a line. -/
theorem inline_inside (hchars : frame.chars = none) {s : Simple} (htext : InlineText ts s)
    (hcalls : ∀ t ∈ ts, t.kind ≠ .constant .calls) {token : Token} {leaf : Leaf}
    (h : Env.simple ⟨names, [frame]⟩ s = .ok (token, leaf)) :
    token ∈ ts ∧ ∃ s', InlineText (ts.map (putIn frame.args)) s' ∧
      Env.simple ⟨names, []⟩ s' = .ok (putIn frame.args token, leaf) := by
  cases htext with
  | ret ht =>
    cases h
    exact ⟨by simp, _, .ret (kind_putIn ht nofun), rfl⟩
  | clear ht =>
    cases h
    exact ⟨by simp, _, .clear (kind_putIn ht nofun), rfl⟩
  | bcd ht hr =>
    obtain ⟨n, hn, h⟩ := bind_eq_ok.mp h
    cases h
    obtain ⟨reg', hr', hn'⟩ := register_inside hchars hr hn
    exact ⟨by simp, _, .bcd (kind_putIn ht nofun) hr', bind_eq_ok.mpr ⟨n, hn', rfl⟩⟩
  | save ht hr =>
    obtain ⟨n, hn, h⟩ := bind_eq_ok.mp h
    cases h
    obtain ⟨reg', hr', hn'⟩ := register_inside hchars hr hn
    exact ⟨by simp, _, .save (kind_putIn ht nofun) hr', bind_eq_ok.mpr ⟨n, hn', rfl⟩⟩
  | load ht hr =>
    obtain ⟨n, hn, h⟩ := bind_eq_ok.mp h
    cases h
    obtain ⟨reg', hr', hn'⟩ := register_inside hchars hr hn
    exact ⟨by simp, _, .load (kind_putIn ht nofun) hr', bind_eq_ok.mpr ⟨n, hn', rfl⟩⟩
  | @sprite t x rx y ry v height ht hx hy hv =>
    obtain ⟨n, hn, h⟩ := bind_eq_ok.mp h
    obtain ⟨k, hk, h⟩ := bind_eq_ok.mp h
    obtain ⟨w, hw, h⟩ := bind_eq_ok.mp h
    cases h
    obtain ⟨rx', hx', hn'⟩ := register_inside hchars hx hn
    obtain ⟨ry', hy', hk'⟩ := register_inside hchars hy hk
    obtain ⟨height', hv', hw'⟩ := imm_inside hchars (hcalls v (by simp)) hv hw
    exact ⟨by simp, _, .sprite (kind_putIn ht nofun) hx' hy' hv',
      bind_eq_ok.mpr ⟨n, hn', bind_eq_ok.mpr ⟨k, hk', bind_eq_ok.mpr ⟨w, hw', rfl⟩⟩⟩⟩
  | @jump t v target ht hv =>
    obtain ⟨w, hw, h⟩ := bind_eq_ok.mp h
    cases h
    obtain ⟨target', hv', hw'⟩ := imm_inside hchars (hcalls v (by simp)) hv hw
    exact ⟨by simp, _, .jump (kind_putIn ht nofun) hv', bind_eq_ok.mpr ⟨w, hw', rfl⟩⟩
  | @jumpOffset t v target ht hv =>
    obtain ⟨w, hw, h⟩ := bind_eq_ok.mp h
    cases h
    obtain ⟨target', hv', hw'⟩ := imm_inside hchars (hcalls v (by simp)) hv hw
    exact ⟨by simp, _, .jumpOffset (kind_putIn ht nofun) hv', bind_eq_ok.mpr ⟨w, hw', rfl⟩⟩
  -- a datum has no name in it, and its range does not depend on the frame
  | datum ht =>
    obtain ⟨w, hw, h⟩ := bind_eq_ok.mp h
    cases h
    exact ⟨by simp, _, .datum (kind_putIn ht nofun),
      bind_eq_ok.mpr ⟨w, inRange_token _ _ hw, rfl⟩⟩
  | assign htext =>
    obtain ⟨⟨token', instr⟩, hassign, h⟩ := bind_eq_ok.mp h
    cases h
    obtain ⟨hmem, a', htext', hassign'⟩ := assignment_inside hchars htext hcalls hassign
    exact ⟨hmem, _, .assign htext', bind_eq_ok.mpr ⟨_, hassign', rfl⟩⟩

/-- One case to a statement that fills its line. -/
theorem line_inside (hchars : frame.chars = none) {s : Simple} (htext : LineText ts (.simple s))
    (hcalls : ∀ t ∈ ts, t.kind ≠ .constant .calls) {token : Token} {leaf : Leaf}
    (h : Env.simple ⟨names, [frame]⟩ s = .ok (token, leaf)) :
    token ∈ ts ∧ ∃ s', LineText (ts.map (putIn frame.args)) (.simple s') ∧
      Env.simple ⟨names, []⟩ s' = .ok (putIn frame.args token, leaf) := by
  have hcalls' : ∀ {w : Token} {us : List Token}, ts = w :: us →
      ∀ t ∈ us, t.kind ≠ .constant .calls := fun hts t ht => hcalls t (by simp [hts, ht])
  cases htext with
  | @callAddress w v target hw hv =>
    obtain ⟨x, hx, h⟩ := bind_eq_ok.mp h
    cases h
    obtain ⟨target', hv', hx'⟩ := imm_inside hchars (hcalls v (by simp)) hv hx
    exact ⟨by simp, _, .callAddress (kind_putIn hw nofun) hv', bind_eq_ok.mpr ⟨x, hx', rfl⟩⟩
  | @unpack w v value hw hv =>
    obtain ⟨tag, htag, h⟩ := bind_eq_ok.mp h
    obtain ⟨x, hx, h⟩ := bind_eq_ok.mp h
    cases h
    obtain ⟨value', hv', hx'⟩ := imm_inside hchars (hcalls v (by simp)) hv hx
    exact ⟨by simp, _, .unpack (kind_putIn hw nofun) hv',
      bind_eq_ok.mpr ⟨tag, htag, bind_eq_ok.mpr ⟨x, hx', rfl⟩⟩⟩
  | @unpackTagged w g tag v value hw hg hv =>
    obtain ⟨y, hy, h⟩ := bind_eq_ok.mp h
    obtain ⟨x, hx, h⟩ := bind_eq_ok.mp h
    cases h
    obtain ⟨y₀, hy₀, hy⟩ := bind_eq_ok.mp hy
    obtain ⟨tag', hg', hy₀'⟩ := imm_inside hchars (hcalls g (by simp)) hg hy₀
    obtain ⟨value', hv', hx'⟩ := imm_inside hchars (hcalls v (by simp)) hv hx
    have hy' : (some tag').mapM (Env.imm ⟨names, []⟩ 4) = .ok y :=
      bind_eq_ok.mpr ⟨y₀, hy₀', hy⟩
    exact ⟨by simp, _, .unpackTagged (kind_putIn hw nofun) hg' hv',
      bind_eq_ok.mpr ⟨y, hy', bind_eq_ok.mpr ⟨x, hx', rfl⟩⟩⟩
  | org hw htext =>
    obtain ⟨x, hx, h⟩ := bind_eq_ok.mp h
    cases h
    obtain ⟨target', htext', hx'⟩ := operand_inside hchars htext (hcalls' rfl) hx
    exact ⟨by simp, _, .org (kind_putIn hw nofun) htext', bind_eq_ok.mpr ⟨x, hx', rfl⟩⟩
  | byte hw htext =>
    obtain ⟨x, hx, h⟩ := bind_eq_ok.mp h
    cases h
    obtain ⟨value', htext', hx'⟩ := operand_inside hchars htext (hcalls' rfl) hx
    exact ⟨by simp, _, .byte (kind_putIn hw nofun) htext', bind_eq_ok.mpr ⟨x, hx', rfl⟩⟩
  | pointer hw htext =>
    obtain ⟨x, hx, h⟩ := bind_eq_ok.mp h
    cases h
    obtain ⟨value', htext', hx'⟩ := operand_inside hchars htext (hcalls' rfl) hx
    exact ⟨by simp, _, .pointer (kind_putIn hw nofun) htext', bind_eq_ok.mpr ⟨x, hx', rfl⟩⟩
  | assertion hw htext =>
    obtain ⟨x, hx, h⟩ := bind_eq_ok.mp h
    cases h
    obtain ⟨e', htext', hx'⟩ := calcImm_inside hchars htext (hcalls' rfl) hx
    exact ⟨by simp, _, .assertion (kind_putIn hw nofun) htext', bind_eq_ok.mpr ⟨x, hx', rfl⟩⟩
  | @assertionWith w message us e hw hm htext =>
    obtain ⟨x, hx, h⟩ := bind_eq_ok.mp h
    cases h
    obtain ⟨e', htext', hx'⟩ :=
      calcImm_inside hchars htext (fun t ht => hcalls t (by simp [ht])) hx
    rw [List.map_cons, List.map_cons, putIn_of_ne (t := message) (by simp [hm])]
    exact ⟨by simp, _, .assertionWith (kind_putIn hw nofun) hm htext',
      bind_eq_ok.mpr ⟨x, hx', rfl⟩⟩
  | @breakpoint w name hw hn =>
    obtain ⟨declared, hdeclared, h⟩ := bind_eq_ok.mp h
    cases h
    rw [declaredName_inside hchars (by simp [hn])] at hdeclared
    -- Only a name can be declared.
    have hkind : (putIn frame.args name).kind = .name := by
      obtain ⟨u, hu, hdeclared⟩ := bind_eq_ok.mp hdeclared
      obtain rfl := substitute_outside hu
      split at hdeclared
      · assumption
      · cases hdeclared
    exact ⟨by simp, _, .breakpoint (kind_putIn hw nofun) hkind,
      bind_eq_ok.mpr ⟨declared, hdeclared, rfl⟩⟩
  | @monitorLength w v target l n hw hv hl =>
    obtain ⟨x, hx, h⟩ := bind_eq_ok.mp h
    cases h
    obtain ⟨target', hv', hx'⟩ := monitorTarget_inside hchars (hcalls v (by simp)) hv hx
    exact ⟨by simp, _, .monitorLength (kind_putIn hw nofun) hv' (kind_putIn hl nofun),
      bind_eq_ok.mpr ⟨x, hx', rfl⟩⟩
  | @monitorFormat w v target f hw hv hf =>
    obtain ⟨x, hx, h⟩ := bind_eq_ok.mp h
    cases h
    obtain ⟨target', hv', hx'⟩ := monitorTarget_inside hchars (hcalls v (by simp)) hv hx
    have hf' : putIn frame.args f = f := putIn_of_ne (by simp [hf])
    refine ⟨by simp, .monitor _ target' (.format (putIn frame.args f)),
      .monitorFormat (kind_putIn hw nofun) hv' (kind_putIn hf nofun), ?_⟩
    rw [hf']
    exact bind_eq_ok.mpr ⟨x, hx', rfl⟩

end Texts

end OctoAsm
