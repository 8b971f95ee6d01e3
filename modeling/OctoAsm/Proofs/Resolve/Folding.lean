/-
  Folding calculates ahead without changing a value, and leaves nothing that could be calculated.

  `Env.written` is an expression as it is written: names are put in, and nothing is calculated.  That
  folding keeps its value and its labels is an induction over the expression (`fold_eq_ok`).

  What is left is in normal form: every operation in it needs a label (`Expr.Folded`).  Here folding
  relies on the calc names, whose expressions were folded earlier and are taken over as they are.
  Normal form of all calc names is therefore an invariant of the names, kept by every declaration
  (`fold_folded`, `calcNames_folded`), whatever names are bound again on the way.
-/
import OctoAsm.Proofs.Resolve.Provenance

namespace OctoAsm

/-! ## Normal form -/

/-- Every operation in an expression needs a label. -/
def Expr.Folded : Expr → Prop
  | .number _ | .address _ => True
  | .unary op e => (Expr.unary op e).labels ≠ [] ∧ e.Folded
  | .binary op a b => (Expr.binary op a b).labels ≠ [] ∧ a.Folded ∧ b.Folded

/-- An expression in normal form is a number, or it needs a label. -/
theorem Expr.Folded.number_or_labels {e : Expr} (h : e.Folded) :
    (∃ x, e = .number x) ∨ e.labels ≠ [] := by
  cases e with
  | number x => exact .inl ⟨x, rfl⟩
  | address label => exact .inr (by simp [Expr.labels])
  | unary op e => exact .inr h.1
  | binary op a b => exact .inr h.1

/-- What is folded and has no label is a number: nothing in it waits. -/
theorem Expr.Folded.eq_number {e : Expr} (h : e.Folded) (hlabels : e.labels = []) :
    ∃ x, e = .number x :=
  h.number_or_labels.resolve_right (not_not_intro hlabels)

/-- A value that waits for addresses depends on a label, and so does every operation in it. -/
def Imm.Waits : Imm → Prop
  | .number _ | .label _ => True
  | .expr e => e.labels ≠ [] ∧ e.Folded

/-- A value that is put off has a label to wait for. -/
theorem Imm.waits_deferred {e : Expr} (hlabels : e.labels ≠ []) (h : e.Folded) :
    (Imm.negate.deferred e).Waits := by
  have hlabels' : (Expr.binary .sub (.number 256.0) e).labels ≠ [] := by simpa [Expr.labels]
  have hlabels'' : (Expr.binary .and (.binary .sub (.number 256.0) e) (.number 255.0)).labels ≠ [] := by
    simpa [Expr.labels]
  exact ⟨hlabels'', hlabels'', ⟨hlabels', trivial, h⟩, trivial⟩

/-- The two's complement of a value that waits. -/
theorem Imm.Waits.negate {v : Imm} (h : v.Waits) : v.negate.Waits := by
  cases v with
  | number n => trivial
  | label name => exact Imm.waits_deferred (by simp [Expr.labels]) trivial
  | expr e => exact Imm.waits_deferred h.1 h.2

namespace Env

variable {env : Env}

/-! ## Expressions as they are written -/

/-- What a name in a calc expression denotes. -/
def writtenName (env : Env) (name : Token) : Option Expr := do
  let token ← (env.scope.substitute name).toOption
  match token.kind with
  | .number n => some (.number (Float.ofInt n))
  | .constant (.key value) => some (.number (Float.ofNat value))
  | .name =>
    match env.names.get? token.text with
    | some (.const n) => some (.number (Float.ofInt n))
    | some (.calcName e _) => some e
    | _ => none
  | _ => none

/-- The address of a label. -/
def writtenAddress (env : Env) : CalcExpr → Option Expr
  | .name name => do return .address (← (env.scope.substitute name).toOption).text
  | _ => none

/-- The number of characters of a string. -/
def writtenLength (env : Env) : CalcExpr → Option Expr
  | .string token => some (.number (Float.ofNat token.text.length))
  | .name name => do
    return .number (Float.ofNat (← (env.scope.substitute name).toOption).text.length)
  | _ => none

/-- An expression as it is written: names denote numbers or the expressions of calc names, and
    nothing is calculated. -/
def written (env : Env) : CalcExpr → Option Expr
  | .number _ x => some (.number x)
  | .string _ => none
  | .name token => env.writtenName token
  | .unary _ op operand =>
    match op with
    | .addressOf => env.writtenAddress operand
    | .strlen => env.writtenLength operand
    | op => do return .unary op (← written env operand)
  | .binary _ op left right => do return .binary op (← written env left) (← written env right)

/-- The first expression is the second one with something calculated. -/
structure Calculated (e p : Expr) : Prop where
  eval : ∀ address, e.eval address = p.eval address
  labels : e.labels = p.labels

/-- What is written stands for itself. -/
theorem Calculated.refl (e : Expr) : Calculated e e := ⟨fun _ => rfl, rfl⟩

/-- An operator in front keeps value and labels, whether it is calculated now or put off. -/
theorem Calculated.unary (op : Calc.UnaryOp) {a : Expr × Nat} {p : Expr} (h : Calculated a.1 p) :
    Calculated (foldUnary op a).1 (.unary op p) := by
  refine ⟨fun address => ?_, (labels_foldUnary op a).trans h.labels⟩
  rw [Expr.eval, ← h.eval]
  unfold foldUnary
  split <;> rfl

/-- An operator between two expressions keeps their value and labels. -/
theorem Calculated.binary (op : Calc.BinaryOp) {a b : Expr × Nat} {p q : Expr}
    (ha : Calculated a.1 p) (hb : Calculated b.1 q) :
    Calculated (foldBinary op a b).1 (.binary op p q) := by
  refine ⟨fun address => ?_, ?_⟩
  · rw [Expr.eval, ← ha.eval, ← hb.eval]
    unfold foldBinary
    split <;> rfl
  · rw [labels_foldBinary, ha.labels, hb.labels]
    rfl

/-- What substitution gives is what the scope stands for. -/
theorem substitute_eq_ok {name token : Token} (h : env.substitute name = .ok token) :
    (env.scope.substitute name).toOption = some token := by
  unfold substitute at h
  split at h
  · rename_i t ht
    obtain rfl := Except.ok.inj h
    rw [ht]
    rfl
  · cases h

/-- A calc name is folded to what is written for it: its expression, or a name of a label, or a
    number. -/
theorem calcName_eq_ok {name : Token} {r : Expr × Nat} (h : env.calcName name = .ok r) :
    env.writtenName name = some r.1 := by
  obtain ⟨token, htoken, h⟩ := bind_eq_ok.mp h
  rw [writtenName, substitute_eq_ok htoken, Option.bind_eq_bind, Option.bind_some]
  split at h
  · rename_i n hkind
    obtain rfl := pure_eq_ok.mp h
    simp only [hkind]
  · rename_i value hkind
    obtain rfl := pure_eq_ok.mp h
    simp only [hkind]
  · cases h
  · cases h
  · rename_i hkind
    simp only [hkind]
    split at h
    · rename_i n hbound
      obtain rfl := pure_eq_ok.mp h
      simp only [hbound]
    · rename_i e depth hbound
      obtain rfl := pure_eq_ok.mp h
      simp only [hbound]
    all_goals cases h
  · cases h

/-- An address is written as the name of a label. -/
theorem addressOf_eq_ok {token : Token} {e : CalcExpr} {r : Expr × Nat}
    (h : env.addressOf token e = .ok r) : env.writtenAddress e = some r.1 := by
  cases e with
  | name name =>
    obtain ⟨label, hlabel, h⟩ := bind_eq_ok.mp h
    rw [writtenAddress, substitute_eq_ok hlabel]
    split at h
    · obtain rfl := pure_eq_ok.mp h
      rfl
    · cases h
    · cases h
  | number _ _ | string _ | unary _ _ _ | binary _ _ _ _ => cases h

/-- A length is written as a number. -/
theorem lengthOf_eq_ok {token : Token} {r : Expr × Nat} (h : lengthOf token = .ok r) :
    r.1 = .number (Float.ofNat token.text.length) := by
  unfold lengthOf at h
  split at h
  · obtain rfl := Except.ok.inj h
    rfl
  · cases h

/-- `strlen` is written as the length of the text that its operand stands for. -/
theorem strlen_eq_ok {token : Token} {e : CalcExpr} {r : Expr × Nat}
    (h : env.strlen token e = .ok r) : env.writtenLength e = some r.1 := by
  cases e with
  | string s => rw [lengthOf_eq_ok h, writtenLength]
  | name name =>
    obtain ⟨t, ht, h⟩ := bind_eq_ok.mp h
    rw [writtenLength, substitute_eq_ok ht, lengthOf_eq_ok h]
    rfl
  | number _ _ | unary _ _ _ | binary _ _ _ _ => cases h

/-- **Folding calculates and nothing else.** -/
theorem fold_eq_ok {e : CalcExpr} {r : Expr × Nat} (h : env.fold e = .ok r) :
    ∃ p, env.written e = some p ∧ Calculated r.1 p := by
  induction e generalizing r with
  | number token x =>
    obtain rfl := Except.ok.inj h
    exact ⟨_, rfl, .refl _⟩
  | string token => cases h
  | name token => exact ⟨_, calcName_eq_ok h, .refl _⟩
  | unary token op operand ih =>
    simp only [fold] at h
    split at h
    · exact ⟨_, addressOf_eq_ok h, .refl _⟩
    · exact ⟨_, strlen_eq_ok h, .refl _⟩
    · rename_i hop hop'
      obtain ⟨a, ha, h⟩ := bind_eq_ok.mp h
      obtain rfl := pure_eq_ok.mp h
      obtain ⟨p, hp, hcalc⟩ := ih ha
      refine ⟨.unary op p, ?_, hcalc.unary op⟩
      simp [written, hp]
  | binary token op left right ihl ihr =>
    obtain ⟨a, ha, h⟩ := bind_eq_ok.mp h
    obtain ⟨b, hb, h⟩ := bind_eq_ok.mp h
    obtain rfl := pure_eq_ok.mp h
    obtain ⟨p, hp, hleft⟩ := ihl ha
    obtain ⟨q, hq, hright⟩ := ihr hb
    refine ⟨.binary op p q, ?_, hleft.binary op hright⟩
    rw [written, hp, hq]
    rfl

/-! ## Normal form is kept -/

/-- An operator in front of a number is calculated, and in front of anything else it waits for the
    labels there. -/
theorem foldUnary_folded (op : Calc.UnaryOp) {a : Expr × Nat} (h : a.1.Folded) :
    (foldUnary op a).1.Folded := by
  unfold foldUnary
  split
  · trivial
  · rename_i e depth hnumber
    rcases h.number_or_labels with ⟨x, rfl⟩ | hlabels
    · exact (hnumber x rfl).elim
    · exact ⟨hlabels, h⟩

/-- An operator between two numbers is calculated; otherwise a label stands on one of its sides. -/
theorem foldBinary_folded (op : Calc.BinaryOp) {a b : Expr × Nat} (ha : a.1.Folded)
    (hb : b.1.Folded) : (foldBinary op a b).1.Folded := by
  unfold foldBinary
  split
  · trivial
  · rename_i e depth e' depth' hnumbers
    refine ⟨?_, ha, hb⟩
    rcases ha.number_or_labels with ⟨x, rfl⟩ | hlabels
    · rcases hb.number_or_labels with ⟨y, rfl⟩ | hlabels
      · exact (hnumbers x y rfl rfl).elim
      · simpa [Expr.labels] using hlabels
    · simp [Expr.labels, hlabels]

/-- An address is a label, which waits for itself. -/
theorem writtenAddress_folded {e : CalcExpr} {p : Expr} (h : env.writtenAddress e = some p) :
    p.Folded := by
  cases e with
  | name name =>
    obtain ⟨token, -, h⟩ := Option.bind_eq_some_iff.mp h
    obtain rfl := Option.some.inj h
    trivial
  | number _ _ | string _ | unary _ _ _ | binary _ _ _ _ => cases h

/-- A length is a number. -/
theorem writtenLength_folded {e : CalcExpr} {p : Expr} (h : env.writtenLength e = some p) :
    p.Folded := by
  cases e with
  | string token =>
    obtain rfl := Option.some.inj h
    trivial
  | name name =>
    obtain ⟨token, -, h⟩ := Option.bind_eq_some_iff.mp h
    obtain rfl := Option.some.inj h
    trivial
  | number _ _ | unary _ _ _ | binary _ _ _ _ => cases h

section FoldedNames

variable (hnames : env.names.CalcNames fun e _ => e.Folded)

include hnames

/-- The expression of a calc name was folded when it was declared, which is what the invariant of
    the names says. -/
theorem writtenName_folded {name : Token} {p : Expr} (h : env.writtenName name = some p) :
    p.Folded := by
  obtain ⟨token, -, h⟩ := Option.bind_eq_some_iff.mp h
  split at h
  · obtain rfl := Option.some.inj h
    trivial
  · obtain rfl := Option.some.inj h
    trivial
  · split at h
    · obtain rfl := Option.some.inj h
      trivial
    · rename_i e depth hbound
      obtain rfl := Option.some.inj h
      exact hnames _ _ _ hbound
    · cases h
  · cases h

/-- By induction on the expression, with the calc names as the one case that the
    invariant is for. -/
theorem fold_folded {e : CalcExpr} {r : Expr × Nat} (h : env.fold e = .ok r) : r.1.Folded := by
  induction e generalizing r with
  | number token x =>
    obtain rfl := Except.ok.inj h
    trivial
  | string token => cases h
  | name token => exact writtenName_folded hnames (calcName_eq_ok h)
  | unary token op operand ih =>
    simp only [fold] at h
    split at h
    · exact writtenAddress_folded (addressOf_eq_ok h)
    · exact writtenLength_folded (strlen_eq_ok h)
    · obtain ⟨a, ha, h⟩ := bind_eq_ok.mp h
      obtain rfl := pure_eq_ok.mp h
      exact foldUnary_folded op (ih ha)
  | binary token op left right ihl ihr =>
    obtain ⟨a, ha, h⟩ := bind_eq_ok.mp h
    obtain ⟨b, hb, h⟩ := bind_eq_ok.mp h
    obtain rfl := pure_eq_ok.mp h
    exact foldBinary_folded op (ihl ha) (ihr hb)

/-- The bound on the depth changes nothing in the expression. -/
theorem bounded_folded {e : CalcExpr} {r : Expr × Nat} (h : env.bounded e = .ok r) :
    r.1.Folded := by
  obtain ⟨⟨result, depth⟩, hfold, h⟩ := bind_eq_ok.mp h
  simp only at h
  split at h
  · obtain rfl := pure_eq_ok.mp h
    exact fold_folded hnames hfold
  · cases h

omit hnames in
/-- An expression in normal form becomes a number, or a value that waits. -/
theorem immOf_waits {token : Token} {e : Expr} {v : Imm} (he : e.Folded)
    (h : immOf token e = .ok v) : v.Waits := by
  rcases he.number_or_labels with ⟨x, rfl⟩ | hlabels
  · simp only [immOf] at h
    split at h
    · obtain rfl := Except.ok.inj h
      trivial
    · cases h
  · have hv : v = .expr e := by
      cases e with
      | number x => exact absurd rfl hlabels
      | address _ | unary _ _ | binary _ _ _ => exact (Except.ok.inj h).symm
    exact hv ▸ ⟨hlabels, he⟩

/-- A braced expression waits for its labels, or is a number. -/
theorem calcImm_waits {e : CalcExpr} {v : Imm} (h : env.calcImm e = .ok v) : v.Waits := by
  obtain ⟨r, hbounded, h⟩ := bind_eq_ok.mp h
  exact immOf_waits (bounded_folded hnames hbounded) h

/-- A value is a number, a label, or the expression of a calc name. -/
theorem value_waits {r : ValueRef} {v : Imm} (h : env.value r = .ok v) : v.Waits := by
  cases r with
  | number token n =>
    obtain rfl := Except.ok.inj h
    trivial
  | register reg => cases h
  | named name =>
    obtain ⟨token, -, h⟩ := bind_eq_ok.mp h
    split at h
    · obtain rfl := pure_eq_ok.mp h
      trivial
    · cases h
    · split at h
      · obtain rfl := pure_eq_ok.mp h
        trivial
      · obtain rfl := pure_eq_ok.mp h
        trivial
      · rename_i e depth hbound
        exact immOf_waits (hnames _ _ _ hbound) h
      · cases h
      · cases h
    · cases h

/-- Checking the range changes nothing in the value. -/
theorem imm_waits {bits : Nat} {r : ValueRef} {v : Imm} (h : env.imm bits r = .ok v) : v.Waits := by
  obtain ⟨v₀, hv₀, h⟩ := bind_eq_ok.mp h
  obtain ⟨rfl, -⟩ := inRange_eq_ok h
  exact value_waits hnames hv₀

/-- Every value that is given is known, or waits. -/
theorem Gives.waits {sub : Prop} {v : Imm × Option Nat} (h : env.Gives sub v) : v.1.Waits := by
  cases h with
  | @operand bits o v h =>
    cases o with
    | value r => exact imm_waits hnames h
    | braced e =>
      obtain ⟨v₀, hv₀, h⟩ := bind_eq_ok.mp h
      obtain ⟨rfl, -⟩ := inRange_eq_ok h
      exact calcImm_waits hnames hv₀
  | negated _ h => exact (imm_waits hnames h).negate
  | asserted h => exact calcImm_waits hnames h

end FoldedNames

end Env

/-! ## Analyses -/

/-- Calc names stand for expressions in normal form, at every point of an analysis. -/
theorem Analysis.calcNames_folded {program : List Statement} {c : Analysis}
    (h : Run program (.defining []) c) : c.names.CalcNames fun e _ => e.Folded :=
  calcNames_of_run (fun _ hnames _ _ _ hbounded => Env.bounded_folded hnames hbounded) h

/-- What folding does at every point of an analysis, in every scope, and what is left of it in the
    result. -/
structure FoldsExactly (program : List Statement) : Prop where
  /-- under any addresses the value is that of the expression as it is written -/
  value : ∀ c, Analysis.Run program (.defining []) c → ∀ scope e r,
    Env.fold ⟨c.names, scope⟩ e = .ok r →
    ∃ p, Env.written ⟨c.names, scope⟩ e = some p ∧ ∀ address, r.1.eval address = p.eval address
  /-- what needs no label is calculated -/
  number : ∀ c, Analysis.Run program (.defining []) c → ∀ scope e r p,
    Env.fold ⟨c.names, scope⟩ e = .ok r → Env.written ⟨c.names, scope⟩ e = some p →
    p.labels = [] → ∃ x, r.1 = .number x
  /-- of the rest, every operation needs a label -/
  folded : ∀ c, Analysis.Run program (.defining []) c → ∀ scope e r p,
    Env.fold ⟨c.names, scope⟩ e = .ok r → Env.written ⟨c.names, scope⟩ e = some p →
    p.labels ≠ [] → r.1.labels ≠ [] ∧ r.1.Folded
  /-- so every expression among the values of the result does -/
  output : ∀ options items, resolve options program = .ok items → ∀ v ∈ valuesIn items,
    ∀ e, v.1 = .expr e → e.labels ≠ [] ∧ e.Folded

/-- **Folding keeps the value of an expression, and leaves nothing that could be calculated.** The
    first half is an induction over the expression that needs no invariant (`fold_eq_ok`). The
    second half relies on the calc names, whose expressions are taken over unseen: that they are in
    normal form is kept by every declaration of an analysis (`calcNames_folded`). -/
theorem folds_exactly (program : List Statement) : FoldsExactly program := by
  -- the expression as it is written is the one that folding starts from
  have hlabels : ∀ {env : Env} {e r p}, env.fold e = .ok r → env.written e = some p →
      r.1.labels = p.labels := by
    intro env e r p hfold hp
    obtain ⟨p', hp', hcalc⟩ := Env.fold_eq_ok hfold
    obtain rfl := Option.some.inj (hp.symm.trans hp')
    exact hcalc.labels
  constructor
  case value =>
    intro c hrun scope e r hfold
    obtain ⟨p, hp, hcalc⟩ := Env.fold_eq_ok hfold
    exact ⟨p, hp, hcalc.eval⟩
  case number =>
    intro c hrun scope e r p hfold hp hnone
    have hfolded := Env.fold_folded (Analysis.calcNames_folded hrun) hfold
    exact hfolded.eq_number ((hlabels hfold hp).trans hnone)
  case folded =>
    intro c hrun scope e r p hfold hp hsome
    exact ⟨hlabels hfold hp ▸ hsome, Env.fold_folded (Analysis.calcNames_folded hrun) hfold⟩
  case output =>
    intro options items hresolved v hv e he
    obtain ⟨env, ⟨c, hrun, hnames⟩, hgives⟩ := sourced_values (resolve_sourced hresolved) v hv
    have hwaits : v.1.Waits := hgives.waits (hnames ▸ Analysis.calcNames_folded hrun)
    rw [he] at hwaits
    exact hwaits

/-- `: main :calc page { @ main / ( 2 * 8 ) } :calc page { page + 1 } v0 -= page` -/
def pagingProgram : List Statement :=
  [.label (word "main"),
    .declaration (.calcName (word ":calc") (word "page") (.binary (word "/") .div
      (.unary (word "@") .addressOf (.name (word "main")))
      (.binary (word "*") .mul (.number (word "2") 2) (.number (word "8") 8)))),
    .declaration (.calcName (word ":calc") (word "page") (.binary (word "+") .add
      (.name (word "page")) (.number (word "1") 1))),
    subtraction]
where
  /-- A word of the first line. -/
  word (text : String) : Token := ⟨1, .name, text⟩
  /-- The last statement. -/
  subtraction : Statement := .simple (.assign (.immediate (word "v0")
    (.literal (word "v0") (vReg 0)) .sub (.named (word "page"))))

/-- What `page` stands for first. -/
def firstPage : Expr := .binary .div (.address "main") (.number (Calc.BinaryOp.mul.apply 2 8))

/-- What `page` stands for in the end. -/
def lastPage : Expr := .binary .add firstPage (.number 1)

/-- The names at the subtraction. -/
def pagingNames : NameTable :=
  [("page", .calcName lastPage 2), ("page", .calcName firstPage 1), ("main", .label false)]

/-- The items of `pagingProgram`. -/
def pagingItems : List Item :=
  [.leaf ⟨1, "main"⟩ (.label "main"),
    .leaf ⟨1, "v0"⟩ (.instr (.regImm .addi (vReg 0) (Imm.expr lastPage).negate))]

/-- A calc name bound anew by way of itself: what needs no label is calculated, and the rest waits. -/
theorem folds_exactly_paging :
    Analysis.Run pagingProgram (.defining [])
      (.resolving [⟨[], pagingProgram.subtraction⟩] ⟨pagingNames, []⟩) ∧
    (∃ p, Env.written ⟨pagingNames, []⟩ (.name (pagingProgram.word "page")) = some p ∧
      ∀ address, lastPage.eval address = p.eval address) ∧
    lastPage.Folded ∧ resolve {} pagingProgram = .ok pagingItems ∧
    (Imm.expr lastPage).negate.Waits := by
  have hrun : Analysis.Run pagingProgram (.defining [])
      (.resolving [⟨[], pagingProgram.subtraction⟩] ⟨pagingNames, []⟩) :=
    .head .collect <| .head (.collectLabel rfl) <| .head (.collectParts rfl) <|
      .head (.collectParts rfl) <| .head (.collectParts rfl) <| .head .resolve <|
      .head (.label rfl rfl) <| .head (.declaration rfl rfl) <| .single (.declaration rfl rfl)
  have hfold : Env.fold ⟨pagingNames, []⟩ (.name (pagingProgram.word "page")) = .ok (lastPage, 2) :=
    rfl
  have hresolved : resolve {} pagingProgram = .ok pagingItems := rfl
  have hvalue : ((Imm.expr lastPage).negate, some 8) ∈ valuesIn pagingItems := by
    simp [pagingItems, valuesIn, Item.leaves, Leaf.values, Instr.value?]
  have hlabels : lastPage.labels ≠ [] := by simp [lastPage, firstPage, Expr.labels]
  have hexact := folds_exactly pagingProgram
  exact ⟨hrun, hexact.value _ hrun [] _ _ hfold, (hexact.folded _ hrun [] _ _ _ hfold rfl hlabels).2,
    hresolved, hexact.output {} _ hresolved _ hvalue _ rfl⟩

end OctoAsm
