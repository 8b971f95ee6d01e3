/-
  How deep calc expressions nest.

  Evaluation follows an expression down to its numbers and addresses, so its depth is what keeps
  evaluation within bounds.  The depth is not measured: folding carries a number along and compares
  it with the limit, and a calc name keeps the number that its expression came with.  That this
  number is the depth of what is folded (`fold_depth`) relies on the calc names in the expression,
  whose depths are taken over as they were recorded.  So it is an invariant of the names that every
  recorded depth is exact and within the limit (`calcNames_depth`); the induction over an analysis
  is that of `calcNames_of_run`, however often a name is bound again.

  Nothing compares a depth with the limit once a value has been made.  The only thing done to a value
  afterwards is the two's complement of a subtraction, which adds two operations
  (`depth_negate_le`).
-/
import OctoAsm.Proofs.Resolve.Folding

namespace OctoAsm

/-! ## Values -/

/-- How deep the expression of a value nests; numbers and labels have none. -/
def Imm.depth : Imm → Nat
  | .number _ | .label _ => 0
  | .expr e => e.depth

/-- The two's complement of an expression stands two operations above it. -/
theorem Imm.depth_deferred (e : Expr) : (Imm.negate.deferred e).depth = e.depth + 2 := by
  simp only [Imm.negate.deferred, Imm.depth, Expr.depth]
  omega

/-- The two's complement of a value puts two operations around it. -/
theorem Imm.depth_negate_le (v : Imm) : v.negate.depth ≤ v.depth + 2 := by
  cases v with
  | number n => exact Nat.zero_le _
  | label name => exact (Imm.depth_deferred _).le
  | expr e => exact (Imm.depth_deferred e).le

namespace Env

variable {env : Env}

/-! ## The depth that is carried along -/

/-- Folding an operator records one level more, or none if it could be calculated. -/
theorem foldUnary_depth (op : Calc.UnaryOp) {a : Expr × Nat} (h : a.2 = a.1.depth) :
    (foldUnary op a).2 = (foldUnary op a).1.depth := by
  unfold foldUnary
  split
  · rfl
  · exact congrArg (· + 1) h

/-- The same with two operands, of which the deeper one counts. -/
theorem foldBinary_depth (op : Calc.BinaryOp) {a b : Expr × Nat} (ha : a.2 = a.1.depth)
    (hb : b.2 = b.1.depth) : (foldBinary op a b).2 = (foldBinary op a b).1.depth := by
  unfold foldBinary
  split
  · rfl
  · exact congrArg₂ (max · · + 1) ha hb

/-- An address is one level. -/
theorem addressOf_depth {token : Token} {e : CalcExpr} {r : Expr × Nat}
    (h : env.addressOf token e = .ok r) : r.2 = r.1.depth := by
  cases e with
  | name name =>
    obtain ⟨label, -, h⟩ := bind_eq_ok.mp h
    split at h
    · obtain rfl := pure_eq_ok.mp h
      rfl
    · cases h
    · cases h
  | number _ _ | string _ | unary _ _ _ | binary _ _ _ _ => cases h

theorem lengthOf_depth {token : Token} {r : Expr × Nat} (h : lengthOf token = .ok r) :
    r.2 = r.1.depth := by
  unfold lengthOf at h
  split at h
  · obtain rfl := Except.ok.inj h
    rfl
  · cases h

theorem strlen_depth {token : Token} {e : CalcExpr} {r : Expr × Nat}
    (h : env.strlen token e = .ok r) : r.2 = r.1.depth := by
  cases e with
  | string s => exact lengthOf_depth h
  | name name =>
    obtain ⟨t, -, h⟩ := bind_eq_ok.mp h
    exact lengthOf_depth h
  | number _ _ | unary _ _ _ | binary _ _ _ _ => cases h

/-- A recorded depth is that of its expression, and within the limit. -/
def RecordsDepth (e : Expr) (depth : Nat) : Prop := depth = e.depth ∧ depth ≤ maxCalcDepth

section RecordedNames

variable (hnames : env.names.CalcNames RecordsDepth)

include hnames

/-- The depth of a calc name is the one that was recorded, which is exact by the invariant of the
    names. -/
theorem calcName_depth {name : Token} {r : Expr × Nat} (h : env.calcName name = .ok r) :
    r.2 = r.1.depth := by
  obtain ⟨token, -, h⟩ := bind_eq_ok.mp h
  split at h
  · obtain rfl := pure_eq_ok.mp h
    rfl
  · obtain rfl := pure_eq_ok.mp h
    rfl
  · cases h
  · cases h
  · split at h
    · obtain rfl := pure_eq_ok.mp h
      rfl
    · rename_i e depth hbound
      obtain rfl := pure_eq_ok.mp h
      exact (hnames _ _ _ hbound).1
    all_goals cases h
  · cases h

/-- **The number that folding carries along is the depth of the result.** -/
theorem fold_depth {e : CalcExpr} {r : Expr × Nat} (h : env.fold e = .ok r) :
    r.2 = r.1.depth := by
  induction e generalizing r with
  | number token x =>
    obtain rfl := Except.ok.inj h
    rfl
  | string token => cases h
  | name token => exact calcName_depth hnames h
  | unary token op operand ih =>
    simp only [fold] at h
    split at h
    · exact addressOf_depth h
    · exact strlen_depth h
    · obtain ⟨a, ha, h⟩ := bind_eq_ok.mp h
      obtain rfl := pure_eq_ok.mp h
      exact foldUnary_depth op (ih ha)
  | binary token op left right ihl ihr =>
    obtain ⟨a, ha, h⟩ := bind_eq_ok.mp h
    obtain ⟨b, hb, h⟩ := bind_eq_ok.mp h
    obtain rfl := pure_eq_ok.mp h
    exact foldBinary_depth op (ihl ha) (ihr hb)

/-- What passes the limit may be recorded. -/
theorem bounded_depth {e : CalcExpr} {r : Expr × Nat} (h : env.bounded e = .ok r) :
    RecordsDepth r.1 r.2 := by
  obtain ⟨hfold, hlimit⟩ := bounded_eq_ok.mp h
  exact ⟨fold_depth hnames hfold, hlimit⟩

/-! ## Values are within the limit -/

omit hnames in
/-- An immediate is no deeper than its expression. -/
theorem immOf_depth_le {token : Token} {e : Expr} {v : Imm} (h : immOf token e = .ok v) :
    v.depth ≤ e.depth := by
  cases e with
  | number x =>
    simp only [immOf] at h
    split at h
    · obtain rfl := Except.ok.inj h
      exact Nat.zero_le _
    · cases h
  | address _ | unary _ _ | binary _ _ _ =>
    obtain rfl := Except.ok.inj h
    exact Nat.le_refl _

theorem calcImm_depth_le {e : CalcExpr} {v : Imm} (h : env.calcImm e = .ok v) :
    v.depth ≤ maxCalcDepth := by
  obtain ⟨r, hbounded, h⟩ := bind_eq_ok.mp h
  obtain ⟨hdepth, hlimit⟩ := bounded_depth hnames hbounded
  exact (immOf_depth_le h).trans (hdepth ▸ hlimit)

/-- A value comes from a number, a label or a calc name, and none is too deep. -/
theorem value_depth_le {r : ValueRef} {v : Imm} (h : env.value r = .ok v) :
    v.depth ≤ maxCalcDepth := by
  cases r with
  | number token n =>
    obtain rfl := Except.ok.inj h
    exact Nat.zero_le _
  | register reg => cases h
  | named name =>
    obtain ⟨token, -, h⟩ := bind_eq_ok.mp h
    split at h
    · obtain rfl := pure_eq_ok.mp h
      exact Nat.zero_le _
    · cases h
    · split at h
      · obtain rfl := pure_eq_ok.mp h
        exact Nat.zero_le _
      · obtain rfl := pure_eq_ok.mp h
        exact Nat.zero_le _
      · rename_i e depth hbound
        obtain ⟨hdepth, hlimit⟩ := hnames _ _ _ hbound
        exact (immOf_depth_le h).trans (hdepth ▸ hlimit)
      · cases h
      · cases h
    · cases h

theorem operand_depth_le {bits : Nat} {o : Operand} {v : Imm} (h : env.operand bits o = .ok v) :
    v.depth ≤ maxCalcDepth := by
  cases o with
  | value r =>
    obtain ⟨v₀, hv₀, h⟩ := bind_eq_ok.mp h
    obtain ⟨rfl, -⟩ := inRange_eq_ok h
    exact value_depth_le hnames hv₀
  | braced e =>
    obtain ⟨v₀, hv₀, h⟩ := bind_eq_ok.mp h
    obtain ⟨rfl, -⟩ := inRange_eq_ok h
    exact calcImm_depth_le hnames hv₀

/-- A value is within the limit, or it is the two's complement of one that is. -/
theorem Gives.depth_le {sub : Prop} {v : Imm × Option Nat} (h : env.Gives sub v) :
    v.1.depth ≤ maxCalcDepth ∨ sub ∧ v.1.depth ≤ maxCalcDepth + 2 := by
  cases h with
  | operand h => exact .inl (operand_depth_le hnames h)
  | asserted h => exact .inl (calcImm_depth_le hnames h)
  | @negated r v hsub h =>
    have hoperand : v.depth ≤ maxCalcDepth := operand_depth_le hnames (o := .value r) h
    exact .inr ⟨hsub, v.depth_negate_le.trans (Nat.add_le_add_right hoperand 2)⟩

end RecordedNames

end Env

/-! ## Analyses -/

variable {program : List Statement}

/-- At every point of an analysis, recorded depths are exact and within the limit. -/
theorem Analysis.calcNames_depth {c : Analysis} (h : Run program (.defining []) c) :
    c.names.CalcNames Env.RecordsDepth :=
  calcNames_of_run (fun _ hnames _ _ _ hbounded => Env.bounded_depth hnames hbounded) h

/-- The value of a leaf is within the limit, or the leaf comes from a subtraction. -/
theorem SourcedLeaf.depth_le {l : Leaf} (h : SourcedLeaf program l) :
    (∀ v ∈ l.values, v.1.depth ≤ maxCalcDepth) ∨
      ∃ scope st rest s, Analysis.Run program (.defining []) (.resolving (⟨scope, st⟩ :: rest) s) ∧
        st.IsSubtraction ∧ Env.Makes ⟨s.names, scope⟩ st l ∧
        ∀ v ∈ l.values, v.1.depth ≤ maxCalcDepth + 2 := by
  obtain ⟨scope, st, rest, s, hrun, hmakes⟩ := h
  have hdepth : ∀ v ∈ l.values, v.1.depth ≤ maxCalcDepth ∨
      st.IsSubtraction ∧ v.1.depth ≤ maxCalcDepth + 2 :=
    fun v hv => (hmakes.gives.values v hv).depth_le (Analysis.calcNames_depth hrun)
  by_cases hsub : st.IsSubtraction
  · refine .inr ⟨scope, st, rest, s, hrun, hsub, hmakes, fun v hv => ?_⟩
    rcases hdepth v hv with hle | ⟨-, hle⟩
    · exact hle.trans (Nat.le_add_right _ 2)
    · exact hle
  · exact .inl fun v hv => (hdepth v hv).resolve_right fun h => hsub h.1

/-- How deep the expressions of a program nest. -/
structure NestsWithinLimit (program : List Statement) : Prop where
  /-- what is recorded with a calc name is the depth of its expression, and within the limit -/
  recorded : ∀ c, Analysis.Run program (.defining []) c → ∀ name e depth,
    c.names.get? name = some (.calcName e depth) → depth = e.depth ∧ depth ≤ 256
  /-- values of conditions are within the limit -/
  conditions : ∀ options items, resolve options program = .ok items → ∀ cond ∈ condsOf items,
    ∀ v ∈ cond.values, ∀ e, v.1 = .expr e → e.depth ≤ 256
  /-- so are those of leaves, unless a subtraction is resolved to the leaf: that adds two -/
  leaves : ∀ options items, resolve options program = .ok items → ∀ l ∈ leavesOf items,
    (∀ v ∈ l.values, ∀ e, v.1 = .expr e → e.depth ≤ 256) ∨
    ∃ scope st rest s, Analysis.Run program (.defining []) (.resolving (⟨scope, st⟩ :: rest) s) ∧
      st.IsSubtraction ∧ Env.Makes ⟨s.names, scope⟩ st l ∧
      ∀ v ∈ l.values, ∀ e, v.1 = .expr e → e.depth ≤ 258

/-- **Recorded depths are exact, and no expression nests deeper than the limit allows.** Folding
    carries the depth along instead of measuring it, and takes over what is recorded for a calc
    name; so the invariant of the names is that every record is exact and within the limit
    (`calcNames_depth`). A subtraction adds two levels afterwards, which nothing checks. -/
theorem nests_within_limit (program : List Statement) : NestsWithinLimit program := by
  have hexpr {v : Imm} {n : Nat} (h : v.depth ≤ n) : ∀ e, v = .expr e → e.depth ≤ n := by
    rintro e rfl
    exact h
  constructor
  case recorded =>
    intro c hrun name e depth hbound
    exact Analysis.calcNames_depth hrun name e depth hbound
  case conditions =>
    intro options items hresolved cond hcond v hv
    obtain ⟨env, condition, ⟨c, hrun, hnames⟩, hsource⟩ :=
      (resolve_sourced hresolved).conds cond hcond
    have hdepth := (Env.condition_gives hsource v hv).depth_le
      (hnames ▸ Analysis.calcNames_depth hrun)
    exact hexpr (hdepth.resolve_right fun h => h.1)
  case leaves =>
    intro options items hresolved l hl
    rcases ((resolve_sourced hresolved).leaves l hl).depth_le with
      hle | ⟨scope, st, rest, s, hrun, hsub, hmakes, hle⟩
    · exact .inl fun v hv => hexpr (hle v hv)
    · exact .inr ⟨scope, st, rest, s, hrun, hsub, hmakes, fun v hv => hexpr (hle v hv)⟩

/-- `page` is recorded with depth 2, and subtracting it nests two operations deeper. -/
example : lastPage.depth = 2 ∧ (Imm.expr lastPage).negate.depth = 4 := ⟨rfl, rfl⟩

end OctoAsm
