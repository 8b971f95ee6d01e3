/-
  What the values of a resolved program are like.

  Where values come from is said once for all statements: from an operand, from an assertion or, where
  a value is subtracted, from the two's complement of an operand (`Env.Gives`), and an instruction is
  well shaped, that is, its operands are those of its pattern, field by field (`Env.GivesLeaf`).

  A value is sound if it mentions labels only, and if a number in it fits the field it is meant for.
  Calc names are the one place where values wait between two statements, so the invariant of the names
  is that the expressions they stand for mention labels only.  Given that, everything a statement
  makes is sound.
-/
import OctoAsm.Proofs.Machine.Encode
import OctoAsm.Proofs.Names
import OctoAsm.Proofs.Program
import OctoAsm.Proofs.Resolve.Arguments

namespace OctoAsm

open Machine (Mnemonic)

/-! ## Soundness -/

/-- A value, with the width of the field it is meant for, is sound under some names. -/
structure SoundValue (names : NameTable) (v : Imm × Option Nat) : Prop where
  /-- it mentions labels only -/
  bound : ∀ label ∈ v.1.labels, names.isLabel label = true
  /-- a number fits its field -/
  fits : ∀ n bits, v = (.number n, some bits) → Calc.fits n bits = true

/-- The expressions that names stand for mention labels only. -/
def SoundNames (names : NameTable) : Prop :=
  ∀ name e depth, names.get? name = some (.calcName e depth) →
    ∀ label ∈ e.labels, names.isLabel label = true

/-- The mnemonic of an instruction. -/
def Instr.mnemonic : Instr → Mnemonic
  | .bare m | .addr m _ | .regImm m _ _ | .regReg m _ _ | .reg m _ => m
  | .draw _ _ _ => .draw

/-- The widths of an instruction's operands. -/
def Instr.widths : Instr → List Nat
  | .bare _ => []
  | .addr _ _ => [12]
  | .regImm _ _ _ => [4, 8]
  | .regReg _ _ _ => [4, 4]
  | .reg _ _ => [4]
  | .draw _ _ _ => [4, 4, 4]

/-- The operands are those of the instruction's pattern, field by field. -/
def Instr.Shaped (i : Instr) : Prop := i.mnemonic.widths = i.widths

/-- A leaf is sound under some names. -/
structure SoundLeaf (names : NameTable) (l : Leaf) : Prop where
  values : ∀ v ∈ l.values, SoundValue names v
  shape : ∀ i, l = .instr i → i.Shaped

/-- A condition is sound under some names. -/
def SoundCond (names : NameTable) (c : Cond) : Prop := ∀ v ∈ c.values, SoundValue names v

/-- A value that is not known yet has no field to fit. -/
theorem SoundValue.of_bound {names : NameTable} {v : Imm} {bits : Option Nat}
    (hbound : ∀ label ∈ v.labels, names.isLabel label = true) (hv : ∀ n, v ≠ .number n) :
    SoundValue names (v, bits) := by
  refine ⟨hbound, ?_⟩
  intro n bits' heq
  exact absurd (Prod.mk.inj heq).1 (hv n)

section Monotone

variable {names names' : NameTable}

/-- A sound value stays sound when labels are added. -/
theorem SoundValue.mono (h : names.KeepsLabels names') {v : Imm × Option Nat}
    (hv : SoundValue names v) : SoundValue names' v :=
  ⟨fun label hlabel => h label (hv.bound label hlabel), hv.fits⟩

theorem SoundLeaf.mono (h : names.KeepsLabels names') {l : Leaf} (hl : SoundLeaf names l) :
    SoundLeaf names' l :=
  ⟨fun v hv => (hl.values v hv).mono h, hl.shape⟩

theorem SoundCond.mono (h : names.KeepsLabels names') {c : Cond} (hc : SoundCond names c) :
    SoundCond names' c := fun v hv => (hc v hv).mono h

/-- The empty table binds no calc names. -/
theorem SoundNames.nil : SoundNames [] := by
  intro name e depth h
  simp at h

/-- Rebinding a name keeps the names sound if no label is lost and the new binding is sound. -/
theorem SoundNames.set (h : SoundNames names) {name : String} {b : Binding}
    (hkeeps : names.KeepsLabels (names.set name b))
    (hb : ∀ e depth, b = .calcName e depth → ∀ label ∈ e.labels, names.isLabel label = true) :
    SoundNames (names.set name b) := by
  intro other e depth hother label hlabel
  refine hkeeps label ?_
  by_cases hne : other = name
  · subst hne
    rw [NameTable.get?_set_self] at hother
    exact hb e depth (Option.some.inj hother) label hlabel
  · rw [NameTable.get?_set_of_ne _ _ hne] at hother
    exact h other e depth hother label hlabel

/-- A declaration keeps the calc names sound, provided that the one it may bind mentions labels
    only. -/
theorem SoundNames.declare (h : SoundNames names) {name : String} {b : Binding}
    (hb : ∀ e depth, b = .calcName e depth → ∀ label ∈ e.labels, names.isLabel label = true)
    (hd : names.declare name b = .ok names') : SoundNames names' := by
  have hkeeps := NameTable.keepsLabels_of_declare hd
  obtain ⟨rfl, -⟩ := NameTable.declare_eq_ok hd
  exact h.set hkeeps hb

/-- Rules are no calc names. -/
theorem SoundNames.declareRule (h : SoundNames names) {name : String} {rule : CharRule}
    (hd : names.declareRule name rule = .ok names') : SoundNames names' := by
  have hkeeps := NameTable.keepsLabels_of_declareRule hd
  obtain ⟨rules, rfl, -⟩ := NameTable.declareRule_eq_ok hd
  exact h.set hkeeps (by simp)

end Monotone

/-! ## Subtractions -/

/-- An assignment that subtracts what may be a value. -/
def Assignment.IsSubtraction : Assignment → Prop
  | .immediate _ _ op _ | .ambiguous _ _ op _ => op = .sub
  | _ => False

/-- A statement that stands alone and subtracts what may be a value. -/
def Simple.IsSubtraction : Simple → Prop
  | .assign a => a.IsSubtraction
  | _ => False

/-- A statement that subtracts what may be a value. -/
def Statement.IsSubtraction : Statement → Prop
  | .simple s => s.IsSubtraction
  | _ => False

/-! ## Expressions -/

namespace Env

variable {env : Env}

/-- An immediate has the labels of its expression: a number or a label is taken over, and the rest
    is put off as it is. -/
theorem labels_of_immOf {token : Token} {e : Expr} {v : Imm} (h : immOf token e = .ok v) :
    ∀ label ∈ v.labels, label ∈ e.labels := by
  cases e with
  | number x =>
    simp only [immOf] at h
    split at h
    · obtain rfl := Except.ok.inj h
      simp [Imm.labels]
    · cases h
  | address _ | unary _ _ | binary _ _ _ =>
    obtain rfl := Except.ok.inj h
    exact fun _ hlabel => hlabel

/-- Folding an operator loses no labels, as it calculates with numbers only. -/
theorem labels_foldUnary (op : Calc.UnaryOp) (a : Expr × Nat) :
    (foldUnary op a).1.labels = a.1.labels := by
  unfold foldUnary
  split <;> rfl

/-- The same with two operands. -/
theorem labels_foldBinary (op : Calc.BinaryOp) (a b : Expr × Nat) :
    (foldBinary op a b).1.labels = a.1.labels ++ b.1.labels := by
  unfold foldBinary
  split <;> rfl

/-- An address mentions the label it was asked for. -/
theorem addressOf_bound {token : Token} {e : CalcExpr} {r : Expr × Nat}
    (h : env.addressOf token e = .ok r) :
    ∀ label ∈ r.1.labels, env.names.isLabel label = true := by
  cases e with
  | name name =>
    obtain ⟨label, -, h⟩ := bind_eq_ok.mp h
    split at h
    · rename_i next _ hbound
      obtain rfl := pure_eq_ok.mp h
      intro other hother
      obtain rfl := List.mem_singleton.mp hother
      exact NameTable.isLabel_iff.mpr ⟨_, hbound⟩
    · cases h
    · cases h
  | number _ _ | string _ | unary _ _ _ | binary _ _ _ _ => cases h

/-- A length is a number and mentions none. -/
theorem lengthOf_labels {token : Token} {r : Expr × Nat} (h : lengthOf token = .ok r) :
    r.1.labels = [] := by
  unfold lengthOf at h
  split at h
  · obtain rfl := Except.ok.inj h; rfl
  · cases h

theorem strlen_labels {token : Token} {e : CalcExpr} {r : Expr × Nat}
    (h : env.strlen token e = .ok r) : r.1.labels = [] := by
  cases e with
  | string s => exact lengthOf_labels h
  | name name =>
    obtain ⟨t, -, h⟩ := bind_eq_ok.mp h
    exact lengthOf_labels h
  | number _ _ | unary _ _ _ | binary _ _ _ _ => cases h

/-- An alias binds a register, written as one or given by its number in braces. -/
theorem aliasBinding_kind {target : AliasTarget} {b : Binding} (h : env.aliasBinding target = .ok b) :
    b.kind = .register ∨ b.kind = .registerConst := by
  cases target with
  | register reg =>
    obtain ⟨r, -, h⟩ := bind_eq_ok.mp h
    obtain rfl := pure_eq_ok.mp h
    exact .inl rfl
  | braced e =>
    obtain ⟨v, -, h⟩ := bind_eq_ok.mp h
    split at h
    · split at h
      · obtain rfl := pure_eq_ok.mp h
        exact .inr rfl
      · cases h
    · cases h

/-- What a declaration can bind: registers, numbers and expressions, but no label. -/
theorem declaration_eq_ok {decl : Declaration} {name : Token} {b : Binding}
    (h : env.declaration decl = .ok (name, b)) :
    (b.kind = .register ∨ b.kind = .registerConst ∨ b.kind = .const) ∨
      ∃ expr e depth, b = .calcName e depth ∧ env.bounded expr = .ok (e, depth) := by
  cases decl with
  | aliasName _ _ target =>
    obtain ⟨name', -, h⟩ := bind_eq_ok.mp h
    obtain ⟨b', hb, h⟩ := bind_eq_ok.mp h
    obtain ⟨-, rfl⟩ := Prod.mk.inj (pure_eq_ok.mp h)
    rcases aliasBinding_kind hb with hkind | hkind
    · exact .inl (.inl hkind)
    · exact .inl (.inr (.inl hkind))
  | const _ _ value =>
    obtain ⟨name', -, h⟩ := bind_eq_ok.mp h
    obtain ⟨v, -, h⟩ := bind_eq_ok.mp h
    split at h
    · obtain ⟨-, rfl⟩ := Prod.mk.inj (pure_eq_ok.mp h)
      exact .inl (.inr (.inr rfl))
    · cases h
  | calcName _ _ expr =>
    obtain ⟨name', -, h⟩ := bind_eq_ok.mp h
    obtain ⟨⟨e, depth⟩, he, h⟩ := bind_eq_ok.mp h
    obtain ⟨-, rfl⟩ := Prod.mk.inj (pure_eq_ok.mp h)
    exact .inr ⟨expr, e, depth, rfl, he⟩

/-- Labels are declared as statements of their own, never by a declaration of a value. -/
theorem declaration_ne_label {decl : Declaration} {name : Token} {b : Binding}
    (h : env.declaration decl = .ok (name, b)) (next : Bool) : b ≠ .label next := by
  rintro rfl
  rcases declaration_eq_ok h with hplain | ⟨expr, e, depth, heq, -⟩
  · simp [Binding.kind] at hplain
  · cases heq

/-! ## Statements -/

/-- What an environment can make of the operands of a statement, with the width of the field that it
    is meant for; `sub` says whether the statement may be a subtraction. -/
inductive Gives (env : Env) (sub : Prop) : Imm × Option Nat → Prop where
  | operand {bits o v} (h : env.operand bits o = .ok v) : Gives env sub (v, some bits)
  /-- the two's complement that is added to subtract -/
  | negated {r v} (hsub : sub) (h : env.imm 8 r = .ok v) : Gives env sub (v.negate, some 8)
  /-- the expression of an assertion -/
  | asserted {e v} (h : env.calcImm e = .ok v) : Gives env sub (v, none)

/-- What an environment can make of a statement that stands alone. -/
structure GivesLeaf (env : Env) (sub : Prop) (l : Leaf) : Prop where
  values : ∀ v ∈ l.values, env.Gives sub v
  shape : ∀ i, l = .instr i → i.Shaped

section Giving

variable {sub : Prop}

theorem Gives.imp {sub' : Prop} (hsub : sub → sub') {v : Imm × Option Nat} (h : env.Gives sub v) :
    env.Gives sub' v := by
  cases h with
  | operand h => exact .operand h
  | negated hneg h => exact .negated (hsub hneg) h
  | asserted h => exact .asserted h

/-- A value with its range checked is given as an operand. -/
theorem Gives.imm {bits : Nat} {r : ValueRef} {v : Imm} (h : env.imm bits r = .ok v) :
    env.Gives sub (v, some bits) := .operand (o := .value r) h

/-- An instruction of the right shape without a value. -/
theorem GivesLeaf.plain {i : Instr} (hvalue : i.value? = none) (hshape : i.Shaped) :
    env.GivesLeaf sub (.instr i) := by
  refine ⟨by simp [Leaf.values, hvalue], ?_⟩
  rintro i' ⟨⟩
  exact hshape

/-- An instruction of the right shape with a value. -/
theorem GivesLeaf.value {i : Instr} {v : Imm} {bits : Nat} (hvalue : i.value? = some (v, bits))
    (hv : env.Gives sub (v, some bits)) (hshape : i.Shaped) : env.GivesLeaf sub (.instr i) := by
  refine ⟨by simpa [Leaf.values, hvalue] using hv, ?_⟩
  rintro i' ⟨⟩
  exact hshape

/-- A byte among the statements. -/
theorem GivesLeaf.datum {token : Token} {n : Int} {v : Imm}
    (h : inRange token 8 (.number n) = .ok v) : env.GivesLeaf sub (.byte v) := by
  have hgives : env.Gives sub (v, some 8) := .imm (r := .number token n) h
  exact ⟨by simpa [Leaf.values] using hgives, by simp⟩

/-- A call of a label. -/
theorem GivesLeaf.call {word target : Token} {next : Bool} (h : env.substitute word = .ok target)
    (hkind : target.kind = .name) (hbound : env.names.get? target.text = some (.label next)) :
    env.GivesLeaf sub (.instr (.addr .call (.label target.text))) := by
  have himm : env.imm 12 (.named word) = .ok (.label target.text) := by
    simp [Env.imm, Env.value, h, hkind, hbound, inRange]
  exact .value rfl (.imm himm) rfl

end Giving

/-- An instruction with a value: only a subtraction puts the two's complement in its place. -/
theorem immInstr_gives {x : Fin 16} {op : ImmOp} {r : ValueRef} {v : Imm}
    (hv : env.imm 8 r = .ok v) : env.GivesLeaf (op = .sub) (.instr (op.instr x v)) := by
  cases op with
  | set => exact .value rfl (.imm hv) rfl
  | add => exact .value rfl (.imm hv) rfl
  | sub => exact .value rfl (.negated rfl hv) rfl

/-- One case to a form of assignment, each an instruction of the right shape with at most
    one value. -/
theorem assignment_gives {a : Assignment} {token : Token} {i : Instr}
    (h : env.assignment a = .ok (token, i)) : env.GivesLeaf a.IsSubtraction (.instr i) := by
  cases a with
  | delaySet _ _ | buzzerSet _ _ | delayGet _ _ | keyInput _ _ | indexAdd _ _ | charSprite _ _ =>
    obtain ⟨r, -, h⟩ := bind_eq_ok.mp h
    obtain ⟨-, rfl⟩ := Prod.mk.inj (pure_eq_ok.mp h)
    exact .plain rfl rfl
  | random _ _ _ =>
    obtain ⟨r, -, h⟩ := bind_eq_ok.mp h
    obtain ⟨v, hv, h⟩ := bind_eq_ok.mp h
    obtain ⟨-, rfl⟩ := Prod.mk.inj (pure_eq_ok.mp h)
    exact .value rfl (.imm hv) rfl
  | indexSet _ _ =>
    obtain ⟨v, hv, h⟩ := bind_eq_ok.mp h
    obtain ⟨-, rfl⟩ := Prod.mk.inj (pure_eq_ok.mp h)
    exact .value rfl (.imm hv) rfl
  | register _ _ op _ =>
    obtain ⟨x, -, h⟩ := bind_eq_ok.mp h
    obtain ⟨y, -, h⟩ := bind_eq_ok.mp h
    obtain ⟨-, rfl⟩ := Prod.mk.inj (pure_eq_ok.mp h)
    exact .plain rfl (by cases op <;> rfl)
  | immediate _ _ _ _ =>
    obtain ⟨x, -, h⟩ := bind_eq_ok.mp h
    obtain ⟨v, hv, h⟩ := bind_eq_ok.mp h
    obtain ⟨-, rfl⟩ := Prod.mk.inj (pure_eq_ok.mp h)
    exact immInstr_gives hv
  | ambiguous _ _ op _ =>
    obtain ⟨x, -, h⟩ := bind_eq_ok.mp h
    obtain ⟨y, -, h⟩ := bind_eq_ok.mp h
    cases y with
    | some y =>
      obtain ⟨-, rfl⟩ := Prod.mk.inj (pure_eq_ok.mp h)
      exact .plain rfl (by cases op <;> rfl)
    | none =>
      obtain ⟨v, hv, h⟩ := bind_eq_ok.mp h
      obtain ⟨-, rfl⟩ := Prod.mk.inj (pure_eq_ok.mp h)
      exact immInstr_gives hv

/-- A value where a register may stand, too. -/
theorem either_gives {sub : Prop} {bits : Nat} {r : ValueRef} {v : Imm}
    (h : env.either bits r = .ok (.inr v)) : env.Gives sub (v, some bits) := by
  cases r with
  | register reg =>
    obtain ⟨x, -, h⟩ := bind_eq_ok.mp h
    cases h
  | named name =>
    obtain ⟨x, -, h⟩ := bind_eq_ok.mp h
    cases x with
    | some r => cases h
    | none =>
      obtain ⟨v', hv, h⟩ := bind_eq_ok.mp h
      obtain rfl := Sum.inr.inj (pure_eq_ok.mp h)
      exact .imm hv
  | number token n =>
    obtain ⟨v', hv, h⟩ := bind_eq_ok.mp h
    obtain rfl := Sum.inr.inj (pure_eq_ok.mp h)
    exact .imm hv

/-- The address that a monitor watches is checked for twelve bits. -/
theorem monitorTarget_gives {sub : Prop} {r : ValueRef} {v : Imm}
    (h : env.monitorTarget r = .ok (.address v)) : env.Gives sub (v, some 12) := by
  rw [monitorTarget_eq] at h
  obtain ⟨x, hx, h⟩ := map_eq_ok.mp h
  cases x with
  | inl r => cases h
  | inr v' => exact either_gives (MonitorTarget.address.inj h ▸ hx)

/-- The right side of a condition is checked for a byte. -/
theorem condRhs_gives {sub : Prop} {r : ValueRef} {v : Imm} (h : env.condRhs r = .ok (.imm v)) :
    env.Gives sub (v, some 8) := by
  rw [condRhs_eq] at h
  obtain ⟨x, hx, h⟩ := map_eq_ok.mp h
  cases x with
  | inl r => cases h
  | inr v' => exact either_gives (CondRhs.imm.inj h ▸ hx)

/-- One case to a simple statement: its values are those the leaf asks for, with the bits of their
    fields. -/
theorem simple_gives {st : Simple} {token : Token} {l : Leaf} (h : env.simple st = .ok (token, l)) :
    env.GivesLeaf st.IsSubtraction l := by
  cases st with
  | ret _ | clear _ =>
    obtain ⟨-, rfl⟩ := Prod.mk.inj (pure_eq_ok.mp h)
    exact .plain rfl rfl
  | bcd _ _ | save _ _ | load _ _ =>
    obtain ⟨r, -, h⟩ := bind_eq_ok.mp h
    obtain ⟨-, rfl⟩ := Prod.mk.inj (pure_eq_ok.mp h)
    exact .plain rfl rfl
  | sprite _ _ _ _ =>
    obtain ⟨x, -, h⟩ := bind_eq_ok.mp h
    obtain ⟨y, -, h⟩ := bind_eq_ok.mp h
    obtain ⟨v, hv, h⟩ := bind_eq_ok.mp h
    obtain ⟨-, rfl⟩ := Prod.mk.inj (pure_eq_ok.mp h)
    exact .value rfl (.imm hv) rfl
  | jump _ _ | jumpOffset _ _ | callAddress _ _ =>
    obtain ⟨v, hv, h⟩ := bind_eq_ok.mp h
    obtain ⟨-, rfl⟩ := Prod.mk.inj (pure_eq_ok.mp h)
    exact .value rfl (.imm hv) rfl
  | datum token n =>
    obtain ⟨v, hv, h⟩ := bind_eq_ok.mp h
    obtain ⟨-, rfl⟩ := Prod.mk.inj (pure_eq_ok.mp h)
    exact .datum hv
  -- an assignment is the only statement that may subtract
  | assign _ =>
    obtain ⟨⟨token', i⟩, hi, h⟩ := bind_eq_ok.mp h
    obtain ⟨-, rfl⟩ := Prod.mk.inj (pure_eq_ok.mp h)
    exact assignment_gives hi
  | unpack _ tag _ =>
    obtain ⟨tag', htag, h⟩ := bind_eq_ok.mp h
    obtain ⟨v, hv, h⟩ := bind_eq_ok.mp h
    obtain ⟨-, rfl⟩ := Prod.mk.inj (pure_eq_ok.mp h)
    refine ⟨?_, by simp⟩
    -- tag and value have fields of their own, of 4 and of 16 bits
    have hvalue : env.Gives False (v, some 16) := .imm hv
    show ∀ v ∈ Leaf.values _, env.Gives False v
    cases tag with
    | none =>
      obtain rfl := pure_eq_ok.mp htag
      simpa [Leaf.values] using hvalue
    | some t =>
      obtain ⟨t', ht', htag⟩ := bind_eq_ok.mp htag
      obtain rfl := pure_eq_ok.mp htag
      simpa [Leaf.values] using ⟨Gives.imm ht', hvalue⟩
  | org _ _ | byte _ _ | pointer _ _ =>
    obtain ⟨v, hv, h⟩ := bind_eq_ok.mp h
    obtain ⟨-, rfl⟩ := Prod.mk.inj (pure_eq_ok.mp h)
    exact ⟨by simpa [Leaf.values] using Gives.operand hv, by simp⟩
  | assertion _ _ _ =>
    obtain ⟨v, hv, h⟩ := bind_eq_ok.mp h
    obtain ⟨-, rfl⟩ := Prod.mk.inj (pure_eq_ok.mp h)
    exact ⟨by simpa [Leaf.values] using Gives.asserted hv, by simp⟩
  | breakpoint _ _ =>
    obtain ⟨name, -, h⟩ := bind_eq_ok.mp h
    obtain ⟨-, rfl⟩ := Prod.mk.inj (pure_eq_ok.mp h)
    exact ⟨by simp [Leaf.values], by simp⟩
  | monitor _ _ _ =>
    obtain ⟨target, htarget, h⟩ := bind_eq_ok.mp h
    obtain ⟨-, rfl⟩ := Prod.mk.inj (pure_eq_ok.mp h)
    refine ⟨?_, by simp⟩
    -- a monitored register is no value
    cases target with
    | register r => simp [Leaf.values]
    | address v => simpa [Leaf.values] using monitorTarget_gives htarget

/-- What a comparison is made of; a relational one does not compare its scratch register. -/
theorem condition_eq_ok {reg : RegRef} {op : Comparison} {rhs : ValueRef} {cond : Cond}
    (h : env.condition (.compare reg op rhs) = .ok cond) :
    ∃ x right temp, cond = .compare x op right temp ∧ env.condRhs rhs = .ok right ∧
      (op.isRelational = true → x ≠ temp ∧ right.isReg temp = false) := by
  obtain ⟨x, -, h⟩ := bind_eq_ok.mp h
  obtain ⟨right, hright, h⟩ := bind_eq_ok.mp h
  dsimp only at h
  split at h
  · cases h
  · rename_i hapart
    obtain rfl := pure_eq_ok.mp h
    refine ⟨x, right, _, rfl, hright, fun hop => ?_⟩
    simpa [hop] using hapart

/-- A condition subtracts nothing that was written, so its values are plain operands. -/
theorem condition_gives {c : Condition} {cond : Cond} (h : env.condition c = .ok cond) :
    ∀ v ∈ cond.values, env.Gives False v := by
  cases c with
  | key reg pressed =>
    obtain ⟨r, -, h⟩ := bind_eq_ok.mp h
    obtain rfl := pure_eq_ok.mp h
    simp [Cond.values]
  | compare reg op rhs =>
    obtain ⟨x, right, temp, rfl, hright, -⟩ := condition_eq_ok h
    cases right with
    | reg _ => simp [Cond.values]
    | imm v =>
      have hgives : env.Gives False (v, some 8) := condRhs_gives hright
      simpa [Cond.values] using hgives

/-! ## What is given is sound -/

section Bound

variable (hnames : SoundNames env.names)

include hnames

/-- A calc name stands for an expression of labels, by the invariant of the names. -/
theorem calcName_bound {name : Token} {r : Expr × Nat} (h : env.calcName name = .ok r) :
    ∀ label ∈ r.1.labels, env.names.isLabel label = true := by
  obtain ⟨token, -, h⟩ := bind_eq_ok.mp h
  split at h
  · obtain rfl := pure_eq_ok.mp h; simp [Expr.labels]
  · obtain rfl := pure_eq_ok.mp h; simp [Expr.labels]
  · cases h
  · cases h
  · split at h
    · obtain rfl := pure_eq_ok.mp h; simp [Expr.labels]
    · rename_i e depth hbound
      obtain rfl := pure_eq_ok.mp h
      exact hnames token.text e depth hbound
    all_goals cases h
  · cases h

/-- By induction on the expression: every label comes from a name, an address or a calc name. -/
theorem fold_bound {e : CalcExpr} {r : Expr × Nat} (h : env.fold e = .ok r) :
    ∀ label ∈ r.1.labels, env.names.isLabel label = true := by
  induction e generalizing r with
  | number token x => obtain rfl := Except.ok.inj h; simp [Expr.labels]
  | string token => cases h
  | name token => exact calcName_bound hnames h
  | unary token op operand ih =>
    simp only [fold] at h
    split at h
    · exact addressOf_bound h
    · rw [strlen_labels h]; simp
    · obtain ⟨a, ha, h⟩ := bind_eq_ok.mp h
      obtain rfl := pure_eq_ok.mp h
      rw [labels_foldUnary]
      exact ih ha
  | binary token op left right ihl ihr =>
    obtain ⟨a, ha, h⟩ := bind_eq_ok.mp h
    obtain ⟨b, hb, h⟩ := bind_eq_ok.mp h
    obtain rfl := pure_eq_ok.mp h
    rw [labels_foldBinary]
    exact List.forall_mem_append.mpr ⟨ihl ha, ihr hb⟩

theorem bounded_bound {e : CalcExpr} {r : Expr × Nat} (h : env.bounded e = .ok r) :
    ∀ label ∈ r.1.labels, env.names.isLabel label = true := by
  obtain ⟨⟨result, depth⟩, hfold, h⟩ := bind_eq_ok.mp h
  simp only at h
  split at h
  · obtain rfl := pure_eq_ok.mp h
    exact fold_bound hnames hfold
  · cases h

theorem calcImm_bound {e : CalcExpr} {v : Imm} (h : env.calcImm e = .ok v) :
    ∀ label ∈ v.labels, env.names.isLabel label = true := by
  obtain ⟨⟨result, depth⟩, hbounded, h⟩ := bind_eq_ok.mp h
  exact fun label hlabel =>
    bounded_bound hnames hbounded label (labels_of_immOf h label hlabel)

/-! ## Values -/

/-- A value mentions labels only, whichever of its forms it has. -/
theorem value_bound {r : ValueRef} {v : Imm} (h : env.value r = .ok v) :
    ∀ label ∈ v.labels, env.names.isLabel label = true := by
  cases r with
  | number token n => obtain rfl := Except.ok.inj h; simp [Imm.labels]
  | register reg => cases h
  | named name =>
    obtain ⟨token, -, h⟩ := bind_eq_ok.mp h
    split at h
    · obtain rfl := pure_eq_ok.mp h; simp [Imm.labels]
    · cases h
    · split at h
      · rename_i next hbound
        obtain rfl := pure_eq_ok.mp h
        intro label hlabel
        obtain rfl := List.mem_singleton.mp hlabel
        exact NameTable.isLabel_iff.mpr ⟨next, hbound⟩
      · obtain rfl := pure_eq_ok.mp h; simp [Imm.labels]
      · rename_i e depth hbound
        exact fun label hlabel =>
          hnames token.text e depth hbound label (labels_of_immOf h label hlabel)
      · cases h
      · cases h
    · cases h

omit hnames in
/-- A check of a range changes nothing, and a number that passes it fits. -/
theorem inRange_eq_ok {token : Token} {bits : Nat} {v v' : Imm} (h : inRange token bits v = .ok v') :
    v = v' ∧ ∀ n, v' = .number n → Calc.fits n bits = true := by
  cases v with
  | number n =>
    simp only [inRange] at h
    split at h
    · rename_i hfits
      obtain rfl := Except.ok.inj h
      refine ⟨rfl, ?_⟩
      rintro m ⟨⟩
      exact hfits
    · cases h
  | label _ | expr _ =>
    obtain rfl := Except.ok.inj h
    refine ⟨rfl, ?_⟩
    intro n heq
    cases heq

omit hnames in
/-- What passes the check of its range is sound. -/
theorem inRange_sound {names : NameTable} {token : Token} {bits : Nat} {v v' : Imm}
    (h : inRange token bits v = .ok v')
    (hv : ∀ label ∈ v.labels, names.isLabel label = true) : SoundValue names (v', some bits) := by
  obtain ⟨rfl, hfits⟩ := inRange_eq_ok h
  refine ⟨hv, ?_⟩
  rintro n bits' ⟨⟩
  exact hfits n rfl

/-- A value with its range checked is sound. -/
theorem imm_sound {bits : Nat} {r : ValueRef} {v : Imm} (h : env.imm bits r = .ok v) :
    SoundValue env.names (v, some bits) := by
  obtain ⟨v₀, hv₀, h⟩ := bind_eq_ok.mp h
  exact inRange_sound h (value_bound hnames hv₀)

theorem operand_sound {bits : Nat} {o : Operand} {v : Imm} (h : env.operand bits o = .ok v) :
    SoundValue env.names (v, some bits) := by
  cases o with
  | value r => exact imm_sound hnames h
  | braced e =>
    obtain ⟨v₀, hv₀, h⟩ := bind_eq_ok.mp h
    exact inRange_sound h (calcImm_bound hnames hv₀)

omit hnames in
/-- The two's complement of a sound byte is a sound byte. -/
theorem negate_sound {names : NameTable} {v : Imm} (h : SoundValue names (v, some 8)) :
    SoundValue names (v.negate, some 8) := by
  cases v with
  | number n =>
    refine ⟨by simp [Imm.negate, Imm.labels], ?_⟩
    rintro m bits ⟨⟩
    simp only [Calc.fits, Nat.pow]
    have hmod := Int.emod_nonneg (256 - n % 256) (by decide : (256 : Int) ≠ 0)
    have hlt := Int.emod_lt_of_pos (256 - n % 256) (by decide : (0 : Int) < 256)
    simp
    omega
  | label name | expr e =>
    refine .of_bound ?_ (by simp [Imm.negate, Imm.negate.deferred])
    simpa [Imm.negate, Imm.negate.deferred, Imm.labels, Expr.labels] using h.bound

/-- Whatever is given is sound, two's complements included. -/
theorem Gives.sound {sub : Prop} {v : Imm × Option Nat} (h : env.Gives sub v) :
    SoundValue env.names v := by
  cases h with
  | operand h => exact operand_sound hnames h
  | negated _ h => exact negate_sound (imm_sound hnames h)
  | asserted h => exact ⟨calcImm_bound hnames h, by simp⟩

theorem GivesLeaf.sound {sub : Prop} {l : Leaf} (h : env.GivesLeaf sub l) : SoundLeaf env.names l :=
  ⟨fun v hv => (h.values v hv).sound hnames, h.shape⟩

theorem condition_sound {c : Condition} {cond : Cond} (h : env.condition c = .ok cond) :
    SoundCond env.names cond :=
  fun v hv => (condition_gives h v hv).sound hnames

/-- A declaration binds a calc name only to what mentions labels. -/
theorem declaration_bound {decl : Declaration} {name : Token} {e : Expr} {depth : Nat}
    (h : env.declaration decl = .ok (name, .calcName e depth)) :
    ∀ label ∈ e.labels, env.names.isLabel label = true := by
  rcases declaration_eq_ok h with hplain | ⟨expr, e', depth', heq, he⟩
  · simp [Binding.kind] at hplain
  · obtain ⟨rfl, rfl⟩ := Binding.calcName.inj heq
    exact bounded_bound hnames he

end Bound

/-- A simple statement declares nothing. -/
theorem simple_declares {st : Simple} {token : Token} {l : Leaf}
    (h : env.simple st = .ok (token, l)) : l.declares = none := by
  cases l with
  | label name => cases st <;> simp [simple, bind_eq_ok, -bind_pure_comp] at h
  | nextLabel name => cases st <;> simp [simple, bind_eq_ok, -bind_pure_comp] at h
  | _ => rfl

/-- Outside of expansions a declared name is the one that is written. -/
theorem declaredName_text {names : NameTable} {token name : Token}
    (h : Env.declaredName ⟨names, []⟩ token = .ok name) : name.text = token.text := by
  obtain ⟨t, ht, h⟩ := bind_eq_ok.mp h
  have htext : t.text = token.text := by
    simp only [substitute, Scope.substitute] at ht
    split at ht
    · rename_i t' ht'
      obtain rfl := Except.ok.inj ht
      split at ht'
      · simp only [Token.reserved] at ht'
        split at ht'
        · obtain rfl := Except.ok.inj ht'; rfl
        · obtain rfl := Except.ok.inj ht'; rfl
        · cases ht'
      · obtain rfl := Except.ok.inj ht'; rfl
    · cases ht
  split at h
  · obtain rfl := pure_eq_ok.mp h
    exact htext
  · cases h

end Env

end OctoAsm
