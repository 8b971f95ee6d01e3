/-
  Subtracting a value that waits for labels.

  `vx -= name` adds the two's complement of a byte.  A number that is known when the statement is
  resolved must fit eight bits before it is negated.  What waits for labels is negated as the
  expression `(256 - e) & 255`, and the conjunction brings whatever `e` turns out to be into the
  range of a byte, before the emission checks anything.  So the two ways come apart in two places: a
  late value that does not fit is accepted, and one that is no integer is rounded up where a known
  one is rounded down, since it is `256 - e` that is rounded.  They agree on the integers that fit,
  and on nothing else (`late_subtraction_wraps`).

  A late value is a binary64 number `x`; what is said of its value holds whenever the difference
  `256 - x` is exact, which for integers is no condition.
-/
import OctoAsm.Proofs.Calc.Exact
import OctoAsm.Proofs.Image.Disassembly

namespace OctoAsm

open Machine (Word encode encode_addi)

/-! ## The complement as a number -/

namespace Calc

variable {x : Float} {q : ℚ}

/-- A conjunction with 255 takes the low eight bits of the integer part. -/
theorem and_255 (x : Float) : BinaryOp.and.apply x 255.0 = Float.ofInt (truncate x % 256) := by
  have h255 : truncate 255.0 = 255 := by decide
  rw [BinaryOp.apply, onIntegers, h255, bitAnd_255]

theorem value?_256 : value? 256.0 = some 256 := by
  have h : shape 256.0 = .finite false (2 ^ 52) (-44) := by decide
  rw [value?, h, Shape.value?]
  norm_num

/-- Where the difference is exact, its integer part is that of the rational number. -/
theorem truncate_complement (hx : value? x = some q) (hform : HasForm (256 - q)) :
    truncate (256.0 - x) = clamp (towardZero (256 - q)) :=
  truncate_of_value? (value?_sub value?_256 hx hform)

/-- A number fits a byte when it is one, with a sign or without. -/
theorem fits_byte {n : ℤ} : fits n 8 = true ↔ -128 ≤ n ∧ n ≤ 255 := by
  have h : fits n 8 = (decide (-128 ≤ n) && decide (n < 256)) := rfl
  simp only [h, Bool.and_eq_true, decide_eq_true_eq]
  omega

theorem clamp_of_small {n : ℤ} (h : n.natAbs < 2 ^ 53) : clamp n = n := by
  unfold clamp int64Min int64Max
  omega

/-- The complement of a value that fits is rounded down, so the value is rounded up. -/
theorem truncate_complement_of_fits (hx : value? x = some q) (hform : HasForm (256 - q))
    (hfits : fits ⌊q⌋ 8 = true) : truncate (256.0 - x) = 256 - ⌈q⌉ := by
  obtain ⟨hlow, hhigh⟩ := fits_byte.mp hfits
  have hlt : q < 256 := by
    have := Int.lt_floor_add_one q
    have : ((⌊q⌋ : ℤ) : ℚ) ≤ 255 := by exact_mod_cast hhigh
    linarith
  have hceil : ⌈q⌉ ≤ 256 := Int.ceil_le.mpr (by exact_mod_cast hlt.le)
  have hfloor : ⌊q⌋ ≤ ⌈q⌉ := Int.floor_le_ceil q
  have hround : towardZero (256 - q) = 256 - ⌈q⌉ := by
    rw [towardZero, if_neg (by linarith), sub_eq_add_neg]
    have := Int.floor_intCast_add 256 (-q)
    push_cast at this
    rw [this, Int.floor_neg, ← sub_eq_add_neg]
  rw [truncate_complement hx hform, hround, clamp_of_small (by omega)]

/-- For integers the difference is exact as long as they are small. -/
theorem truncate_complement_of_integer {n : ℤ} (hx : value? x = some (n : ℚ))
    (hn : n.natAbs < 2 ^ 52) : truncate (256.0 - x) = 256 - n := by
  have hsmall : (256 - n).natAbs < 2 ^ 53 := by omega
  have hcast : (256 : ℚ) - n = ((256 - n : ℤ) : ℚ) := by push_cast; ring
  have hround : towardZero ((256 - n : ℤ) : ℚ) = 256 - n := by
    unfold towardZero
    split
    · rw [Int.ceil_intCast]
    · rw [Int.floor_intCast]
  have hform : HasForm (256 - (n : ℚ)) := hcast ▸ hasForm_intCast hsmall
  rw [truncate_complement hx hform, hcast, hround, clamp_of_small hsmall]

end Calc

/-! ## The statement -/

/-- `vx -= name` -/
def subtraction (token : Token) (dst : RegRef) (name : Token) : Simple :=
  .assign (.ambiguous token dst .sub name)

/-- The expression of a value that waits for labels. -/
def Imm.late? : Imm → Option Expr
  | .number _ => none
  | .label name => some (.address name)
  | .expr e => some e

/-- What waits for labels is negated as an expression. -/
theorem Imm.negate_of_late? {v : Imm} {e : Expr} (h : v.late? = some e) :
    v.negate = Imm.negate.deferred e := by
  cases v with
  | number n => cases h
  | label name => exact Option.some.inj h ▸ rfl
  | expr e => exact Option.some.inj h ▸ rfl

namespace Env

variable {env : Env} {token name : Token} {dst : RegRef} {r : Fin 16} {v : Imm}

/-- What stands for a value stands for no register. -/
theorem register?_of_value (h : env.value (.named name) = .ok v) :
    env.register? name = .ok none := by
  obtain ⟨t, ht, h⟩ := bind_eq_ok.mp h
  have hnone : env.registerOf? t = none := by
    unfold registerOf?
    split at h
    · rename_i hkind; rw [hkind]
    · cases h
    · rename_i hkind
      rw [hkind]
      cases hget : env.names.get? t.text with
      | none => rfl
      | some b => cases b <;> simp_all [Binding.register?]
    · cases h
  rw [register?, ht, ok_bind, hnone]
  rfl

/-- The value of a subtraction is checked like that of any other assignment, then negated. -/
theorem simple_subtraction (hdst : env.register dst = .ok r)
    (hvalue : env.value (.named name) = .ok v) :
    env.simple (subtraction token dst name) =
      (inRange name 8 v).map fun v => (token, .instr (.regImm .addi r v.negate)) := by
  have hsource : env.assignment (.ambiguous token dst .sub name) =
      (inRange name 8 v).map fun v => (token, .regImm .addi r v.negate) := by
    simp only [assignment, hdst, ok_bind, register?_of_value hvalue, imm, hvalue, ValueRef.token]
    cases inRange name 8 v <;> rfl
  rw [subtraction, simple, hsource]
  cases inRange name 8 v <;> rfl

end Env

/-! ## Its word -/

/-- The word that adds `k` to a register; of `k` only the low eight bits count. -/
def addWord (r : Fin 16) (k : ℤ) : Word := UInt16.ofNat (0x7000 + r.val * 0x100 + Run.lowBits k 8)

/-- Two additions are the same word when they add the same byte. -/
theorem addWord_eq_iff {r : Fin 16} {a b : ℤ} : addWord r a = addWord r b ↔ a % 256 = b % 256 := by
  have hr := r.isLt
  have ha := Run.lowBits_eq a 8
  have hb := Run.lowBits_eq b 8
  have ha' := Run.lowBits_lt a 8
  have hb' := Run.lowBits_lt b 8
  rw [addWord, addWord, ← UInt16.toNat_inj, UInt16.toNat_ofNat', UInt16.toNat_ofNat']
  omega

namespace Run

variable {run : Run} {d : Draft} {r : Fin 16} {v : Imm} {n : ℤ}

/-- The word of an instruction. -/
def instrWord (run : Run) (d : Draft) (i : Instr) : Except EmitCause Word := do
  let (m, operands) ← run.instrCode d i
  encoded m operands

theorem leaf_instr (run : Run) (d : Draft) (i : Instr) :
    run.leaf d (.instr i) = (do run.word d (← run.instrWord d i)) := by
  simp only [leaf, instrWord, op, bind_assoc]

/-- The word of an addition holds the low byte of what is added. -/
theorem encode_adding (r : Fin 16) (n : ℤ) :
    encode .addi [regWord r, UInt16.ofNat (lowBits n 8)] = .ok (addWord r n) := by
  have hr := r.isLt
  have hlow := lowBits_lt n 8
  have hregister : (regWord r).toNat = r.val :=
    UInt16.toNat_ofNat_of_lt' (by show r.val < 65536; omega)
  have hbyte : (UInt16.ofNat (lowBits n 8)).toNat = lowBits n 8 :=
    UInt16.toNat_ofNat_of_lt' (by show lowBits n 8 < 65536; omega)
  rw [encode_addi (fitsField_regWord r) (fitsField_ofNat hlow), hregister, hbyte]
  rfl

/-- A value that fits is added as it is. -/
theorem instrWord_addi (heval : run.eval d v = .ok n) (hfits : Calc.fits n 8 = true) :
    run.instrWord d (.regImm .addi r v) = .ok (addWord r n) := by
  have hfield : run.imm d v 8 = .ok (UInt16.ofNat (lowBits n 8)) := by
    rw [imm, heval, ok_bind, field, if_neg (by simp [hfits])]
  rw [instrWord, instrCode, hfield]
  show (encode .addi [regWord r, UInt16.ofNat (lowBits n 8)]).mapError EmitCause.encode = _
  rw [encode_adding]
  rfl

/-- The value of an expression at a draft. -/
def valueAt (run : Run) (d : Draft) (e : Expr) : Float :=
  e.eval fun label => Float.ofNat ((run.address? d label).getD 0)

/-- A label stands for its address. -/
theorem value?_address {label : String} {a : ℕ} (h : run.address? d label = some a)
    (ha : a < 2 ^ 53) : Calc.value? (run.valueAt d (.address label)) = some ((a : ℤ) : ℚ) := by
  rw [valueAt, Expr.eval, h]
  exact Calc.value?_ofNat ha

/-- Whatever an expression comes to, its complement is a byte. -/
theorem eval_deferred (run : Run) (d : Draft) (e : Expr) :
    run.eval d (Imm.negate.deferred e) = .ok (Calc.truncate (256.0 - run.valueAt d e) % 256) := by
  have hvalue : (Expr.binary .and (.binary .sub (.number 256.0) e) (.number 255.0)).eval
      (fun label => Float.ofNat ((run.address? d label).getD 0)) =
      Float.ofInt (Calc.truncate (256.0 - run.valueAt d e) % 256) := Calc.and_255 _
  have hread := Calc.toInt?_ofInt (n := Calc.truncate (256.0 - run.valueAt d e) % 256) (by omega)
  simp only [Imm.negate.deferred, eval, hvalue, hread]

end Run

/-! ## Known and late values -/

/-- The word of a subtraction `i` from the register `r`, when the value turns out to be `x`. -/
structure Wraps (run : Run) (d : Draft) (r : Fin 16) (i : Instr) (x : Float) : Prop where
  /-- whatever `x` is, even no number at all, there is a word -/
  word : run.instrWord d i = .ok (addWord r (Calc.truncate (256.0 - x)))
  /-- no range is checked: the only way to fail is that there is no room for the word -/
  unchecked : ∀ cause, run.leaf d (.instr i) = .error cause →
    cause = .programTooLarge run.options.memoryEnd
  /-- integers are subtracted modulo 256 -/
  whole : ∀ n : ℤ, Calc.value? x = some (n : ℚ) → n.natAbs < 2 ^ 52 →
    run.instrWord d i = .ok (addWord r (-n))
  /-- other values are rounded up -/
  up : ∀ q, Calc.value? x = some q → Calc.HasForm (256 - q) → Calc.fits ⌊q⌋ 8 = true →
    run.instrWord d i = .ok (addWord r (-⌈q⌉))
  /-- rounded down, they would be another word -/
  down : ∀ q, Calc.value? x = some q → Calc.HasForm (256 - q) → Calc.fits ⌊q⌋ 8 = true →
    (run.instrWord d i = .ok (addWord r (-⌊q⌋)) ↔ q = ⌊q⌋)

/-- What becomes of `vx -= name`, where `vx` is the register `r`. -/
structure Subtracts (env : Env) (token : Token) (dst : RegRef) (name : Token) (r : Fin 16) :
    Prop where
  /-- a known number must fit eight bits, and then its complement is added -/
  known : ∀ n, env.value (.named name) = .ok (.number n) →
    if Calc.fits n 8 then
      ∃ i, env.simple (subtraction token dst name) = .ok (token, .instr i) ∧
        ∀ (run : Run) (d : Draft), run.instrWord d i = .ok (addWord r (-n))
    else env.simple (subtraction token dst name) = .error (name.blame (.outOfRange n 8))
  /-- a late value is accepted, and wraps -/
  late : ∀ v e, env.value (.named name) = .ok v → v.late? = some e →
    ∃ i, env.simple (subtraction token dst name) = .ok (token, .instr i) ∧
      ∀ (run : Run) (d : Draft), Wraps run d r i (run.valueAt d e)

section

variable {run : Run} {d : Draft} {r : Fin 16} {e : Expr}

/-- A known value is negated before it is encoded. -/
theorem instrWord_known {n : ℤ} :
    run.instrWord d (.regImm .addi r (.number ((256 - n % 256) % 256))) =
      .ok (addWord r (-n)) := by
  rw [Run.instrWord_addi rfl (Calc.fits_byte.mpr (by omega)), addWord_eq_iff.mpr]
  omega

/-- A late value is negated while it is evaluated, and only its low byte is looked at. -/
theorem wraps_deferred :
    Wraps run d r (.regImm .addi r (Imm.negate.deferred e)) (run.valueAt d e) := by
  set x := run.valueAt d e with hx
  have hword : run.instrWord d (.regImm .addi r (Imm.negate.deferred e)) =
      .ok (addWord r (Calc.truncate (256.0 - x))) := by
    rw [Run.instrWord_addi (Run.eval_deferred run d e) (Calc.fits_byte.mpr (by omega)),
      addWord_eq_iff.mpr (Int.emod_emod_of_dvd _ (dvd_refl 256))]
  have hup : ∀ q, Calc.value? x = some q → Calc.HasForm (256 - q) → Calc.fits ⌊q⌋ 8 = true →
      run.instrWord d (.regImm .addi r (Imm.negate.deferred e)) = .ok (addWord r (-⌈q⌉)) := by
    intro q hq hform hfits
    rw [hword, Calc.truncate_complement_of_fits hq hform hfits, addWord_eq_iff.mpr]
    omega
  refine ⟨hword, ?_, ?_, hup, ?_⟩
  · intro cause h
    rw [Run.leaf_instr, hword] at h
    exact Run.word_error h
  · intro n hn hsmall
    rw [hword, Calc.truncate_complement_of_integer hn hsmall, addWord_eq_iff.mpr]
    omega
  · intro q hq hform hfits
    rw [hup q hq hform hfits, Except.ok.injEq, addWord_eq_iff]
    have hfloor := Int.floor_le_ceil q
    have hceil := Int.ceil_le_floor_add_one q
    constructor
    · intro h
      have hsame : ⌈q⌉ = ⌊q⌋ := by omega
      exact le_antisymm (hsame ▸ Int.le_ceil q) (Int.floor_le q)
    · intro h
      rw [h, Int.ceil_intCast, Int.floor_intCast]

end

/-- **A late subtraction wraps around.** Subtraction of a known number and of a late value agree on
    the integers from -128 to 255 and nowhere else: the conjunction with 255 that negates a late
    value takes it modulo 256 before anything checks it, and the difference from 256 is rounded,
    not the value. -/
theorem late_subtraction_wraps {env : Env} {token name : Token} {dst : RegRef} {r : Fin 16}
    (hdst : env.register dst = .ok r) : Subtracts env token dst name r where
  known n hvalue := by
    rw [Env.simple_subtraction hdst hvalue, Env.inRange]
    split
    · exact ⟨_, rfl, fun run d => instrWord_known⟩
    · rfl
  late v e hvalue hlate := by
    have hchecked : Env.inRange name 8 v = .ok v := by
      cases v with
      | number n => cases hlate
      | label _ | expr _ => rfl
    rw [Env.simple_subtraction hdst hvalue, hchecked]
    refine ⟨_, rfl, fun run d => ?_⟩
    rw [Imm.negate_of_late? hlate]
    exact wraps_deferred

/-- A label at 0x200, which fits no byte, is subtracted modulo 256; the number 0x200 is refused. -/
theorem late_subtraction_wraps_label :
    let vx : Token := ⟨2, .register (.v 0), "v0"⟩
    let main : Token := ⟨2, .name, "main"⟩
    let known : Env := ⟨[("main", .const 0x200)], []⟩
    let late : Env := ⟨[("main", .label false)], []⟩
    known.register (.literal vx 0) = .ok 0 ∧ late.register (.literal vx 0) = .ok 0 ∧
      known.simple (subtraction vx (.literal vx 0) main) =
        .error (main.blame (.outOfRange 0x200 8)) ∧
      ∃ i, late.simple (subtraction vx (.literal vx 0) main) = .ok (vx, .instr i) ∧
        Run.instrWord ⟨{}, .emit⟩ ⟨#[], [("main", [0x200])], [], []⟩ i = .ok 0x7000 := by
  intro vx main known late
  refine ⟨rfl, rfl, ?_, ?_⟩
  · exact (@late_subtraction_wraps known vx main (.literal vx 0) 0 rfl).known 0x200 rfl
  · obtain ⟨i, hi, hwraps⟩ := (@late_subtraction_wraps late vx main (.literal vx 0) 0 rfl).late
      (.label "main") (.address "main") rfl rfl
    refine ⟨i, hi, ?_⟩
    have haddress : Run.address? ⟨{}, .emit⟩ ⟨#[], [("main", [0x200])], [], []⟩ "main" =
        some 0x200 := by decide
    exact (hwraps _ _).whole 0x200 (Run.value?_address haddress (by decide)) (by decide)

end OctoAsm
