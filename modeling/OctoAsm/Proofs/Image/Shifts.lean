/-
  Shifts in calc expressions.

  A shift is meant to move its operand by 0 to 63 places, and to leave nothing for any other count
  (`Shift.Law`).  The count is a signed 64-bit integer, but what a shift looks at is the low 32 bits
  of it, and they are cut off before the number of places is tested.  So the law holds with the low
  bits in place of the count (`Shift.law_low`): a count that is too large, or negative, leaves nothing
  only if its low bits are too many places as well, and else it acts like a small one
  (`Shift.law_iff`).  A shift by `2^32` places is a shift by none.

  It makes no difference when a shift is done.  Folding applies the same operator to two numbers that
  the evaluation of an expression applies to two values, and a value between braces is the shift of
  its operands as they are written, whatever part of them was folded (`shift_counts_cut`).
-/
import OctoAsm.Proofs.Image.Subtraction
import OctoAsm.Proofs.Resolve.Folding

namespace OctoAsm

namespace Calc

/-! ## The law of shifts -/

/-- The two shifts. -/
inductive Shift where
  | left
  | right
deriving DecidableEq, Repr

namespace Shift

/-- The operator of a shift. -/
def op : Shift → BinaryOp
  | left => .shl
  | right => .shr

/-- What the operator does to integers. -/
def apply : Shift → ℤ → ℤ → ℤ
  | left => shiftLeft
  | right => shiftRight

/-- `n` is `a` moved by `c` places.  To the left that is the signed 64-bit integer which differs from
    `a · 2^c` by a multiple of `2^64`; to the right it is the quotient by `2^c`, rounded down. -/
def Moves : Shift → ℤ → ℕ → ℤ → Prop
  | left, a, c, n => (int64Min ≤ n ∧ n ≤ int64Max) ∧ n ≡ a * 2 ^ c [ZMOD 2 ^ 64]
  | right, a, c, n => n = ⌊(a : ℚ) / 2 ^ c⌋

/-- What `a` shifted by `count` places is meant to be. -/
inductive Law (s : Shift) (a count n : ℤ) : Prop where
  | within (hlo : 0 ≤ count) (hhi : count ≤ 63) (h : s.Moves a count.toNat n)
  /-- nothing is left, however large the count is, on either side -/
  | beyond (hcount : count < 0 ∨ 64 ≤ count) (h : n = 0)

variable {s : Shift} {a count n m : ℤ}

/-- A number of places leaves one integer. -/
theorem Moves.unique {c : ℕ} (h : s.Moves a c n) (h' : s.Moves a c m) : n = m := by
  cases s with
  | left =>
    obtain ⟨hn, hmod⟩ := h
    obtain ⟨hm, hmod'⟩ := h'
    have hsame : n % 2 ^ 64 = m % 2 ^ 64 := hmod.trans hmod'.symm
    unfold int64Min int64Max at hn hm
    omega
  | right => exact h.trans h'.symm

theorem Law.moves (h : s.Law a count n) (hlo : 0 ≤ count) (hhi : count ≤ 63) :
    s.Moves a count.toNat n := by
  cases h with
  | within _ _ h => exact h
  | beyond hcount => omega

theorem Law.eq_zero (h : s.Law a count n) (hcount : count < 0 ∨ 64 ≤ count) : n = 0 := by
  cases h with
  | within => omega
  | beyond _ h => exact h

/-- The law leaves no choice. -/
theorem Law.unique (h : s.Law a count n) (h' : s.Law a count m) : n = m := by
  cases h with
  | within hlo hhi h => exact h.unique (h'.moves hlo hhi)
  | beyond hcount h => rw [h, h'.eq_zero hcount]

/-! ## Counts are cut -/

theorem shiftCount_eq (count : ℤ) : (shiftCount count : ℤ) = count % 2 ^ 32 := by
  unfold shiftCount
  omega

theorem moves_apply (s : Shift) (a : ℤ) (h : shiftCount count < 64) :
    s.Moves a (shiftCount count) (s.apply a count) := by
  cases s with
  | left =>
    have hword : shiftLeft a count = Int.bmod (a * 2 ^ shiftCount count) (2 ^ 64) := if_pos h
    have hlo := Int.le_bmod (x := a * 2 ^ shiftCount count) (m := 2 ^ 64) (by decide)
    have hhi := Int.bmod_lt (x := a * 2 ^ shiftCount count) (m := 2 ^ 64) (by decide)
    rw [apply, hword]
    exact ⟨by unfold int64Min int64Max; omega, Int.bmod_emod⟩
  | right =>
    have hquotient : shiftRight a count = a / (2 ^ shiftCount count : ℕ) := if_pos h
    have hfloor := Rat.floor_intCast_div_natCast a (2 ^ shiftCount count)
    rw [Moves, apply, hquotient, ← hfloor]
    push_cast
    rfl

theorem apply_eq_zero (s : Shift) (a : ℤ) (h : 64 ≤ shiftCount count) : s.apply a count = 0 := by
  cases s <;> exact if_neg (by omega)

/-- **A shift obeys the law for the low 32 bits of its count.** -/
theorem law_low (s : Shift) (a count : ℤ) : s.Law a (count % 2 ^ 32) (s.apply a count) := by
  have hcount := shiftCount_eq count
  rw [← hcount]
  by_cases h : shiftCount count < 64
  · exact .within (by omega) (by omega) (moves_apply s a h)
  · exact .beyond (by omega) (apply_eq_zero s a (by omega))

theorem apply_eq_iff (s : Shift) (a count n : ℤ) :
    s.apply a count = n ↔ s.Law a (count % 2 ^ 32) n :=
  ⟨fun h => h ▸ law_low s a count, (law_low s a count).unique⟩

/-- Something is left of `-1`, however far it is moved. -/
theorem not_moves_zero (s : Shift) {c : ℕ} (hc : c ≤ 63) : ¬ s.Moves (-1) c 0 := by
  cases s with
  | left =>
    rintro ⟨-, h⟩
    have hdvd : (2 : ℤ) ^ 64 ∣ 2 ^ c := by
      have := h.symm.dvd
      simpa using this
    have hle := Int.le_of_dvd (by positivity) hdvd
    have hlt : (2 : ℤ) ^ c < 2 ^ 64 := pow_lt_pow_right₀ (by norm_num) (by omega)
    omega
  | right =>
    intro h
    have hneg : ((-1 : ℤ) : ℚ) / 2 ^ c < 0 := by
      rw [div_neg_iff]
      exact .inr ⟨by norm_num, by positivity⟩
    have hfloor : ⌊((-1 : ℤ) : ℚ) / 2 ^ c⌋ < 0 := Int.floor_lt.mpr (by exact_mod_cast hneg)
    rw [Moves] at h
    omega

/-- **The law holds of a count** that is a number of places, or has too many in its low bits; of any
    other count it fails. -/
theorem law_iff (s : Shift) (count : ℤ) :
    (∀ x : Float, s.Law (truncate x) count (s.apply (truncate x) count)) ↔
      (0 ≤ count ∧ count ≤ 63) ∨ 64 ≤ count % 2 ^ 32 := by
  constructor
  · intro h
    by_contra hcount
    -- such a count moves -1 by its low bits, where the law leaves nothing
    have hminus : truncate (-1.0) = -1 := by decide
    have hlaw := h (-1.0)
    have hlow := (law_low s (truncate (-1.0)) count).moves (by omega) (by omega)
    rw [hlaw.eq_zero (by omega), hminus] at hlow
    exact not_moves_zero s (by omega) hlow
  · rintro (⟨hlo, hhi⟩ | hlarge) x
    · have hlow := law_low s (truncate x) count
      rwa [Int.emod_eq_of_lt hlo (by omega)] at hlow
    · have hzero := (law_low s (truncate x) count).eq_zero (.inr hlarge)
      exact .beyond (by omega) hzero

/-- Numbers are truncated, and the result is a number again. -/
theorem op_apply (s : Shift) (x y : Float) :
    s.op.apply x y = Float.ofInt (s.apply (truncate x) (truncate y)) := by
  cases s <;> rfl

end Shift

end Calc

open Calc (Shift truncate)

/-! ## Shifts in expressions -/

theorem Expr.eval_shift (s : Shift) (e f : Expr) (address : String → Float) :
    (Expr.binary s.op e f).eval address =
      Float.ofInt (s.apply (truncate (e.eval address)) (truncate (f.eval address))) :=
  s.op_apply _ _

namespace Env

variable {env : Env} {token : Token} {left right : CalcExpr}

theorem written_binary {op : Calc.BinaryOp} {e : Expr}
    (h : env.written (.binary token op left right) = some e) :
    ∃ p q, env.written left = some p ∧ env.written right = some q ∧ e = .binary op p q := by
  obtain ⟨p, hp, h⟩ := Option.bind_eq_some_iff.mp h
  obtain ⟨q, hq, h⟩ := Option.bind_eq_some_iff.mp h
  exact ⟨p, q, hp, hq, (Option.some.inj h).symm⟩

/-- Two numbers are shifted at once. -/
theorem fold_shift (s : Shift) (token : Token) {x y : Float} {i j : ℕ}
    (hleft : env.fold left = .ok (.number x, i)) (hright : env.fold right = .ok (.number y, j)) :
    env.fold (.binary token s.op left right) =
      .ok (.number (Float.ofInt (s.apply (truncate x) (truncate y))), 0) := by
  rw [fold, hleft, ok_bind, hright, ok_bind, ← s.op_apply]
  rfl

end Env

namespace Run

variable {run : Run} {d : Draft} {token : Token} {e : Expr} {v : Imm} {n : ℤ}

/-- The value of an expression is the same whether it is known before the emission or not. -/
theorem eval_immOf (h : Env.immOf token e = .ok v) (hn : Calc.toInt? (run.valueAt d e) = some n) :
    run.eval d v = .ok n := by
  cases e with
  | number x =>
    replace hn : Calc.toInt? x = some n := hn
    simp only [Env.immOf, hn] at h
    obtain rfl := Except.ok.inj h
    rfl
  | address _ | unary _ _ | binary _ _ _ =>
    obtain rfl := Except.ok.inj h
    rw [valueAt] at hn
    simp only [eval, hn]

end Run

/-- Shifts in calc expressions, wherever they are calculated. -/
structure ShiftCountsCut (s : Shift) : Prop where
  /-- the analysis shifts the integers that two numbers are truncated to -/
  folded : ∀ (env : Env) token left right x y i j,
    env.fold left = .ok (.number x, i) → env.fold right = .ok (.number y, j) →
    env.fold (.binary token s.op left right) =
      .ok (.number (Float.ofInt (s.apply (truncate x) (truncate y))), 0)
  /-- the emission shifts the integers that two values are truncated to -/
  evaluated : ∀ e f address, (Expr.binary s.op e f).eval address =
    Float.ofInt (s.apply (truncate (e.eval address)) (truncate (f.eval address)))
  /-- a value between braces is the shift of its operands as they are written, if 53 bits hold it,
      whatever part of it is folded -/
  braced : ∀ (env : Env) token left right v,
    env.calcImm (.binary token s.op left right) = .ok v →
    ∃ p q, env.written left = some p ∧ env.written right = some q ∧ ∀ (run : Run) (d : Draft) n,
      n = s.apply (truncate (run.valueAt d p)) (truncate (run.valueAt d q)) →
      n.natAbs < 2 ^ 53 → run.eval d v = .ok n
  /-- integers are shifted as the law has it for the low 32 bits of the count -/
  low : ∀ a count n, s.apply a count = n ↔ s.Law a (count % 2 ^ 32) n
  /-- so the law of shifts holds of a count that is a number of places, or has too many in its low
      bits, and of no other -/
  law : ∀ y, (∀ x, s.Law (truncate x) (truncate y) (s.apply (truncate x) (truncate y))) ↔
    (0 ≤ truncate y ∧ truncate y ≤ 63) ∨ 64 ≤ truncate y % 2 ^ 32

/-- **Shifts look at the low 32 bits of their count**, in the analysis and in the emission. Both
    apply one operation to two numbers; of these the second is cut to 32 bits before it is compared
    with the width, so a multiple of `2 ^ 32` in the count is never seen. -/
theorem shift_counts_cut (s : Shift) : ShiftCountsCut s where
  folded env token left right x y i j hleft hright := Env.fold_shift s token hleft hright
  evaluated e f address := Expr.eval_shift s e f address
  braced env token left right v h := by
    obtain ⟨r, hbounded, himm⟩ := bind_eq_ok.mp h
    obtain ⟨hfold, -⟩ := bounded_eq_ok.mp hbounded
    obtain ⟨e, he, hcalc⟩ := Env.fold_eq_ok hfold
    obtain ⟨p, q, hp, hq, rfl⟩ := Env.written_binary he
    refine ⟨p, q, hp, hq, fun run d n hn hsmall => Run.eval_immOf himm ?_⟩
    have hvalue : run.valueAt d r.1 = Float.ofInt n := by
      rw [hn, Run.valueAt, hcalc.eval, Expr.eval_shift]
      rfl
    rw [hvalue]
    exact Calc.toInt?_ofInt hsmall
  low := s.apply_eq_iff
  law y := s.law_iff (truncate y)

/-- Shifts by `2^32` and by `2^32 + 8` places: `1 << 4294967296` is folded to 1, and
    `( @ main ) >> 4294967304` is 2 once `main` has the address 512.  The law says 0 for both. -/
theorem shift_counts_cut_wrapping :
    let token : Token := ⟨2, .name, "main"⟩
    let late : Env := ⟨[("main", .label false)], []⟩
    Env.fold ⟨[], []⟩ (.binary token .shl (.number token 1) (.number token 4294967296)) =
        .ok (.number (Float.ofInt 1), 0) ∧
      (∀ n, Shift.Law .left 1 4294967296 n → n = 0) ∧
      (∃ v, late.calcImm (.binary token .shr (.unary token .addressOf (.name token))
          (.number token 4294967304)) = .ok v ∧
        Run.eval ⟨{}, .emit⟩ ⟨#[], [("main", [512])], [], []⟩ v = .ok 2) ∧
      ∀ n, Shift.Law .right 512 4294967304 n → n = 0 := by
  intro token late
  refine ⟨?_, fun n h => h.eq_zero (by decide), ⟨_, rfl, ?_⟩, fun n h => h.eq_zero (by decide)⟩
  · have hshift : Shift.left.apply (truncate 1) (truncate 4294967296) = 1 := by decide
    have hfold := (shift_counts_cut .left).folded ⟨[], []⟩ token (.number token 1)
      (.number token 4294967296) 1 4294967296 0 0 rfl rfl
    rwa [hshift] at hfold
  · obtain ⟨p, q, hp, hq, heval⟩ := (shift_counts_cut .right).braced late token
      (.unary token .addressOf (.name token)) (.number token 4294967304) _ rfl
    obtain rfl : Expr.address "main" = p := Option.some.inj hp
    obtain rfl : Expr.number 4294967304 = q := Option.some.inj hq
    have hoperand : truncate (Run.valueAt ⟨{}, .emit⟩ ⟨#[], [("main", [512])], [], []⟩
        (.address "main")) = 512 := by decide
    have hcount : truncate (Run.valueAt ⟨{}, .emit⟩ ⟨#[], [("main", [512])], [], []⟩
        (.number 4294967304)) = 4294967304 := by decide
    refine heval _ _ 2 ?_ (by decide)
    rw [hoperand, hcount]
    decide

end OctoAsm
