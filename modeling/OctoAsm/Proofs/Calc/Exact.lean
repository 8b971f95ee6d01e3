/-
  Arithmetic on binary64 numbers that does not round.

  A finite number stands for a rational number, its value (`value?`).  Operations round the exact
  result, and rounding looks at nothing but the value: the exponent it aims for is the same for
  every way of writing the value as `m · 2^e`, and a value that takes at most 53 bits is written
  with that exponent without a loss (`round_exact`).  So a difference of such a value is exact
  (`value?_sub`), and so is every integer of at most 53 bits (`value?_ofInt`).

  An unpacked number has many forms; the one that rounding ends in, and the only one that bits can
  spell, is the canonical one (`Canonical`).  The last section reads integers off values: rounding
  down and rounding toward zero are those of the rational numbers.
-/
import OctoAsm.Calc.Arithmetic
import Mathlib

namespace OctoAsm.Calc

open Float.Model (UnpackedFloat totalExponent)
open Float.Model.Format (binary64)
open Float.Model.UnpackedFloat

variable {m : ℕ} {e : ℤ} {x y : Float} {p q : ℚ}

/-! ## Values -/

/-- The rational number that a shape stands for, if it is finite. -/
def Shape.value? : Shape → Option ℚ
  | .finite neg m e => some ((if neg then -1 else 1) * (m * 2 ^ e))
  | _ => none

/-- The rational number that a binary64 number stands for, if it is finite. -/
def value? (x : Float) : Option ℚ := (shape x).value?

/-- Some binary64 number has this value: 53 bits at an exponent in its range. -/
def HasForm (q : ℚ) : Prop :=
  ∃ (m : ℕ) (e : ℤ), m < 2 ^ 53 ∧ -1074 ≤ e ∧ e ≤ 971 ∧ |q| = m * 2 ^ e

/-- An integer below `2^53` takes no more bits than there are. -/
theorem hasForm_intCast {n : ℤ} (hn : n.natAbs < 2 ^ 53) : HasForm n :=
  ⟨n.natAbs, 0, hn, by decide, by decide, by simp⟩

/-! ## Bits and unpacked numbers -/

/-- The shape of an unpacked number. -/
def shapeOf : UnpackedFloat → Shape
  | .notANumber => .nan
  | .infinity s => .infinite (s == .negative)
  | .zero s => .finite (s == .negative) 0 (-1074)
  | .finite s m e _ => .finite (s == .negative) m e

/-- The fraction stands in the low 52 bits. -/
theorem toNat_unpackMantissa (b : BitVec binary64.numBits) :
    (@unpackMantissa binary64 b).toNat = b.toNat % 2 ^ 52 := by
  simp [unpackMantissa]

/-- The exponent stands in the eleven bits above the fraction. -/
theorem toNat_unpackExponent (b : BitVec binary64.numBits) :
    (@unpackExponent binary64 b).toNat = b.toNat / 2 ^ 52 % 2 ^ 11 := by
  simp [unpackExponent, Nat.shiftRight_eq_div_pow]

/-- The sign is the topmost bit. -/
theorem toNat_unpackSign (b : BitVec binary64.numBits) :
    (@unpackSign binary64 b).toNat = b.toNat / 2 ^ 63 := by
  have hb : b.toNat < 2 ^ 64 := b.isLt
  simp [unpackSign, Nat.shiftRight_eq_div_pow]
  omega

/-- The sign as a bit of the word. -/
theorem ofBitVec_unpackSign (b : BitVec binary64.numBits) :
    (Sign.ofBitVec (@unpackSign binary64 b) == .negative) = (b.toNat / 2 ^ 63 == 1) := by
  rw [← toNat_unpackSign b]
  have hlt := (@unpackSign binary64 b).isLt
  by_cases h : @unpackSign binary64 b = 0#1
  · rw [h]; rfl
  · have hne : (@unpackSign binary64 b).toNat ≠ 0 := fun e => h (BitVec.eq_of_toNat_eq e)
    have hone : (@unpackSign binary64 b).toNat = 1 := by omega
    rw [Sign.ofBitVec, if_neg h, hone]; rfl

/-- The leading bit of a mantissa that is not stored. -/
theorem toNat_implicit (f : BitVec 52) : (1#1 ++ f).toNat = f.toNat + 2 ^ 52 := by
  rw [BitVec.toNat_append, ← Nat.shiftLeft_add_eq_or_of_lt f.isLt]
  simp [Nat.shiftLeft_eq, Nat.add_comm]

/-- The shape is read off the same fields as the unpacked form. -/
theorem shape_eq (x : Float) : shape x = shapeOf x.toModel.unpack := by
  have hb : x.toBits.toNat = x.toModel.toBits.toBitVec.toNat := rfl
  have hm := toNat_unpackMantissa x.toModel.toBits.toBitVec
  have he := toNat_unpackExponent x.toModel.toBits.toBitVec
  have hs := ofBitVec_unpackSign x.toModel.toBits.toBitVec
  unfold shape Float.Model.unpack unpack
  simp only [hb]
  generalize x.toModel.toBits.toBitVec = b at *
  simp only [show Nat.pow 2 63 = 2 ^ 63 from rfl, show Nat.pow 2 52 = 2 ^ 52 from rfl,
    show Nat.pow 2 11 = 2 ^ 11 from rfl, ← hm, ← he, ← hs]
  generalize Sign.ofBitVec (@unpackSign binary64 b) = sign
  have hones : @unpackExponent binary64 b = -1#_ ↔ _ = 2047 := BitVec.toNat_inj.symm
  have hzeros : @unpackExponent binary64 b = 0#_ ↔ _ = 0 := BitVec.toNat_inj.symm
  have hnone : @unpackMantissa binary64 b = 0#_ ↔ _ = 0 := BitVec.toNat_inj.symm
  by_cases h2047 : (@unpackExponent binary64 b).toNat = 2047
  · rw [if_pos h2047, if_pos (hones.mpr h2047)]
    by_cases h0 : (@unpackMantissa binary64 b).toNat = 0
    · rw [if_pos h0, if_pos (hnone.mpr h0)]; rfl
    · rw [if_neg h0, if_neg (mt hnone.mp h0)]; rfl
  rw [if_neg h2047, if_neg (mt hones.mp h2047)]
  by_cases hsub : (@unpackExponent binary64 b).toNat = 0
  · rw [if_pos hsub, if_pos (hzeros.mpr hsub)]
    by_cases h0 : (@unpackMantissa binary64 b).toNat = 0
    · rw [dif_pos (hnone.mpr h0), h0]; rfl
    · rw [dif_neg (mt hnone.mp h0), hsub]; rfl
  · rw [if_neg hsub, if_neg (mt hzeros.mp hsub)]
    simp only [shapeOf, toNat_implicit]
    rfl

/-! ## The canonical form -/

/-- The form that bits can spell: all 53 bits of the mantissa are in use, or the exponent is the
    least there is. -/
structure Canonical (m : ℕ) (e : ℤ) : Prop where
  pos : 0 < m
  lt : m < 2 ^ 53
  le : -1074 ≤ e
  fits : e ≤ 971
  full : 2 ^ 52 ≤ m ∨ e = -1074

/-- Bits spell canonical forms only: a normal number has its topmost bit set, and a subnormal one
    has the least exponent. -/
theorem canonical_of_shape {neg : Bool} (h : shape x = .finite neg m e) (hm : 0 < m) :
    Canonical m e := by
  simp only [shape, show Nat.pow 2 52 = 2 ^ 52 from rfl, show Nat.pow 2 11 = 2 ^ 11 from rfl] at h
  split at h
  · split at h <;> cases h
  · split at h
    · obtain ⟨-, rfl, rfl⟩ := Shape.finite.inj h
      exact ⟨hm, by omega, by omega, by omega, .inr rfl⟩
    · obtain ⟨-, rfl, rfl⟩ := Shape.finite.inj h
      exact ⟨hm, by omega, by omega, by omega, .inl (by omega)⟩

theorem unpackSign_packComponents {spec : Float.Model.Format} {s : Sign} {g f} :
    unpackSign (packComponents spec s g f) = s.toBitVec := by
  ext i hi
  obtain rfl : i = 0 := by omega
  simp [unpackSign, packComponents, BitVec.getLsbD_append, BitVec.getElem_append]

theorem ofBitVec_toBitVec (s : Sign) : Sign.ofBitVec s.toBitVec = s := by cases s <;> rfl

/-- A normal number is packed without its topmost bit and unpacked with it. -/
theorem unpack_normal {s : Sign} {g : BitVec binary64.exponentBits}
    {f : BitVec binary64.mantissaBitsWithoutImplicit} (hg : 0 < g.toNat ∧ g.toNat < 2047)
    (hm : 0 < m) (h : f.toNat + 2 ^ 52 = m) :
    unpack binary64 (packComponents binary64 s g f) = .finite s m (g.toNat - 1075) hm := by
  have hones : ¬ g = -1#_ := fun h => by rw [h] at hg; exact absurd hg.2 (by decide)
  have hzeros : ¬ g = 0#_ := fun h => by rw [h] at hg; exact absurd hg.1 (by decide)
  simp only [unpack, unpackExponent_packComponents, unpackMantissa_packComponents,
    unpackSign_packComponents, ofBitVec_toBitVec, if_neg hones, if_neg hzeros, toNat_implicit, h]
  rfl

/-- A subnormal number is packed with exponent zero. -/
theorem unpack_subnormal {s : Sign} {f : BitVec binary64.mantissaBitsWithoutImplicit}
    (hm : 0 < m) (h : f.toNat = m) :
    unpack binary64 (packComponents binary64 s 0#_ f) = .finite s m (-1074) hm := by
  have hne : ¬ f = 0#_ := fun h0 => by rw [h0] at h; exact hm.ne h
  have hones : ¬ 0#11 = -1#11 := by decide
  simp only [unpack, unpackExponent_packComponents, unpackMantissa_packComponents,
    unpackSign_packComponents, ofBitVec_toBitVec, if_neg hones, if_true, dif_neg hne, h]
  rfl

/-- A canonical form survives being spelled in bits. -/
theorem unpack_pack (h : Canonical m e) (s : Sign) :
    (Float.Model.pack (.finite s m e h.pos)).unpack = .finite s m e h.pos := by
  have hne : m ≠ 0 := h.pos.ne'
  obtain ⟨hpos, hlt, hle, hfits, hfull⟩ := h
  have hroom : ¬ 2 ^ 11 ≤ (e + (1023 : ℕ) + (52 : ℕ)).toNat + 1 := by omega
  have hpack : pack binary64 (.finite s m e hpos) =
      if m.log2 + 1 = 53 then
        packComponents binary64 s (BitVec.ofNat 11 (e + (1023 : ℕ) + (52 : ℕ)).toNat)
          (BitVec.ofNat 52 m)
      else packComponents binary64 s 0#11 (BitVec.ofNat 52 m) := if_neg hroom
  show unpack binary64 (pack binary64 (.finite s m e hpos)) = _
  rw [hpack]
  obtain hm | hm := le_or_gt (2 ^ 52) m
  · have hlog : m.log2 = 52 := (Nat.log2_eq_iff hne).mpr ⟨hm, hlt⟩
    have hg : (BitVec.ofNat 11 (e + (1023 : ℕ) + (52 : ℕ)).toNat).toNat = (e + 1075).toNat := by
      rw [BitVec.toNat_ofNat]; omega
    have hf : (BitVec.ofNat 52 m).toNat + 2 ^ 52 = m := by rw [BitVec.toNat_ofNat]; omega
    rw [if_pos (by omega), unpack_normal ⟨by omega, by omega⟩ hpos hf, hg]
    congr 1
    omega
  · have hlog : m.log2 < 52 := (Nat.log2_lt hne).mpr hm
    have hf : (BitVec.ofNat 52 m).toNat = m := by rw [BitVec.toNat_ofNat]; omega
    obtain rfl : e = -1074 := hfull.resolve_left (by omega)
    rw [if_neg (by omega), unpack_subnormal hpos hf]

/-! ## Rounding -/

/-- A shift to the left moves the topmost bit by as much. -/
theorem log2_mul_two_pow (hm : m ≠ 0) (k : ℕ) : (m * 2 ^ k).log2 = m.log2 + k := by
  have hle := Nat.log2_self_le hm
  have hlt := Nat.lt_log2_self (n := m)
  refine (Nat.log2_eq_iff (by positivity)).mpr ⟨?_, ?_⟩
  · rw [pow_add]; gcongr
  · rw [show m.log2 + k + 1 = m.log2 + 1 + k by omega, pow_add]; gcongr

/-- The total exponent belongs to the value. -/
theorem totalExponent_mul (hm : m ≠ 0) (e : ℤ) (k : ℕ) :
    totalExponent (m * 2 ^ k) (e - k) = totalExponent m e := by
  simp only [totalExponent, log2_mul_two_pow hm]
  push_cast
  ring

/-- Rounding aims for the exponent that a canonical form has already. -/
theorem Canonical.target (h : Canonical m e) :
    binary64.targetExponent (totalExponent m e) = e := by
  have hne : m ≠ 0 := h.pos.ne'
  have hlt : m.log2 < 53 := (Nat.log2_lt hne).mpr h.lt
  have hle := h.le
  have htarget : binary64.targetExponent (totalExponent m e) = max (m.log2 + 1 + e - 53) (-1074) :=
    rfl
  rw [htarget]
  obtain hfull | hleast := h.full
  · have hge : 52 ≤ m.log2 := (Nat.le_log2 hne).mpr hfull
    omega
  · omega

/-- Zeros at the end are shifted out without a loss. -/
theorem shiftRight_exact (m k : ℕ) :
    (⟨m * 2 ^ k, false, false⟩ : ExtendedMantissa) >>> k = ⟨m, false, false⟩ := by
  show Nat.repeat ExtendedMantissa.shiftRightOne k _ = _
  induction k generalizing m with
  | zero => simp [Nat.repeat]
  | succ k ih =>
    have hm : m * 2 ^ (k + 1) = (2 * m) * 2 ^ k := by ring
    rw [Nat.repeat, hm, ih]
    simp [ExtendedMantissa.shiftRightOne]

/-- A number that was shifted to the left comes back to its canonical form without a loss. -/
theorem shiftToTargetExponent_exact (h : Canonical m e) (k : ℕ) :
    shiftToTargetExponent binary64 (m * 2 ^ k) (e - k) .exact = (⟨m, false, false⟩, e) := by
  have hk : (e - (e - k)).toNat = k := by omega
  simp only [shiftToTargetExponent, totalExponent_mul h.pos.ne', h.target, shiftToExponent, hk,
    ExtendedMantissa.ofMantissaAndAccuracy, shiftRight_exact, sub_add_cancel]

/-- So rounding it does not change its value. -/
theorem roundWithAccuracy_exact (h : Canonical m e) (s : Sign) (k : ℕ) :
    roundWithAccuracy binary64 s (m * 2 ^ k) (e - k) .exact = .finite s m e h.pos := by
  -- the second shift of the rounding finds the canonical form already there
  have hagain := shiftToTargetExponent_exact h 0
  simp only [pow_zero, mul_one, Nat.cast_zero, sub_zero] at hagain
  simp only [roundWithAccuracy, shiftToTargetExponent_exact h, ExtendedMantissa.roundedMantissa,
    ExtendedMantissa.accuracy, Accuracy.roundToNearestEven, hagain, dif_neg h.pos.ne']

/-- Of two forms of a value, one has the mantissa of the other with zeros at the end. -/
theorem eq_mul_of_same_value {r : ℕ} {t : ℤ} (h : (m : ℚ) * 2 ^ e = r * 2 ^ t) :
    r = m * 2 ^ (e - t).toNat ∧ t ≤ e ∨ m = r * 2 ^ (t - e).toNat ∧ e < t := by
  have htwo : (2 : ℚ) ≠ 0 := by norm_num
  obtain hle | hlt := le_or_gt t e
  · have hpow : (2 : ℚ) ^ e = 2 ^ (e - t).toNat * 2 ^ t := by
      rw [← zpow_natCast, ← zpow_add₀ htwo]; congr 1; omega
    rw [hpow, ← mul_assoc] at h
    exact .inl ⟨by exact_mod_cast (mul_right_cancel₀ (zpow_ne_zero t htwo) h).symm, hle⟩
  · have hpow : (2 : ℚ) ^ t = 2 ^ (t - e).toNat * 2 ^ e := by
      rw [← zpow_natCast, ← zpow_add₀ htwo]; congr 1; omega
    rw [hpow, ← mul_assoc] at h
    exact .inr ⟨by exact_mod_cast mul_right_cancel₀ (zpow_ne_zero e htwo) h, hlt⟩

/-- A value with a canonical form is rounded to that form, however it is written. -/
theorem round_exact {r : ℕ} {t : ℤ} (h : Canonical r t) (s : Sign)
    (hvalue : (m : ℚ) * 2 ^ e = r * 2 ^ t) :
    UnpackedFloat.round binary64 s m e = .finite s r t h.pos := by
  obtain ⟨rfl, hle⟩ | ⟨rfl, hlt⟩ := eq_mul_of_same_value hvalue
  · have htotal := totalExponent_mul (left_ne_zero_of_mul h.pos.ne') e (e - t).toNat
    have hback : e - ((e - t).toNat : ℤ) = t := by omega
    have hexact := roundWithAccuracy_exact h s 0
    simp only [pow_zero, mul_one, Nat.cast_zero, sub_zero] at hexact
    rw [hback] at htotal
    simp only [UnpackedFloat.round, ← htotal, h.target, decreaseExponent, hback, Nat.shiftLeft_eq,
      hexact]
  · have htotal := totalExponent_mul h.pos.ne' t (t - e).toNat
    have hback : t - ((t - e).toNat : ℤ) = e := by omega
    have hnone : (e - t).toNat = 0 := by omega
    have hexact := roundWithAccuracy_exact h s (t - e).toNat
    rw [hback] at htotal hexact
    simp only [UnpackedFloat.round, htotal, h.target, decreaseExponent, hnone, Nat.shiftLeft_zero,
      Nat.cast_zero, sub_zero, hexact]

/-- A number of at most 53 bits has a canonical form, found by doubling until the topmost bit or the
    least exponent is reached. -/
theorem exists_canonical (hpos : 0 < m) (hlt : m < 2 ^ 53) (hle : -1074 ≤ e) (hfits : e ≤ 971) :
    ∃ r t, Canonical r t ∧ (m : ℚ) * 2 ^ e = r * 2 ^ t := by
  have hlog : m.log2 < 53 := (Nat.log2_lt hpos.ne').mpr hlt
  let t : ℤ := max (m.log2 + e - 52) (-1074)
  let k : ℕ := (e - t).toNat
  have hk : t = e - k := by omega
  have hlogk := log2_mul_two_pow hpos.ne' k
  have hne : m * 2 ^ k ≠ 0 := by positivity
  refine ⟨m * 2 ^ k, t, ⟨by positivity, ?_, by omega, by omega, ?_⟩, ?_⟩
  · refine (Nat.log2_lt hne).mp ?_
    omega
  · by_cases hleast : t = -1074
    · exact .inr hleast
    · refine .inl ((Nat.le_log2 hne).mp ?_)
      omega
  · rw [hk, zpow_sub₀ (by norm_num), zpow_natCast]
    push_cast
    field_simp

/-! ## Values of results -/

/-- A sign as a factor. -/
def signOf : Sign → ℚ
  | .negative => -1
  | .positive => 1

@[simp] theorem signOf_neg (s : Sign) : signOf (-s) = -signOf s := by
  cases s
  · exact (neg_neg 1).symm
  · rfl

theorem signOf_eq (s : Sign) : (if s == .negative then -1 else 1 : ℚ) = signOf s := by
  cases s <;> rfl

/-- The value of a canonical form that was packed. -/
theorem value?_pack_finite (h : Canonical m e) (s : Sign) :
    value? (.ofModel (.pack (.finite s m e h.pos))) = some (signOf s * ((m : ℚ) * 2 ^ e)) := by
  rw [value?, shape_eq, unpack_pack h, shapeOf, Shape.value?, signOf_eq]

/-- Both zeros have the value zero. -/
theorem value?_pack_zero (s : Sign) : value? (.ofModel (.pack (.zero s))) = some 0 := by
  have h : (Float.Model.pack (.zero s)).unpack = .zero s := by cases s <;> rfl
  simp [value?, shape_eq, h, shapeOf, Shape.value?]

/-- What a number with a value is unpacked to. -/
theorem unpack_of_value? (h : value? x = some q) :
    (∃ s, x.toModel.unpack = .zero s ∧ q = 0) ∨
      ∃ s m e, ∃ hc : Canonical m e, x.toModel.unpack = .finite s m e hc.pos ∧
        q = signOf s * ((m : ℚ) * 2 ^ e) := by
  have hshape := shape_eq x
  cases hx : x.toModel.unpack with
  | notANumber => simp [value?, hshape, hx, shapeOf, Shape.value?] at h
  | infinity s => simp [value?, hshape, hx, shapeOf, Shape.value?] at h
  | zero s =>
    simp only [value?, hshape, hx, shapeOf, Shape.value?, Option.some.injEq] at h
    exact .inl ⟨s, rfl, by simp [← h]⟩
  | finite s m e hm =>
    rw [hx] at hshape
    simp only [value?, hshape, shapeOf, Shape.value?, signOf_eq, Option.some.injEq] at h
    exact .inr ⟨s, m, e, canonical_of_shape hshape hm, rfl, h.symm⟩

/-- Rounding keeps a value that has a form. -/
theorem value?_pack_round (hpos : 0 < m) (s : Sign) (h : HasForm ((m : ℚ) * 2 ^ e)) :
    value? (.ofModel (.pack (UnpackedFloat.round binary64 s m e))) =
      some (signOf s * ((m : ℚ) * 2 ^ e)) := by
  obtain ⟨c, k, hlt, hle, hfits, hform⟩ := h
  have hm : (0 : ℚ) < m * 2 ^ e := by positivity
  rw [abs_of_pos hm] at hform
  have hc : 0 < c := by
    rcases Nat.eq_zero_or_pos c with rfl | hc
    · simp [hform] at hm
    · exact hc
  obtain ⟨r, t, hcan, hvalue⟩ := exists_canonical hc hlt hle hfits
  rw [round_exact hcan s (hform.trans hvalue), value?_pack_finite hcan, hform, hvalue]

/-- Rounding a signed number keeps its value, whatever the sign of a zero would be. -/
theorem value?_normalize {n : ℤ} (h : HasForm ((n : ℚ) * 2 ^ e)) (zero : Sign) :
    value? (.ofModel (.pack (UnpackedFloat.normalize binary64 n e zero))) =
      some ((n : ℚ) * 2 ^ e) := by
  obtain hneg | rfl | hpos := lt_trichotomy n 0
  · have hn : (n : ℚ) = -((-n).toNat : ℚ) := by
      have : n = -((-n).toNat : ℤ) := by omega
      exact_mod_cast this
    have hform : HasForm (((-n).toNat : ℚ) * 2 ^ e) := by
      rw [hn, neg_mul] at h
      simpa [HasForm] using h
    simp only [UnpackedFloat.normalize, Int.compare_eq_lt.mpr hneg]
    rw [value?_pack_round (by omega) _ hform, hn]
    simp [signOf]
  · simp [UnpackedFloat.normalize, value?_pack_zero]
  · have hn : (n : ℚ) = (n.toNat : ℚ) := by
      have : n = (n.toNat : ℤ) := by omega
      exact_mod_cast this
    rw [hn] at h
    simp only [UnpackedFloat.normalize, Int.compare_eq_gt.mpr hpos]
    rw [value?_pack_round (by omega) _ h, hn]
    simp [signOf]

/-- Negation turns the sign around and is exact for every value. -/
theorem value?_neg (h : value? x = some q) : value? (-x) = some (-q) := by
  show value? (.ofModel (.pack x.toModel.unpack.neg)) = _
  obtain ⟨s, hx, rfl⟩ | ⟨s, m, e, hc, hx, rfl⟩ := unpack_of_value? h
  · rw [hx, UnpackedFloat.neg, value?_pack_zero, neg_zero]
  · rw [hx, UnpackedFloat.neg, value?_pack_finite hc, signOf_neg, neg_mul]

/-- Writing a number with a smaller exponent keeps its value. -/
theorem apply_decreaseExponent (s : Sign) {t : ℤ} (hle : t ≤ e) :
    ((s.apply (decreaseExponent m e t).1 : ℤ) : ℚ) * 2 ^ t = signOf s * ((m : ℚ) * 2 ^ e) := by
  have hpow : (2 : ℚ) ^ e = 2 ^ (e - t).toNat * 2 ^ t := by
    rw [← zpow_natCast, ← zpow_add₀ (by norm_num)]; congr 1; omega
  rw [hpow]
  cases s <;> simp [decreaseExponent, Sign.apply, signOf, Nat.shiftLeft_eq] <;> ring

/-- A difference that has a form is exact. -/
theorem value?_sub (hx : value? x = some p) (hy : value? y = some q) (h : HasForm (p - q)) :
    value? (x - y) = some (p - q) := by
  show value? (.ofModel (.pack (UnpackedFloat.sub binary64 x.toModel.unpack y.toModel.unpack))) = _
  obtain ⟨s, hux, rfl⟩ | ⟨s, m, e, hc, hux, rfl⟩ := unpack_of_value? hx
  · obtain ⟨s', huy, rfl⟩ | ⟨s', m', e', hc', huy, rfl⟩ := unpack_of_value? hy
    · rw [hux, huy, sub_zero]
      cases s <;> cases s' <;> exact value?_pack_zero _
    · rw [hux, huy]
      show value? (.ofModel (.pack (.finite (-s') m' e' hc'.pos))) = _
      rw [value?_pack_finite hc', signOf_neg, neg_mul, zero_sub]
  · obtain ⟨s', huy, rfl⟩ | ⟨s', m', e', hc', huy, rfl⟩ := unpack_of_value? hy
    · rw [hux, huy]
      show value? (.ofModel (.pack (.finite s m e hc.pos))) = _
      rw [value?_pack_finite hc, sub_zero]
    · rw [hux, huy]
      simp only [UnpackedFloat.sub]
      rw [← apply_decreaseExponent s (min_le_left e e'),
        ← apply_decreaseExponent s' (min_le_right e e'), ← sub_mul, ← Int.cast_sub] at h ⊢
      exact value?_normalize h _

/-! ## Integers as numbers -/

/-- The number one, unpacked. -/
theorem unpack_one : (Float.ofBits 0x3FF0000000000000).toModel.unpack =
    .finite .positive (1 * 2 ^ 52) (0 - (52 : ℕ)) (by decide) := rfl

/-- Multiplying by one keeps the value. -/
theorem value?_mul_one (h : value? x = some q) :
    value? (x * Float.ofBits 0x3FF0000000000000) = some q := by
  show value? (.ofModel (.pack (UnpackedFloat.mul binary64 x.toModel.unpack
    (Float.ofBits 0x3FF0000000000000).toModel.unpack))) = _
  rw [unpack_one]
  obtain ⟨s, hx, rfl⟩ | ⟨s, m, e, hc, hx, rfl⟩ := unpack_of_value? h
  · rw [hx, UnpackedFloat.mul, value?_pack_zero]
  · have hs : s * .positive = s := by cases s <;> rfl
    have hround := roundWithAccuracy_exact hc s 52
    rw [hx]
    simp only [UnpackedFloat.mul]
    rw [hs, one_mul, zero_sub, ← sub_eq_add_neg, hround, value?_pack_finite hc]

/-- A natural number below `2^53` is itself as a number. -/
theorem value?_ofNat {n : ℕ} (hn : n < 2 ^ 53) : value? (Float.ofNat n) = some (n : ℚ) := by
  have hof : Float.ofNat n = n.toUInt64.toFloat * Float.ofBits 0x3FF0000000000000 := by
    show Float.ofScientific n false 0 = _
    rw [Float.ofScientific, dif_pos ⟨hn, by decide⟩]
    rfl
  have hword : value? n.toUInt64.toFloat = some (n : ℚ) := by
    have hsame : n.toUInt64.toNat = n := by simp; omega
    have hform : HasForm ((n : ℤ) : ℚ) := hasForm_intCast hn
    have h := value?_normalize (n := n) (e := 0) (by simpa using hform) .positive
    show value? (.ofModel (.pack
      (UnpackedFloat.normalize binary64 n.toUInt64.toNat 0 .positive))) = _
    rw [hsame, h]
    simp
  rw [hof]
  exact value?_mul_one hword

/-- An integer of at most 53 bits becomes the number of that value. -/
theorem value?_ofInt {n : ℤ} (hn : n.natAbs < 2 ^ 53) : value? (Float.ofInt n) = some (n : ℚ) := by
  cases n with
  | ofNat n => exact value?_ofNat hn
  | negSucc n =>
    rw [Int.cast_negSucc]
    exact value?_neg (value?_ofNat hn)

/-! ## Numbers as integers -/

/-- A rational number rounded toward zero. -/
def towardZero (q : ℚ) : ℤ := if q < 0 then ⌈q⌉ else ⌊q⌋

/-- A power of two that is a natural number. -/
theorem two_zpow_of_nonneg (he : 0 ≤ e) : (2 : ℚ) ^ e = ((2 ^ e.toNat : ℕ) : ℚ) := by
  push_cast
  rw [← zpow_natCast]; congr 1; omega

/-- A power of two that is the inverse of one. -/
theorem two_zpow_of_neg (he : e < 0) : (2 : ℚ) ^ e = ((2 ^ (-e).toNat : ℕ) : ℚ)⁻¹ := by
  push_cast
  rw [← zpow_natCast, ← zpow_neg]; congr 1; omega

/-- Shifting bits out is rounding down, as the bits that are lost are what is left of the value. -/
theorem scaleDown_eq (m : ℕ) (e : ℤ) : (scaleDown m e : ℤ) = ⌊(m : ℚ) * 2 ^ e⌋ := by
  unfold scaleDown
  split
  · rename_i he
    rw [two_zpow_of_nonneg he, ← Nat.cast_mul, Int.floor_natCast]
    rfl
  · rename_i he
    rw [two_zpow_of_neg (by omega), ← div_eq_mul_inv, ← Int.cast_natCast (R := ℚ) m,
      Rat.floor_intCast_div_natCast]
    rfl

/-- Shifting bits out and adding one where any was lost is rounding up. -/
theorem scaleUp_eq (m : ℕ) (e : ℤ) : (scaleUp m e : ℤ) = ⌈(m : ℚ) * 2 ^ e⌉ := by
  unfold scaleUp
  split
  · rename_i he
    rw [two_zpow_of_nonneg he, ← Nat.cast_mul, Int.ceil_natCast]
    rfl
  · rename_i he
    rw [two_zpow_of_neg (by omega), ← div_eq_mul_inv]
    have hd : 0 < 2 ^ (-e).toNat := Nat.two_pow_pos _
    show (((m + 2 ^ (-e).toNat - 1) / 2 ^ (-e).toNat : ℕ) : ℤ) = _
    generalize 2 ^ (-e).toNat = d at hd ⊢
    have hdiv := Nat.div_add_mod (m + d - 1) d
    have hmod := Nat.mod_lt (m + d - 1) hd
    generalize (m + d - 1) / d = c at hdiv
    have hlow : (d : ℚ) * c < m + d := by
      have : d * c < m + d := by omega
      exact_mod_cast this
    have hhigh : (m : ℚ) ≤ d * c := by
      have : m ≤ d * c := by omega
      exact_mod_cast this
    refine (Int.ceil_eq_iff.mpr ⟨?_, ?_⟩).symm
    · rw [lt_div_iff₀ (by exact_mod_cast hd)]
      push_cast
      linarith
    · rw [div_le_iff₀ (by exact_mod_cast hd)]
      push_cast
      linarith

/-- The value of a number is that of its parts. -/
theorem shape_of_value? (h : value? x = some q) :
    ∃ neg m e, shape x = .finite neg m e ∧ q = if neg then -((m : ℚ) * 2 ^ e) else m * 2 ^ e := by
  unfold value? at h
  cases hs : shape x with
  | nan => simp [hs, Shape.value?] at h
  | infinite neg => simp [hs, Shape.value?] at h
  | finite neg m e =>
    simp only [hs, Shape.value?, Option.some.injEq] at h
    refine ⟨neg, m, e, rfl, ?_⟩
    rw [← h]
    cases neg <;> simp

/-- The result of a calc expression is its value rounded down. -/
theorem toInt?_of_value? (h : value? x = some q) : toInt? x =
    if int64Min ≤ ⌊q⌋ ∧ ⌊q⌋ ≤ int64Max + 1 then some (min int64Max ⌊q⌋) else none := by
  obtain ⟨neg, m, e, hs, rfl⟩ := shape_of_value? h
  cases neg <;> simp [toInt?, hs, scaleDown_eq, scaleUp_eq, Int.floor_neg]

/-- An operand of a bitwise operator is its value rounded toward zero. -/
theorem truncate_of_value? (h : value? x = some q) : truncate x = clamp (towardZero q) := by
  obtain ⟨neg, m, e, hs, rfl⟩ := shape_of_value? h
  have hpos : (0 : ℚ) ≤ m * 2 ^ e := by positivity
  cases neg with
  | false => simp [truncate, hs, scaleDown_eq, towardZero, hpos.not_gt]
  | true =>
    simp only [truncate, hs, scaleDown_eq, towardZero, if_true]
    split
    · rw [Int.ceil_neg]
    · have h0 : (m : ℚ) * 2 ^ e = 0 := by linarith
      simp [h0]

/-- An integer below `2^53` comes back from its number. -/
theorem toInt?_ofInt {n : ℤ} (hn : n.natAbs < 2 ^ 53) : toInt? (Float.ofInt n) = some n := by
  have hmin : int64Min ≤ n := by unfold int64Min; omega
  have hmax : n ≤ int64Max := by unfold int64Max; omega
  rw [toInt?_of_value? (value?_ofInt hn), Int.floor_intCast, if_pos ⟨hmin, by omega⟩,
    min_eq_right hmax]

/-- Conjunction with 255 keeps the low eight bits. -/
theorem bitAnd_255 (a : ℤ) : bitAnd a 255 = a % 256 := by
  have hword : ((BitVec.ofInt 64 a &&& BitVec.ofInt 64 255).toNat : ℤ) = a % 256 := by
    rw [BitVec.toNat_and, BitVec.toNat_ofInt, show (BitVec.ofInt 64 255).toNat = 2 ^ 8 - 1 from rfl,
      Nat.and_two_pow_sub_one_eq_mod]
    omega
  show (BitVec.ofInt 64 a &&& BitVec.ofInt 64 255).toInt = _
  rw [BitVec.toInt_eq_toNat_of_lt (by omega), hword]

end OctoAsm.Calc
