/-
  Numbers written in a radix up to sixteen are read back.

  Which characters are digits is settled by a look at ASCII; beyond it there are none (`isDigit_iff`).
  The digits of a number, written as characters, are a numeral for it (`numeral_toDigits`, by strong
  induction: the last digit is the remainder, the others are those of the quotient).  Zeros in front
  change nothing, and a numeral stands for one number only (`Numeral.unique`), so neither does a
  hexadecimal text (`hex_injective`).
-/
import OctoAsm.Proofs.Text.Integer
import OctoAsm.Text.Numeral

namespace OctoAsm.Text

variable {radix d n m : Nat} {cs : List Char}

/-- Which digit an ASCII character is in radix sixteen; a capital counts as its small letter. -/
theorem digit?_ascii : ∀ n : Fin 128, ∀ e : Fin 16,
    digit? 16 (Char.ofNat n) = some e.val ↔ (Char.ofNat n).toLower = e.val.digitChar := by
  decide

/-- Beyond ASCII there are no digits. -/
theorem digit?_of_le {c : Char} (h : 128 ≤ c.toNat) (radix : Nat) : digit? radix c = none := by
  have hbeyond : ∀ lo hi : Char, hi.toNat < 128 → ¬ (lo ≤ c ∧ c ≤ hi) := by
    rintro lo hi hhi ⟨-, hle⟩
    have hle : c.toNat ≤ hi.toNat := hle
    omega
  simp only [digit?, if_neg (hbeyond '0' '9' (by decide)), if_neg (hbeyond 'a' 'z' (by decide)),
    if_neg (hbeyond 'A' 'Z' (by decide)), Option.filter_none]

/-- **A digit is the character that is written for it**, or the capital of that letter. -/
theorem isDigit_iff (hradix : radix ≤ 16) {c : Char} :
    IsDigit radix c d ↔ d < radix ∧ c.toLower = d.digitChar := by
  -- which digit a character is does not depend on the radix
  have hsixteen : IsDigit radix c d ↔ d < radix ∧ IsDigit 16 c d := by
    simp only [IsDigit, digit?, Option.filter_eq_some_iff, decide_eq_true_eq]
    constructor
    · rintro ⟨h, hd⟩
      exact ⟨hd, h, by omega⟩
    · rintro ⟨hd, h, -⟩
      exact ⟨h, hd⟩
  rw [hsixteen, and_congr_right_iff]
  intro hd
  have hd16 : d < 16 := by omega
  by_cases hc : c.toNat < 128
  · have h := digit?_ascii ⟨c.toNat, hc⟩ ⟨d, hd16⟩
    rwa [Char.ofNat_toNat] at h
  · have hupper : ¬ (c.val ≥ 'A'.val ∧ c.val ≤ 'Z'.val) := by
      rintro ⟨-, hle⟩
      have hle : c.toNat ≤ 90 := hle
      omega
    have hlower : c.toLower = c := dif_neg hupper
    have hall : ∀ e : Fin 16, e.val.digitChar.toNat < 128 := by decide
    have hdigit := hall ⟨d, hd16⟩
    rw [IsDigit, digit?_of_le (by omega), hlower]
    constructor
    · intro h
      cases h
    · rintro rfl
      exact absurd hdigit hc

/-- The character of a digit is read as that digit. -/
theorem digit?_digitChar (hradix : radix ≤ 16) (hd : d < radix) :
    digit? radix d.digitChar = some d := by
  have hlower : ∀ e : Fin 16, e.val.digitChar.toLower = e.val.digitChar := by decide
  exact (isDigit_iff hradix).mpr ⟨hd, hlower ⟨d, by omega⟩⟩

/-- The digits of a number are a numeral for it. -/
theorem numeral_toDigits (hlo : 1 < radix) (hhi : radix ≤ 16) (n : Nat) :
    Numeral radix (Nat.toDigits radix n) n := by
  induction n using Nat.strongRecOn with
  | ind n ih =>
    rw [Nat.toDigits_eq_if hlo]
    split
    · rename_i hdigit
      exact ⟨List.cons_ne_nil _ _, .cons (digit?_digitChar hhi hdigit) .nil, by simp⟩
    · rename_i hlarge
      have hpos : 0 < radix := Nat.lt_of_succ_lt hlo
      obtain ⟨-, hdigits, hvalue⟩ := ih (n / radix) (Nat.div_lt_self (by omega) hlo)
      have hlast : IsDigit radix (n % radix).digitChar (n % radix) :=
        digit?_digitChar hhi (Nat.mod_lt n hpos)
      refine ⟨by simp, List.rel_append hdigits (.cons hlast .nil), ?_⟩
      rw [List.reverse_append, List.reverse_singleton, List.singleton_append, Nat.ofDigits_cons,
        hvalue]
      exact Nat.mod_add_div n radix

/-- Zeros in front do not count. -/
theorem Numeral.zeroPad (hradix : 0 < radix) (h : Numeral radix cs n) (width : Nat) :
    Numeral radix (Text.zeroPad width cs) n := by
  obtain ⟨hcs, hdigits, rfl⟩ := h
  have hzero : IsDigit radix '0' 0 := by simp [IsDigit, digit?, hradix]
  have hzeros (k : Nat) : List.Forall₂ (IsDigit radix) (List.replicate k '0') (List.replicate k 0) :=
    List.forall₂_iff_get.mpr ⟨by simp, by simp [hzero]⟩
  refine ⟨by simp [Text.zeroPad, hcs], List.rel_append (hzeros _) hdigits, ?_⟩
  rw [List.reverse_append, List.reverse_replicate, Nat.ofDigits_append_replicate_zero]

/-- A numeral stands for one number. -/
theorem Numeral.unique (hradix : 0 < radix) (h : Numeral radix cs n) (h' : Numeral radix cs m) :
    n = m := by
  -- it is read as both, within any bound that is large enough
  have hn := h.accumulate_eq hradix (max n m) .tooLarge
  have hm := h'.accumulate_eq hradix (max n m) .tooLarge
  rw [if_pos (Nat.le_max_left n m)] at hn
  rw [if_pos (Nat.le_max_right n m), hn] at hm
  exact Except.ok.inj hm

/-- A sign does not change that. -/
theorem SignedNumeral.unique {v w : Int} (hradix : 0 < radix) (h : SignedNumeral radix cs v)
    (h' : SignedNumeral radix cs w) : v = w := by
  cases h with
  | unsigned h =>
    cases h' with
    | unsigned h' => rw [h.unique hradix h']
    | plus => exact absurd List.mem_cons_self (h.sign_not_mem (.inl rfl))
    | minus => exact absurd List.mem_cons_self (h.sign_not_mem (.inr rfl))
  | plus h =>
    cases h' with
    | unsigned h' => exact absurd List.mem_cons_self (h'.sign_not_mem (.inl rfl))
    | plus h' => rw [h.unique hradix h']
  | minus h =>
    cases h' with
    | unsigned h' => exact absurd List.mem_cons_self (h'.sign_not_mem (.inr rfl))
    | minus h' => rw [h.unique hradix h']

/-! ## Hexadecimal texts -/

variable {width : Nat}

theorem toList_hex (width n : Nat) :
    (hex width n).toList = '0' :: 'x' :: zeroPad width (Nat.toDigits 16 n) := by
  simp [hex, hexDigits]

theorem numeral_hexDigits (width n : Nat) : Numeral 16 (zeroPad width (Nat.toDigits 16 n)) n :=
  (numeral_toDigits (by decide) (by decide) n).zeroPad (by decide) width

/-- A hexadecimal text stands for one number. -/
theorem hex_injective (h : hex width n = hex width m) : n = m := by
  have hlist := congrArg String.toList h
  rw [toList_hex, toList_hex] at hlist
  have hdigits := (List.cons.inj (List.cons.inj hlist).2).2
  have hn := numeral_hexDigits width n
  rw [hdigits] at hn
  exact hn.unique (by decide) (numeral_hexDigits width m)

/-- Nothing but digits stands behind the mark of the radix. -/
theorem not_mem_hex {c : Char} (hdigit : digit? 16 c = none) (hmark : c ≠ 'x') (width n : Nat) :
    c ∉ (hex width n).toList := by
  rw [toList_hex]
  intro hmem
  have hzero : c ≠ '0' := by
    rintro rfl
    cases hdigit
  rcases List.mem_cons.mp hmem with rfl | hmem
  · exact hzero rfl
  · rcases List.mem_cons.mp hmem with rfl | hmem
    · exact hmark rfl
    · obtain ⟨d, hd⟩ := (numeral_hexDigits width n).exists_digit hmem
      rw [IsDigit, hdigit] at hd
      cases hd

end OctoAsm.Text
