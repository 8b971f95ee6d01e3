/-
  Number words.

  A number word has one of three shapes (`Literal`): `0x` and hexadecimal digits, `0b` and binary
  digits, or a decimal numeral with a sign or without one.  Only a decimal word can have a sign: behind
  the mark of a radix the test of the digits comes before they are read.

  The shape is tested before anything is read, so a word is passed on just when it has none, and else
  a numeral is read, with or without a sign (`number?_of_literal`).  A numeral stands for one number
  only.  So if it is read at all, it is read as that number, and if it is refused, that number is out
  of range, wherever the digits were given up.  That leaves three ways, with one reason for each
  (`number?_cases`), and what is said of the reader is read off them (`number_words_exact`).
-/
import OctoAsm.Proofs.Text.Digits
import OctoAsm.Token.Word

namespace OctoAsm

open Text (Numeral SignedNumeral IsInt64)

/-- The shapes of number words, and the numbers that they stand for. -/
inductive Literal : List Char → Int → Prop where
  | hexadecimal {cs n} (h : Numeral 16 cs n) : Literal ('0' :: 'x' :: cs) n
  | binary {cs n} (h : Numeral 2 cs n) : Literal ('0' :: 'b' :: cs) n
  | decimal {cs v} (h : SignedNumeral 10 cs v) : Literal cs v

section Digits

variable {radix n : Nat} {cs : List Char} {v : Int}

theorem areDigits_iff : areDigits radix cs = true ↔ ∃ n, Numeral radix cs n := by
  simp only [areDigits, Bool.and_eq_true, Bool.not_eq_true', List.isEmpty_eq_false_iff,
    List.all_eq_true]
  constructor
  · rintro ⟨hcs, hdigits⟩
    have hall : ∃ ds, List.Forall₂ (Text.IsDigit radix) cs ds := by
      clear hcs
      induction cs with
      | nil => exact ⟨[], .nil⟩
      | cons c cs ih =>
        obtain ⟨d, hd⟩ := Option.isSome_iff_exists.mp (hdigits c List.mem_cons_self)
        obtain ⟨ds, hds⟩ := ih fun c hc => hdigits c (List.mem_cons_of_mem _ hc)
        exact ⟨d :: ds, .cons hd hds⟩
    obtain ⟨ds, hds⟩ := hall
    exact ⟨_, hcs, hds, rfl⟩
  · rintro ⟨n, h⟩
    refine ⟨h.ne_nil, fun c hc => ?_⟩
    obtain ⟨d, hd⟩ := h.exists_digit hc
    exact Option.isSome_iff_exists.mpr ⟨d, hd⟩

/-- A decimal numeral has digits behind its sign. -/
theorem areDigits_unsignedPart (h : SignedNumeral 10 cs v) :
    areDigits 10 (unsignedPart cs) = true := by
  cases h with
  | unsigned h =>
    have hpart : unsignedPart cs = cs := by
      unfold unsignedPart
      split
      · exact absurd List.mem_cons_self (h.sign_not_mem (.inr rfl))
      · exact absurd List.mem_cons_self (h.sign_not_mem (.inl rfl))
      · rfl
    rw [hpart]
    exact areDigits_iff.mpr ⟨_, h⟩
  | plus h => exact areDigits_iff.mpr ⟨_, h⟩
  | minus h => exact areDigits_iff.mpr ⟨_, h⟩

theorem isSome_of_areDigits (h : areDigits radix cs = true) {c : Char} (hc : c ∈ cs) :
    (Text.digit? radix c).isSome = true :=
  List.all_eq_true.mp (Bool.and_eq_true_iff.mp h).2 c hc

/-- Digits behind at most one sign are a decimal numeral. -/
theorem exists_signedNumeral (h : areDigits 10 (unsignedPart cs) = true) :
    ∃ v, SignedNumeral 10 cs v := by
  obtain ⟨n, hn⟩ := areDigits_iff.mp h
  unfold unsignedPart at hn
  split at hn
  · exact ⟨_, .minus hn⟩
  · exact ⟨_, .plus hn⟩
  · exact ⟨_, .unsigned hn⟩

/-- The mark of a radix is no decimal digit. -/
theorem not_signedNumeral_of_mark {c : Char} (hmark : Text.digit? 10 c = none) :
    ¬ SignedNumeral 10 ('0' :: c :: cs) v := by
  intro h
  have hdigit := isSome_of_areDigits (areDigits_unsignedPart h) (c := c) (by simp [unsignedPart])
  rw [hmark] at hdigit
  cases hdigit

/-- Digits with or without a sign are a decimal number. -/
theorem number?_of_areDigits (h : areDigits 10 (unsignedPart cs) = true) :
    number? cs = readNumber 10 cs := by
  obtain ⟨v, hv⟩ := exists_signedNumeral h
  unfold number?
  split
  · exact (not_signedNumeral_of_mark rfl hv).elim
  · exact (not_signedNumeral_of_mark rfl hv).elim
  · exact if_pos h

/-- A numeral of a signed 64-bit integer is read as that integer. -/
theorem readNumber_of_int64 (hradix : 0 < radix) (h : SignedNumeral radix cs v)
    (hrange : IsInt64 v) : readNumber radix cs = .ok (some v) := by
  rw [readNumber, (Text.readInteger_eq_ok hradix).mpr ⟨h, hrange⟩]

/-- A numeral of any other number is refused: it could be read as nothing but that number. -/
theorem readNumber_of_beyond (hradix : 0 < radix) (h : SignedNumeral radix cs v)
    (hbeyond : ¬ IsInt64 v) : readNumber radix cs = .error .numberOutOfRange := by
  unfold readNumber
  split
  · rename_i w hread
    obtain ⟨hw, hrange⟩ := (Text.readInteger_eq_ok hradix).mp hread
    exact absurd (h.unique hradix hw ▸ hrange) hbeyond
  · rfl

end Digits

/-! ## Words -/

section Words

variable {word : List Char} {n m v : Int}

/-- A number word stands for one number. -/
theorem Literal.unique (h : Literal word n) (h' : Literal word m) : n = m := by
  cases h with
  | hexadecimal h =>
    cases h' with
    | hexadecimal h' => rw [h.unique (by decide) h']
    | decimal h' => exact (not_signedNumeral_of_mark rfl h').elim
  | binary h =>
    cases h' with
    | binary h' => rw [h.unique (by decide) h']
    | decimal h' => exact (not_signedNumeral_of_mark rfl h').elim
  | decimal h =>
    cases h' with
    | hexadecimal => exact (not_signedNumeral_of_mark rfl h).elim
    | binary => exact (not_signedNumeral_of_mark rfl h).elim
    | decimal h' => exact h.unique (by decide) h'

/-- What is read of a number word is a numeral for its value. -/
theorem number?_of_literal (h : Literal word n) : ∃ radix digits, 0 < radix ∧
    SignedNumeral radix digits n ∧ number? word = readNumber radix digits := by
  cases h with
  | hexadecimal h =>
    exact ⟨16, _, by decide, .unsigned h, if_pos (areDigits_iff.mpr ⟨_, h⟩)⟩
  | binary h =>
    exact ⟨2, _, by decide, .unsigned h, if_pos (areDigits_iff.mpr ⟨_, h⟩)⟩
  | decimal h =>
    exact ⟨10, _, by decide, h, number?_of_areDigits (areDigits_unsignedPart h)⟩

/-- Nothing is read of any other word. -/
theorem number?_of_not_literal (h : ∀ n, ¬ Literal word n) : number? word = .ok none := by
  unfold number?
  split
  · refine if_neg fun hdigits => ?_
    obtain ⟨n, hn⟩ := areDigits_iff.mp hdigits
    exact h n (.hexadecimal hn)
  · refine if_neg fun hdigits => ?_
    obtain ⟨n, hn⟩ := areDigits_iff.mp hdigits
    exact h n (.binary hn)
  · refine if_neg fun hdigits => ?_
    obtain ⟨v, hv⟩ := exists_signedNumeral hdigits
    exact h v (.decimal hv)

/-- **A word is read, refused or passed on**, by its value and its shape. -/
theorem number?_cases (word : List Char) :
    (∃ n, Literal word n ∧ IsInt64 n ∧ number? word = .ok (some n)) ∨
    (∃ n, Literal word n ∧ ¬ IsInt64 n ∧ number? word = .error .numberOutOfRange) ∨
    (∀ n, ¬ Literal word n) ∧ number? word = .ok none := by
  by_cases h : ∃ n, Literal word n
  · obtain ⟨n, hn⟩ := h
    obtain ⟨radix, digits, hradix, hdigits, hword⟩ := number?_of_literal hn
    by_cases hrange : IsInt64 n
    · exact .inl ⟨n, hn, hrange, hword.trans (readNumber_of_int64 hradix hdigits hrange)⟩
    · exact .inr (.inl ⟨n, hn, hrange, hword.trans (readNumber_of_beyond hradix hdigits hrange)⟩)
  · have hnone : ∀ n, ¬ Literal word n := not_exists.mp h
    exact .inr (.inr ⟨hnone, number?_of_not_literal hnone⟩)

/-- **A word is a number** if it has the shape of one and a value within 64 bits. -/
theorem number?_eq_some : number? word = .ok (some v) ↔ Literal word v ∧ IsInt64 v := by
  rcases number?_cases word with ⟨n, hn, hrange, hword⟩ | ⟨n, hn, hbeyond, hword⟩ | ⟨hnone, hword⟩
  · constructor
    · intro h
      obtain rfl := Option.some.inj (Except.ok.inj (hword.symm.trans h))
      exact ⟨hn, hrange⟩
    · rintro ⟨hv, -⟩
      rw [hword, hn.unique hv]
  · refine iff_of_false (fun h => ?_) fun ⟨hv, hrange⟩ => hbeyond (hn.unique hv ▸ hrange)
    rw [hword] at h
    cases h
  · refine iff_of_false (fun h => ?_) fun ⟨hv, _⟩ => hnone v hv
    rw [hword] at h
    cases h

/-- A word is refused for its size alone. -/
theorem number?_eq_error :
    number? word = .error .numberOutOfRange ↔ ∃ n, Literal word n ∧ ¬ IsInt64 n := by
  rcases number?_cases word with ⟨n, hn, hrange, hword⟩ | ⟨n, hn, hbeyond, hword⟩ | ⟨hnone, hword⟩
  · refine iff_of_false (fun h => ?_) fun ⟨m, hm, hbeyond⟩ => hbeyond (hn.unique hm ▸ hrange)
    rw [hword] at h
    cases h
  · exact iff_of_true hword ⟨n, hn, hbeyond⟩
  · refine iff_of_false (fun h => ?_) fun ⟨m, hm, _⟩ => hnone m hm
    rw [hword] at h
    cases h

/-- A word is passed on for its shape alone. -/
theorem number?_eq_none : number? word = .ok none ↔ ∀ n, ¬ Literal word n := by
  constructor
  · intro h n hn
    obtain ⟨m, -, -, hword⟩ | ⟨m, -, -, hword⟩ | ⟨hnone, -⟩ := number?_cases word
    · rw [hword] at h
      cases h
    · rw [hword] at h
      cases h
    · exact hnone n hn
  · exact number?_of_not_literal

end Words

/-- **Number words are exact.**  A word is read as the number that it stands for, if that is a signed
    64-bit integer.  It is refused if it stands for any other number, and passed on if it stands for
    none.  The digits of a radix are the characters that are written for them, letters in either
    case. -/
theorem number_words_exact (word : List Char) :
    (∀ n, number? word = .ok (some n) ↔ Literal word n ∧ IsInt64 n) ∧
    (number? word = .error .numberOutOfRange ↔ ∃ n, Literal word n ∧ ¬ IsInt64 n) ∧
    (number? word = .ok none ↔ ∀ n, ¬ Literal word n) ∧
    ∀ radix ∈ [2, 10, 16], ∀ c d, Text.IsDigit radix c d ↔ d < radix ∧ c.toLower = d.digitChar := by
  refine ⟨fun n => number?_eq_some, number?_eq_error, number?_eq_none, fun radix hradix c d => ?_⟩
  have hle : ∀ r ∈ [2, 10, 16], r ≤ 16 := by decide
  exact Text.isDigit_iff (hle radix hradix)

/-- Both ends of the range, with zeros in front, and what lies beyond. -/
example : number? "-009223372036854775808".toList = .ok (some (-0x8000000000000000)) ∧
    number? "0x7fffFFFFffffFFFF".toList = .ok (some 0x7FFFFFFFFFFFFFFF) ∧
    number? "+9223372036854775808".toList = .error .numberOutOfRange ∧
    number? "0x8000000000000000".toList = .error .numberOutOfRange := ⟨rfl, rfl, rfl, rfl⟩

end OctoAsm
