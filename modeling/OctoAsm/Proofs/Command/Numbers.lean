/-
  Numbers in arguments: which texts are numbers, and which of them a source text spells the same way.

  A number in an argument is an optional minus sign, the mark of a radix and digits (`Documented`).
  The sign and the mark are taken away first, and what is left goes to a reader that takes a sign of
  its own.  So a further sign may stand in front of the digits (`Accepted`), and it is the value
  behind the first sign that has to be a signed 64-bit integer.  Two things follow.  Behind two minus
  signs the least integer is read, and its negation overflows; and the least integer itself cannot be
  written behind a single minus sign, since its digits alone are too large (`readInt_exact`).  A source
  text has no such trouble: it reads sign and digits at once.  Apart from the least integer, its number
  words mean the same in an argument (`readInt_of_number`).
-/
import OctoAsm.Command.Number
import OctoAsm.Proofs.Token.Numbers

namespace OctoAsm.Command

open Text (Numeral SignedNumeral IsInt64 maxInt)

/-! ## The grammar -/

/-- The mark of a radix, and behind it a text of some form for that radix. -/
inductive Marked (form : Nat → List Char → Int → Prop) : List Char → Int → Prop where
  | decimal {cs v} (h : form 10 cs v) : Marked form cs v
  | hexadecimal {cs v} (h : form 16 cs v) : Marked form ('0' :: 'x' :: cs) v
  | binary {cs v} (h : form 2 cs v) : Marked form ('0' :: 'b' :: cs) v

/-- A text of some form, behind a minus sign if it begins with one. -/
inductive Negatable (form : List Char → Int → Prop) : List Char → Int → Prop where
  | plain {cs v} (hsign : cs.head? ≠ some '-') (h : form cs v) : Negatable form cs v
  | negated {cs v} (h : form cs v) : Negatable form ('-' :: cs) (-v)

/-- Digits alone. -/
def Unsigned (radix : Nat) (cs : List Char) (v : Int) : Prop := ∃ n : Nat, Numeral radix cs n ∧ n = v

/-- Digits that may have a sign in front, with a value within 64 bits. -/
def Signed64 (radix : Nat) (cs : List Char) (v : Int) : Prop := SignedNumeral radix cs v ∧ IsInt64 v

/-- The form that numbers are meant to have: an optional minus sign, then decimal digits, `0x` and
    hexadecimal digits, or `0b` and binary digits. -/
def Documented : List Char → Int → Prop := Negatable (Marked Unsigned)

/-- The form that numbers may have: there may be one more sign in front of the digits. -/
def Accepted : List Char → Int → Prop := Negatable (Marked Signed64)

/-- A sign that is not the minus sign in front of the whole text. -/
def HasFurtherSign (cs : List Char) : Prop := '+' ∈ cs ∨ '-' ∈ cs.tail

/-! ## What is read -/

section Reading

variable {cs : List Char} {v : Int}

/-- Decimal digits do not begin with a mark. -/
theorem radixOf_decimal (h : SignedNumeral 10 cs v) : radixOf cs = (10, cs) := by
  unfold radixOf
  split
  · exact (not_signedNumeral_of_mark rfl h).elim
  · exact (not_signedNumeral_of_mark rfl h).elim
  · rfl

theorem readUnsigned_eq_ok : readUnsigned cs = .ok v ↔ Marked Signed64 cs v := by
  constructor
  · intro h
    unfold readUnsigned radixOf at h
    split at h
    · exact .hexadecimal ((Text.readInteger_eq_ok (by decide)).mp h)
    · exact .binary ((Text.readInteger_eq_ok (by decide)).mp h)
    · exact .decimal ((Text.readInteger_eq_ok (by decide)).mp h)
  · intro h
    cases h with
    | decimal h =>
      have hread : Text.readInteger 10 cs = .ok v := (Text.readInteger_eq_ok (by decide)).mpr h
      rwa [readUnsigned, radixOf_decimal h.1]
    | @hexadecimal cs _ h =>
      show Text.readInteger 16 cs = .ok v
      exact (Text.readInteger_eq_ok (by decide)).mpr h
    | @binary cs _ h =>
      show Text.readInteger 2 cs = .ok v
      exact (Text.readInteger_eq_ok (by decide)).mpr h

/-- A value behind the mark of a radix is a signed 64-bit integer. -/
theorem Marked.isInt64 (h : Marked Signed64 cs v) : IsInt64 v := by
  cases h with
  | decimal h | hexadecimal h | binary h => exact h.2

theorem negate_eq_ok {n : Int} : negate n = .ok v ↔ n ≠ -(maxInt + 1) ∧ -n = v := by
  unfold negate
  split
  · rename_i hleast
    exact ⟨nofun, fun h => absurd hleast h.1⟩
  · rename_i hleast
    exact ⟨fun h => ⟨hleast, Except.ok.inj h⟩, fun h => congrArg Except.ok h.2⟩

theorem negate_eq_error {n : Int} {fault : ValueFault} :
    negate n = .error fault ↔ n = -(maxInt + 1) ∧ .negationOverflow = fault := by
  unfold negate
  split
  · rename_i hleast
    exact ⟨fun h => ⟨hleast, Except.error.inj h⟩, fun h => congrArg Except.error h.2⟩
  · rename_i hleast
    exact ⟨nofun, fun h => absurd h.1 hleast⟩

theorem readIntChars_plain (hsign : cs.head? ≠ some '-') :
    readIntChars cs = (readUnsigned cs).mapError .integer := by
  unfold readIntChars
  split
  · exact absurd rfl hsign
  · rfl

/-- What is accepted is read, as long as the value is within 64 bits. -/
theorem readIntChars_eq_ok : readIntChars cs = .ok v ↔ Accepted cs v ∧ IsInt64 v := by
  constructor
  · intro h
    by_cases hsign : cs.head? = some '-'
    · obtain ⟨rest, rfl⟩ := List.head?_eq_some_iff.mp hsign
      obtain ⟨w, hw, hneg⟩ := bind_eq_ok.mp h
      obtain ⟨hleast, rfl⟩ := negate_eq_ok.mp hneg
      have hread := readUnsigned_eq_ok.mp (mapError_eq_ok.mp hw)
      obtain ⟨hlo, hhi⟩ := hread.isInt64
      exact ⟨.negated hread, by unfold IsInt64; omega⟩
    · rw [readIntChars_plain hsign] at h
      have hread := readUnsigned_eq_ok.mp (mapError_eq_ok.mp h)
      exact ⟨.plain hsign hread, hread.isInt64⟩
  · rintro ⟨h, hrange⟩
    cases h with
    | plain hsign h =>
      rw [readIntChars_plain hsign]
      exact mapError_eq_ok.mpr (readUnsigned_eq_ok.mpr h)
    | @negated rest w h =>
      have hleast : w ≠ -(maxInt + 1) := by
        have hhi := hrange.2
        omega
      exact bind_eq_ok.mpr ⟨w, mapError_eq_ok.mpr (readUnsigned_eq_ok.mpr h),
        negate_eq_ok.mpr ⟨hleast, rfl⟩⟩

/-- The negation overflows in one case only: the least integer stands behind the first sign. -/
theorem readIntChars_overflow : readIntChars cs = .error .negationOverflow ↔
    ∃ rest, cs = '-' :: rest ∧ Marked Signed64 rest (-(maxInt + 1)) := by
  constructor
  · intro h
    by_cases hsign : cs.head? = some '-'
    · obtain ⟨rest, rfl⟩ := List.head?_eq_some_iff.mp hsign
      rcases bind_eq_error.mp h with hfault | ⟨w, hw, hneg⟩
      · obtain ⟨cause, -, hcause⟩ := mapError_eq_error.mp hfault
        cases hcause
      · obtain ⟨rfl, -⟩ := negate_eq_error.mp hneg
        exact ⟨rest, rfl, readUnsigned_eq_ok.mp (mapError_eq_ok.mp hw)⟩
    · rw [readIntChars_plain hsign] at h
      obtain ⟨cause, -, hcause⟩ := mapError_eq_error.mp h
      cases hcause
  · rintro ⟨rest, rfl, h⟩
    exact bind_eq_error.mpr (.inr ⟨_, mapError_eq_ok.mpr (readUnsigned_eq_ok.mpr h),
      negate_eq_error.mpr ⟨rfl, rfl⟩⟩)

theorem readInt_eq_ok {text : String} :
    readInt text = .ok v ↔ Accepted text.toList v ∧ IsInt64 v := by
  rw [readInt, mapError_eq_ok, readIntChars_eq_ok]

end Reading

/-! ## Further signs -/

section Signs

variable {cs : List Char} {v : Int}

/-- Without a sign in front of them, digits are read if their value is not too large. -/
theorem marked_iff : Marked Signed64 cs v ∧ '+' ∉ cs ∧ '-' ∉ cs ↔
    Marked Unsigned cs v ∧ v.natAbs ≤ maxInt := by
  have hsigned : ∀ {radix rest v}, Signed64 radix rest v → '+' ∉ rest → '-' ∉ rest →
      Unsigned radix rest v ∧ v.natAbs ≤ maxInt := by
    rintro radix rest v ⟨h, -, hhi⟩ hplus hminus
    cases h with
    | unsigned h => exact ⟨⟨_, h, rfl⟩, by omega⟩
    | plus => exact absurd List.mem_cons_self hplus
    | minus => exact absurd List.mem_cons_self hminus
  have hunsigned : ∀ {radix rest v}, Unsigned radix rest v → v.natAbs ≤ maxInt →
      Signed64 radix rest v ∧ '+' ∉ rest ∧ '-' ∉ rest := by
    rintro radix rest v ⟨n, h, rfl⟩ hbound
    exact ⟨⟨.unsigned h, by unfold IsInt64; omega⟩, h.sign_not_mem (.inl rfl),
      h.sign_not_mem (.inr rfl)⟩
  constructor
  · rintro ⟨h, hplus, hminus⟩
    cases h with
    | decimal h => exact (hsigned h hplus hminus).imp_left .decimal
    | hexadecimal h => exact (hsigned h (by simp_all) (by simp_all)).imp_left .hexadecimal
    | binary h => exact (hsigned h (by simp_all) (by simp_all)).imp_left .binary
  · rintro ⟨h, hbound⟩
    cases h with
    | decimal h =>
      obtain ⟨hread, hsigns⟩ := hunsigned h hbound
      exact ⟨.decimal hread, hsigns⟩
    | hexadecimal h =>
      obtain ⟨hread, hplus, hminus⟩ := hunsigned h hbound
      exact ⟨.hexadecimal hread, by simpa using hplus, by simpa using hminus⟩
    | binary h =>
      obtain ⟨hread, hplus, hminus⟩ := hunsigned h hbound
      exact ⟨.binary hread, by simpa using hplus, by simpa using hminus⟩

/-- **Without a further sign** the documented numbers are accepted, and nothing else is. -/
theorem accepted_iff_documented :
    Accepted cs v ∧ ¬ HasFurtherSign cs ↔ Documented cs v ∧ v.natAbs ≤ maxInt := by
  have htail : ∀ {cs : List Char}, cs.head? ≠ some '-' → ('-' ∈ cs.tail ↔ '-' ∈ cs) := by
    intro cs hsign
    cases cs with
    | nil => rfl
    | cons c cs =>
      have hc : '-' ≠ c := fun hc => hsign (hc ▸ rfl)
      rw [List.tail_cons, List.mem_cons, or_iff_right hc]
  constructor
  · rintro ⟨h, hfurther⟩
    cases h with
    | plain hsign h =>
      rw [HasFurtherSign, htail hsign, not_or] at hfurther
      exact (marked_iff.mp ⟨h, hfurther⟩).imp_left (.plain hsign)
    | @negated cs v h =>
      have hsigns : '+' ∉ cs ∧ '-' ∉ cs := by simpa [HasFurtherSign] using hfurther
      obtain ⟨hread, hbound⟩ := marked_iff.mp ⟨h, hsigns⟩
      exact ⟨.negated hread, by omega⟩
  · rintro ⟨h, hbound⟩
    cases h with
    | plain hsign h =>
      rw [HasFurtherSign, htail hsign, not_or]
      exact (marked_iff.mpr ⟨h, hbound⟩).imp_left (.plain hsign)
    | @negated cs v h =>
      obtain ⟨hread, hsigns⟩ := marked_iff.mpr ⟨h, by omega⟩
      exact ⟨.negated hread, by simpa [HasFurtherSign] using hsigns⟩

end Signs

/-- **The numbers of arguments.**  A text is read just when it is accepted and its value is a signed
    64-bit integer.  Without a further sign these are the documented numbers whose digits are not too
    large.  The one way out of 64 bits is the negation of the least integer, which takes a further sign;
    there it overflows. -/
theorem readInt_exact (text : String) (n : Int) :
    (readInt text = .ok n ↔ Accepted text.toList n ∧ IsInt64 n) ∧
    (readInt text = .ok n ∧ ¬ HasFurtherSign text.toList ↔
      Documented text.toList n ∧ n.natAbs ≤ maxInt) ∧
    (readInt text = .error ⟨text, .negationOverflow⟩ ↔
      ∃ rest, text.toList = '-' :: rest ∧ Marked Signed64 rest (-(maxInt + 1))) := by
  have hsmall : n.natAbs ≤ maxInt → IsInt64 n := by
    intro hbound
    unfold IsInt64
    omega
  have hoverflow : readInt text = .error ⟨text, .negationOverflow⟩ ↔
      readIntChars text.toList = .error .negationOverflow := by
    simp [readInt, mapError_eq_error]
  refine ⟨readInt_eq_ok, ?_, hoverflow.trans readIntChars_overflow⟩
  rw [readInt_eq_ok, and_right_comm, accepted_iff_documented]
  exact and_iff_left_of_imp fun h => hsmall h.2

example : readInt "0x-10" = .ok (-16) ∧ readInt "--5" = .ok 5 ∧
    readInt "--9223372036854775808" = .error ⟨"--9223372036854775808", .negationOverflow⟩ :=
  ⟨rfl, rfl, rfl⟩

/-! ## Number words of a source text -/

section Words

variable {word : List Char} {n : Int}

/-- What an argument makes of a number word. -/
theorem readIntChars_of_literal (h : Literal word n) (hrange : IsInt64 n) :
    readIntChars word =
      if n = -(maxInt + 1) then .error (.integer .tooLarge) else .ok n := by
  -- a word without a minus sign is read as it is, and its value is not negative
  have hplain : ∀ {radix cs} {m : Nat}, word.head? ≠ some '-' → radixOf word = (radix, cs) →
      Text.readInteger radix cs = .ok (m : Int) →
      readIntChars word =
        if (m : Int) = -(maxInt + 1) then .error (.integer .tooLarge) else .ok (m : Int) := by
    intro radix cs m hsign hradix hread
    have hmin : (m : Int) ≠ -(maxInt + 1) := by omega
    rw [readIntChars_plain hsign, readUnsigned, hradix, hread, if_neg hmin]
    rfl
  cases h with
  | hexadecimal h =>
    exact hplain (by simp) rfl ((Text.readInteger_eq_ok (by decide)).mpr ⟨.unsigned h, hrange⟩)
  | binary h =>
    exact hplain (by simp) rfl ((Text.readInteger_eq_ok (by decide)).mpr ⟨.unsigned h, hrange⟩)
  | decimal h =>
    have hread : Text.readInteger 10 word = .ok n :=
      (Text.readInteger_eq_ok (by decide)).mpr ⟨h, hrange⟩
    have hradix := radixOf_decimal h
    cases h with
    | unsigned h => exact hplain (h.head?_ne (.inr rfl)) hradix hread
    | plus h => exact hplain (by simp) hradix hread
    | @minus cs m h =>
      have hbound : (m : Int) ≤ maxInt + 1 := by
        have hlo := hrange.1
        omega
      have hmagnitude : readUnsigned cs = if m ≤ maxInt then .ok (m : Int) else .error .tooLarge := by
        rw [readUnsigned, radixOf_decimal (.unsigned h), h.readInteger_eq (by decide)]
      show (readUnsigned cs).mapError .integer >>= negate = _
      rw [hmagnitude]
      by_cases hmax : m ≤ maxInt
      · have hmin : -(m : Int) ≠ -(maxInt + 1) := by omega
        rw [if_pos hmax, if_neg hmin]
        show negate (m : Int) = .ok (-(m : Int))
        exact negate_eq_ok.mpr ⟨by omega, rfl⟩
      · have hmin : -(m : Int) = -(maxInt + 1) := by omega
        rw [if_neg hmax, if_pos hmin]
        rfl

/-- A value behind the first equals sign. -/
theorem readDefine_append {name value : String} (hname : name ≠ "") (heq : '=' ∉ name.toList) :
    readDefine (name ++ "=" ++ value) = (readInt value).map fun n => (name, n) := by
  have htext : (name ++ "=" ++ value).toList = name.toList ++ '=' :: value.toList := by simp
  have hpass : ∀ c ∈ name.toList, (c != '=') = true := by
    intro c hc
    exact bne_iff_ne.mpr fun hceq => heq (hceq ▸ hc)
  have hne : name.toList.isEmpty = false := by simpa using hname
  rw [readDefine, htext, List.takeWhile_append_of_pos hpass, List.dropWhile_append_of_pos hpass]
  simp [hne]

end Words

/-- **A number word of a source text** means the same as an argument, and as the value of a constant,
    unless it stands for the least signed 64-bit integer: its digits alone are too large. -/
theorem readInt_of_number {word : List Char} {n : Int} (h : number? word = .ok (some n)) :
    (readInt (String.ofList word) =
      if n = -(maxInt + 1) then .error ⟨String.ofList word, .integer .tooLarge⟩ else .ok n) ∧
    ∀ name : String, name ≠ "" → '=' ∉ name.toList →
      readDefine (name ++ "=" ++ String.ofList word) =
        if n = -(maxInt + 1) then .error ⟨String.ofList word, .integer .tooLarge⟩
        else .ok (name, n) := by
  obtain ⟨hliteral, hrange⟩ := number?_eq_some.mp h
  have hread : readInt (String.ofList word) = if n = -(maxInt + 1) then
      .error ⟨String.ofList word, .integer .tooLarge⟩ else .ok n := by
    rw [readInt, String.toList_ofList, readIntChars_of_literal hliteral hrange]
    split <;> rfl
  refine ⟨hread, fun name hname heq => ?_⟩
  rw [readDefine_append hname heq, hread]
  split <;> rfl

/-- The least number of a source text that is a number in an argument, and the one below it. -/
theorem readInt_of_number_least :
    (number? "-9223372036854775807".toList = .ok (some (-9223372036854775807)) ∧
      readInt "-9223372036854775807" = .ok (-9223372036854775807) ∧
      readDefine "LOW=-9223372036854775807" = .ok ("LOW", -9223372036854775807)) ∧
    number? "-9223372036854775808".toList = .ok (some (-9223372036854775808)) ∧
      readInt "-9223372036854775808" = .error ⟨"-9223372036854775808", .integer .tooLarge⟩ := by
  have hlow : number? "-9223372036854775807".toList = .ok (some (-9223372036854775807)) := rfl
  have hleast : number? "-9223372036854775808".toList = .ok (some (-9223372036854775808)) := rfl
  obtain ⟨hread, hdefine⟩ := readInt_of_number hlow
  exact ⟨⟨hlow, hread, hdefine "LOW" (by decide) (by decide)⟩, hleast, (readInt_of_number hleast).1⟩

end OctoAsm.Command
