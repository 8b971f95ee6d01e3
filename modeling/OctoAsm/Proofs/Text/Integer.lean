/-
  Signed 64-bit integers are read as they are written.

  A numeral is one or more digits of a radix, and stands for the number that has these digits
  (`Numeral`).  It is read from the left, with a check against the bound after every digit.  No value
  on the way exceeds the whole (`le_extend`), so a check fails just when the whole is beyond the bound
  (`accumulate_of_digits`, by induction on the digits): leading zeros do no harm, and what is refused
  half-way would not have come back.

  The bound below zero is one more than the one above.  What is read is therefore every numeral, with
  a sign or without one, whose value is a signed 64-bit integer, and nothing else
  (`readInteger_eq_ok`).
-/
import Mathlib.Data.Nat.Digits.Defs
import Mathlib.Data.List.Forall2
import OctoAsm.Proofs.Outcome
import OctoAsm.Text.Integer

namespace OctoAsm.Text

/-! ## Numerals -/

/-- A character and the digit it is. -/
def IsDigit (radix : Nat) (c : Char) (d : Nat) : Prop := digit? radix c = some d

/-- One or more digits of `radix`, and the number that they stand for. -/
inductive Numeral (radix : Nat) (cs : List Char) (n : Nat) : Prop where
  | mk {ds : List Nat} (hcs : cs ≠ []) (digits : List.Forall₂ (IsDigit radix) cs ds)
      (value : Nat.ofDigits radix ds.reverse = n)

/-- A numeral, with a sign or without one. -/
inductive SignedNumeral (radix : Nat) : List Char → Int → Prop where
  | unsigned {cs n} (h : Numeral radix cs n) : SignedNumeral radix cs n
  | plus {cs n} (h : Numeral radix cs n) : SignedNumeral radix ('+' :: cs) n
  | minus {cs n} (h : Numeral radix cs n) : SignedNumeral radix ('-' :: cs) (-n)

/-- A signed 64-bit integer. -/
def IsInt64 (n : Int) : Prop := -(maxInt + 1) ≤ n ∧ n ≤ maxInt

section Digits

variable {radix bound acc n : Nat} {beyond : IntegerFault} {cs : List Char} {ds : List Nat}

/-- A sign is no digit. -/
theorem digit?_sign {c : Char} (h : c = '+' ∨ c = '-') (radix : Nat) : digit? radix c = none := by
  rcases h with rfl | rfl <;> rfl

/-- Every character of a numeral is a digit. -/
theorem Numeral.exists_digit (h : Numeral radix cs n) {c : Char} (hc : c ∈ cs) :
    ∃ d, IsDigit radix c d := by
  obtain ⟨-, hdigits, -⟩ := h
  induction hdigits with
  | nil => cases hc
  | cons hd _ ih =>
    rcases List.mem_cons.mp hc with rfl | hc
    · exact ⟨_, hd⟩
    · exact ih hc

/-- A sign is no digit. -/
theorem Numeral.sign_not_mem (h : Numeral radix cs n) {c : Char} (hc : c = '+' ∨ c = '-') :
    c ∉ cs := by
  intro hmem
  obtain ⟨d, hd⟩ := h.exists_digit hmem
  rw [IsDigit, digit?_sign hc] at hd
  cases hd

/-- The number `acc` with more digits behind it. -/
def extend (radix acc : Nat) (ds : List Nat) : Nat := ds.foldl (fun n d => n * radix + d) acc

theorem extend_cons (radix acc d : Nat) (ds : List Nat) :
    extend radix acc (d :: ds) = extend radix (acc * radix + d) ds := rfl

/-- Digits from the left are digits from the right. -/
theorem extend_zero (radix : Nat) (ds : List Nat) :
    extend radix 0 ds = Nat.ofDigits radix ds.reverse := by
  have hstep : (fun n d : Nat => n * radix + d) = fun n d => d + radix * n := by
    funext n d
    rw [Nat.mul_comm, Nat.add_comm]
  rw [Nat.ofDigits_eq_foldr, List.foldr_reverse, extend, hstep]
  rfl

/-- What has been read so far does not exceed the whole. -/
theorem le_extend (hradix : 0 < radix) (ds : List Nat) (acc : Nat) : acc ≤ extend radix acc ds := by
  induction ds generalizing acc with
  | nil => exact Nat.le_refl acc
  | cons d ds ih =>
    have hstep : acc ≤ acc * radix := Nat.le_mul_of_pos_right acc hradix
    have hrest := ih (acc * radix + d)
    rw [extend_cons]
    omega

/-- **Digits are read as the number they stand for**, if it is within the bound. -/
theorem accumulate_of_digits (hradix : 0 < radix) (h : List.Forall₂ (IsDigit radix) cs ds)
    (hacc : acc ≤ bound) : accumulate radix bound beyond acc cs =
      if extend radix acc ds ≤ bound then .ok (extend radix acc ds) else .error beyond := by
  induction h generalizing acc with
  | nil => exact (if_pos hacc).symm
  | @cons c d cs ds hd _ ih =>
    replace hd : digit? radix c = some d := hd
    rw [accumulate, hd, extend_cons]
    dsimp only
    split
    · rename_i hstep
      exact ih hstep
    · rename_i hstep
      have hwhole := le_extend hradix ds (acc * radix + d)
      have hbeyond : ¬ extend radix (acc * radix + d) ds ≤ bound := by omega
      exact (if_neg hbeyond).symm

/-- Nothing but digits is read. -/
theorem digits_of_accumulate (h : accumulate radix bound beyond acc cs = .ok n) :
    ∃ ds, List.Forall₂ (IsDigit radix) cs ds := by
  induction cs generalizing acc with
  | nil => exact ⟨[], .nil⟩
  | cons c cs ih =>
    rw [accumulate] at h
    split at h
    · cases h
    · rename_i d hd
      split at h
      · obtain ⟨ds, hds⟩ := ih h
        exact ⟨d :: ds, .cons hd hds⟩
      · cases h

/-- A numeral is read as its number, or refused when that is beyond the bound. -/
theorem Numeral.accumulate_eq (hradix : 0 < radix) (h : Numeral radix cs n) (bound : Nat)
    (beyond : IntegerFault) :
    accumulate radix bound beyond 0 cs = if n ≤ bound then .ok n else .error beyond := by
  obtain ⟨-, hdigits, rfl⟩ := h
  rw [accumulate_of_digits hradix hdigits (Nat.zero_le bound), extend_zero]

/-- A numeral is read if it is within the bound, and nothing else is. -/
theorem accumulate_eq_ok (hradix : 0 < radix) (hcs : cs ≠ []) :
    accumulate radix bound beyond 0 cs = .ok n ↔ Numeral radix cs n ∧ n ≤ bound := by
  constructor
  · intro h
    obtain ⟨ds, hds⟩ := digits_of_accumulate h
    have hnumeral : Numeral radix cs (Nat.ofDigits radix ds.reverse) := ⟨hcs, hds, rfl⟩
    rw [hnumeral.accumulate_eq hradix] at h
    split at h
    · rename_i hbound
      obtain rfl := Except.ok.inj h
      exact ⟨hnumeral, hbound⟩
    · cases h
  · rintro ⟨h, hbound⟩
    rw [h.accumulate_eq hradix, if_pos hbound]

end Digits

/-! ## Signs -/

section Signs

variable {radix n : Nat} {cs : List Char} {v : Int}

/-- Without a sign the greatest integer is the bound. -/
theorem readMagnitude_eq_ok (hradix : 0 < radix) (hcs : cs ≠ []) :
    readMagnitude radix cs = .ok v ↔ ∃ n : Nat, Numeral radix cs n ∧ n ≤ maxInt ∧ n = v := by
  simp only [readMagnitude, map_eq_ok, accumulate_eq_ok hradix hcs, and_assoc, Int.ofNat_eq_natCast]

/-- Behind a minus sign the bound is one more. -/
theorem readNegated_eq_ok (hradix : 0 < radix) (hcs : cs ≠ []) :
    readNegated radix cs = .ok v ↔
      ∃ n : Nat, Numeral radix cs n ∧ n ≤ maxInt + 1 ∧ -(n : Int) = v := by
  have hmap : readNegated radix cs =
      (accumulate radix (maxInt + 1) .tooSmall 0 cs).map fun n : Nat => -(n : Int) := by
    unfold readNegated
    cases accumulate radix (maxInt + 1) .tooSmall 0 cs <;> rfl
  rw [hmap, map_eq_ok]
  simp only [accumulate_eq_ok hradix hcs, and_assoc]

/-- Whatever does not begin with a sign is read without one. -/
theorem readInteger_unsigned (hcs : cs ≠ []) (hplus : cs.head? ≠ some '+')
    (hminus : cs.head? ≠ some '-') : readInteger radix cs = readMagnitude radix cs := by
  unfold readInteger
  split
  · exact absurd rfl hcs
  · exact absurd rfl hplus
  · exact absurd rfl hminus
  · exact absurd rfl hplus
  · exact absurd rfl hminus
  · rfl

theorem readInteger_plus (hcs : cs ≠ []) :
    readInteger radix ('+' :: cs) = readMagnitude radix cs := by
  cases cs with
  | nil => exact absurd rfl hcs
  | cons c cs => rfl

theorem readInteger_minus (hcs : cs ≠ []) :
    readInteger radix ('-' :: cs) = readNegated radix cs := by
  cases cs with
  | nil => exact absurd rfl hcs
  | cons c cs => rfl

theorem Numeral.ne_nil (h : Numeral radix cs n) : cs ≠ [] := by
  obtain ⟨hcs, -, -⟩ := h
  exact hcs

theorem Numeral.head?_ne (h : Numeral radix cs n) {c : Char} (hc : c = '+' ∨ c = '-') :
    cs.head? ≠ some c := fun hhead => h.sign_not_mem hc (List.mem_of_head? hhead)

/-- A numeral alone is read as a number that is not negative. -/
theorem Numeral.readInteger_eq (hradix : 0 < radix) (h : Numeral radix cs n) :
    readInteger radix cs = if n ≤ maxInt then .ok (n : Int) else .error .tooLarge := by
  rw [readInteger_unsigned h.ne_nil (h.head?_ne (.inl rfl)) (h.head?_ne (.inr rfl)), readMagnitude,
    h.accumulate_eq hradix]
  split <;> rfl

/-- **A signed 64-bit integer is read from its digits, and nothing else is.** -/
theorem readInteger_eq_ok (hradix : 0 < radix) :
    readInteger radix cs = .ok v ↔ SignedNumeral radix cs v ∧ IsInt64 v := by
  constructor
  · intro h
    -- the first character decides how the digits are read
    cases cs with
    | nil => cases h
    | cons c cs =>
      by_cases hplus : c = '+'
      · subst hplus
        by_cases hcs : cs = []
        · rw [hcs] at h
          cases h
        · rw [readInteger_plus hcs, readMagnitude_eq_ok hradix hcs] at h
          obtain ⟨n, hn, hbound, rfl⟩ := h
          exact ⟨.plus hn, by unfold IsInt64; omega⟩
      · by_cases hminus : c = '-'
        · subst hminus
          by_cases hcs : cs = []
          · rw [hcs] at h
            cases h
          · rw [readInteger_minus hcs, readNegated_eq_ok hradix hcs] at h
            obtain ⟨n, hn, hbound, rfl⟩ := h
            exact ⟨.minus hn, by unfold IsInt64; omega⟩
        · have hcs : c :: cs ≠ [] := List.cons_ne_nil c cs
          rw [readInteger_unsigned hcs (by simpa using hplus) (by simpa using hminus),
            readMagnitude_eq_ok hradix hcs] at h
          obtain ⟨n, hn, hbound, rfl⟩ := h
          exact ⟨.unsigned hn, by unfold IsInt64; omega⟩
  · rintro ⟨h, hlo, hhi⟩
    cases h with
    | unsigned hn => rw [hn.readInteger_eq hradix, if_pos (by omega)]
    | plus hn =>
      rw [readInteger_plus hn.ne_nil, readMagnitude_eq_ok hradix hn.ne_nil]
      exact ⟨_, hn, by omega, rfl⟩
    | minus hn =>
      rw [readInteger_minus hn.ne_nil, readNegated_eq_ok hradix hn.ne_nil]
      exact ⟨_, hn, by omega, rfl⟩

end Signs

end OctoAsm.Text
