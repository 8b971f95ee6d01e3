/-
  Operands and assignments are read exactly as they are written.

  For each reader there is one equivalence: it succeeds, and leaves `rest`, just when the tokens are a
  text of its result followed by `rest`.  An expression is the one place that goes deep; it is read to
  its end because whatever closes it is no operator (`CalcText.read`).
-/
import OctoAsm.Proofs.Outcome
import OctoAsm.Proofs.Statement.Grammar

namespace OctoAsm

/-! ## Steps of a reader -/

namespace Reader

variable {α β : Type} {ts rest : List Token}

/-- A reader that succeeds succeeds at both of its steps, the second one on what the first
    one left. -/
theorem bind_eq_ok {x : Reader α} {f : α → Reader β} {b : β} :
    (x >>= f) ts = .ok (b, rest) ↔ ∃ a mid, x ts = .ok (a, mid) ∧ f a mid = .ok (b, rest) := by
  show (x ts >>= fun p => f p.1 p.2) = .ok (b, rest) ↔ _
  rw [OctoAsm.bind_eq_ok]
  simp

/-- Mapping the result leaves the same tokens. -/
theorem map_eq_ok {x : Reader α} {f : α → β} {b : β} :
    (f <$> x) ts = .ok (b, rest) ↔ ∃ a, x ts = .ok (a, rest) ∧ f a = b := by
  show (x ts >>= fun p => pure (f p.1, p.2)) = .ok (b, rest) ↔ _
  rw [OctoAsm.bind_eq_ok]
  simp [pure, Except.pure]

/-- A reader that does nothing leaves all tokens. -/
theorem pure_eq_ok {a b : α} : (pure a : Reader α) ts = .ok (b, rest) ↔ a = b ∧ ts = rest := by
  show (Except.ok (a, ts) : Except Stop _) = .ok (b, rest) ↔ _
  simp

/-- Refusing is no success. -/
theorem refuse_ne_ok {cause : ParseCause} {b : α} :
    (refuse cause : Reader α) ts = .ok (b, rest) ↔ False := by
  simp [refuse]

/-- Neither is refusing at a token. -/
theorem refuseAt_ne_ok {token : Token} {cause : ParseCause} {b : α} :
    (refuseAt token cause : Reader α) ts = .ok (b, rest) ↔ False := by
  simp [refuseAt]

/-- Names a reader, so that it can be taken apart before the tokens are put in. -/
theorem exists_reader {x : Reader α} {r : Except Stop (α × List Token)} (h : x ts = r) :
    ∃ y : Reader α, x = y ∧ y ts = r := ⟨x, rfl, h⟩

/-- Looking at the next token takes none. -/
theorem peek_eq_ok {t : Option Token} : peek ts = .ok (t, rest) ↔ ts.head? = t ∧ ts = rest := by
  simp [peek]

/-- Looking at the kind of the next token takes none. -/
theorem peekKind_eq_ok {kind : Option TokenKind} :
    peekKind ts = .ok (kind, rest) ↔ lead ts none = kind ∧ ts = rest := by
  cases ts <;> simp [peekKind]

/-- Counting the tokens takes none. -/
theorem remaining_eq_ok {n : Nat} : remaining ts = .ok (n, rest) ↔ ts.length = n ∧ ts = rest := by
  simp [remaining]

/-- Skipping takes one token, whatever it is. -/
theorem skip_eq_ok {t : Token} {u : Unit} : skip (t :: ts) = .ok (u, rest) ↔ ts = rest := by
  simp [skip]

/-- Taking a token needs one. -/
theorem take_eq_ok {what : String} {t : Token} : take what ts = .ok (t, rest) ↔ ts = t :: rest := by
  cases ts <;> simp [take]

/-- A token of a given kind is taken. -/
theorem expect_eq_ok {kind : TokenKind} {what : String} {t : Token} :
    expect kind what ts = .ok (t, rest) ↔ ts = t :: rest ∧ t.kind = kind := by
  cases ts with
  | nil => simp [expect]
  | cons t' ts =>
    by_cases hkind : t'.kind = kind
    · simp only [expect, hkind, if_true, Except.ok.injEq, Prod.mk.injEq, List.cons.injEq]
      constructor
      · rintro ⟨rfl, rfl⟩
        exact ⟨⟨rfl, rfl⟩, hkind⟩
      · exact fun h => h.1
    · simp only [expect, hkind, if_false, reduceCtorEq, List.cons.injEq, false_iff]
      rintro ⟨⟨rfl, -⟩, hkind'⟩
      exact hkind hkind'

end Reader

open Reader

/-! ## Operands -/

section Operands

variable {ts rest : List Token}

/-- A name is read from one token. -/
theorem readName_eq_ok {t : Token} :
    readName ts = .ok (t, rest) ↔ ts = t :: rest ∧ t.kind = .name := expect_eq_ok

/-- A reader that takes one token and answers what the token is by itself. -/
theorem eq_ok_of_token {α : Type} {reader : Reader α} {of? : Token → Option α} {cause : ParseCause}
    (hnil : reader [] = .error (.refused none cause))
    (hcons : ∀ t us, reader (t :: us) =
      (of? t).elim (.error (.refused (some t) cause)) fun a => .ok (a, us)) {a : α} :
    reader ts = .ok (a, rest) ↔ ∃ t, ts = t :: rest ∧ of? t = some a := by
  cases ts with
  | nil => simp [hnil]
  | cons t us =>
    rw [hcons]
    constructor
    · intro h
      cases hof : of? t with
      | none => simp [hof] at h
      | some b =>
        obtain ⟨rfl, rfl⟩ : b = a ∧ us = rest := by simpa [hof] using h
        exact ⟨t, rfl, hof⟩
    · rintro ⟨t', heq, hof⟩
      obtain ⟨rfl, rfl⟩ := List.cons.inj heq
      rw [hof]
      rfl

/-- A register is read from one token that stands for it. -/
theorem readRegister_eq_ok {r : RegRef} :
    readRegister ts = .ok (r, rest) ↔ ∃ t, ts = t :: rest ∧ RegRef.ofToken? t = some r := by
  refine eq_ok_of_token rfl fun t us => ?_
  obtain ⟨line, kind, text⟩ := t
  cases kind with
  | register reg => cases reg <;> rfl
  | _ => rfl

/-- A value is read from one token that stands for it. -/
theorem readValue_eq_ok {v : ValueRef} :
    readValue ts = .ok (v, rest) ↔ ∃ t, ts = t :: rest ∧ ValueRef.ofToken? t = some v := by
  refine eq_ok_of_token rfl fun t us => ?_
  obtain ⟨line, kind, text⟩ := t
  cases kind <;> rfl

/-- A register or a value is read from one token that stands for either. -/
theorem readRegisterOrValue_eq_ok {v : ValueRef} :
    readRegisterOrValue ts = .ok (v, rest) ↔
      ∃ t, ts = t :: rest ∧ ValueRef.ofEither? t = some v := by
  refine eq_ok_of_token rfl fun t us => ?_
  obtain ⟨line, kind, text⟩ := t
  cases kind with
  | register reg => cases reg <;> rfl
  | _ => rfl

/-! ## Calc expressions -/

/-- A token is taken as an operator when it is one that has a meaning here. -/
theorem operatorAs_eq_some {ω : Type} {meaning? : Operator → Option ω} {t : Option Token}
    {o : Token} {m : ω} :
    operatorAs meaning? t = some (o, m) ↔
      t = some o ∧ ∃ op, o.kind = .operator op ∧ meaning? op = some m := by
  cases t with
  | none => simp [operatorAs]
  | some t =>
    obtain ⟨line, kind, text⟩ := t
    cases kind with
    | operator op =>
      simp only [operatorAs, Option.map_eq_some_iff, Prod.mk.injEq, Option.some.injEq]
      constructor
      · rintro ⟨m', hm, rfl, rfl⟩
        exact ⟨rfl, op, rfl, hm⟩
      · rintro ⟨rfl, op', hop, hm⟩
        cases hop
        exact ⟨m, hm, rfl, rfl⟩
    | _ =>
      simp only [operatorAs, reduceCtorEq, Option.some.injEq, false_iff]
      rintro ⟨rfl, op, hop, -⟩
      cases hop

/-- Before a closing parenthesis or brace there is no operator. -/
theorem operatorAs_eq_none {ω : Type} {meaning? : Operator → Option ω} {t : Option Token}
    (h : ∀ o ∈ t, ∀ op, o.kind ≠ .operator op) : operatorAs meaning? t = none := by
  cases hop : operatorAs meaning? t with
  | none => rfl
  | some p =>
    obtain ⟨ht, op, hkind, -⟩ := operatorAs_eq_some.mp hop
    exact absurd hkind (h p.1 ht op)

/-- A term is decided by its first token: an operand, a parenthesis, or nothing that an expression
    may begin with. -/
theorem readCalcTerm_cons (inner : Reader CalcExpr) (t : Token) (us : List Token) :
    readCalcTerm inner (t :: us) =
      (CalcExpr.ofToken? t).elim
        (match t.kind with
          | .openParen => (do let e ← inner; let _ ← expect .closeParen "`)`"; return e : Reader _) us
          | _ => .error (.refused (some t) (.expected "a number, name or `(`")))
        fun e => .ok (e, us) := by
  obtain ⟨line, kind, text⟩ := t
  cases kind <;> rfl

/-- A term is one operand, or an expression in parentheses. -/
theorem readCalcTerm_eq_ok {inner : Reader CalcExpr} {e : CalcExpr} :
    readCalcTerm inner ts = .ok (e, rest) ↔
      (∃ t, ts = t :: rest ∧ CalcExpr.ofToken? t = some e) ∨
      ∃ o us c, ts = o :: us ∧ o.kind = .openParen ∧ inner us = .ok (e, c :: rest) ∧
        c.kind = .closeParen := by
  cases ts with
  | nil =>
    have hnil : readCalcTerm inner [] = .error (.refused none (.expected "an expression")) := rfl
    simp [hnil]
  | cons t us =>
    rw [readCalcTerm_cons]
    cases hof : CalcExpr.ofToken? t with
    | some a =>
      -- What is an expression by itself is no parenthesis.
      have hparen : t.kind ≠ .openParen := by
        intro hkind
        simp [CalcExpr.ofToken?, hkind] at hof
      simp only [Option.elim, Except.ok.injEq, Prod.mk.injEq, List.cons.injEq]
      constructor
      · rintro ⟨rfl, rfl⟩
        exact .inl ⟨t, ⟨rfl, rfl⟩, hof⟩
      · rintro (⟨t', ⟨rfl, rfl⟩, hof'⟩ | ⟨o, us', c, ⟨rfl, rfl⟩, hkind, -⟩)
        · exact ⟨Option.some.inj (hof.symm.trans hof'), rfl⟩
        · exact absurd hkind hparen
    | none =>
      simp only [Option.elim, List.cons.injEq]
      split
      · rename_i hkind
        simp only [Reader.bind_eq_ok, expect_eq_ok, Reader.pure_eq_ok]
        constructor
        · rintro ⟨a, mid, hinner, c, mid', ⟨rfl, hc⟩, rfl, rfl⟩
          exact .inr ⟨t, us, c, ⟨rfl, rfl⟩, hkind, hinner, hc⟩
        · rintro (⟨t', ⟨rfl, rfl⟩, hof'⟩ | ⟨o, us', c, ⟨rfl, rfl⟩, -, hinner, hc⟩)
          · simp [hof] at hof'
          · exact ⟨e, _, hinner, c, rest, ⟨rfl, hc⟩, rfl, rfl⟩
      · rename_i hkind
        constructor
        · nofun
        · rintro (⟨t', ⟨rfl, rfl⟩, hof'⟩ | ⟨o, us', c, ⟨rfl, rfl⟩, hkind', -⟩)
          · simp [hof] at hof'
          · exact absurd hkind' hkind

/-- An expression is an operator in front of an expression, or a term, with an operator and an
    expression behind it or not. Nothing else may be done, as the next token decides. -/
theorem readCalcLevels_succ_eq_ok {n : Nat} {e : CalcExpr} :
    readCalcLevels (n + 1) ts = .ok (e, rest) ↔
      (∃ t us op m e', ts = t :: us ∧ t.kind = .operator op ∧ unaryOp? op = some m ∧
        readCalcLevels n us = .ok (e', rest) ∧ .unary t m e' = e) ∨
      operatorAs unaryOp? ts.head? = none ∧ ∃ l mid,
        readCalcTerm (readCalcLevels n) ts = .ok (l, mid) ∧
          ((operatorAs binaryOp? mid.head? = none ∧ l = e ∧ mid = rest) ∨
            ∃ t us op m r, mid = t :: us ∧ t.kind = .operator op ∧ binaryOp? op = some m ∧
              readCalcLevels n us = .ok (r, rest) ∧ .binary t m l r = e) := by
  cases ts with
  | nil =>
    have hnil : readCalcLevels (n + 1) [] = .error (.refused none (.expected "an expression")) := rfl
    have hterm : readCalcTerm (readCalcLevels n) [] =
        .error (.refused none (.expected "an expression")) := rfl
    simp [hnil, hterm]
  | cons t us =>
    simp only [readCalcLevels, Reader.bind_eq_ok, peek_eq_ok]
    constructor
    · rintro ⟨_, mid, ⟨rfl, rfl⟩, h⟩
      simp only [List.head?_cons] at h
      cases hunary : operatorAs unaryOp? (some t) with
      | some p =>
        obtain ⟨o, m⟩ := p
        obtain ⟨ht, op, hkind, hop⟩ := operatorAs_eq_some.mp hunary
        obtain rfl := Option.some.inj ht
        simp only [hunary, Reader.bind_eq_ok, skip_eq_ok, Reader.pure_eq_ok] at h
        obtain ⟨_, mid, rfl, e', mid', hr, rfl, rfl⟩ := h
        exact .inl ⟨t, us, op, m, e', rfl, hkind, hop, hr, rfl⟩
      | none =>
        simp only [hunary, Reader.bind_eq_ok, peek_eq_ok] at h
        obtain ⟨l, mid, hl, _, mid', ⟨rfl, rfl⟩, h⟩ := h
        refine .inr ⟨hunary, l, mid, hl, ?_⟩
        cases hbinary : operatorAs binaryOp? mid.head? with
        | none =>
          simp only [hbinary, Reader.pure_eq_ok] at h
          exact .inl ⟨rfl, h.1, h.2⟩
        | some p =>
          obtain ⟨o, m⟩ := p
          obtain ⟨ht, op, hkind, hop⟩ := operatorAs_eq_some.mp hbinary
          obtain ⟨us', rfl⟩ := List.head?_eq_some_iff.mp ht
          simp only [hbinary, Reader.bind_eq_ok, skip_eq_ok, Reader.pure_eq_ok] at h
          obtain ⟨_, mid', rfl, r, mid'', hr, rfl, rfl⟩ := h
          exact .inr ⟨o, us', op, m, r, rfl, hkind, hop, hr, rfl⟩
    -- the first token as a unary operator, or as the beginning of a term
    · rintro (⟨t', us', op, m, e', heq, hkind, hop, hr, rfl⟩ | ⟨hunary, l, mid, hl, h⟩)
      · obtain ⟨rfl, rfl⟩ := List.cons.inj heq
        have hunary : operatorAs unaryOp? (some t) = some (t, m) :=
          operatorAs_eq_some.mpr ⟨rfl, op, hkind, hop⟩
        refine ⟨_, _, ⟨rfl, rfl⟩, ?_⟩
        simp only [List.head?_cons, hunary, Reader.bind_eq_ok, skip_eq_ok, Reader.pure_eq_ok]
        exact ⟨(), us, rfl, e', rest, hr, rfl, rfl⟩
      · rw [List.head?_cons] at hunary
        refine ⟨_, _, ⟨rfl, rfl⟩, ?_⟩
        simp only [List.head?_cons, hunary, Reader.bind_eq_ok, peek_eq_ok]
        refine ⟨l, mid, hl, _, mid, ⟨rfl, rfl⟩, ?_⟩
        obtain ⟨hbinary, rfl, rfl⟩ | ⟨o, us', op, m, r, rfl, hkind, hop, hr, rfl⟩ := h
        · simp only [hbinary, Reader.pure_eq_ok, and_self]
        · have hbinary : operatorAs binaryOp? (some o) = some (o, m) :=
            operatorAs_eq_some.mpr ⟨rfl, op, hkind, hop⟩
          simp only [List.head?_cons, hbinary, Reader.bind_eq_ok, skip_eq_ok, Reader.pure_eq_ok]
          exact ⟨(), us', rfl, r, rest, hr, rfl, rfl⟩

/-- What is read as a term is written as one, given the same of the levels below. -/
theorem readCalcTerm_text {n : Nat} {e : CalcExpr}
    (hinner : ∀ {ts rest e}, readCalcLevels n ts = .ok (e, rest) →
      ∃ p, ts = p ++ rest ∧ CalcText .whole n p e)
    (h : readCalcTerm (readCalcLevels n) ts = .ok (e, rest)) :
    ∃ p, ts = p ++ rest ∧ CalcText .term n p e := by
  obtain ⟨t, rfl, hof⟩ | ⟨o, us, c, rfl, ho, hus, hc⟩ := readCalcTerm_eq_ok.mp h
  · exact ⟨[t], rfl, .atom hof⟩
  · obtain ⟨p, rfl, hp⟩ := hinner hus
    exact ⟨o :: (p ++ [c]), by simp, .paren ho hp hc⟩

/-- By induction on the levels: what is read as an expression is written as one. -/
theorem readCalcLevels_text {n : Nat} {e : CalcExpr} (h : readCalcLevels n ts = .ok (e, rest)) :
    ∃ p, ts = p ++ rest ∧ CalcText .whole n p e := by
  induction n generalizing ts rest e with
  | zero => cases h
  | succ n ih =>
    obtain ⟨t, us, op, m, e', rfl, hkind, hop, hr, rfl⟩ | ⟨-, l, mid, hl, hmid⟩ :=
      readCalcLevels_succ_eq_ok.mp h
    · obtain ⟨p, rfl, hp⟩ := ih hr
      exact ⟨t :: p, rfl, .unary hkind hop hp⟩
    · obtain ⟨p, rfl, hp⟩ := readCalcTerm_text ih hl
      obtain ⟨-, rfl, rfl⟩ | ⟨t, us, op, m, r, rfl, hkind, hop, hr, rfl⟩ := hmid
      · exact ⟨p, rfl, .term hp⟩
      · obtain ⟨q, rfl, hq⟩ := ih hr
        exact ⟨p ++ t :: q, by simp, .binary hp hkind hop hq⟩

/-- A term does not begin with an operator. -/
theorem CalcText.term_begins {n : Nat} {p : List Token} {e : CalcExpr} (h : CalcText .term n p e) :
    ∃ t us, p = t :: us ∧ ∀ op, t.kind ≠ .operator op := by
  cases h with
  | atom hof =>
    refine ⟨_, _, rfl, fun op hop => ?_⟩
    simp [CalcExpr.ofToken?, hop] at hof
  | paren ho => exact ⟨_, _, rfl, fun op hop => by rw [ho] at hop; cases hop⟩

/-- A text of an expression is read to its end: a term before anything, a whole expression before
    a closing parenthesis or brace. -/
theorem CalcText.read {place : CalcPlace} {n : Nat} {p : List Token} {e : CalcExpr}
    (h : CalcText place n p e) :
    match place with
    | .term => ∀ rest, readCalcTerm (readCalcLevels n) (p ++ rest) = .ok (e, rest)
    | .whole => ∀ c rest, (∀ op, c.kind ≠ .operator op) →
        readCalcLevels n (p ++ c :: rest) = .ok (e, c :: rest) := by
  induction h with
  | atom hof => exact fun rest => readCalcTerm_eq_ok.mpr (.inl ⟨_, rfl, hof⟩)
  | @paren n o ts c e ho _ hc ih =>
    intro rest
    -- a closing parenthesis is no operator, so the inner text is read to its end
    have hinner := ih c rest fun op hop => by rw [hc] at hop; cases hop
    exact readCalcTerm_eq_ok.mpr (.inr ⟨o, ts ++ c :: rest, c, by simp, ho, hinner, hc⟩)
  | @term n ts e h ih =>
    intro c rest hc
    -- neither the first token of a term nor what closes the expression is an operator
    obtain ⟨t, us, rfl, ht⟩ := h.term_begins
    refine readCalcLevels_succ_eq_ok.mpr (.inr ⟨?_, e, c :: rest, ih _, .inl ⟨?_, rfl, rfl⟩⟩)
    · exact operatorAs_eq_none fun o ho => by simpa using (Option.mem_some.mp ho) ▸ ht
    · exact operatorAs_eq_none fun o ho => by simpa using (Option.mem_some.mp ho) ▸ hc
  | @unary n t op m ts e hkind hop _ ih =>
    intro c rest hc
    exact readCalcLevels_succ_eq_ok.mpr
      (.inl ⟨t, ts ++ c :: rest, op, m, e, rfl, hkind, hop, ih c rest hc, rfl⟩)
  | @binary n ls l t op m rs r hl hkind hop _ ihl ihr =>
    intro c rest hc
    obtain ⟨t', us, rfl, ht'⟩ := hl.term_begins
    refine readCalcLevels_succ_eq_ok.mpr (.inr ⟨?_, l, t :: (rs ++ c :: rest), ?_, .inr ?_⟩)
    · exact operatorAs_eq_none fun o ho => by simpa using (Option.mem_some.mp ho) ▸ ht'
    -- the term is read before anything, so the operator behind it is met next
    · simpa using ihl (t :: (rs ++ c :: rest))
    · exact ⟨t, rs ++ c :: rest, op, m, r, rfl, hkind, hop, ihr c rest hc, rfl⟩

/-- An expression is read between its braces exactly as it is written: the closing brace is no
    operator, so nothing is read past it. -/
theorem readCalc_eq_ok {e : CalcExpr} :
    readCalc ts = .ok (e, rest) ↔ ∃ p, ts = p ++ rest ∧ BracedText p e := by
  simp only [readCalc, Reader.bind_eq_ok, expect_eq_ok, Reader.pure_eq_ok]
  constructor
  · rintro ⟨o, us, ⟨rfl, ho⟩, e', mid, hr, c, mid', ⟨rfl, hc⟩, rfl, rfl⟩
    obtain ⟨p, rfl, hp⟩ := readCalcLevels_text hr
    exact ⟨o :: (p ++ [c]), by simp, .mk ho hp hc⟩
  · rintro ⟨_, rfl, @⟨o, p, c, _, ho, hp, hc⟩⟩
    have hr := hp.read c rest fun op hop => by rw [hc] at hop; cases hop
    exact ⟨o, p ++ c :: rest, ⟨by simp, ho⟩, e, c :: rest, hr, c, rest, ⟨rfl, hc⟩, rfl, rfl⟩

/-- A braced expression begins with its brace. -/
theorem BracedText.begins {p : List Token} {e : CalcExpr} (h : BracedText p e) :
    ∃ o us, p = o :: us ∧ o.kind = .openBrace := by
  cases h with
  | mk ho => exact ⟨_, _, rfl, ho⟩

/-- Whether an argument is a value or an expression is told by its first token. -/
theorem readOperand_cons (t : Token) (ts : List Token) :
    readOperand (t :: ts) =
      if t.kind = .openBrace then (Operand.braced <$> readCalc : Reader _) (t :: ts)
      else (Operand.value <$> readValue : Reader _) (t :: ts) := by
  obtain ⟨line, kind, text⟩ := t
  cases kind <;> rfl

/-- An argument of a directive is read exactly as it is written. -/
theorem readOperand_eq_ok {operand : Operand} :
    readOperand ts = .ok (operand, rest) ↔ ∃ p, ts = p ++ rest ∧ OperandText p operand := by
  constructor
  · intro h
    cases ts with
    | nil => cases h
    | cons t ts =>
      rw [readOperand_cons] at h
      split at h
      · obtain ⟨e, hr, rfl⟩ := Reader.map_eq_ok.mp h
        obtain ⟨p, hts, hp⟩ := readCalc_eq_ok.mp hr
        exact ⟨p, hts, .braced hp⟩
      · obtain ⟨v, hr, rfl⟩ := Reader.map_eq_ok.mp h
        obtain ⟨t', hts, hv⟩ := readValue_eq_ok.mp hr
        exact ⟨[t'], hts, .value hv⟩
  · rintro ⟨p, rfl, hp⟩
    -- a value never begins with a brace, which keeps the two forms apart
    cases hp with
    | @value t v hv =>
      have hkind : t.kind ≠ .openBrace := by
        intro hkind
        simp [ValueRef.ofToken?, hkind] at hv
      rw [List.singleton_append, readOperand_cons, if_neg hkind]
      exact Reader.map_eq_ok.mpr ⟨v, readValue_eq_ok.mpr ⟨t, rfl, hv⟩, rfl⟩
    | braced hp =>
      obtain ⟨o, us, rfl, ho⟩ := hp.begins
      rw [List.cons_append, readOperand_cons, if_pos ho]
      exact Reader.map_eq_ok.mpr ⟨_, readCalc_eq_ok.mpr ⟨o :: us, rfl, hp⟩, rfl⟩

/-- A condition is read exactly as it is written. -/
theorem readCondition_eq_ok {cond : Condition} :
    readCondition ts = .ok (cond, rest) ↔ ∃ p, ts = p ++ rest ∧ ConditionText p cond := by
  simp only [readCondition, Reader.bind_eq_ok, readRegister_eq_ok, take_eq_ok]
  constructor
  · rintro ⟨reg, _, ⟨r, rfl, hr⟩, t, mid, rfl, h⟩
    cases ht : t.kind with
    | keyword k =>
      cases k with
      | key =>
        simp only [ht, Reader.pure_eq_ok] at h
        obtain ⟨rfl, rfl⟩ := h
        exact ⟨[r, t], rfl, .key hr ht⟩
      | notKey =>
        simp only [ht, Reader.pure_eq_ok] at h
        obtain ⟨rfl, rfl⟩ := h
        exact ⟨[r, t], rfl, .notKey hr ht⟩
      | _ => simp only [ht, refuseAt_ne_ok] at h
    | operator op =>
      cases hop : Comparison.ofOperator? op with
      | none => simp only [ht, hop, refuseAt_ne_ok] at h
      | some m =>
        simp only [ht, hop, Reader.bind_eq_ok, readRegisterOrValue_eq_ok, Reader.pure_eq_ok] at h
        obtain ⟨rhs, _, ⟨v, rfl, hv⟩, rfl, rfl⟩ := h
        exact ⟨[r, t, v], rfl, .compare hr ht hop hv⟩
    | _ => simp only [ht, refuseAt_ne_ok] at h
  -- the token behind the register tells the three forms apart
  · rintro ⟨p, rfl, hp⟩
    cases hp with
    | @key r reg k hr hk =>
      refine ⟨reg, k :: rest, ⟨r, rfl, hr⟩, k, rest, rfl, ?_⟩
      simp only [hk, Reader.pure_eq_ok, and_self]
    | @notKey r reg k hr hk =>
      refine ⟨reg, k :: rest, ⟨r, rfl, hr⟩, k, rest, rfl, ?_⟩
      simp only [hk, Reader.pure_eq_ok, and_self]
    | @compare r reg t op m v rhs hr ht hop hv =>
      refine ⟨reg, t :: v :: rest, ⟨r, rfl, hr⟩, t, v :: rest, rfl, ?_⟩
      simp only [ht, hop, Reader.bind_eq_ok, readRegisterOrValue_eq_ok, Reader.pure_eq_ok]
      exact ⟨rhs, rest, ⟨v, rfl, hv⟩, rfl, rfl⟩

end Operands

/-! ## Assignments -/

section Assignments

variable {t o : Token} {dst : RegRef} {op : Operator} {us rest : List Token} {a : Assignment}

/-- What is read as the right side of an assignment to a register is written as that assignment, by
    its operator. -/
theorem readRegisterSource_text (ht : RegRef.ofToken? t = some dst) (ho : o.kind = .operator op)
    (h : readRegisterSource t dst op o us = .ok (a, rest)) :
    ∃ p, us = p ++ rest ∧ AssignmentText (t :: o :: p) a := by
  simp only [readRegisterSource, Reader.bind_eq_ok, peek_eq_ok] at h
  obtain ⟨_, _, ⟨rfl, rfl⟩, hsource⟩ := h
  -- the form is decided by the next token, and behind a name by the operator
  cases us with
  | nil => exact (refuse_ne_ok.mp hsource).elim
  | cons s vs =>
    simp only [List.head?_cons] at hsource
    obtain ⟨reader, hreader, h⟩ := exists_reader hsource
    clear hsource
    split at hreader <;> subst hreader
    · rename_i hs
      simp only [Reader.bind_eq_ok, skip_eq_ok, Reader.pure_eq_ok] at h
      obtain ⟨_, _, rfl, rfl, rfl⟩ := h
      exact ⟨[s], rfl, .keyInput ht ho hs⟩
    · rename_i hs
      simp only [Reader.bind_eq_ok, skip_eq_ok, Reader.pure_eq_ok] at h
      obtain ⟨_, _, rfl, rfl, rfl⟩ := h
      exact ⟨[s], rfl, .delayGet ht ho hs⟩
    · rename_i hs
      simp only [Reader.bind_eq_ok, skip_eq_ok, Reader.pure_eq_ok, readValue_eq_ok] at h
      obtain ⟨_, _, rfl, mask, _, ⟨v, rfl, hv⟩, rfl, rfl⟩ := h
      exact ⟨[s, v], rfl, .random ht ho hs hv⟩
    · rename_i op _ _ n hs
      simp only [Reader.bind_eq_ok, skip_eq_ok] at h
      obtain ⟨_, _, rfl, h⟩ := h
      cases hop : RegOp.ofOperator? op with
      | none => simp only [hop, refuseAt_ne_ok] at h
      | some m =>
        simp only [hop, Reader.pure_eq_ok] at h
        obtain ⟨rfl, rfl⟩ := h
        exact ⟨[s], rfl, .register ht ho hop hs⟩
    · rename_i op _ _ n hs
      cases hop : ImmOp.ofOperator? op with
      | none => simp only [hop, refuseAt_ne_ok] at h
      | some m =>
        simp only [hop, Reader.bind_eq_ok, readValue_eq_ok, Reader.pure_eq_ok] at h
        obtain ⟨value, _, ⟨v, hv, hvalue⟩, rfl, rfl⟩ := h
        obtain ⟨rfl, rfl⟩ := List.cons.inj hv
        exact ⟨[s], rfl, .immediate ht ho hop hvalue (by rw [hs]; nofun)⟩
    · rename_i op _ _ c hs
      cases hop : ImmOp.ofOperator? op with
      | none => simp only [hop, refuseAt_ne_ok] at h
      | some m =>
        simp only [hop, Reader.bind_eq_ok, readValue_eq_ok, Reader.pure_eq_ok] at h
        obtain ⟨value, _, ⟨v, hv, hvalue⟩, rfl, rfl⟩ := h
        obtain ⟨rfl, rfl⟩ := List.cons.inj hv
        exact ⟨[s], rfl, .immediate ht ho hop hvalue (by rw [hs]; nofun)⟩
    -- a name may be a register or a value; an operator that takes both leaves that open
    · rename_i op _ _ hs
      simp only [Reader.bind_eq_ok, skip_eq_ok] at h
      obtain ⟨_, _, rfl, h⟩ := h
      cases himm : ImmOp.ofOperator? op with
      | some m =>
        simp only [himm, Reader.pure_eq_ok] at h
        obtain ⟨rfl, rfl⟩ := h
        exact ⟨[s], rfl, .ambiguous ht ho himm hs⟩
      | none =>
        cases hop : RegOp.ofOperator? op with
        | none => simp only [himm, hop, refuseAt_ne_ok] at h
        | some m =>
          simp only [himm, hop, Reader.pure_eq_ok] at h
          obtain ⟨rfl, rfl⟩ := h
          exact ⟨[s], rfl, .named ht ho hop himm hs⟩
    · exact (refuse_ne_ok.mp h).elim

/-- What is read as an assignment is written as one; the target and the operator tell the form. -/
theorem readAssignment_text (ht : t.kind = .name ∨ ∃ r, t.kind = .register r)
    (h : readAssignment (t :: us) = .ok (a, rest)) :
    ∃ p, t :: us = p ++ rest ∧ AssignmentText p a := by
  simp only [readAssignment, Reader.bind_eq_ok, take_eq_ok] at h
  obtain ⟨_, _, heq, o, vs, rfl, h⟩ := h
  obtain ⟨rfl, rfl⟩ := List.cons.inj heq
  -- A source after the operator makes the whole.
  have whole : (∃ p, vs = p ++ rest ∧ AssignmentText (t :: o :: p) a) →
      ∃ p, t :: o :: vs = p ++ rest ∧ AssignmentText p a := by
    rintro ⟨p, rfl, hp⟩
    exact ⟨t :: o :: p, rfl, hp⟩
  cases ho : o.kind with
  | operator op =>
    simp only [ho, pure_bind] at h
    by_cases hassign : op.isAssignment = true
    · rw [if_pos hassign] at h
      obtain hname | ⟨r, hr⟩ := ht
      · simp only [hname] at h
        exact whole (readRegisterSource_text (by simp [RegRef.ofToken?, hname]) ho h)
      · cases r with
        | v n =>
          simp only [hr] at h
          exact whole (readRegisterSource_text (by simp [RegRef.ofToken?, hr]) ho h)
        | delay =>
          simp only [hr] at h
          by_cases hop : op = .assign
          · subst hop
            simp only [if_true, Reader.bind_eq_ok, readRegister_eq_ok, Reader.pure_eq_ok] at h
            obtain ⟨src, _, ⟨s, rfl, hs⟩, rfl, rfl⟩ := h
            exact whole ⟨[s], rfl, .delaySet hr ho hs⟩
          · rw [if_neg hop] at h
            exact (refuseAt_ne_ok.mp h).elim
        | buzzer =>
          simp only [hr] at h
          by_cases hop : op = .assign
          · subst hop
            simp only [if_true, Reader.bind_eq_ok, readRegister_eq_ok, Reader.pure_eq_ok] at h
            obtain ⟨src, _, ⟨s, rfl, hs⟩, rfl, rfl⟩ := h
            exact whole ⟨[s], rfl, .buzzerSet hr ho hs⟩
          · rw [if_neg hop] at h
            exact (refuseAt_ne_ok.mp h).elim
        | i =>
          simp only [hr, Reader.bind_eq_ok, peekKind_eq_ok] at h
          obtain ⟨_, _, ⟨rfl, rfl⟩, hsource⟩ := h
          obtain ⟨reader, hreader, h⟩ := exists_reader hsource
          clear hsource
          split at hreader <;> subst hreader
          · rename_i hhex
            cases vs with
            | nil => cases hhex
            | cons k vs =>
              have hk : k.kind = .keyword .hex := Option.some.inj hhex
              simp only [Reader.bind_eq_ok, skip_eq_ok, readRegister_eq_ok, Reader.pure_eq_ok] at h
              obtain ⟨_, _, rfl, src, _, ⟨s, rfl, hs⟩, rfl, rfl⟩ := h
              exact whole ⟨[k, s], rfl, .charSprite hr ho hk hs⟩
          · simp only [Reader.bind_eq_ok, readValue_eq_ok, Reader.pure_eq_ok] at h
            obtain ⟨value, _, ⟨v, rfl, hv⟩, rfl, rfl⟩ := h
            exact whole ⟨[v], rfl, .indexSet hr ho hv⟩
          · simp only [Reader.bind_eq_ok, readRegister_eq_ok, Reader.pure_eq_ok] at h
            obtain ⟨src, _, ⟨s, rfl, hs⟩, rfl, rfl⟩ := h
            exact whole ⟨[s], rfl, .indexAdd hr ho hs⟩
          · exact (refuseAt_ne_ok.mp h).elim
    · rw [if_neg hassign] at h
      simp only [Reader.bind_eq_ok, refuseAt_ne_ok, false_and, exists_false] at h
  | _ =>
    simp only [ho, Reader.bind_eq_ok, refuseAt_ne_ok, false_and, exists_false] at h

/-- The operators that assign a register. -/
theorem isAssignment_of_regOp {m : RegOp} (h : RegOp.ofOperator? op = some m) :
    op.isAssignment = true := by
  cases op <;> first | rfl | cases h

/-- The operators that assign a value are among those that assign a register. -/
theorem isAssignment_of_immOp {m : ImmOp} (h : ImmOp.ofOperator? op = some m) :
    op.isAssignment = true := by
  cases op <;> first | rfl | cases h

/-- Behind a register or a name and an operator that assigns, the source decides. -/
theorem readAssignment_register (ht : RegRef.ofToken? t = some dst) (ho : o.kind = .operator op)
    (hassign : op.isAssignment = true) :
    readAssignment (t :: o :: us) = readRegisterSource t dst op o us := by
  obtain ⟨line, kind, text⟩ := t
  obtain ⟨line', kind', text'⟩ := o
  cases ho
  obtain ⟨n, hkind, rfl⟩ | ⟨hkind, rfl⟩ := RegRef.kind_of_ofToken? ht
  all_goals
    cases hkind
    cases op <;> first | rfl | cases hassign

/-- What is written as an assignment is read as it, one case to a form. -/
theorem AssignmentText.read {p : List Token} (h : AssignmentText p a) :
    readAssignment (p ++ rest) = .ok (a, rest) := by
  cases h with
  -- the form of the tokens opens the reader, which is then run on the rest
  | @delaySet t o r src ht ho hr =>
    have hopen : readAssignment (t :: o :: r :: rest) =
        (Assignment.delaySet t <$> readRegister : Reader _) (r :: rest) := by
      obtain ⟨line, kind, text⟩ := t
      obtain ⟨line', kind', text'⟩ := o
      cases ht; cases ho; rfl
    exact hopen.trans (Reader.map_eq_ok.mpr ⟨src, readRegister_eq_ok.mpr ⟨r, rfl, hr⟩, rfl⟩)
  | @buzzerSet t o r src ht ho hr =>
    have hopen : readAssignment (t :: o :: r :: rest) =
        (Assignment.buzzerSet t <$> readRegister : Reader _) (r :: rest) := by
      obtain ⟨line, kind, text⟩ := t
      obtain ⟨line', kind', text'⟩ := o
      cases ht; cases ho; rfl
    exact hopen.trans (Reader.map_eq_ok.mpr ⟨src, readRegister_eq_ok.mpr ⟨r, rfl, hr⟩, rfl⟩)
  | @indexSet t o v value ht ho hv =>
    have hopen : readAssignment (t :: o :: v :: rest) =
        (Assignment.indexSet t <$> readValue : Reader _) (v :: rest) := by
      obtain ⟨line, kind, text⟩ := t
      obtain ⟨line', kind', text'⟩ := o
      obtain ⟨line'', kind'', text''⟩ := v
      cases ht; cases ho
      cases kind'' with
      | number n => rfl
      | name => rfl
      | constant c => rfl
      | _ => cases hv
    exact hopen.trans (Reader.map_eq_ok.mpr ⟨value, readValue_eq_ok.mpr ⟨v, rfl, hv⟩, rfl⟩)
  | @indexAdd t o r src ht ho hr =>
    have hopen : readAssignment (t :: o :: r :: rest) =
        (Assignment.indexAdd t <$> readRegister : Reader _) (r :: rest) := by
      obtain ⟨line, kind, text⟩ := t
      obtain ⟨line', kind', text'⟩ := o
      cases ht; cases ho; rfl
    exact hopen.trans (Reader.map_eq_ok.mpr ⟨src, readRegister_eq_ok.mpr ⟨r, rfl, hr⟩, rfl⟩)
  | @charSprite t o k r src ht ho hk hr =>
    have hopen : readAssignment (t :: o :: k :: r :: rest) =
        (Assignment.charSprite t <$> readRegister : Reader _) (r :: rest) := by
      obtain ⟨line, kind, text⟩ := t
      obtain ⟨line', kind', text'⟩ := o
      obtain ⟨line'', kind'', text''⟩ := k
      cases ht; cases ho; cases hk; rfl
    exact hopen.trans (Reader.map_eq_ok.mpr ⟨src, readRegister_eq_ok.mpr ⟨r, rfl, hr⟩, rfl⟩)
  | @delayGet t dst o s ht ho hs =>
    refine (readAssignment_register ht ho rfl).trans ?_
    obtain ⟨line, kind, text⟩ := s
    cases hs; rfl
  | @keyInput t dst o k ht ho hk =>
    refine (readAssignment_register ht ho rfl).trans ?_
    obtain ⟨line, kind, text⟩ := k
    cases hk; rfl
  | @random t dst o k v mask ht ho hk hv =>
    refine (readAssignment_register ht ho rfl).trans ?_
    have hopen : readRegisterSource t dst .assign o (k :: v :: rest) =
        (Assignment.random t dst <$> readValue : Reader _) (v :: rest) := by
      obtain ⟨line, kind, text⟩ := k
      cases hk; rfl
    exact hopen.trans (Reader.map_eq_ok.mpr ⟨mask, readValue_eq_ok.mpr ⟨v, rfl, hv⟩, rfl⟩)
  -- behind a register the operator decides
  | @register t dst o op m s n ht ho hop hs =>
    refine (readAssignment_register ht ho (isAssignment_of_regOp hop)).trans ?_
    obtain ⟨line, kind, text⟩ := s
    cases hs
    cases op <;> cases hop <;> rfl
  | @named t dst o op m s ht ho hop hno hs =>
    refine (readAssignment_register ht ho (isAssignment_of_regOp hop)).trans ?_
    obtain ⟨line, kind, text⟩ := s
    cases hs
    cases op <;> cases hno <;> cases hop <;> rfl
  | @immediate t dst o op m v value ht ho hop hv hname =>
    refine (readAssignment_register ht ho (isAssignment_of_immOp hop)).trans ?_
    obtain ⟨line, kind, text⟩ := v
    cases kind with
    | number n => cases hv; cases op <;> cases hop <;> rfl
    | constant c => cases hv; cases op <;> cases hop <;> rfl
    | name => exact absurd rfl hname
    | _ => cases hv
  | @ambiguous t dst o op m s ht ho hop hs =>
    refine (readAssignment_register ht ho (isAssignment_of_immOp hop)).trans ?_
    obtain ⟨line, kind, text⟩ := s
    cases hs
    cases op <;> cases hop <;> rfl

end Assignments

end OctoAsm
