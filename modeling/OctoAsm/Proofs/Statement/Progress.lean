/-
  The parser goes forward, and it always ends.

  A reader cannot make up tokens: it leaves an end of those it was given, and what it stops at and
  hands on is among them.  Repetitions and nested statements have budgets, and a reader that runs out
  of its budget, or goes past the end of the input, stops as `exhausted`.  `Keeps` says for a reader
  that it takes tokens from the front only, and with how few tokens it is never exhausted; there is a
  rule for each step of a reader, and the parser is gone through form by form.

  Two things make the budgets suffice.  Whatever is read as a statement has a first token
  (`shortens_readStatement`, read off the grammar), so a repetition has fewer tokens left in every
  round.  And a statement inside another begins behind the first token of that one, so it needs less of
  the budget (`Keeps.behind`); this is the last induction (`readStatement_stays`).
-/
import OctoAsm.Proofs.Statement.Reading

namespace OctoAsm

variable {α β : Type} {P : Token → Prop} {n : Nat} {pre : List Token → Prop}

/-! ## Steps of a reader -/

/-- A reader that stopped did so at the end of its input, or at a token that passes a test; it was
    exhausted at most under a condition. -/
def Stop.At (P : Token → Prop) (short : Prop) : Stop → Prop
  | .refused (some t) _ => P t
  | .refused none _ => True
  | .exhausted => short

/-- Where a reader stops short, it may do so for a weaker reason. -/
theorem Stop.At.imp {short short' : Prop} {s : Stop} (h : s.At P short) (himp : short → short') :
    s.At P short' := by
  cases s with
  | exhausted => exact himp h
  | refused found cause => cases found <;> exact h

namespace Reader

/-- No condition on the tokens. -/
abbrev Any (_ : List Token) : Prop := True

/-- Given tokens that pass a test and meet a condition: the result has a property, what is left is an
    end of the tokens, a failure is blamed on one of them, and with fewer than `n` of them the reader
    is not exhausted. -/
def Keeps (P : Token → Prop) (n : Nat) (pre : List Token → Prop) (Q : α → Prop) (r : Reader α) :
    Prop :=
  ∀ ts, (∀ t ∈ ts, P t) → pre ts →
    Ends (Stop.At P (n ≤ ts.length)) (fun p => Q p.1 ∧ p.2 <:+ ts) (r ts)

/-- Nothing is asked of the result. -/
abbrev Stays (P : Token → Prop) (n : Nat) (pre : List Token → Prop) (r : Reader α) : Prop :=
  Keeps P n pre (fun _ => True) r

/-- A reader that takes at least one token when it succeeds. -/
def Shortens (r : Reader α) : Prop :=
  ∀ {ts a us}, r ts = .ok (a, us) → us.length < ts.length

variable {Q : α → Prop} {R : β → Prop}

namespace Keeps

/-- A result that is handed on without looking at tokens. -/
theorem pure {a : α} (h : Q a) : Keeps P n pre Q (Pure.pure a) :=
  fun ts _ _ => .ok ⟨h, List.suffix_refl ts⟩

/-- What is read after a reader has fewer tokens. -/
theorem after {r : Reader β} (h : Keeps P n Any R r) {ts us : List Token} (hus : us <:+ ts)
    (hts : ∀ t ∈ ts, P t) :
    Ends (Stop.At P (n ≤ ts.length)) (fun p => R p.1 ∧ p.2 <:+ ts) (r us) := by
  refine (h us (fun t ht => hts t (hus.mem ht)) trivial).imp (fun s hs => ?_) fun p hp => ?_
  · exact hs.imp fun hshort => Nat.le_trans hshort hus.length_le
  · exact ⟨hp.1, hp.2.trans hus⟩

/-- One reader behind the other: what the first one hands on and leaves is what the second one
    starts from. -/
theorem bind {x : Reader α} {f : α → Reader β} (hx : Keeps P n pre Q x)
    (hf : ∀ a, Q a → Keeps P n Any R (f a)) : Keeps P n pre R (x >>= f) := by
  intro ts hts hpre
  show Ends _ _ (x ts >>= fun p => f p.1 p.2)
  exact (hx ts hts hpre).bind fun p hp => (hf p.1 hp.1).after hp.2 hts

/-- Mapping the result takes no tokens. -/
theorem map {x : Reader α} (hx : Keeps P n pre Q x) (f : α → β) : Stays P n pre (f <$> x) := by
  rw [map_eq_pure_bind]
  exact hx.bind fun _ _ => .pure trivial

/-- A refusal holds the next token, which is one of those at hand. -/
theorem refuse (cause : ParseCause) : Keeps P n pre Q (Reader.refuse cause : Reader α) := by
  intro ts hts _
  refine .error ?_
  cases ts with
  | nil => trivial
  | cons t ts => exact hts t List.mem_cons_self

/-- A refusal at a token that was read earlier. -/
theorem refuseAt {t : Token} (h : P t) (cause : ParseCause) :
    Keeps P n pre Q (Reader.refuseAt t cause : Reader α) := fun _ _ _ => .error h

/-- To be exhausted at once is excused by having no budget. -/
theorem exhausted : Keeps P 0 pre Q (Reader.exhausted : Reader α) :=
  fun ts _ _ => .error (Nat.zero_le ts.length)

/-- Where there is a token, it can be taken away. -/
theorem skip : Stays P n (· ≠ []) Reader.skip := by
  intro ts _ hsome
  cases ts with
  | nil => exact absurd rfl hsome
  | cons t ts => exact .ok ⟨trivial, List.suffix_cons t ts⟩

/-- Looking at the next token tells whether there is one. -/
theorem peek_bind {f : Option Token → Reader β} (hnone : Keeps P n Any R (f none))
    (hsome : ∀ t, P t → Keeps P n (· ≠ []) R (f (some t))) :
    Keeps P n pre R (Reader.peek >>= f) := by
  intro ts hts _
  cases ts with
  | nil => exact hnone [] hts trivial
  | cons t ts => exact hsome t (hts t List.mem_cons_self) (t :: ts) hts (List.cons_ne_nil t ts)

/-- The rule for looking ahead at a kind: where there is one, there is a token. -/
theorem peekKind_bind {f : Option TokenKind → Reader β} (hnone : Keeps P n Any R (f none))
    (hsome : ∀ kind, Keeps P n (· ≠ []) R (f (some kind))) :
    Keeps P n pre R (Reader.peekKind >>= f) := by
  intro ts hts _
  cases ts with
  | nil => exact hnone [] hts trivial
  | cons t ts => exact hsome t.kind (t :: ts) hts (List.cons_ne_nil t ts)

/-- Looking ahead takes nothing. -/
theorem peekKind : Stays P n pre Reader.peekKind :=
  fun ts _ _ => .ok ⟨trivial, List.suffix_refl ts⟩

/-- Line feeds are dropped from the front. -/
theorem skipNewlines : Stays P n pre Reader.skipNewlines :=
  fun _ _ _ => .ok ⟨trivial, List.dropWhile_suffix _⟩

/-- Tokens that satisfy a test are taken from the front. -/
theorem takeWhile (p : TokenKind → Bool) : Stays P n pre (Reader.takeWhile p) :=
  fun _ _ _ => .ok ⟨trivial, List.dropWhile_suffix _⟩

/-- A token that is taken was there. -/
theorem take (what : String) : Keeps P n pre P (Reader.take what) := by
  intro ts hts _
  cases ts with
  | nil => exact .error trivial
  | cons t ts => exact .ok ⟨hts t List.mem_cons_self, List.suffix_cons t ts⟩

/-- A token of an expected kind is taken, or the one in its place is refused. -/
theorem expect (kind : TokenKind) (what : String) : Keeps P n pre P (Reader.expect kind what) := by
  intro ts hts _
  cases ts with
  | nil => exact .error trivial
  | cons t ts =>
    rw [Reader.expect]
    split
    · exact .ok ⟨hts t List.mem_cons_self, List.suffix_cons t ts⟩
    · exact .error (hts t List.mem_cons_self)

/-- The end of a line takes a line feed, or nothing. -/
theorem endOfLine : Stays P n pre Reader.endOfLine := by
  intro ts hts _
  cases ts with
  | nil => exact .ok ⟨trivial, List.suffix_refl []⟩
  | cons t ts =>
    rw [Reader.endOfLine]
    split
    · exact .ok ⟨trivial, List.suffix_refl _⟩
    · exact .ok ⟨trivial, List.suffix_cons t ts⟩
    · exact .error (hts t List.mem_cons_self)

/-- Behind a token there is one token less. -/
theorem behind {r : Reader α} (h : Keeps P n Any Q r) {t : Token} {ts : List Token}
    (hts : ∀ u ∈ t :: ts, P u) :
    Ends (Stop.At P (n + 1 ≤ (t :: ts).length)) (fun p => Q p.1 ∧ p.2 <:+ t :: ts) (r ts) := by
  refine (h ts (fun u hu => hts u (List.mem_cons_of_mem t hu)) trivial).imp (fun s hs => ?_)
    fun p hp => ?_
  · exact hs.imp Nat.succ_le_succ
  · exact ⟨hp.1, hp.2.trans (List.suffix_cons t ts)⟩

/-- **A repetition ends before its budget does**: in every round it goes on, a token is taken. -/
theorem repeatUntil {stop : Reader (Option β)} {item : Reader α} (hstop : Stays P n Any stop)
    (hitem : Stays P n Any item) (hshort : item.Shortens) {budget : Nat} {ts : List Token}
    (hts : ∀ t ∈ ts, P t) (hbudget : ts.length < budget) :
    Ends (Stop.At P (n ≤ ts.length)) (fun p => True ∧ p.2 <:+ ts)
      (Reader.repeatUntil stop item budget ts) := by
  induction budget generalizing ts with
  | zero => omega
  | succ budget ih =>
    show Ends _ _ (stop ts >>= fun p => _)
    refine (hstop ts hts trivial).bind fun ⟨answer, mid⟩ ⟨_, hmid⟩ => ?_
    cases answer with
    | some answer => exact .ok ⟨trivial, hmid⟩
    | none =>
      show Ends _ _ (item mid >>= fun p => _)
      have hround := hitem.after hmid hts
      cases hfound : item mid with
      | error e => exact .error (hround.of_error hfound)
      | ok p =>
        have hless : p.2.length < mid.length := hshort hfound
        have hlength : mid.length ≤ ts.length := hmid.length_le
        have hrest : p.2 <:+ ts := (hround.of_ok hfound).2
        have hothers := ih (fun t ht => hts t (hrest.mem ht)) (by omega)
        show Ends _ _ (Reader.repeatUntil stop item budget p.2 >>= fun q => _)
        exact (hothers.imp (fun e he => he.imp fun hn => Nat.le_trans hn hrest.length_le)
          fun q hq => ⟨trivial, hq.2.trans hrest⟩).bind fun q hq => .ok hq

/-- A repetition has a budget of one round for each token and one more, and each round takes a
    token; so it is never exhausted by itself. -/
theorem manyUntil {stop : Reader (Option β)} {item : Reader α} (hstop : Stays P n Any stop)
    (hitem : Stays P n Any item) (hshort : item.Shortens) :
    Stays P n pre (Reader.manyUntil stop item) :=
  fun ts hts _ => repeatUntil hstop hitem hshort hts (Nat.lt_succ_self ts.length)

end Keeps

end Reader

open Reader

/-! ## Operands -/

/-- A register is one token. -/
theorem readRegister_stays : Stays P n pre readRegister := by
  refine Keeps.peek_bind (.refuse _) fun t _ => ?_
  split
  · exact Keeps.skip.bind fun _ _ => .pure trivial
  · exact Keeps.skip.bind fun _ _ => .pure trivial
  · exact .refuse _

/-- A value is one token. -/
theorem readValue_stays : Stays P n pre readValue := by
  refine Keeps.peek_bind (.refuse _) fun t _ => ?_
  split
  · exact Keeps.skip.bind fun _ _ => .pure trivial
  · exact Keeps.skip.bind fun _ _ => .pure trivial
  · exact Keeps.skip.bind fun _ _ => .pure trivial
  · exact .refuse _

/-- A register or a value is one token. -/
theorem readRegisterOrValue_stays : Stays P n pre readRegisterOrValue := by
  refine Keeps.peekKind_bind readValue_stays fun kind => ?_
  split
  · exact readRegister_stays.bind fun _ _ => .pure trivial
  · exact readValue_stays

/-- A term is one token, or what is inside a pair of parentheses. -/
theorem readCalcTerm_stays {inner : Reader CalcExpr} (hinner : Stays P n Any inner) :
    Stays P n pre (readCalcTerm inner) := by
  refine (Keeps.take _).bind fun token htoken => ?_
  split
  · exact .pure trivial
  · exact .pure trivial
  · exact .pure trivial
  · exact .pure trivial
  · exact hinner.bind fun _ _ => (Keeps.expect _ _).bind fun _ _ => .pure trivial
  · exact .refuseAt htoken _

/-- By induction on the levels, of which there are as many as tokens in the braces. -/
theorem readCalcLevels_stays (levels : Nat) : Stays P n pre (readCalcLevels levels) := by
  induction levels generalizing pre with
  | zero => exact .refuse _
  | succ levels ih =>
    refine Keeps.peek_bind (.refuse _) fun first _ => ?_
    split
    · rename_i hfirst
      cases hfirst
    · split
      · exact Keeps.skip.bind fun _ _ => ih.bind fun _ _ => .pure trivial
      · refine (readCalcTerm_stays ih).bind fun left _ => Keeps.peek_bind (.pure trivial) fun t _ => ?_
        split
        · exact Keeps.skip.bind fun _ _ => ih.bind fun _ _ => .pure trivial
        · exact .pure trivial

/-- The budget of an expression is the number of tokens left, and each level takes one. -/
theorem readCalc_stays : Stays P n pre readCalc :=
  (Keeps.expect _ _).bind fun _ _ => (readCalcLevels_stays _).bind fun _ _ =>
    (Keeps.expect _ _).bind fun _ _ => .pure trivial

/-- An argument is a value or a braced expression, told by the next token. -/
theorem readOperand_stays : Stays P n pre readOperand := by
  refine Keeps.peekKind_bind (readValue_stays.bind fun _ _ => .pure trivial) fun kind => ?_
  split
  · exact readCalc_stays.bind fun _ _ => .pure trivial
  · exact readValue_stays.bind fun _ _ => .pure trivial

/-- A condition is read token by token. -/
theorem readCondition_stays : Stays P n pre readCondition := by
  refine readRegister_stays.bind fun reg _ => (Keeps.take _).bind fun token htoken => ?_
  split
  · exact .pure trivial
  · exact .pure trivial
  · split
    · exact readRegisterOrValue_stays.bind fun _ _ => .pure trivial
    · exact .refuseAt htoken _
  · exact .refuseAt htoken _

/-! ## Assignments -/

/-- The right side of an assignment to a register, by its operator. -/
theorem readRegisterSource_stays {opToken : Token} (hop : P opToken) (token : Token) (dst : RegRef)
    (op : Operator) : Stays P n pre (readRegisterSource token dst op opToken) := by
  refine Keeps.peek_bind (.refuse _) fun src _ => ?_
  dsimp only
  split
  · exact Keeps.skip.bind fun _ _ => .pure trivial
  · exact Keeps.skip.bind fun _ _ => .pure trivial
  · exact Keeps.skip.bind fun _ _ => readValue_stays.bind fun _ _ => .pure trivial
  · refine Keeps.skip.bind fun _ _ => ?_
    split
    · exact .pure trivial
    · exact .refuseAt hop _
  · split
    · exact readValue_stays.bind fun _ _ => .pure trivial
    · exact .refuseAt hop _
  · split
    · exact readValue_stays.bind fun _ _ => .pure trivial
    · exact .refuseAt hop _
  · refine Keeps.skip.bind fun _ _ => ?_
    split
    · exact .pure trivial
    · exact .pure trivial
    · exact .refuseAt hop _
  · exact .refuse _

/-- An assignment is read by its first two tokens. -/
theorem readAssignment_stays : Stays P n pre readAssignment := by
  refine (Keeps.take _).bind fun token _ => (Keeps.take _).bind fun opToken hop => ?_
  have hrefused (cause : ParseCause) :
      Keeps P n Any (fun _ : Operator => False) (refuseAt opToken cause) :=
    .refuseAt hop cause
  dsimp only
  split
  · split
    · rw [pure_bind]
      split
      · split
        · exact readRegister_stays.bind fun _ _ => .pure trivial
        · exact .refuseAt hop _
      · split
        · exact readRegister_stays.bind fun _ _ => .pure trivial
        · exact .refuseAt hop _
      · refine Keeps.peekKind_bind ?_ fun kind => ?_
        · split
          · have hhex : none = some (TokenKind.keyword .hex) := ‹_›
            cases hhex
          · exact readValue_stays.bind fun _ _ => .pure trivial
          · exact readRegister_stays.bind fun _ _ => .pure trivial
          · exact .refuseAt hop _
        · split
          · exact Keeps.skip.bind fun _ _ => readRegister_stays.bind fun _ _ => .pure trivial
          · exact readValue_stays.bind fun _ _ => .pure trivial
          · exact readRegister_stays.bind fun _ _ => .pure trivial
          · exact .refuseAt hop _
      · exact readRegisterSource_stays hop _ _ _
      · exact readRegisterSource_stays hop _ _ _
    · exact (hrefused _).bind fun _ hno => hno.elim
  · exact (hrefused _).bind fun _ hno => hno.elim

/-! ## Bodies and directives -/

/-- The end of a block takes the word that ends it, and no more. -/
theorem blockEnd_stays (ends : List Keyword) (what : String) : Stays P n pre (blockEnd ends what) := by
  refine Keeps.skipNewlines.bind fun _ _ => Keeps.peekKind_bind (.refuse _) fun kind => ?_
  split
  · split
    · exact Keeps.skip.bind fun _ _ => .pure trivial
    · exact .pure trivial
  · exact .refuse _
  · exact .refuse _
  · exact .pure trivial

/-- The end of a braced body takes its brace. -/
theorem braceEnd_stays : Stays P n pre braceEnd := by
  refine Keeps.skipNewlines.bind fun _ _ => Keeps.peekKind_bind (.refuse _) fun kind => ?_
  split
  · exact Keeps.skip.bind fun _ _ => .pure trivial
  · exact .refuse _
  · exact .pure trivial

/-- The end of a program takes nothing. -/
theorem programEnd_stays : Stays P n pre programEnd :=
  Keeps.skipNewlines.bind fun _ _ => Keeps.peek_bind (.pure trivial) fun _ _ => .pure trivial

section Items

variable {item : Reader Statement} (hitem : Stays P n Any item) (hshort : item.Shortens)

include hitem hshort

/-- A block is a repetition, ended by one of its words. -/
theorem readBlock_stays (ends : List Keyword) (what : String) :
    Stays P n pre (readBlock ends what item) :=
  .manyUntil (blockEnd_stays ends what) hitem hshort

/-- A braced body is a repetition between braces. -/
theorem readBraced_stays : Stays P n pre (readBraced item) :=
  (Keeps.expect _ _).bind fun _ _ => (Keeps.manyUntil braceEnd_stays hitem hshort).bind fun _ _ =>
    .pure trivial

omit hitem hshort in
/-- `unpack` reads a tag, if there is one, and a value. -/
theorem readUnpack_stays (token : Token) : Stays P n pre (readUnpack token) := by
  refine readValue_stays.bind fun first _ => Keeps.peekKind.bind fun kind _ => ?_
  split
  · exact .pure trivial
  · exact readValue_stays.bind fun _ _ => .pure trivial

omit hitem hshort in
/-- A monitor reads its target and its style. -/
theorem readMonitor_stays (token : Token) : Stays P n pre (readMonitor token) := by
  refine readRegisterOrValue_stays.bind fun target _ => Keeps.peek_bind (.refuse _) fun t _ => ?_
  split
  · exact Keeps.skip.bind fun _ _ => .pure trivial
  · exact Keeps.skip.bind fun _ _ => .pure trivial
  · exact .refuse _

omit hitem hshort in
/-- An alias reads a name and what it stands for. -/
theorem readAlias_stays (token : Token) : Stays P n pre (readAlias token) := by
  refine (Keeps.expect _ _).bind fun name _ => Keeps.peekKind.bind fun kind _ => ?_
  split
  · exact readCalc_stays.bind fun _ _ => .pure trivial
  · exact readRegister_stays.bind fun _ _ => .pure trivial

omit hitem hshort in
/-- An assertion reads a text, if there is one, and an expression. -/
theorem readAssertion_stays (token : Token) : Stays P n pre (readAssertion token) := by
  refine Keeps.peek_bind (readCalc_stays.bind fun _ _ => .pure trivial) fun t _ => ?_
  split
  · exact Keeps.skip.bind fun _ _ => readCalc_stays.bind fun _ _ => .pure trivial
  · exact readCalc_stays.bind fun _ _ => .pure trivial

/-- One case to a directive; those with bodies read them with the reader they are given. -/
theorem readDirective_stays (token : Token) (word : Directive) :
    Stays P n pre (readDirective item token word) := by
  have hbody : Stays P n pre (readDirectiveBody item token word) := by
    cases word with
    | label | breakpoint => exact (Keeps.expect _ _).bind fun _ _ => .pure trivial
    | aliasName => exact readAlias_stays token
    | call => exact readValue_stays.bind fun _ _ => .pure trivial
    | const =>
      exact (Keeps.expect _ _).bind fun _ _ => readValue_stays.bind fun _ _ => .pure trivial
    | unpack => exact readUnpack_stays token
    | next =>
      exact (Keeps.expect _ _).bind fun _ _ => Keeps.skipNewlines.bind fun _ _ =>
        hitem.bind fun _ _ => .pure trivial
    | org | byte | pointer => exact readOperand_stays.bind fun _ _ => .pure trivial
    | macroDef =>
      exact (Keeps.expect _ _).bind fun _ _ => (Keeps.takeWhile _).bind fun _ _ =>
        (readBraced_stays hitem hshort).bind fun _ _ => .pure trivial
    | calcName =>
      exact (Keeps.expect _ _).bind fun _ _ => readCalc_stays.bind fun _ _ => .pure trivial
    | stringMode =>
      exact (Keeps.expect _ _).bind fun _ _ => (Keeps.expect _ _).bind fun _ _ =>
        (readBraced_stays hitem hshort).bind fun _ _ => .pure trivial
    | assertion => exact readAssertion_stays token
    | monitor => exact readMonitor_stays token
  refine hbody.bind fun statement _ => ?_
  split
  · exact .pure trivial
  · exact Keeps.endOfLine.bind fun _ _ => .pure trivial

/-! ## Statements -/

/-- `if` reads a condition and goes on by the word behind it. -/
theorem readIf_stays {token : Token} (htoken : P token) (inLoop : Bool) :
    Stays P n pre (readIf item token inLoop) := by
  refine readCondition_stays.bind fun cond _ => (Keeps.take _).bind fun keyword hkeyword => ?_
  split
  · refine Keeps.skipNewlines.bind fun _ _ => Keeps.peekKind.bind fun kind _ => ?_
    split
    · exact .pure trivial
    · split
      · exact .refuseAt htoken _
      · exact hitem.bind fun _ _ => .pure trivial
  · refine (readBlock_stays hitem hshort _ _).bind fun ⟨body, ending⟩ _ => ?_
    dsimp only
    split
    · exact (readBlock_stays hitem hshort _ _).bind fun _ _ => .pure trivial
    · exact .pure trivial
  · exact .refuseAt hkeyword _

end Items

section Statements

variable {item : Bool → Reader Statement} (hitem : ∀ b, Stays P n Any (item b))
  (hshort : ∀ b, (item b).Shortens)

include hitem hshort

/-- One case to a keyword; loops and conditionals read their bodies with the reader they
    are given. -/
theorem readKeyword_stays {token : Token} (htoken : P token) (inLoop : Bool) (k : Keyword) :
    Stays P n pre (readKeyword item token inLoop k) := by
  cases k with
  | ret | clear => exact .pure trivial
  | bcd | save | load => exact readRegister_stays.bind fun _ _ => .pure trivial
  | sprite =>
    exact readRegister_stays.bind fun _ _ => readRegister_stays.bind fun _ _ =>
      readValue_stays.bind fun _ _ => .pure trivial
  | jump | jump0 => exact readValue_stays.bind fun _ _ => .pure trivial
  | ifWord => exact readIf_stays (hitem false) (hshort false) htoken inLoop
  | loop => exact (readBlock_stays (hitem true) (hshort true) _ _).bind fun _ _ => .pure trivial
  | whileWord =>
    exact readCondition_stays.bind fun _ _ => Keeps.skipNewlines.bind fun _ _ =>
      (hitem false).bind fun _ _ => .pure trivial
  | _ => exact .refuseAt htoken _

omit hitem hshort in
/-- An invocation reads its arguments up to the end of the line. -/
theorem readInvocation_stays (name : Token) : Stays P n pre (readInvocation name) := by
  refine (Keeps.takeWhile _).bind fun args _ => ?_
  split
  · exact .pure trivial
  · exact .pure trivial

/-- A statement needs one token more than what is read behind its first one. -/
theorem readStatementWith_stays (inLoop : Bool) :
    Stays P (n + 1) pre (readStatementWith item inLoop) := by
  intro ts hts _
  cases ts with
  | nil => exact .error trivial
  | cons token rest =>
    have htoken : P token := hts token List.mem_cons_self
    have hassign : Stays P (n + 1) Any
        (Statement.simple <$> Simple.assign <$> readAssignment : Reader _) :=
      (readAssignment_stays.map _).map _
    have hrefuse (cause : ParseCause) : Stays P n Any (refuse cause : Reader Statement) := .refuse _
    rw [readStatementWith]
    split
    · exact (readDirective_stays (hitem false) (hshort false) token _).behind hts
    · exact (readKeyword_stays hitem hshort htoken inLoop _).behind hts
    · split
      · exact hassign (token :: rest) hts trivial
      · exact (hrefuse _).behind hts
    · split
      · exact hassign (token :: rest) hts trivial
      · exact (readInvocation_stays token).behind hts
    · exact .ok ⟨trivial, List.suffix_cons token rest⟩
    · exact .error htoken

end Statements

/-- What is read as a statement has a first token. -/
theorem shortens_readStatement (budget : Nat) (inLoop : Bool) :
    (readStatement budget inLoop).Shortens := by
  intro ts st rest h
  obtain ⟨used, rfl, hused⟩ := readStatement_reads h
  obtain ⟨t, us, rfl, -⟩ := hused.begins
  simp only [List.cons_append, List.length_cons, List.length_append]
  omega

/-- **A budget that is larger than the number of tokens suffices for every statement.** -/
theorem readStatement_stays (budget : Nat) (inLoop : Bool) :
    Stays P budget pre (readStatement budget inLoop) := by
  induction budget generalizing inLoop pre with
  | zero => exact .exhausted
  | succ budget ih => exact readStatementWith_stays (fun b => ih b) (shortens_readStatement budget) inLoop

/-- A program is read without any reader being exhausted. -/
theorem readProgram_ends {ts : List Token} (hts : ∀ t ∈ ts, P t) :
    Ends (Stop.At P False) (fun p => p.2 <:+ ts) (readProgram ts) := by
  have hprogram : Stays P (ts.length + 1) Any
      (manyUntil programEnd (readStatement (ts.length + 1) false) >>= fun p => pure p.1) :=
    (Keeps.manyUntil programEnd_stays (readStatement_stays _ false)
      (shortens_readStatement _ false)).bind fun _ _ => .pure trivial
  refine (hprogram ts hts trivial).imp (fun s hs => hs.imp fun hlength => ?_) fun p hp => hp.2
  omega

/-! ## Budgets are not felt -/

/-- On the same tokens the two readers end alike, or the first is exhausted. -/
def Reader.CutBy (x y : Reader α) : Prop := ∀ ts, CutShort (· = .exhausted) (x ts) (y ts)

namespace Reader.CutBy

variable {x y : Reader α}

/-- A reader is cut off nowhere from itself. -/
theorem refl (x : Reader α) : CutBy x x := fun ts => .refl (x ts)

/-- One reader behind the other. -/
theorem bind {f g : α → Reader β} (h : CutBy x y) (hfg : ∀ a, CutBy (f a) (g a)) :
    CutBy (x >>= f) (y >>= g) :=
  fun ts => (h ts).bind fun p => hfg p.1 p.2

/-- Both readers make the same step first. -/
theorem after (x : Reader α) {f g : α → Reader β} (hfg : ∀ a, CutBy (f a) (g a)) :
    CutBy (x >>= f) (x >>= g) :=
  (refl x).bind hfg

/-- A repetition is cut off where one of its rounds is. -/
theorem manyUntil (stop : Reader (Option β)) (h : CutBy x y) :
    CutBy (Reader.manyUntil stop x) (Reader.manyUntil stop y) := by
  have hrepeat : ∀ budget, CutBy (repeatUntil stop x budget) (repeatUntil stop y budget) := by
    intro budget
    induction budget with
    | zero => exact .refl _
    | succ budget ih =>
      refine .after _ fun answer => ?_
      cases answer with
      | some answer => exact .refl _
      | none => exact h.bind fun _ => ih.bind fun _ => .refl _
  exact .after _ fun budget => hrepeat _

end Reader.CutBy

section Cut

variable {item item' : Bool → Reader Statement} (hitem : ∀ b, (item b).CutBy (item' b))

include hitem

/-- A braced body is cut off where a statement of it is. -/
theorem readBraced_cut (b : Bool) : (readBraced (item b)).CutBy (readBraced (item' b)) :=
  .after _ fun _ => (Reader.CutBy.manyUntil braceEnd (hitem b)).bind fun _ => .refl _

/-- Directives with bodies are cut off where their bodies are, and the others do not look at the
    budget. -/
theorem readDirective_cut (token : Token) (word : Directive) :
    (readDirective (item false) token word).CutBy (readDirective (item' false) token word) := by
  have hbody : (readDirectiveBody (item false) token word).CutBy
      (readDirectiveBody (item' false) token word) := by
    cases word with
    | next => exact .after _ fun _ => .after _ fun _ => (hitem false).bind fun _ => .refl _
    | macroDef | stringMode =>
      exact .after _ fun _ => .after _ fun _ => (readBraced_cut hitem false).bind fun _ => .refl _
    | _ => exact .refl _
  exact hbody.bind fun _ => .refl _

/-- A conditional is cut off where a body of it is. -/
theorem readIf_cut (token : Token) (inLoop : Bool) :
    (readIf (item false) token inLoop).CutBy (readIf (item' false) token inLoop) := by
  have hblock (ends : List Keyword) (what : String) :
      (readBlock ends what (item false)).CutBy (readBlock ends what (item' false)) :=
    .manyUntil _ (hitem false)
  refine .after _ fun cond => .after _ fun keyword => ?_
  split
  · refine .after _ fun _ => .after _ fun kind => ?_
    split
    · exact .refl _
    · split
      · exact .refl _
      · exact (hitem false).bind fun _ => .refl _
  · refine (hblock _ _).bind fun ⟨body, ending⟩ => ?_
    dsimp only
    split
    · exact (hblock _ _).bind fun _ => .refl _
    · exact .refl _
  · exact .refl _

/-- Loops and conditionals are cut off where their bodies are. -/
theorem readKeyword_cut (token : Token) (inLoop : Bool) (k : Keyword) :
    (readKeyword item token inLoop k).CutBy (readKeyword item' token inLoop k) := by
  cases k with
  | ifWord => exact readIf_cut hitem token inLoop
  | loop => exact (Reader.CutBy.manyUntil _ (hitem true)).bind fun _ => .refl _
  | whileWord => exact .after _ fun _ => .after _ fun _ => (hitem false).bind fun _ => .refl _
  | _ => exact .refl _

/-- A statement is cut off where a statement inside it is. -/
theorem readStatementWith_cut (inLoop : Bool) :
    (readStatementWith item inLoop).CutBy (readStatementWith item' inLoop) := by
  intro ts
  cases ts with
  | nil => exact .refl _
  | cons token rest =>
    rw [readStatementWith, readStatementWith]
    split
    · exact readDirective_cut hitem token _ rest
    · exact readKeyword_cut hitem token inLoop _ rest
    all_goals exact .refl _

end Cut

/-- By induction on the smaller budget: a greater one changes nothing but where a reader is
    exhausted. -/
theorem readStatement_cut {budget budget' : Nat} (h : budget ≤ budget') (inLoop : Bool) :
    (readStatement budget inLoop).CutBy (readStatement budget' inLoop) := by
  induction budget generalizing budget' inLoop with
  | zero => exact fun ts => .inr ⟨_, rfl, rfl⟩
  | succ budget ih =>
    obtain ⟨larger, rfl⟩ := Nat.exists_eq_add_of_le' h
    exact readStatementWith_cut (fun b => ih (Nat.le_of_succ_le_succ h) b) inLoop

/-- All budgets that suffice read the same. -/
theorem readStatement_budget {budget budget' : Nat} (h : budget ≤ budget') {ts : List Token}
    (hts : ts.length < budget) (inLoop : Bool) :
    readStatement budget inLoop ts = readStatement budget' inLoop ts := by
  refine (readStatement_cut h inLoop ts).eq_of_not ?_
  rintro e he rfl
  have hstays : Stays (fun _ => True) budget Any (readStatement budget inLoop) :=
    readStatement_stays budget inLoop
  have hends : Ends _ _ (readStatement budget inLoop ts) := hstays ts (fun _ _ => trivial) trivial
  have hshort : budget ≤ ts.length := hends.of_error he
  omega

/-! ## The parser as a whole -/

/-- A round of a repetition that goes on: the end is not there yet, and an item is read. -/
def Reader.Round (stop : Reader (Option β)) (item : Reader α) (ts rest : List Token) : Prop :=
  ∃ mid a, stop ts = .ok (none, mid) ∧ item mid = .ok (a, rest)

/-- What a reader leaves is an end of what it was given. -/
theorem Reader.Keeps.suffix {r : Reader α} {Q : α → Prop} (h : Keeps (fun _ => True) n Any Q r)
    {ts us : List Token} {a : α} (hr : r ts = .ok (a, us)) : us <:+ ts :=
  ((h ts (fun _ _ => trivial) trivial).of_ok hr).2

/-- Every round takes tokens. -/
theorem Reader.Round.takes {stop : Reader (Option β)} (hstop : Stays (fun _ => True) 0 Any stop)
    {budget : Nat} {inLoop : Bool} {ts rest : List Token}
    (h : Round stop (readStatement budget inLoop) ts rest) :
    ∃ used, used ≠ [] ∧ ts = used ++ rest := by
  obtain ⟨mid, st, hmid, hitem⟩ := h
  obtain ⟨front, rfl⟩ := hstop.suffix hmid
  obtain ⟨used, rfl, hused⟩ := readStatement_reads hitem
  obtain ⟨t, us, rfl, -⟩ := hused.begins
  exact ⟨front ++ t :: us, by simp, by simp⟩

/-- How the parser gets on with some tokens, whatever they are. -/
structure ParserProgresses (ts : List Token) : Prop where
  /-- a statement that is read takes tokens from the front, at least one, which are a text of it -/
  statement : ∀ budget inLoop st rest, readStatement budget inLoop ts = .ok (st, rest) →
    ∃ used, used ≠ [] ∧ ts = used ++ rest ∧ Reads (.statement inLoop) used [st] (lead rest none)
  /-- with more budget than tokens it neither runs out of budget nor goes past the end: what is no
      statement is refused, at one of the tokens or at their end -/
  refused : ∀ budget inLoop stop, ts.length < budget → readStatement budget inLoop ts = .error stop →
    ∃ found cause, stop = .refused found cause ∧ ∀ t ∈ found, t ∈ ts
  /-- which budget that is makes no difference -/
  budgets : ∀ budget budget' inLoop, ts.length < budget → ts.length < budget' →
    readStatement budget inLoop ts = readStatement budget' inLoop ts
  /-- every round of a program takes at least one token, unless it is the last one -/
  program : ∀ budget rest, Round programEnd (readStatement budget false) ts rest →
    ∃ used, used ≠ [] ∧ ts = used ++ rest
  /-- so does every round of a block -/
  block : ∀ ends what budget inLoop rest,
    Round (blockEnd ends what) (readStatement budget inLoop) ts rest →
    ∃ used, used ≠ [] ∧ ts = used ++ rest
  /-- and every round of a body in braces -/
  braced : ∀ budget inLoop rest, Round braceEnd (readStatement budget inLoop) ts rest →
    ∃ used, used ≠ [] ∧ ts = used ++ rest
  /-- in the end all tokens are read as statements, or they are refused -/
  ends : (∃ program, readProgram ts = .ok (program, [])) ∨
    ∃ found cause, readProgram ts = .error (.refused found cause) ∧ ∀ t ∈ found, t ∈ ts

/-- A reader that cannot be exhausted stops at a refusal, and what it found there is among the
    tokens. -/
theorem refused_of_at {ts : List Token} {s : Stop} (h : s.At (· ∈ ts) False) :
    ∃ found cause, s = .refused found cause ∧ ∀ t ∈ found, t ∈ ts := by
  cases s with
  | exhausted => exact h.elim
  | refused found cause =>
    refine ⟨found, cause, rfl, ?_⟩
    rintro t rfl
    exact h

/-- A program has no tokens behind it. -/
theorem readProgram_rest {ts rest : List Token} {program : List Statement}
    (h : readProgram ts = .ok (program, rest)) : rest = [] := by
  obtain ⟨budget, us, -, h⟩ := Reader.bind_eq_ok.mp h
  obtain ⟨⟨sts, answer⟩, mid, hmany, h⟩ := Reader.bind_eq_ok.mp h
  obtain ⟨-, rfl⟩ := Reader.pure_eq_ok.mp h
  have hitem : ItemReads fun b => readStatement (budget + 1) b := readStatement_reads
  obtain ⟨-, -, -, -, -, hrest⟩ := manyUntil_reads (b := false) stops_programEnd hitem hmany
  exact hrest

/-- **The parser always goes forward, and it ends on every list of tokens.** Readers leave an end
    of what they were given (`Keeps`), and every statement has a first token, so each round of a
    repetition and each statement inside another has fewer tokens than its budget has rounds
    (`readStatement_stays`). -/
theorem parser_progresses (ts : List Token) : ParserProgresses ts := by
  have hall : ∀ t ∈ ts, t ∈ ts := fun _ ht => ht
  constructor
  case statement =>
    intro budget inLoop st rest h
    obtain ⟨used, rfl, hused⟩ := readStatement_reads h
    obtain ⟨t, us, rfl, -⟩ := hused.begins
    exact ⟨t :: us, List.cons_ne_nil t us, rfl, hused⟩
  case refused =>
    intro budget inLoop stop hbudget h
    have hstays : Stays (· ∈ ts) budget Any (readStatement budget inLoop) :=
      readStatement_stays budget inLoop
    have hends : Ends _ _ (readStatement budget inLoop ts) := hstays ts hall trivial
    exact refused_of_at ((hends.of_error h).imp (Nat.not_le.mpr hbudget))
  case budgets =>
    intro budget budget' inLoop h h'
    rcases Nat.le_total budget budget' with hle | hle
    · exact readStatement_budget hle h inLoop
    · exact (readStatement_budget hle h' inLoop).symm
  case program => exact fun budget rest h => h.takes programEnd_stays
  case block => exact fun ends what budget inLoop rest h => h.takes (blockEnd_stays ends what)
  case braced => exact fun budget inLoop rest h => h.takes braceEnd_stays
  case ends =>
    have hends := readProgram_ends hall
    cases hread : readProgram ts with
    | ok p =>
      obtain ⟨program, rest⟩ := p
      obtain rfl := readProgram_rest hread
      exact .inl ⟨program, rfl⟩
    | error stop =>
      obtain ⟨found, cause, rfl, hfound⟩ := refused_of_at (hends.of_error hread)
      exact .inr ⟨found, cause, rfl, hfound⟩

end OctoAsm
