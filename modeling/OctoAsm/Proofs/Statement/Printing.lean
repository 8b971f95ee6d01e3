/-
  Printing undoes parsing.

  Statements keep the tokens that carry a meaning and drop the rest: the operators of assignments and
  comparisons, the words inside a statement, braces and parentheses.  The printer puts a token of the
  right kind in the place of each one that was dropped.  An expression keeps no parentheses at all; as
  its operators nest to the right, exactly the left operands that are not single tokens need them.

  Both halves follow the grammar: what was written as some statements is written as them again by the
  printer (`Reads.readsBack`), and the two texts differ in line feeds and in parentheses that change
  nothing (`Reads.writing`).
-/
import OctoAsm.Proofs.Program
import OctoAsm.Proofs.Statement.Reading
import Mathlib.Data.List.Forall2

namespace OctoAsm

/-! ## The printer -/

/-- A token that is made up again; only its kind is known. -/
def Token.mark (kind : TokenKind) : Token := ⟨0, kind, ""⟩

/-- A mark is printed for its kind alone. -/
@[simp] theorem Token.mark_kind (kind : TokenKind) : (Token.mark kind).kind = kind := rfl

/-- The operator of an operation between registers. -/
def RegOp.operator : RegOp → Operator
  | .set => .assign
  | .or => .orAssign
  | .and => .andAssign
  | .xor => .xorAssign
  | .add => .addAssign
  | .sub => .subAssign
  | .shr => .shrAssign
  | .revSub => .revSubAssign
  | .shl => .shlAssign

/-- The operator of a comparison. -/
def Comparison.operator : Comparison → Operator
  | .eq => .eq
  | .ne => .ne
  | .lt => .lt
  | .gt => .gt
  | .le => .le
  | .ge => .ge

namespace CalcExpr

/-- An expression of more than one token. -/
def compound : CalcExpr → Bool
  | .unary .. | .binary .. => true
  | _ => false

/-- The tokens of an expression.  Exactly the compound left operands stand in parentheses. -/
def print : CalcExpr → List Token
  | .number t _ | .name t | .string t => [t]
  | .unary t _ e => t :: e.print
  | .binary t _ l r =>
    (if l.compound then Token.mark .openParen :: (l.print ++ [Token.mark .closeParen]) else l.print) ++
      t :: r.print

/-- An expression between braces. -/
def printBraced (e : CalcExpr) : List Token :=
  Token.mark .openBrace :: (e.print ++ [Token.mark .closeBrace])

end CalcExpr

/-- The tokens of a directive's argument. -/
def Operand.print : Operand → List Token
  | .value v => [v.token]
  | .braced e => e.printBraced

/-- The tokens of a condition. -/
def Condition.print : Condition → List Token
  | .key reg pressed => [reg.token, .mark (.keyword (if pressed then .key else .notKey))]
  | .compare reg op rhs => [reg.token, .mark (.operator op.operator), rhs.token]

/-- The tokens of an assignment. -/
def Assignment.print : Assignment → List Token
  | .delaySet t src | .buzzerSet t src => [t, .mark (.operator .assign), src.token]
  | .delayGet t _ => [t, .mark (.operator .assign), .mark (.register .delay)]
  | .keyInput t _ => [t, .mark (.operator .assign), .mark (.keyword .key)]
  | .random t _ mask => [t, .mark (.operator .assign), .mark (.keyword .random), mask.token]
  | .indexSet t value => [t, .mark (.operator .assign), value.token]
  | .indexAdd t src => [t, .mark (.operator .addAssign), src.token]
  | .charSprite t src => [t, .mark (.operator .assign), .mark (.keyword .hex), src.token]
  | .register t _ op src => [t, .mark (.operator op.operator), src.token]
  | .immediate t _ op value => [t, .mark (.operator op.toRegOp.operator), value.token]
  | .ambiguous t _ op src => [t, .mark (.operator op.toRegOp.operator), src]

/-- The token of a monitor's style. -/
def MonitorStyle.token : MonitorStyle → Token
  | .length t _ | .format t => t

/-- The tokens of a statement that becomes one item. -/
def Simple.print : Simple → List Token
  | .ret t | .clear t | .datum t _ => [t]
  | .bcd t reg | .save t reg | .load t reg => [t, reg.token]
  | .sprite t x y height => [t, x.token, y.token, height.token]
  | .jump t target | .jumpOffset t target | .callAddress t target => [t, target.token]
  | .assign a => a.print
  | .unpack t none value => [t, value.token]
  | .unpack t (some tag) value => [t, tag.token, value.token]
  | .org t operand | .byte t operand | .pointer t operand => t :: operand.print
  | .assertion t none e => t :: e.printBraced
  | .assertion t (some message) e => t :: message :: e.printBraced
  | .breakpoint t name => [t, name]
  | .monitor t target style => [t, target.token, style.token]

/-- The tokens of a declaration. -/
def Declaration.print : Declaration → List Token
  | .aliasName t name (.register reg) => [t, name, reg.token]
  | .aliasName t name (.braced e) => t :: name :: e.printBraced
  | .const t name value => [t, name, value.token]
  | .calcName t name e => t :: name :: e.printBraced

mutual

/-- The tokens of a statement, without the line feed after it. -/
def Statement.words : Statement → List Token
  | .simple s => s.print
  | .declaration d => d.print
  | .label name => [.mark (.directive .label), name]
  | .next t name st => t :: name :: (st.words ++ [.mark .newline])
  | .macroDef t name params body =>
    t :: name :: (params ++ .mark .openBrace :: (printAll body ++ [.mark .closeBrace]))
  | .stringMode t name alphabet body =>
    t :: name :: alphabet :: .mark .openBrace :: (printAll body ++ [.mark .closeBrace])
  | .invoke name args => name :: args
  | .call name => [name]
  | .ifThen t cond st =>
    t :: (cond.print ++ .mark (.keyword .thenWord) :: (st.words ++ [.mark .newline]))
  | .breakIf t cond => t :: (cond.print ++ [.mark (.keyword .thenWord)])
  | .ifBegin t cond body =>
    t :: (cond.print ++
      .mark (.keyword .beginWord) :: (printAll body ++ [.mark (.keyword .endWord)]))
  | .ifElse t cond body otherwise =>
    t :: (cond.print ++ .mark (.keyword .beginWord) :: (printAll body ++
      .mark (.keyword .elseWord) :: (printAll otherwise ++ [.mark (.keyword .endWord)])))
  | .loop t body => t :: (printAll body ++ [.mark (.keyword .again)])
  | .whileDo t cond st => t :: (cond.print ++ (st.words ++ [.mark .newline]))

/-- The tokens of statements in a row, each with a line feed after it. -/
def printAll : List Statement → List Token
  | [] => []
  | st :: rest => st.words ++ .mark .newline :: printAll rest

end

/-- The tokens of a statement and the line feed after it. -/
def Statement.print (st : Statement) : List Token := st.words ++ [.mark .newline]

/-- No statements have no text. -/
theorem printAll_nil : printAll [] = [] := by rw [printAll]

/-- Statements are printed one after the other. -/
theorem printAll_cons (st : Statement) (rest : List Statement) :
    printAll (st :: rest) = st.print ++ printAll rest := by
  rw [printAll, Statement.print, List.append_assoc]
  rfl

/-- One statement on its own. -/
theorem printAll_single (st : Statement) : printAll [st] = st.print := by
  rw [printAll_cons, printAll_nil, List.append_nil]

/-! ## Two ways to write the same -/

/-- A text without its line feeds. -/
def solid (ts : List Token) : List Token := ts.filter (·.kind ≠ .newline)

/-- A text without its parentheses. -/
def withoutParens (ts : List Token) : List Token :=
  ts.filter fun t => t.kind ≠ .openParen ∧ t.kind ≠ .closeParen

/-- Two texts with the same kinds of tokens in the same order.  Only between the braces of an
    expression may they differ, and only in parentheses that leave the expression what it is. -/
inductive SameWriting : List Token → List Token → Prop where
  | nil : SameWriting [] []
  | token {t t' ts us} (hkind : t.kind = t'.kind) (h : SameWriting ts us) :
      SameWriting (t :: ts) (t' :: us)
  | braced {o o' c c' xs ys e ts us} (ho : o.kind = .openBrace) (ho' : o'.kind = .openBrace)
      (hx : CalcText .whole maxCalcDepth xs e) (hy : CalcText .whole maxCalcDepth ys e)
      (hsame : withoutParens xs = withoutParens ys) (hc : c.kind = .closeBrace)
      (hc' : c'.kind = .closeBrace) (h : SameWriting ts us) :
      SameWriting (o :: (xs ++ c :: ts)) (o' :: (ys ++ c' :: us))

namespace SameWriting

/-- Texts with the same kinds are the same writing. -/
theorem of_kinds {ts us : List Token} (h : ts.map (·.kind) = us.map (·.kind)) :
    SameWriting ts us := by
  induction ts generalizing us with
  | nil =>
    obtain rfl : us = [] := by simpa using h.symm
    exact .nil
  | cons t ts ih =>
    cases us with
    | nil => simp at h
    | cons u us =>
      rw [List.map_cons, List.map_cons] at h
      obtain ⟨hkind, htail⟩ := List.cons.inj h
      exact .token hkind (ih htail)

/-- A text is written like itself. -/
theorem refl (ts : List Token) : SameWriting ts ts := of_kinds rfl

/-- Pieces that are written alike, one behind the other. -/
theorem append {ts us ts' us' : List Token} (h : SameWriting ts us) (h' : SameWriting ts' us') :
    SameWriting (ts ++ ts') (us ++ us') := by
  induction h with
  | nil => exact h'
  | token hkind _ ih => exact .token hkind ih
  | braced ho ho' hx hy hsame hc hc' _ ih =>
    simp only [List.cons_append, List.append_assoc]
    exact .braced ho ho' hx hy hsame hc hc' ih

end SameWriting

section Solid

variable {t : Token} {ts us : List Token}

/-- No tokens, no solid ones. -/
@[simp] theorem solid_nil : solid [] = [] := rfl

/-- Line feeds are left out token by token. -/
@[simp] theorem solid_append (ts us : List Token) : solid (ts ++ us) = solid ts ++ solid us :=
  List.filter_append ..

/-- What is no line feed stays. -/
theorem solid_cons (h : t.kind ≠ .newline) : solid (t :: ts) = t :: solid ts := by
  simp [solid, h]

/-- Of a row of line feeds nothing stays. -/
theorem Feeds.solid (h : Feeds ts) : solid ts = [] := by
  simpa [OctoAsm.solid, Feeds] using h

/-- A printed line feed does not stay. -/
@[simp] theorem solid_newline : OctoAsm.solid (.mark .newline :: ts) = OctoAsm.solid ts := by
  simp [OctoAsm.solid]

end Solid

/-! ## Operands are printed as they were -/

/-- A register operand keeps its token. -/
theorem RegRef.token_of_ofToken? {t : Token} {r : RegRef} (h : RegRef.ofToken? t = some r) :
    r.token = t := by
  obtain ⟨n, -, rfl⟩ | ⟨-, rfl⟩ := RegRef.kind_of_ofToken? h <;> rfl

/-- A value operand keeps its token. -/
theorem ValueRef.token_of_ofToken? {t : Token} {v : ValueRef} (h : ValueRef.ofToken? t = some v) :
    v.token = t := by
  unfold ValueRef.ofToken? at h
  split at h <;> cases h <;> rfl

/-- The same where registers may stand as well. -/
theorem ValueRef.token_of_ofEither? {t : Token} {v : ValueRef}
    (h : ValueRef.ofEither? t = some v) : v.token = t := by
  unfold ValueRef.ofEither? at h
  split at h
  · cases h
    rfl
  · exact ValueRef.token_of_ofToken? h

/-- The operator of an operation between registers is printed as it was read. -/
theorem RegOp.operator_of_ofOperator? {op : Operator} {m : RegOp}
    (h : RegOp.ofOperator? op = some m) : m.operator = op := by
  cases op <;> cases h <;> rfl

/-- The operator of an operation with a value is printed as it was read. -/
theorem ImmOp.operator_of_ofOperator? {op : Operator} {m : ImmOp}
    (h : ImmOp.ofOperator? op = some m) : m.toRegOp.operator = op := by
  cases op <;> cases h <;> rfl

/-- The operator of a comparison is printed as it was read. -/
theorem Comparison.operator_of_ofOperator? {op : Operator} {m : Comparison}
    (h : Comparison.ofOperator? op = some m) : m.operator = op := by
  cases op <;> cases h <;> rfl

section Calc

variable {place : CalcPlace} {n : Nat} {ts : List Token} {e : CalcExpr}

/-- More levels do no harm. -/
theorem CalcText.succ (h : CalcText place n ts e) : CalcText place (n + 1) ts e := by
  induction h with
  | atom hof => exact .atom hof
  | paren ho _ hc ih => exact .paren ho ih hc
  | term _ ih => exact .term ih
  | unary ht hop _ ih => exact .unary ht hop ih
  | binary _ ht hop _ ihl ihr => exact .binary ihl ht hop ihr

/-- A single token is printed as it is. -/
theorem CalcExpr.print_of_ofToken? {t : Token} (h : CalcExpr.ofToken? t = some e) :
    e.compound = false ∧ e.print = [t] := by
  unfold CalcExpr.ofToken? at h
  split at h <;> cases h <;> exact ⟨rfl, rfl⟩

/-- What is no operation was written as one token, perhaps in parentheses. -/
theorem CalcText.atom_of_not_compound (h : CalcText place n ts e) (he : e.compound = false) :
    ∃ t, CalcExpr.ofToken? t = some e := by
  induction h with
  | atom hof => exact ⟨_, hof⟩
  | paren _ _ _ ih | term _ ih => exact ih he
  | unary => cases he
  | binary => cases he

/-- An expression is printed within the levels it was written in: a pair of parentheses that is left
    out takes a level away, and none is added. -/
theorem CalcText.print (h : CalcText place n ts e) :
    match place with
    | .term => CalcText .whole (n + 1) e.print e ∧ CalcText .term n
        (if e.compound then Token.mark .openParen :: (e.print ++ [Token.mark .closeParen])
          else e.print) e
    | .whole => CalcText .whole n e.print e := by
  induction h with
  | atom hof =>
    obtain ⟨hsingle, hprint⟩ := CalcExpr.print_of_ofToken? hof
    rw [hprint, hsingle]
    exact ⟨.term (.atom hof), .atom hof⟩
  | @paren n o ts c e _ h _ ih =>
    refine ⟨ih.succ, ?_⟩
    cases he : e.compound with
    | true => exact .paren rfl ih rfl
    | false =>
      obtain ⟨t, hof⟩ := h.atom_of_not_compound he
      rw [(CalcExpr.print_of_ofToken? hof).2]
      exact .atom hof
  | term _ ih => exact ih.1
  | unary ht hop _ ih => exact .unary ht hop ih
  | binary _ ht hop _ ihl ihr => exact .binary ihl.2 ht hop ihr

/-- Parentheses are left out token by token. -/
@[simp] theorem withoutParens_append (ts us : List Token) :
    withoutParens (ts ++ us) = withoutParens ts ++ withoutParens us := List.filter_append ..

/-- An opening parenthesis in front is left out. -/
theorem withoutParens_open {o : Token} (ho : o.kind = .openParen) :
    withoutParens (o :: ts) = withoutParens ts := by
  simp [withoutParens, ho]

/-- A closing parenthesis on its own is left out. -/
theorem withoutParens_close {c : Token} (hc : c.kind = .closeParen) : withoutParens [c] = [] := by
  simp [withoutParens, hc]

/-- An operator in front stays. -/
theorem withoutParens_operator {t : Token} {op : Operator} (ht : t.kind = .operator op) :
    withoutParens (t :: ts) = t :: withoutParens ts := by
  simp [withoutParens, ht]

/-- Apart from parentheses an expression keeps all its tokens. -/
theorem CalcText.withoutParens_print (h : CalcText place n ts e) :
    withoutParens ts = withoutParens e.print := by
  induction h with
  | atom hof => rw [(CalcExpr.print_of_ofToken? hof).2]
  | paren ho _ hc ih =>
    rw [withoutParens_open ho, withoutParens_append, withoutParens_close hc, List.append_nil, ih]
  | term _ ih => exact ih
  | unary ht _ _ ih =>
    rw [CalcExpr.print, withoutParens_operator ht, withoutParens_operator ht, ih]
  | @binary n ls l t op m rs r _ ht _ _ ihl ihr =>
    have hleft : withoutParens (if l.compound then
        Token.mark .openParen :: (l.print ++ [Token.mark .closeParen]) else l.print) =
        withoutParens l.print := by
      split
      · rw [withoutParens_open rfl, withoutParens_append, withoutParens_close rfl, List.append_nil]
      · rfl
    rw [CalcExpr.print, withoutParens_append, withoutParens_append, withoutParens_operator ht,
      withoutParens_operator ht, hleft, ihl, ihr]

/-- Between its braces an expression is printed as a text of itself, and differs from what was
    written in parentheses only. -/
theorem BracedText.print (h : BracedText ts e) :
    BracedText e.printBraced e ∧ SameWriting ts e.printBraced := by
  cases h with
  | mk ho h hc =>
    refine ⟨.mk rfl h.print rfl, ?_⟩
    exact .braced ho rfl h h.print h.withoutParens_print hc rfl .nil

end Calc

section Texts

variable {ts : List Token}

/-- An argument of a directive is printed as a text of itself. -/
theorem OperandText.print {operand : Operand} (h : OperandText ts operand) :
    OperandText operand.print operand ∧ SameWriting ts operand.print := by
  cases h with
  | value hv =>
    rw [Operand.print, ValueRef.token_of_ofToken? hv]
    exact ⟨.value hv, .refl _⟩
  | braced h => exact ⟨.braced h.print.1, h.print.2⟩

/-- One case to a form of condition: the dropped tokens come back with the kinds they had. -/
theorem ConditionText.print {cond : Condition} (h : ConditionText ts cond) :
    ConditionText cond.print cond ∧ SameWriting ts cond.print := by
  cases h with
  | key hr hk =>
    rw [Condition.print, RegRef.token_of_ofToken? hr]
    exact ⟨.key hr rfl, .of_kinds (by simp [hk])⟩
  | notKey hr hk =>
    rw [Condition.print, RegRef.token_of_ofToken? hr]
    exact ⟨.notKey hr rfl, .of_kinds (by simp [hk])⟩
  | compare hr ht hop hv =>
    rw [Condition.print, RegRef.token_of_ofToken? hr, ValueRef.token_of_ofEither? hv,
      Comparison.operator_of_ofOperator? hop]
    exact ⟨.compare hr rfl hop hv, .of_kinds (by simp [ht])⟩

/-- One case to a form of assignment, each with its operator put back. -/
theorem AssignmentText.print {a : Assignment} (h : AssignmentText ts a) :
    AssignmentText a.print a ∧ SameWriting ts a.print := by
  -- targets and sources keep their tokens; the operator was dropped, and comes back by its kind
  cases h with
  | delaySet ht ho hr =>
    rw [Assignment.print, RegRef.token_of_ofToken? hr]
    exact ⟨.delaySet ht rfl hr, .of_kinds (by simp [ho])⟩
  | buzzerSet ht ho hr =>
    rw [Assignment.print, RegRef.token_of_ofToken? hr]
    exact ⟨.buzzerSet ht rfl hr, .of_kinds (by simp [ho])⟩
  | delayGet ht ho hs => exact ⟨.delayGet ht rfl rfl, .of_kinds (by simp [Assignment.print, ho, hs])⟩
  | keyInput ht ho hk => exact ⟨.keyInput ht rfl rfl, .of_kinds (by simp [Assignment.print, ho, hk])⟩
  | random ht ho hk hv =>
    rw [Assignment.print, ValueRef.token_of_ofToken? hv]
    exact ⟨.random ht rfl rfl hv, .of_kinds (by simp [ho, hk])⟩
  | indexSet ht ho hv =>
    rw [Assignment.print, ValueRef.token_of_ofToken? hv]
    exact ⟨.indexSet ht rfl hv, .of_kinds (by simp [ho])⟩
  | indexAdd ht ho hr =>
    rw [Assignment.print, RegRef.token_of_ofToken? hr]
    exact ⟨.indexAdd ht rfl hr, .of_kinds (by simp [ho])⟩
  | charSprite ht ho hk hr =>
    rw [Assignment.print, RegRef.token_of_ofToken? hr]
    exact ⟨.charSprite ht rfl rfl hr, .of_kinds (by simp [ho, hk])⟩
  | register ht ho hop hs =>
    rw [Assignment.print, RegOp.operator_of_ofOperator? hop]
    exact ⟨.register ht rfl hop hs, .of_kinds (by simp [ho, RegRef.token])⟩
  | named ht ho hop hno hs =>
    rw [Assignment.print, RegOp.operator_of_ofOperator? hop]
    exact ⟨.named ht rfl hop hno hs, .of_kinds (by simp [ho, RegRef.token])⟩
  | immediate ht ho hop hv hname =>
    rw [Assignment.print, ImmOp.operator_of_ofOperator? hop, ValueRef.token_of_ofToken? hv]
    exact ⟨.immediate ht rfl hop hv hname, .of_kinds (by simp [ho])⟩
  | ambiguous ht ho hop hs =>
    rw [Assignment.print, ImmOp.operator_of_ofOperator? hop]
    exact ⟨.ambiguous ht rfl hop hs, .of_kinds (by simp [ho])⟩

/-- One case to a statement within a line; the words that were dropped are printed by
    their kinds. -/
theorem InlineText.print {s : Simple} (h : InlineText ts s) :
    InlineText s.print s ∧ SameWriting ts s.print := by
  cases h with
  | ret ht => exact ⟨.ret ht, .refl _⟩
  | clear ht => exact ⟨.clear ht, .refl _⟩
  | bcd ht hr =>
    rw [Simple.print, RegRef.token_of_ofToken? hr]
    exact ⟨.bcd ht hr, .refl _⟩
  | save ht hr =>
    rw [Simple.print, RegRef.token_of_ofToken? hr]
    exact ⟨.save ht hr, .refl _⟩
  | load ht hr =>
    rw [Simple.print, RegRef.token_of_ofToken? hr]
    exact ⟨.load ht hr, .refl _⟩
  | sprite ht hx hy hv =>
    rw [Simple.print, RegRef.token_of_ofToken? hx, RegRef.token_of_ofToken? hy,
      ValueRef.token_of_ofToken? hv]
    exact ⟨.sprite ht hx hy hv, .refl _⟩
  | jump ht hv =>
    rw [Simple.print, ValueRef.token_of_ofToken? hv]
    exact ⟨.jump ht hv, .refl _⟩
  | jumpOffset ht hv =>
    rw [Simple.print, ValueRef.token_of_ofToken? hv]
    exact ⟨.jumpOffset ht hv, .refl _⟩
  | datum ht => exact ⟨.datum ht, .refl _⟩
  | assign h => exact ⟨.assign h.print.1, h.print.2⟩

/-- One case to a statement that fills its line. -/
theorem LineText.print {st : Statement} (h : LineText ts st) :
    LineText st.words st ∧ SameWriting ts st.words := by
  cases h with
  | label hw hn =>
    rw [Statement.words]
    exact ⟨.label rfl hn, .of_kinds (by simp [hw])⟩
  | aliasRegister hw hn hr =>
    rw [Statement.words, Declaration.print, RegRef.token_of_ofToken? hr]
    exact ⟨.aliasRegister hw hn hr, .refl _⟩
  | aliasBraced hw hn h =>
    rw [Statement.words, Declaration.print]
    -- expressions differ in their parentheses, all else in nothing but texts
    exact ⟨.aliasBraced hw hn h.print.1, .token rfl (.token rfl h.print.2)⟩
  | const hw hn hv =>
    rw [Statement.words, Declaration.print, ValueRef.token_of_ofToken? hv]
    exact ⟨.const hw hn hv, .refl _⟩
  | calcName hw hn h =>
    rw [Statement.words, Declaration.print]
    exact ⟨.calcName hw hn h.print.1, .token rfl (.token rfl h.print.2)⟩
  | callAddress hw hv =>
    rw [Statement.words, Simple.print, ValueRef.token_of_ofToken? hv]
    exact ⟨.callAddress hw hv, .refl _⟩
  | unpack hw hv =>
    rw [Statement.words, Simple.print, ValueRef.token_of_ofToken? hv]
    exact ⟨.unpack hw hv, .refl _⟩
  | unpackTagged hw hg hv =>
    rw [Statement.words, Simple.print, ValueRef.token_of_ofToken? hg, ValueRef.token_of_ofToken? hv]
    exact ⟨.unpackTagged hw hg hv, .refl _⟩
  | org hw h =>
    rw [Statement.words, Simple.print]
    exact ⟨.org hw h.print.1, .token rfl h.print.2⟩
  | byte hw h =>
    rw [Statement.words, Simple.print]
    exact ⟨.byte hw h.print.1, .token rfl h.print.2⟩
  | pointer hw h =>
    rw [Statement.words, Simple.print]
    exact ⟨.pointer hw h.print.1, .token rfl h.print.2⟩
  | assertion hw h =>
    rw [Statement.words, Simple.print]
    exact ⟨.assertion hw h.print.1, .token rfl h.print.2⟩
  | assertionWith hw hm h =>
    rw [Statement.words, Simple.print]
    exact ⟨.assertionWith hw hm h.print.1, .token rfl (.token rfl h.print.2)⟩
  | breakpoint hw hn =>
    rw [Statement.words, Simple.print]
    exact ⟨.breakpoint hw hn, .refl _⟩
  | monitorLength hw hv hl =>
    rw [Statement.words, Simple.print, ValueRef.token_of_ofEither? hv]
    exact ⟨.monitorLength hw hv hl, .refl _⟩
  | monitorFormat hw hv hf =>
    rw [Statement.words, Simple.print, ValueRef.token_of_ofEither? hv]
    exact ⟨.monitorFormat hw hv hf, .refl _⟩

end Texts

/-! ## The printed text reads as the same statements -/

section Back

variable {b : Bool} {ts : List Token} {sts : List Statement} {next : Option TokenKind}

/-- A body may begin with any number of line feeds. -/
theorem Reads.feeds_append {nls : List Token} (hnls : Feeds nls) (h : Reads (.body b) ts sts next) :
    Reads (.body b) (nls ++ ts) sts next := by
  have hjoin : ∀ {more : List Token}, Feeds more → Feeds (nls ++ more) := by
    intro more hmore t ht
    rcases List.mem_append.mp ht with ht | ht
    · exact hnls t ht
    · exact hmore t ht
  cases h with
  | done hmore => exact .done (hjoin hmore)
  | more hmore h hs =>
    rw [← List.append_assoc]
    exact .more (hjoin hmore) h hs

/-- A body before `again` that does not begin with a line feed and not with a statement is empty. -/
theorem Reads.printAll_lead_again (h : Reads (.body b) ts sts next)
    (hlead : lead ts next = some (.keyword .again)) :
    lead (printAll sts) next = some (.keyword .again) := by
  cases h with
  | done hnls =>
    cases ts with
    | nil => exact hlead
    | cons t nls =>
      have hkind := hnls t List.mem_cons_self
      rw [lead_cons, hkind] at hlead
      cases hlead
  | @more _ nls us st vs sts _ hnls h hs =>
    exfalso
    cases nls with
    | nil =>
      obtain ⟨t, us, rfl, ht⟩ := h.begins
      rw [List.nil_append, List.cons_append, lead_cons] at hlead
      rw [Option.some.inj hlead] at ht
      cases ht
    | cons t nls =>
      have hkind := hnls t List.mem_cons_self
      rw [List.cons_append, lead_cons, hkind] at hlead
      cases hlead

end Back

/-- The printed text of a part reads as that part.  After a statement a line feed or more may be left
    over; only a conditional break needs to know what follows. -/
def ReadsBack : Part → List Statement → Option TokenKind → Prop
  | .statement b, sts, next => ∀ next',
      (b = true → next = some (.keyword .again) → next' = some (.keyword .again)) →
      ∃ p nls, printAll sts = p ++ nls ∧ Feeds nls ∧ Reads (.statement b) p sts (lead nls next')
  | .body b, sts, next => Reads (.body b) (printAll sts) sts next

/-- One line feed is a row of them. -/
theorem feeds_newline : Feeds [Token.mark .newline] := .cons rfl .nil

/-- By induction on the grammar: every part that was written as some statements is written as them
    by the printer, whatever follows it. -/
theorem Reads.readsBack {part : Part} {ts : List Token} {sts : List Statement}
    {next : Option TokenKind} (h : Reads part ts sts next) : ReadsBack part sts next := by
  -- Inside another statement, and not in a loop, a statement is printed with a line feed after it.
  have inner : ∀ {st : Statement} {next : Option TokenKind} (next' : Option TokenKind),
      ReadsBack (.statement false) [st] next →
      ∃ p nls, st.words ++ [Token.mark .newline] = p ++ nls ∧ Feeds (nls ++ [Token.mark .newline]) ∧
        Reads (.statement false) p [st] (lead (nls ++ [Token.mark .newline]) next') := by
    intro st next next' h
    obtain ⟨p, nls, hprint, hnls, hreads⟩ := h (some .newline) nofun
    rw [printAll_single, Statement.print] at hprint
    refine ⟨p, nls, hprint, ?_, by simpa using hreads⟩
    intro t ht
    rcases List.mem_append.mp ht with ht | ht
    · exact hnls t ht
    · exact feeds_newline t ht
  induction h with
  | @inline b ts s next h =>
    intro next' _
    exact ⟨s.print, _, by rw [printAll_single, Statement.print, Statement.words], feeds_newline,
      .inline h.print.1⟩
  | @line b ts st feed next h hend =>
    intro next' _
    exact ⟨st.words ++ [.mark .newline], [], by rw [printAll_single, Statement.print,
      List.append_nil], .nil, .line h.print.1 (.feed rfl)⟩
  | @call b name next hname hnext =>
    intro next' _
    exact ⟨[name], _, by rw [printAll_single, Statement.print, Statement.words], feeds_newline,
      .call hname rfl⟩
  | @invoke b name arg args next hname hargs hop hnext =>
    intro next' _
    exact ⟨name :: arg :: args, _, by rw [printAll_single, Statement.print, Statement.words],
      feeds_newline, .invoke hname hargs hop rfl⟩
  | @next b word name nls ts st next hword hname hnls h ih =>
    intro next' _
    obtain ⟨p, nls, hprint, hnls, hreads⟩ := inner next' ih
    refine ⟨word :: name :: ([] ++ p), _, ?_, hnls, .next hword hname .nil hreads⟩
    rw [printAll_single, Statement.print, Statement.words, hprint]
    simp
  | @macroDef b word name params o ts body c feed next hword hname hparams ho h hc hend ih =>
    intro next' _
    refine ⟨_, [], ?_, .nil, .macroDef hword hname hparams (Token.mark_kind _) ih (Token.mark_kind _)
      (.feed (Token.mark_kind _))⟩
    rw [printAll_single, Statement.print, Statement.words]
    simp
  | @stringMode b word name alphabet o ts body c feed next hword hname halphabet ho h hc hend ih =>
    intro next' _
    refine ⟨_, [], ?_, .nil, .stringMode hword hname halphabet (Token.mark_kind _) ih (Token.mark_kind _)
      (.feed (Token.mark_kind _))⟩
    rw [printAll_single, Statement.print, Statement.words]
    simp
  | @ifThen b word cs cond thn nls ts st next hword hcond hthn hnls h ih =>
    intro next' _
    obtain ⟨p, nls, hprint, hnls, hreads⟩ := inner next' ih
    refine ⟨_, _, ?_, hnls, .ifThen hword hcond.print.1 (Token.mark_kind _) .nil hreads⟩
    rw [printAll_single, Statement.print, Statement.words, hprint]
    simp
  | @breakIf word cs cond thn nls hword hcond hthn hnls =>
    intro next' hagain
    obtain rfl := hagain rfl rfl
    refine ⟨_, [], ?_, .nil, .breakIf hword hcond.print.1 (Token.mark_kind _) feeds_newline⟩
    rw [printAll_single, Statement.print, Statement.words]
    simp
  | @ifBegin b word cs cond bgn ts body fin next hword hcond hbgn h hfin ih =>
    intro next' _
    refine ⟨_, _, ?_, feeds_newline, .ifBegin hword hcond.print.1 (Token.mark_kind _) ih
      (Token.mark_kind _)⟩
    rw [printAll_single, Statement.print, Statement.words]
  | @ifElse b word cs cond bgn ts body els us otherwise fin next hword hcond hbgn h hels h' hfin ih
      ih' =>
    intro next' _
    refine ⟨_, _, ?_, feeds_newline, .ifElse hword hcond.print.1 (Token.mark_kind _) ih
      (Token.mark_kind _) ih' (Token.mark_kind _)⟩
    rw [printAll_single, Statement.print, Statement.words]
  | @loop b word ts body again next hword h hagain ih =>
    intro next' _
    refine ⟨_, _, ?_, feeds_newline, .loop hword ih (Token.mark_kind _)⟩
    rw [printAll_single, Statement.print, Statement.words]
  | @whileDo b word cs cond nls ts st next hword hcond hnls h ih =>
    intro next' _
    obtain ⟨p, nls, hprint, hnls, hreads⟩ := inner next' ih
    refine ⟨_, _, ?_, hnls, .whileDo hword hcond.print.1 .nil hreads⟩
    rw [printAll_single, Statement.print, Statement.words, hprint]
    simp
  | done _ =>
    show Reads _ (printAll []) [] _
    rw [printAll_nil]
    exact .done .nil
  | @more b nls ts st us sts next hnls h hs ih ihs =>
    obtain ⟨p, nls, hprint, hnls, hreads⟩ :=
      ih (lead (printAll sts) next) fun _ hlead => hs.printAll_lead_again hlead
    rw [printAll_single] at hprint
    show Reads _ (printAll (st :: sts)) (st :: sts) _
    rw [printAll_cons, hprint, List.append_assoc]
    rw [← lead_append] at hreads
    have hmore := Reads.more .nil hreads (ihs.feeds_append hnls)
    rwa [List.nil_append] at hmore

/-! ## The printed text has the same tokens -/

/-- Some statements and the parts of a text that they come from: nothing of the text is left over, and
    each part is written as its statement is printed. -/
def Pieces (ts : List Token) (sts : List Statement) : Prop :=
  ∃ pieces : List (List Token), pieces.flatten = solid ts ∧
    List.Forall₂ (fun piece st => SameWriting piece (solid st.print)) pieces sts

/-- A text of one statement is one piece. -/
theorem Pieces.single {ts : List Token} {st : Statement}
    (h : SameWriting (solid ts) (solid st.words)) : Pieces ts [st] := by
  refine ⟨[solid ts], by simp, .cons ?_ .nil⟩
  rw [Statement.print, solid_append, solid_newline, solid_nil, List.append_nil]
  exact h

/-- Texts cut into pieces that are written like the statements are written like all of them
    together. -/
theorem Pieces.writing {ts : List Token} {sts : List Statement} (h : Pieces ts sts) :
    SameWriting (solid ts) (solid (printAll sts)) := by
  obtain ⟨pieces, hflatten, hpieces⟩ := h
  rw [← hflatten]
  clear hflatten
  induction hpieces with
  | nil =>
    rw [printAll_nil]
    exact .nil
  | cons hpiece _ ih =>
    rw [printAll_cons, solid_append, List.flatten_cons]
    exact hpiece.append ih

/-- No line feed stands in an expression. -/
theorem CalcText.solid_eq {place : CalcPlace} {n : Nat} {ts : List Token} {e : CalcExpr}
    (h : CalcText place n ts e) : solid ts = ts := by
  induction h with
  | @atom n t e hof =>
    refine solid_cons fun hkind => ?_
    simp [CalcExpr.ofToken?, hkind] at hof
  | paren ho _ hc ih =>
    rw [solid_cons (by simp [ho]), solid_append, ih, solid_cons (by simp [hc]), solid_nil]
  | term _ ih => exact ih
  | unary ht _ _ ih => rw [solid_cons (by simp [ht]), ih]
  | binary _ ht _ _ ihl ihr => rw [solid_append, ihl, solid_cons (by simp [ht]), ihr]

namespace SameWriting

variable {t t' : Token} {ts us ts' us' : List Token}

/-- A token in front with the same kind on both sides. -/
theorem cons_solid (hkind : t.kind = t'.kind) (h : SameWriting (solid ts) (solid us)) :
    SameWriting (solid (t :: ts)) (solid (t' :: us)) := by
  by_cases hfeed : t.kind = .newline
  · have hfeed' : t'.kind = .newline := hkind ▸ hfeed
    simpa [OctoAsm.solid, hfeed, hfeed'] using h
  · rw [solid_cons hfeed, solid_cons (hkind ▸ hfeed)]
    exact .token hkind h

/-- One solid text behind another. -/
theorem append_solid (h : SameWriting (solid ts) (solid us))
    (h' : SameWriting (solid ts') (solid us')) :
    SameWriting (solid (ts ++ ts')) (solid (us ++ us')) := by
  rw [solid_append, solid_append]
  exact h.append h'

/-- Leaving out line feeds on both sides keeps texts alike. -/
theorem solid (h : SameWriting ts us) : SameWriting (solid ts) (solid us) := by
  induction h with
  | nil => exact .nil
  | token hkind _ ih => exact cons_solid hkind ih
  | @braced o o' c c' xs ys e ts us ho ho' hx hy hsame hc hc' _ ih =>
    rw [solid_cons (by simp [ho]), solid_append, hx.solid_eq, solid_cons (by simp [hc]),
      solid_cons (by simp [ho']), solid_append, hy.solid_eq, solid_cons (by simp [hc'])]
    exact .braced ho ho' hx hy hsame hc hc' ih

/-- Line feeds in front do not count. -/
theorem feeds_append (hfeeds : Feeds ts') (h : SameWriting (OctoAsm.solid ts) (OctoAsm.solid us)) :
    SameWriting (OctoAsm.solid (ts' ++ ts)) (OctoAsm.solid us) := by
  rw [solid_append, hfeeds.solid]
  exact h

/-- Line feeds behind do not count. -/
theorem append_feeds (hfeeds : Feeds ts') (h : SameWriting (OctoAsm.solid ts) (OctoAsm.solid us)) :
    SameWriting (OctoAsm.solid (ts ++ ts')) (OctoAsm.solid us) := by
  rw [solid_append, hfeeds.solid, List.append_nil]
  exact h

end SameWriting

/-- By induction on the grammar: every part of a text is cut into one piece for each of its
    statements. -/
theorem Reads.pieces {part : Part} {ts : List Token} {sts : List Statement}
    {next : Option TokenKind} (h : Reads part ts sts next) : Pieces ts sts := by
  -- A statement inside another is printed with a line feed after it.
  have inner : ∀ {ts nls : List Token} {st : Statement}, Pieces ts [st] → Feeds nls →
      SameWriting (solid (nls ++ ts)) (solid (st.words ++ [Token.mark .newline])) := by
    intro ts nls st hpieces hnls
    have hwriting := hpieces.writing
    rw [printAll_single, Statement.print] at hwriting
    exact .feeds_append hnls hwriting
  induction h with
  | inline h =>
    refine .single ?_
    rw [Statement.words]
    exact h.print.2.solid
  | line h hend => exact .single (.append_feeds hend.feeds h.print.2.solid)
  | call _ _ =>
    refine .single ?_
    rw [Statement.words]
    exact .refl _
  | invoke _ _ _ _ =>
    refine .single ?_
    rw [Statement.words]
    exact .refl _
  | next _ _ hnls _ ih =>
    refine .single ?_
    rw [Statement.words]
    exact .cons_solid rfl (.cons_solid rfl (inner ih hnls))
  | @macroDef b word name params o ts body c feed next hword hname hparams ho h hc hend ih =>
    refine .single ?_
    rw [Statement.words]
    have hclose : SameWriting (solid (c :: feed)) (solid [Token.mark .closeBrace]) :=
      .cons_solid hc (by rw [hend.feeds.solid]; exact .nil)
    exact .cons_solid rfl (.cons_solid rfl (.append_solid (.refl _)
      (.cons_solid ho (.append_solid ih.writing hclose))))
  | @stringMode b word name alphabet o ts body c feed next hword hname halphabet ho h hc hend ih =>
    refine .single ?_
    rw [Statement.words]
    have hclose : SameWriting (solid (c :: feed)) (solid [Token.mark .closeBrace]) :=
      .cons_solid hc (by rw [hend.feeds.solid]; exact .nil)
    exact .cons_solid rfl (.cons_solid rfl (.cons_solid rfl
      (.cons_solid ho (.append_solid ih.writing hclose))))
  | ifThen _ hcond hthn hnls _ ih =>
    refine .single ?_
    rw [Statement.words]
    exact .cons_solid rfl (.append_solid hcond.print.2.solid (.cons_solid hthn (inner ih hnls)))
  | @breakIf word cs cond thn nls hword hcond hthn hnls =>
    refine .single ?_
    rw [Statement.words]
    have hthen : SameWriting (solid (thn :: nls)) (solid [Token.mark (.keyword .thenWord)]) :=
      .cons_solid hthn (by rw [hnls.solid]; exact .nil)
    exact .cons_solid rfl (.append_solid hcond.print.2.solid hthen)
  | ifBegin _ hcond hbgn _ hfin ih =>
    refine .single ?_
    rw [Statement.words]
    exact .cons_solid rfl (.append_solid hcond.print.2.solid (.cons_solid hbgn
      (.append_solid ih.writing (.cons_solid hfin .nil))))
  | ifElse _ hcond hbgn _ hels _ hfin ih ih' =>
    refine .single ?_
    rw [Statement.words]
    exact .cons_solid rfl (.append_solid hcond.print.2.solid (.cons_solid hbgn
      (.append_solid ih.writing (.cons_solid hels
        (.append_solid ih'.writing (.cons_solid hfin .nil))))))
  | loop _ _ hagain ih =>
    refine .single ?_
    rw [Statement.words]
    exact .cons_solid rfl (.append_solid ih.writing (.cons_solid hagain .nil))
  | whileDo _ hcond hnls _ ih =>
    refine .single ?_
    rw [Statement.words]
    exact .cons_solid rfl (.append_solid hcond.print.2.solid (inner ih hnls))
  | done hnls => exact ⟨[], hnls.solid.symm, .nil⟩
  | @more b nls ts st us sts next hnls _ _ ih ihs =>
    obtain ⟨pieces, hflatten, hpieces⟩ := ih
    obtain ⟨others, hflatten', hothers⟩ := ihs
    refine ⟨pieces ++ others, ?_, List.rel_append hpieces hothers⟩
    rw [List.flatten_append, hflatten, hflatten', solid_append, solid_append, hnls.solid,
      List.nil_append]

/-- **Printing undoes parsing.**  What is printed of a parsed program parses as that program, and but
    for line feeds and needless parentheses in expressions it has the tokens of the text that was
    parsed: they fall into pieces, one for each statement in order, of the kinds that are printed for
    the statement. -/
theorem parse_printAll {ts : List Token} {program : List Statement}
    (h : parse ts = .ok program) :
    parse (printAll program) = .ok program ∧
      SameWriting (solid ts) (solid (printAll program)) ∧
      ∃ pieces : List (List Token), pieces.flatten = solid ts ∧
        List.Forall₂ (fun piece st => SameWriting piece (solid st.print)) pieces program := by
  have hreads : Reads (.body false) ts program none := parse_eq_ok.mp h
  have hpieces : Pieces ts program := hreads.pieces
  exact ⟨parse_eq_ok.mpr hreads.readsBack, hpieces.writing, hpieces⟩

/-- A constant with needless parentheses, a macro on one line, and a loop left by a condition:
    `:calc n { ( ( 1 ) + 2 ) * ( 3 ) }`, `:macro inc r { r += n }`, `loop inc v0`, `if v0 key then`,
    an empty line, `again`. -/
def steppingText : List Token :=
  [⟨1, .directive .calcName, ":calc"⟩, ⟨1, .name, "n"⟩, ⟨1, .openBrace, "\x7b"⟩, ⟨1, .openParen, "("⟩,
    ⟨1, .openParen, "("⟩, ⟨1, .number 1, "1"⟩, ⟨1, .closeParen, ")"⟩, ⟨1, .operator .plus, "+"⟩,
    ⟨1, .number 2, "2"⟩, ⟨1, .closeParen, ")"⟩, ⟨1, .operator .star, "*"⟩, ⟨1, .openParen, "("⟩,
    ⟨1, .number 3, "3"⟩, ⟨1, .closeParen, ")"⟩, ⟨1, .closeBrace, "\x7d"⟩, ⟨1, .newline, "\n"⟩,
    ⟨2, .directive .macroDef, ":macro"⟩, ⟨2, .name, "inc"⟩, ⟨2, .name, "r"⟩,
    ⟨2, .openBrace, "\x7b"⟩, ⟨2, .name, "r"⟩, ⟨2, .operator .addAssign, "+="⟩, ⟨2, .name, "n"⟩,
    ⟨2, .closeBrace, "\x7d"⟩, ⟨2, .newline, "\n"⟩,
    ⟨3, .keyword .loop, "loop"⟩, ⟨3, .name, "inc"⟩, ⟨3, .register (.v (vReg 0)), "v0"⟩,
    ⟨3, .newline, "\n"⟩, ⟨4, .keyword .ifWord, "if"⟩, ⟨4, .register (.v (vReg 0)), "v0"⟩,
    ⟨4, .keyword .key, "key"⟩, ⟨4, .keyword .thenWord, "then"⟩, ⟨4, .newline, "\n"⟩,
    ⟨5, .newline, "\n"⟩, ⟨6, .keyword .again, "again"⟩]

/-- The statements of `steppingText`. -/
def steppingProgram : List Statement :=
  [.declaration (.calcName ⟨1, .directive .calcName, ":calc"⟩ ⟨1, .name, "n"⟩
      (.binary ⟨1, .operator .star, "*"⟩ .mul
        (.binary ⟨1, .operator .plus, "+"⟩ .add (.number ⟨1, .number 1, "1"⟩ (Float.ofInt 1))
          (.number ⟨1, .number 2, "2"⟩ (Float.ofInt 2)))
        (.number ⟨1, .number 3, "3"⟩ (Float.ofInt 3)))),
    .macroDef ⟨2, .directive .macroDef, ":macro"⟩ ⟨2, .name, "inc"⟩ [⟨2, .name, "r"⟩]
      [.simple (.assign (.ambiguous ⟨2, .name, "r"⟩ (.named ⟨2, .name, "r"⟩) .add ⟨2, .name, "n"⟩))],
    .loop ⟨3, .keyword .loop, "loop"⟩
      [.invoke ⟨3, .name, "inc"⟩ [⟨3, .register (.v (vReg 0)), "v0"⟩],
        .breakIf ⟨4, .keyword .ifWord, "if"⟩
          (.key (.literal ⟨4, .register (.v (vReg 0)), "v0"⟩ (vReg 0)) true)]]

/-- A calc name in needless parentheses, a macro and a loop that is left at a key. -/
theorem parse_printAll_stepping :
    parse steppingText = .ok steppingProgram ∧
      parse (printAll steppingProgram) = .ok steppingProgram ∧
      SameWriting (solid steppingText) (solid (printAll steppingProgram)) ∧
      ∃ pieces : List (List Token), pieces.flatten = solid steppingText ∧
        List.Forall₂ (fun piece st => SameWriting piece (solid st.print)) pieces steppingProgram :=
  ⟨rfl, parse_printAll rfl⟩

end OctoAsm
