/-
  Calc expressions are read exactly by their grammar, up to the limit on their nesting.

  `CalcPhrase` is the grammar by itself: an expression is a unary operator and an expression, or a term,
  or a term, a binary operator and an expression.  It has tables of its own for the operators; those of
  the reader are shown to be the same (`mem_unaryOperators`, `mem_binaryOperators`).  The index counts
  how deep a phrase nests; it goes up by one in a parenthesis and on the right of every operator.  A
  text has one derivation at most
  (`CalcPhrase.unique`): a term does not begin with an operator, and no operator follows an expression,
  so every choice is made by the next token.  A text within a number of levels is a phrase that nests
  no deeper (`CalcText.phrase`, `CalcPhrase.text`), which turns what is known of the reader into the
  statement about the grammar.

  The reader is handed the number of levels that are left.  The same procedure can be written with a
  counter of the levels that are open, which is checked, raised and lowered on the way (`countingCalc`).
  Both go the same way from every state in which the two numbers add up to the limit, and the counter
  is what it was before, whether the reader succeeds or fails (`Tracks`, with a rule for each step).
-/
import OctoAsm.Proofs.Statement.Operands

namespace OctoAsm

open Reader

/-! ## The grammar -/

/-- The unary operators of expressions. -/
def unaryOperators : List (Operator × Calc.UnaryOp) :=
  [(.minus, .neg), (.tilde, .not), (.bang, .logicalNot), (.sin, .sin), (.cos, .cos), (.tan, .tan),
   (.exp, .exp), (.log, .log), (.abs, .abs), (.sqrt, .sqrt), (.sign, .sign), (.ceil, .ceil),
   (.floor, .floor), (.address, .addressOf), (.strlen, .strlen)]

/-- The binary operators of expressions; a minus sign is both. -/
def binaryOperators : List (Operator × Calc.BinaryOp) :=
  [(.plus, .add), (.minus, .sub), (.star, .mul), (.slash, .div), (.percent, .rem), (.amp, .and),
   (.pipe, .or), (.caret, .xor), (.shl, .shl), (.shr, .shr), (.pow, .pow), (.min, .min),
   (.max, .max), (.lt, .lt), (.gt, .gt), (.le, .le), (.ge, .ge), (.eq, .eq), (.ne, .ne)]

/-- The tokens that are terms by themselves, and what they stand for. -/
inductive CalcAtom : Token → CalcExpr → Prop where
  | number {t n} (h : t.kind = .number n) : CalcAtom t (.number t (Float.ofInt n))
  | name {t} (h : t.kind = .name) : CalcAtom t (.name t)
  | constant {t c} (h : t.kind = .constant c) : CalcAtom t (.name t)
  | string {t} (h : t.kind = .string) : CalcAtom t (.string t)

/-- The tokens of an expression or a term, the tree that they stand for, and how deep they nest. -/
inductive CalcPhrase : CalcPlace → List Token → CalcExpr → Nat → Prop where
  | atom {t e} (h : CalcAtom t e) : CalcPhrase .term [t] e 1
  | paren {o ts c e n} (ho : o.kind = .openParen) (h : CalcPhrase .whole ts e n)
      (hc : c.kind = .closeParen) : CalcPhrase .term (o :: (ts ++ [c])) e (n + 1)
  | term {ts e n} (h : CalcPhrase .term ts e n) : CalcPhrase .whole ts e n
  /-- the operator takes all that follows -/
  | unary {t op m ts e n} (ht : t.kind = .operator op) (hop : (op, m) ∈ unaryOperators)
      (h : CalcPhrase .whole ts e n) : CalcPhrase .whole (t :: ts) (.unary t m e) (n + 1)
  /-- the right side is all that follows -/
  | binary {ls l a t op m rs r b} (hl : CalcPhrase .term ls l a) (ht : t.kind = .operator op)
      (hop : (op, m) ∈ binaryOperators) (hr : CalcPhrase .whole rs r b) :
      CalcPhrase .whole (ls ++ t :: rs) (.binary t m l r) (max a (b + 1))

/-- The unary operators of the grammar are those of the reader, with the same meanings. -/
theorem mem_unaryOperators {op : Operator} {m : Calc.UnaryOp} :
    (op, m) ∈ unaryOperators ↔ unaryOp? op = some m := by
  cases op <;> simp [unaryOperators, unaryOp?, eq_comm]

/-- The binary operators of the grammar are those of the reader, with the same meanings. -/
theorem mem_binaryOperators {op : Operator} {m : Calc.BinaryOp} :
    (op, m) ∈ binaryOperators ↔ binaryOp? op = some m := by
  cases op <;> simp [binaryOperators, binaryOp?, eq_comm]

/-- The operands of the grammar are those of the reader. -/
theorem calcAtom_iff {t : Token} {e : CalcExpr} : CalcAtom t e ↔ CalcExpr.ofToken? t = some e := by
  unfold CalcExpr.ofToken?
  constructor
  · rintro (h | h | h | h) <;> rw [h]
  · intro h
    split at h
    case h_1 n hkind => exact Option.some.inj h ▸ .number hkind
    case h_2 hkind => exact Option.some.inj h ▸ .name hkind
    case h_3 c hkind => exact Option.some.inj h ▸ .constant hkind
    case h_4 hkind => exact Option.some.inj h ▸ .string hkind
    case h_5 => cases h

/-- A term by itself is neither an operator nor a parenthesis. -/
theorem CalcAtom.kind_ne {t : Token} {e : CalcExpr} (h : CalcAtom t e) :
    (∀ op, t.kind ≠ .operator op) ∧ t.kind ≠ .openParen := by
  rcases h with h | h | h | h <;> simp [h]

theorem CalcAtom.unique {t : Token} {e e' : CalcExpr} (h : CalcAtom t e) (h' : CalcAtom t e') :
    e = e' :=
  Option.some.inj ((calcAtom_iff.mp h).symm.trans (calcAtom_iff.mp h'))

section Grammar

variable {place : CalcPlace} {p p' r r' : List Token} {e e' : CalcExpr} {n n' : Nat}

/-- Every phrase has a level of its own. -/
theorem CalcPhrase.pos (h : CalcPhrase place p e n) : 1 ≤ n := by
  induction h with
  | atom | paren | unary => omega
  | term _ ih => exact ih
  | binary => omega

/-- How deep a phrase may nest within a number of levels. -/
def CalcPlace.deepest : CalcPlace → Nat → Nat
  | .term, levels => levels + 1
  | .whole, levels => levels

/-- A text within a number of levels is a phrase that nests no deeper. -/
theorem CalcText.phrase {levels : Nat} (h : CalcText place levels p e) :
    ∃ n, CalcPhrase place p e n ∧ n ≤ place.deepest levels := by
  induction h with
  | atom hof => exact ⟨1, .atom (calcAtom_iff.mpr hof), by simp [CalcPlace.deepest]⟩
  | paren ho _ hc ih =>
    obtain ⟨n, hn, hle⟩ := ih
    exact ⟨n + 1, .paren ho hn hc, Nat.succ_le_succ hle⟩
  | term _ ih =>
    obtain ⟨n, hn, hle⟩ := ih
    exact ⟨n, .term hn, hle⟩
  | unary ht hop _ ih =>
    obtain ⟨n, hn, hle⟩ := ih
    exact ⟨n + 1, .unary ht (mem_unaryOperators.mpr hop) hn, Nat.succ_le_succ hle⟩
  | binary _ ht hop _ ihl ihr =>
    obtain ⟨a, ha, hale⟩ := ihl
    obtain ⟨b, hb, hble⟩ := ihr
    exact ⟨_, .binary ha ht (mem_binaryOperators.mpr hop) hb,
      Nat.max_le.mpr ⟨hale, Nat.succ_le_succ hble⟩⟩

/-- A phrase is a text within as many levels as it nests. -/
theorem CalcPhrase.text (h : CalcPhrase place p e n) {levels : Nat}
    (hle : n ≤ place.deepest levels) : CalcText place levels p e := by
  induction h generalizing levels with
  | atom hatom => exact .atom (calcAtom_iff.mp hatom)
  | paren ho _ hc ih => exact .paren ho (ih (Nat.le_of_succ_le_succ hle)) hc
  | term h ih =>
    have hpos := h.pos
    cases levels with
    | zero => exact absurd hle (by simp only [CalcPlace.deepest]; omega)
    | succ levels => exact .term (ih hle)
  | unary ht hop _ ih =>
    cases levels with
    | zero => exact absurd hle (Nat.not_succ_le_zero _)
    | succ levels => exact .unary ht (mem_unaryOperators.mp hop) (ih (Nat.le_of_succ_le_succ hle))
  | binary _ ht hop _ ihl ihr =>
    obtain ⟨hale, hble⟩ := Nat.max_le.mp hle
    cases levels with
    | zero => exact absurd hble (Nat.not_succ_le_zero _)
    | succ levels =>
      exact .binary (ihl hale) ht (mem_binaryOperators.mp hop) (ihr (Nat.le_of_succ_le_succ hble))

/-! ## One derivation -/

/-- No operator comes next. -/
def Bare (ts : List Token) : Prop := ∀ t ∈ ts.head?, ∀ op, t.kind ≠ .operator op

theorem bare_nil : Bare [] := nofun

theorem not_bare {t : Token} {op : Operator} (ht : t.kind = .operator op) : ¬ Bare (t :: r) :=
  fun h => h t rfl op ht

theorem bare_closeParen {c : Token} (hc : c.kind = .closeParen) : Bare (c :: r) := by
  intro t ht op hop
  obtain rfl := Option.some.inj ht
  rw [hc] at hop
  cases hop

/-- A term does not begin with an operator. -/
theorem CalcPhrase.term_append_ne {t : Token} {op : Operator} (h : CalcPhrase .term p e n)
    (ht : t.kind = .operator op) : p ++ r ≠ t :: r' := by
  intro heq
  cases h with
  | atom hatom =>
    obtain ⟨rfl, -⟩ := List.cons.inj heq
    exact hatom.kind_ne.1 op ht
  | paren ho =>
    obtain ⟨rfl, -⟩ := List.cons.inj heq
    rw [ho] at ht
    cases ht

/-- **Phrases are cut off a text in one way**: a term in front of anything, an expression where no
    operator follows. -/
theorem CalcPhrase.cut_unique (h : CalcPhrase place p e n) (h' : CalcPhrase place p' e' n')
    (heq : p ++ r = p' ++ r') (hbare : place = .whole → Bare r ∧ Bare r') :
    p = p' ∧ e = e' ∧ n = n' := by
  have hterm : ∀ {r r'}, CalcPlace.term = .whole → Bare r ∧ Bare r' := by
    intro r r' hplace
    cases hplace
  induction h generalizing p' e' n' r r' with
  | @atom t e hatom =>
    cases h' with
    | @atom t' _ hatom' =>
      obtain ⟨rfl, -⟩ := List.cons.inj heq
      exact ⟨rfl, hatom.unique hatom', rfl⟩
    | paren ho' =>
      obtain ⟨rfl, -⟩ := List.cons.inj heq
      exact absurd ho' hatom.kind_ne.2
  | @paren o ts c e n ho _ hc ih =>
    cases h' with
    | atom hatom' =>
      obtain ⟨rfl, -⟩ := List.cons.inj heq
      exact absurd ho hatom'.kind_ne.2
    | @paren o' ts' c' _ n' ho' h' hc' =>
      have hinside : o = o' ∧ ts ++ c :: r = ts' ++ c' :: r' := by simpa using heq
      obtain ⟨rfl, hinside⟩ := hinside
      obtain ⟨rfl, rfl, rfl⟩ := ih h' hinside fun _ => ⟨bare_closeParen hc, bare_closeParen hc'⟩
      obtain ⟨rfl, -⟩ := List.cons.inj (List.append_cancel_left hinside)
      exact ⟨rfl, rfl, rfl⟩
  | @term ts e n h ih =>
    cases h' with
    | term h' => exact ih h' heq hterm
    | unary ht => exact absurd heq (h.term_append_ne ht)
    | @binary ls l a t op m rs _ b hl ht =>
      -- the shorter text would be followed by the operator
      obtain ⟨rfl, -⟩ := ih hl (by simpa using heq) hterm
      have hrest : r = t :: (rs ++ r') := by simpa using heq
      exact absurd (hrest ▸ (hbare rfl).1) (not_bare ht)
  | @unary t op m ts e n ht hop h ih =>
    cases h' with
    | term h' => exact absurd heq.symm (h'.term_append_ne ht)
    | @unary t' op' m' ts' e' n' ht' hop' h' =>
      obtain ⟨rfl, hrest⟩ := List.cons.inj heq
      obtain rfl : op = op' := by simpa [ht] using ht'
      obtain rfl := Option.some.inj
        ((mem_unaryOperators.mp hop).symm.trans (mem_unaryOperators.mp hop'))
      obtain ⟨rfl, rfl, rfl⟩ := ih h' hrest hbare
      exact ⟨rfl, rfl, rfl⟩
    | @binary ls l a t' op' m' rs _ b hl =>
      rw [List.append_assoc] at heq
      exact absurd heq.symm (hl.term_append_ne ht)
  | @binary ls l a t op m rs right b hl ht hop _ ihl ihr =>
    cases h' with
    | term h' =>
      obtain ⟨rfl, -⟩ := ihl h' (by simpa using heq) hterm
      have hrest : r' = t :: (rs ++ r) := by simpa using heq.symm
      exact absurd (hrest ▸ (hbare rfl).2) (not_bare ht)
    | unary ht' =>
      rw [List.append_assoc] at heq
      exact absurd heq (hl.term_append_ne ht')
    | @binary ls' l' a' t' op' m' rs' right' b' hl' ht' hop' hr' =>
      have hsplit : ls ++ t :: (rs ++ r) = ls' ++ t' :: (rs' ++ r') := by simpa using heq
      obtain ⟨rfl, rfl, rfl⟩ := ihl hl' hsplit hterm
      obtain ⟨rfl, hrest⟩ := List.cons.inj (List.append_cancel_left hsplit)
      obtain rfl : op = op' := by simpa [ht] using ht'
      obtain rfl := Option.some.inj
        ((mem_binaryOperators.mp hop).symm.trans (mem_binaryOperators.mp hop'))
      obtain ⟨rfl, rfl, rfl⟩ := ihr hr' hrest hbare
      exact ⟨rfl, rfl, rfl⟩

/-- The tree and the nesting of an expression are determined by its tokens. -/
theorem CalcPhrase.unique (h : CalcPhrase .whole p e n) (h' : CalcPhrase .whole p e' n') :
    e = e' ∧ n = n' :=
  (h.cut_unique h' rfl fun _ => ⟨bare_nil, bare_nil⟩).2

end Grammar

/-! ## Counting levels -/

/-- What a reader of calc expressions works on: the tokens that are left, and the number of levels that
    are open. -/
structure CalcState where
  tokens : List Token
  depth : Nat

/-- A reader that counts levels.  A failure leaves a state behind, too. -/
abbrev CountingReader (α : Type) := ExceptT Stop (StateM CalcState) α

/-- A step of a reader, which opens no level and closes none. -/
def inLevel {α : Type} (x : Reader α) : CountingReader α := fun s =>
  match x s.tokens with
  | .ok (a, rest) => (.ok a, { s with tokens := rest })
  | .error stop => (.error stop, s)

/-- One level further in, if not all of them are open.  The level is closed again however this ends. -/
def nextLevel {α : Type} (x : CountingReader α) : CountingReader α := fun s =>
  if s.depth = maxCalcDepth then
    (.error (.refused s.tokens.head? (.tooDeep maxCalcDepth)), s)
  else
    let (result, after) := x { s with depth := s.depth + 1 }
    (result, { after with depth := after.depth - 1 })

/-- A term, given a reader for what stands in parentheses. -/
def countingTerm (inner : CountingReader CalcExpr) : CountingReader CalcExpr := do
  let token ← inLevel (take "an expression")
  match token.kind with
  | .number n => return .number token (Float.ofInt n)
  | .name | .constant _ => return .name token
  | .string => return .string token
  | .openParen =>
    let expr ← inner
    let _ ← inLevel (expect .closeParen "`)`")
    return expr
  | _ => inLevel (refuseAt token (.expected "a number, name or `(`"))

/-- An operation or a term, given a reader for the expressions in it. -/
def countingOperation (inner : CountingReader CalcExpr) : CountingReader CalcExpr := do
  match ← inLevel peek with
  | none => inLevel (refuse (.expected "an expression"))
  | some first =>
    match operatorAs unaryOp? (some first) with
    | some (token, op) =>
      inLevel skip
      return .unary token op (← inner)
    | none =>
      let left ← countingTerm inner
      match operatorAs binaryOp? (← inLevel peek) with
      | some (token, op) =>
        inLevel skip
        return .binary token op left (← inner)
      | none => return left

/-- An expression.  The counter ends the recursion; the budget only has to last as long. -/
def countingCalc : Nat → CountingReader CalcExpr
  | 0 => nextLevel (inLevel exhausted)
  | budget + 1 => nextLevel (countingOperation (countingCalc budget))

/-- An expression between braces. -/
def countingBraced : CountingReader CalcExpr := do
  let _ ← inLevel (expect .openBrace "`\x7b`")
  let expr ← countingCalc maxCalcDepth
  let _ ← inLevel (expect .closeBrace "`\x7d`")
  return expr

/-- Started with `depth` levels open, the counting reader does what the other one does, and the same
    levels are open afterwards. -/
def Tracks {α : Type} (depth : Nat) (x : CountingReader α) (r : Reader α) : Prop :=
  ∀ ts, ∃ left, x ⟨ts, depth⟩ =
    match r ts with
    | .ok (a, rest) => (.ok a, ⟨rest, depth⟩)
    | .error stop => (.error stop, ⟨left, depth⟩)

/-- A failure ends the run where it is. -/
theorem CountingReader.bind_apply {α β : Type} (x : CountingReader α) (f : α → CountingReader β)
    (s : CalcState) : (x >>= f) s =
      match x s with
      | (.ok a, after) => f a after
      | (.error stop, after) => (.error stop, after) := by
  show StateT.bind x (ExceptT.bindCont f) s = _
  unfold StateT.bind
  cases hx : x s with
  | mk result after =>
    cases result with
    | ok a => rfl
    | error stop => rfl

namespace Tracks

variable {α β : Type} {depth : Nat} {x : CountingReader α} {r : Reader α}

theorem pure (a : α) : Tracks depth (Pure.pure a) (Pure.pure a) := fun ts => ⟨ts, rfl⟩

/-- A step that takes tokens and does not nest. -/
theorem step (r : Reader α) : Tracks depth (inLevel r) r := by
  intro ts
  refine ⟨ts, ?_⟩
  unfold inLevel
  cases r ts <;> rfl

/-- Both go on alike, and the counter is restored behind the first step on either outcome. -/
theorem bind {f : α → CountingReader β} {g : α → Reader β} (hx : Tracks depth x r)
    (hf : ∀ a, Tracks depth (f a) (g a)) : Tracks depth (x >>= f) (r >>= g) := by
  intro ts
  obtain ⟨left, hleft⟩ := hx ts
  have hr : (r >>= g) ts = (r ts >>= fun p => g p.1 p.2) := rfl
  rw [CountingReader.bind_apply, hleft, hr]
  cases r ts with
  | ok p =>
    obtain ⟨a, rest⟩ := p
    exact hf a rest
  | error stop => exact ⟨left, rfl⟩

/-- What is done one level further in is done after raising the counter and before lowering it. -/
theorem nextLevel (h : Tracks (depth + 1) x r) (hdepth : depth ≠ maxCalcDepth) :
    Tracks depth (OctoAsm.nextLevel x) r := by
  intro ts
  obtain ⟨left, hleft⟩ := h ts
  refine ⟨left, ?_⟩
  have hopen : OctoAsm.nextLevel x ⟨ts, depth⟩ =
      ((x ⟨ts, depth + 1⟩).1, { (x ⟨ts, depth + 1⟩).2 with
        depth := (x ⟨ts, depth + 1⟩).2.depth - 1 }) := if_neg hdepth
  rw [hopen, hleft]
  cases r ts <;> rfl

/-- A term raises no level by itself; what is inside its parentheses does. -/
theorem term {inner : CountingReader CalcExpr} {read : Reader CalcExpr}
    (h : Tracks depth inner read) : Tracks depth (countingTerm inner) (readCalcTerm read) := by
  refine .bind (.step _) fun token => ?_
  cases token.kind with
  | openParen => exact h.bind fun e => .bind (.step _) fun _ => .pure e
  | number | name | constant | string => exact .pure _
  | _ => exact .step _

theorem operation {inner : CountingReader CalcExpr} {levels : Nat}
    (h : Tracks depth inner (readCalcLevels levels)) :
    Tracks depth (countingOperation inner) (readCalcLevels (levels + 1)) := by
  refine .bind (.step _) fun first => ?_
  cases first with
  | none => exact .step _
  | some first =>
    dsimp only
    cases operatorAs unaryOp? (some first) with
    | some p => exact .bind (.step _) fun _ => h.bind fun e => .pure _
    | none =>
      refine h.term.bind fun left => .bind (.step _) fun next => ?_
      cases operatorAs binaryOp? next with
      | some p => exact .bind (.step _) fun _ => h.bind fun e => .pure _
      | none => exact .pure _

end Tracks

/-- **The counter and the levels that are left** add up to the limit, all the way. -/
theorem countingCalc_tracks {levels depth : Nat} (h : levels + depth = maxCalcDepth) :
    Tracks depth (countingCalc levels) (readCalcLevels levels) := by
  induction levels generalizing depth with
  | zero =>
    intro ts
    have hfull : depth = maxCalcDepth := by omega
    exact ⟨ts, if_pos hfull⟩
  | succ levels ih =>
    have hinner : Tracks (depth + 1) (countingCalc levels) (readCalcLevels levels) := ih (by omega)
    exact hinner.operation.nextLevel (by omega)

/-- The whole reader with a counter, started at zero, goes the way of the reader that
    counts down. -/
theorem countingBraced_tracks : Tracks 0 countingBraced readCalc :=
  .bind (.step _) fun _ => .bind (countingCalc_tracks rfl) fun e => .bind (.step _) fun _ => .pure e

/-! ## Expressions between braces -/

/-- **An expression between braces** is read just when the tokens in them are derivable, in a way that is
    theirs alone, and nest at most 256 deep; the tree of this derivation is the result.  A reader that
    counts the open levels ends in the same way, with none of them open. -/
theorem readCalc_exact (ts : List Token) :
    (∀ e rest, readCalc ts = .ok (e, rest) ↔
      ∃ o p c n, ts = o :: (p ++ c :: rest) ∧ o.kind = .openBrace ∧ c.kind = .closeBrace ∧
        (∀ e' n', CalcPhrase .whole p e' n' ↔ e' = e ∧ n' = n) ∧ n ≤ 256) ∧
    ∃ left, countingBraced ⟨ts, 0⟩ =
      match readCalc ts with
      | .ok (e, rest) => (.ok e, ⟨rest, 0⟩)
      | .error stop => (.error stop, ⟨left, 0⟩) := by
  have hcounter : ∃ left, countingBraced ⟨ts, 0⟩ =
      match readCalc ts with
      | .ok (e, rest) => (.ok e, ⟨rest, 0⟩)
      | .error stop => (.error stop, ⟨left, 0⟩) := by
    obtain ⟨left, hleft⟩ := countingBraced_tracks ts
    refine ⟨left, hleft.trans ?_⟩
    cases readCalc ts <;> rfl
  refine ⟨fun e rest => ?_, hcounter⟩
  rw [readCalc_eq_ok]
  constructor
  · rintro ⟨_, rfl, @⟨o, p, c, _, ho, h, hc⟩⟩
    obtain ⟨n, hn, hle⟩ := h.phrase
    refine ⟨o, p, c, n, by simp, ho, hc, fun e' n' => ⟨fun h' => h'.unique hn, ?_⟩, hle⟩
    rintro ⟨rfl, rfl⟩
    exact hn
  · rintro ⟨o, p, c, n, rfl, ho, hc, honly, hle⟩
    have hn : CalcPhrase .whole p e n := (honly e n).mpr ⟨rfl, rfl⟩
    exact ⟨o :: (p ++ [c]), by simp, .mk ho (hn.text hle) hc⟩

end OctoAsm
