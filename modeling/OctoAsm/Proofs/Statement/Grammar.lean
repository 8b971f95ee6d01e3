/-
  How statements are written: the grammar, apart from any way of reading it.

  `Reads part ts statements next` says that the tokens `ts`, followed by a token of the kind `next` (or
  by the end of the input), are a way to write the statements.  What follows matters in few places: a
  directive ends with its line, the arguments of an invocation go on to the end of the line, and
  `if … then` stands alone only before `again`.  A statement never begins with a line feed, with a
  closing brace or with one of the words that end a body (`Reads.begins`), so a text is cut into
  statements in one way only.
-/
import OctoAsm.Statement.Parser

namespace OctoAsm

/-! ## Operands -/

/-- The register operand that a token is. -/
def RegRef.ofToken? (t : Token) : Option RegRef :=
  match t.kind with
  | .register (.v n) => some (.literal t n)
  | .name => some (.named t)
  | _ => none

/-- The value operand that a token is, where no register may stand. -/
def ValueRef.ofToken? (t : Token) : Option ValueRef :=
  match t.kind with
  | .number n => some (.number t n)
  | .name | .constant _ => some (.named t)
  | _ => none

/-- The value operand that a token is, where a register may stand too. -/
def ValueRef.ofEither? (t : Token) : Option ValueRef :=
  match t.kind with
  | .register (.v n) => some (.register (.literal t n))
  | _ => ofToken? t

/-- The expression that a token is by itself. -/
def CalcExpr.ofToken? (t : Token) : Option CalcExpr :=
  match t.kind with
  | .number n => some (.number t (Float.ofInt n))
  | .name | .constant _ => some (.name t)
  | .string => some (.string t)
  | _ => none

/-- The places of an expression: before a binary operator, and everywhere else. -/
inductive CalcPlace where
  | term
  | whole

/-- The tokens of an expression within a number of levels. -/
inductive CalcText : CalcPlace → Nat → List Token → CalcExpr → Prop where
  | atom {n t e} (h : CalcExpr.ofToken? t = some e) : CalcText .term n [t] e
  | paren {n o ts c e} (ho : o.kind = .openParen) (h : CalcText .whole n ts e)
      (hc : c.kind = .closeParen) : CalcText .term n (o :: (ts ++ [c])) e
  | term {n ts e} (h : CalcText .term n ts e) : CalcText .whole (n + 1) ts e
  | unary {n t op m ts e} (ht : t.kind = .operator op) (hop : unaryOp? op = some m)
      (h : CalcText .whole n ts e) : CalcText .whole (n + 1) (t :: ts) (.unary t m e)
  | binary {n ls l t op m rs r} (hl : CalcText .term n ls l) (ht : t.kind = .operator op)
      (hop : binaryOp? op = some m) (hr : CalcText .whole n rs r) :
      CalcText .whole (n + 1) (ls ++ t :: rs) (.binary t m l r)

/-- The tokens of an expression between braces. -/
inductive BracedText : List Token → CalcExpr → Prop where
  | mk {o ts c e} (ho : o.kind = .openBrace) (h : CalcText .whole maxCalcDepth ts e)
      (hc : c.kind = .closeBrace) : BracedText (o :: (ts ++ [c])) e

/-- The tokens of a directive's argument. -/
inductive OperandText : List Token → Operand → Prop where
  | value {t v} (h : ValueRef.ofToken? t = some v) : OperandText [t] (.value v)
  | braced {ts e} (h : BracedText ts e) : OperandText ts (.braced e)

/-- The tokens of a condition. -/
inductive ConditionText : List Token → Condition → Prop where
  | key {r reg k} (hr : RegRef.ofToken? r = some reg) (hk : k.kind = .keyword .key) :
      ConditionText [r, k] (.key reg true)
  | notKey {r reg k} (hr : RegRef.ofToken? r = some reg) (hk : k.kind = .keyword .notKey) :
      ConditionText [r, k] (.key reg false)
  | compare {r reg t op m v rhs} (hr : RegRef.ofToken? r = some reg) (ht : t.kind = .operator op)
      (hop : Comparison.ofOperator? op = some m) (hv : ValueRef.ofEither? v = some rhs) :
      ConditionText [r, t, v] (.compare reg m rhs)

/-! ## Statements that hold no others -/

/-- The tokens of an assignment. -/
inductive AssignmentText : List Token → Assignment → Prop where
  | delaySet {t o r src} (ht : t.kind = .register .delay) (ho : o.kind = .operator .assign)
      (hr : RegRef.ofToken? r = some src) : AssignmentText [t, o, r] (.delaySet t src)
  | buzzerSet {t o r src} (ht : t.kind = .register .buzzer) (ho : o.kind = .operator .assign)
      (hr : RegRef.ofToken? r = some src) : AssignmentText [t, o, r] (.buzzerSet t src)
  | delayGet {t dst o s} (ht : RegRef.ofToken? t = some dst) (ho : o.kind = .operator .assign)
      (hs : s.kind = .register .delay) : AssignmentText [t, o, s] (.delayGet t dst)
  | keyInput {t dst o k} (ht : RegRef.ofToken? t = some dst) (ho : o.kind = .operator .assign)
      (hk : k.kind = .keyword .key) : AssignmentText [t, o, k] (.keyInput t dst)
  | random {t dst o k v mask} (ht : RegRef.ofToken? t = some dst) (ho : o.kind = .operator .assign)
      (hk : k.kind = .keyword .random) (hv : ValueRef.ofToken? v = some mask) :
      AssignmentText [t, o, k, v] (.random t dst mask)
  | indexSet {t o v value} (ht : t.kind = .register .i) (ho : o.kind = .operator .assign)
      (hv : ValueRef.ofToken? v = some value) : AssignmentText [t, o, v] (.indexSet t value)
  | indexAdd {t o r src} (ht : t.kind = .register .i) (ho : o.kind = .operator .addAssign)
      (hr : RegRef.ofToken? r = some src) : AssignmentText [t, o, r] (.indexAdd t src)
  | charSprite {t o k r src} (ht : t.kind = .register .i) (ho : o.kind = .operator .assign)
      (hk : k.kind = .keyword .hex) (hr : RegRef.ofToken? r = some src) :
      AssignmentText [t, o, k, r] (.charSprite t src)
  | register {t dst o op m s n} (ht : RegRef.ofToken? t = some dst) (ho : o.kind = .operator op)
      (hop : RegOp.ofOperator? op = some m) (hs : s.kind = .register (.v n)) :
      AssignmentText [t, o, s] (.register t dst m (.literal s n))
  /-- no value may stand after the operator, so a name there is a register's -/
  | named {t dst o op m s} (ht : RegRef.ofToken? t = some dst) (ho : o.kind = .operator op)
      (hop : RegOp.ofOperator? op = some m) (hno : ImmOp.ofOperator? op = none)
      (hs : s.kind = .name) : AssignmentText [t, o, s] (.register t dst m (.named s))
  | immediate {t dst o op m v value} (ht : RegRef.ofToken? t = some dst)
      (ho : o.kind = .operator op) (hop : ImmOp.ofOperator? op = some m)
      (hv : ValueRef.ofToken? v = some value) (hname : v.kind ≠ .name) :
      AssignmentText [t, o, v] (.immediate t dst m value)
  | ambiguous {t dst o op m s} (ht : RegRef.ofToken? t = some dst) (ho : o.kind = .operator op)
      (hop : ImmOp.ofOperator? op = some m) (hs : s.kind = .name) :
      AssignmentText [t, o, s] (.ambiguous t dst m s)

/-- The tokens of a statement that ends by itself. -/
inductive InlineText : List Token → Simple → Prop where
  | ret {t} (ht : t.kind = .keyword .ret) : InlineText [t] (.ret t)
  | clear {t} (ht : t.kind = .keyword .clear) : InlineText [t] (.clear t)
  | bcd {t r reg} (ht : t.kind = .keyword .bcd) (hr : RegRef.ofToken? r = some reg) :
      InlineText [t, r] (.bcd t reg)
  | save {t r reg} (ht : t.kind = .keyword .save) (hr : RegRef.ofToken? r = some reg) :
      InlineText [t, r] (.save t reg)
  | load {t r reg} (ht : t.kind = .keyword .load) (hr : RegRef.ofToken? r = some reg) :
      InlineText [t, r] (.load t reg)
  | sprite {t x rx y ry v height} (ht : t.kind = .keyword .sprite)
      (hx : RegRef.ofToken? x = some rx) (hy : RegRef.ofToken? y = some ry)
      (hv : ValueRef.ofToken? v = some height) : InlineText [t, x, y, v] (.sprite t rx ry height)
  | jump {t v target} (ht : t.kind = .keyword .jump) (hv : ValueRef.ofToken? v = some target) :
      InlineText [t, v] (.jump t target)
  | jumpOffset {t v target} (ht : t.kind = .keyword .jump0)
      (hv : ValueRef.ofToken? v = some target) : InlineText [t, v] (.jumpOffset t target)
  | datum {t n} (ht : t.kind = .number n) : InlineText [t] (.datum t n)
  | assign {ts a} (h : AssignmentText ts a) : InlineText ts (.assign a)

/-- The tokens of a directive without statements in it, up to the end of its line. -/
inductive LineText : List Token → Statement → Prop where
  | label {w name} (hw : w.kind = .directive .label) (hn : name.kind = .name) :
      LineText [w, name] (.label name)
  | aliasRegister {w name r reg} (hw : w.kind = .directive .aliasName) (hn : name.kind = .name)
      (hr : RegRef.ofToken? r = some reg) :
      LineText [w, name, r] (.declaration (.aliasName w name (.register reg)))
  | aliasBraced {w name ts e} (hw : w.kind = .directive .aliasName) (hn : name.kind = .name)
      (h : BracedText ts e) :
      LineText (w :: name :: ts) (.declaration (.aliasName w name (.braced e)))
  | const {w name v value} (hw : w.kind = .directive .const) (hn : name.kind = .name)
      (hv : ValueRef.ofToken? v = some value) :
      LineText [w, name, v] (.declaration (.const w name value))
  | calcName {w name ts e} (hw : w.kind = .directive .calcName) (hn : name.kind = .name)
      (h : BracedText ts e) : LineText (w :: name :: ts) (.declaration (.calcName w name e))
  | callAddress {w v target} (hw : w.kind = .directive .call)
      (hv : ValueRef.ofToken? v = some target) : LineText [w, v] (.simple (.callAddress w target))
  | unpack {w v value} (hw : w.kind = .directive .unpack) (hv : ValueRef.ofToken? v = some value) :
      LineText [w, v] (.simple (.unpack w none value))
  | unpackTagged {w g tag v value} (hw : w.kind = .directive .unpack)
      (hg : ValueRef.ofToken? g = some tag) (hv : ValueRef.ofToken? v = some value) :
      LineText [w, g, v] (.simple (.unpack w (some tag) value))
  | org {w ts target} (hw : w.kind = .directive .org) (h : OperandText ts target) :
      LineText (w :: ts) (.simple (.org w target))
  | byte {w ts value} (hw : w.kind = .directive .byte) (h : OperandText ts value) :
      LineText (w :: ts) (.simple (.byte w value))
  | pointer {w ts value} (hw : w.kind = .directive .pointer) (h : OperandText ts value) :
      LineText (w :: ts) (.simple (.pointer w value))
  | assertion {w ts e} (hw : w.kind = .directive .assertion) (h : BracedText ts e) :
      LineText (w :: ts) (.simple (.assertion w none e))
  | assertionWith {w message ts e} (hw : w.kind = .directive .assertion)
      (hm : message.kind = .string) (h : BracedText ts e) :
      LineText (w :: message :: ts) (.simple (.assertion w (some message) e))
  | breakpoint {w name} (hw : w.kind = .directive .breakpoint) (hn : name.kind = .name) :
      LineText [w, name] (.simple (.breakpoint w name))
  | monitorLength {w v target l n} (hw : w.kind = .directive .monitor)
      (hv : ValueRef.ofEither? v = some target) (hl : l.kind = .number n) :
      LineText [w, v, l] (.simple (.monitor w target (.length l n)))
  | monitorFormat {w v target f} (hw : w.kind = .directive .monitor)
      (hv : ValueRef.ofEither? v = some target) (hf : f.kind = .string) :
      LineText [w, v, f] (.simple (.monitor w target (.format f)))

/-! ## What follows -/

/-- The kind of the first of some tokens, or else of what comes after them. -/
def lead : List Token → Option TokenKind → Option TokenKind
  | [], next => next
  | t :: _, _ => some t.kind

/-- In front of nothing stands what follows. -/
@[simp] theorem lead_nil (next : Option TokenKind) : lead [] next = next := rfl

/-- A text begins with the kind of its first token. -/
@[simp] theorem lead_cons (t : Token) (ts : List Token) (next : Option TokenKind) :
    lead (t :: ts) next = some t.kind := rfl

/-- What one text begins with, followed by another. -/
@[simp] theorem lead_append (ts us : List Token) (next : Option TokenKind) :
    lead (ts ++ us) next = lead ts (lead us next) := by
  cases ts <;> rfl

/-- Nothing but line feeds. -/
def Feeds (ts : List Token) : Prop := ∀ t ∈ ts, t.kind = .newline

/-- No line feeds are a row of them. -/
theorem Feeds.nil : Feeds [] := by simp [Feeds]

/-- One line feed more. -/
theorem Feeds.cons {t : Token} {ts : List Token} (ht : t.kind = .newline) (h : Feeds ts) :
    Feeds (t :: ts) := by
  simpa [Feeds, ht] using h

/-- The end of a directive's line: a line feed that belongs to it, or nothing where the input or a
    body ends. -/
inductive LineEnd : List Token → Option TokenKind → Prop where
  | feed {t next} (ht : t.kind = .newline) : LineEnd [t] next
  | input : LineEnd [] none
  | brace : LineEnd [] (some .closeBrace)

/-- Where a line ends there are line feeds at most, as a closing brace and the end of the input are
    not part of it. -/
theorem LineEnd.feeds {feed : List Token} {next : Option TokenKind} (h : LineEnd feed next) :
    Feeds feed := by
  cases h with
  | feed ht => exact .cons ht .nil
  | input | brace => exact .nil

/-- The arguments of an invocation end before a token of this kind. -/
def endsArguments : Option TokenKind → Bool
  | none => true
  | some kind => !isArgument kind

/-! ## Statements -/

/-- What a text stands for: one statement or the statements of a body, directly in a loop or not. -/
inductive Part where
  | statement (inLoop : Bool)
  | body (inLoop : Bool)

/-- The tokens of a part, given the kind of the token after them. -/
inductive Reads : Part → List Token → List Statement → Option TokenKind → Prop where
  | inline {b ts s next} (h : InlineText ts s) : Reads (.statement b) ts [.simple s] next
  | line {b ts st feed next} (h : LineText ts st) (hend : LineEnd feed next) :
      Reads (.statement b) (ts ++ feed) [st] next
  | call {b name next} (hname : name.kind = .name) (hnext : endsArguments next = true) :
      Reads (.statement b) [name] [.call name] next
  | invoke {b name arg args next} (hname : name.kind = .name)
      (hargs : ∀ a ∈ arg :: args, isArgument a.kind = true)
      (hop : startsAssignment (name :: arg :: args) = false) (hnext : endsArguments next = true) :
      Reads (.statement b) (name :: arg :: args) [.invoke name (arg :: args)] next
  | next {b word name nls ts st next} (hword : word.kind = .directive .next)
      (hname : name.kind = .name) (hnls : Feeds nls) (h : Reads (.statement false) ts [st] next) :
      Reads (.statement b) (word :: name :: (nls ++ ts)) [.next word name st] next
  | macroDef {b word name params o ts body c feed next} (hword : word.kind = .directive .macroDef)
      (hname : name.kind = .name) (hparams : ∀ p ∈ params, p.kind = .name)
      (ho : o.kind = .openBrace) (h : Reads (.body false) ts body (some .closeBrace))
      (hc : c.kind = .closeBrace) (hend : LineEnd feed next) :
      Reads (.statement b) (word :: name :: (params ++ o :: (ts ++ c :: feed)))
        [.macroDef word name params body] next
  | stringMode {b word name alphabet o ts body c feed next}
      (hword : word.kind = .directive .stringMode) (hname : name.kind = .name)
      (halphabet : alphabet.kind = .string) (ho : o.kind = .openBrace)
      (h : Reads (.body false) ts body (some .closeBrace)) (hc : c.kind = .closeBrace)
      (hend : LineEnd feed next) :
      Reads (.statement b) (word :: name :: alphabet :: o :: (ts ++ c :: feed))
        [.stringMode word name alphabet body] next
  | ifThen {b word cs cond thn nls ts st next} (hword : word.kind = .keyword .ifWord)
      (hcond : ConditionText cs cond) (hthn : thn.kind = .keyword .thenWord) (hnls : Feeds nls)
      (h : Reads (.statement false) ts [st] next) :
      Reads (.statement b) (word :: (cs ++ thn :: (nls ++ ts))) [.ifThen word cond st] next
  | breakIf {word cs cond thn nls} (hword : word.kind = .keyword .ifWord)
      (hcond : ConditionText cs cond) (hthn : thn.kind = .keyword .thenWord) (hnls : Feeds nls) :
      Reads (.statement true) (word :: (cs ++ thn :: nls)) [.breakIf word cond]
        (some (.keyword .again))
  | ifBegin {b word cs cond bgn ts body fin next} (hword : word.kind = .keyword .ifWord)
      (hcond : ConditionText cs cond) (hbgn : bgn.kind = .keyword .beginWord)
      (h : Reads (.body false) ts body (some (.keyword .endWord)))
      (hfin : fin.kind = .keyword .endWord) :
      Reads (.statement b) (word :: (cs ++ bgn :: (ts ++ [fin]))) [.ifBegin word cond body] next
  | ifElse {b word cs cond bgn ts body els us otherwise fin next}
      (hword : word.kind = .keyword .ifWord) (hcond : ConditionText cs cond)
      (hbgn : bgn.kind = .keyword .beginWord)
      (h : Reads (.body false) ts body (some (.keyword .elseWord)))
      (hels : els.kind = .keyword .elseWord)
      (h' : Reads (.body false) us otherwise (some (.keyword .endWord)))
      (hfin : fin.kind = .keyword .endWord) :
      Reads (.statement b) (word :: (cs ++ bgn :: (ts ++ els :: (us ++ [fin]))))
        [.ifElse word cond body otherwise] next
  | loop {b word ts body again next} (hword : word.kind = .keyword .loop)
      (h : Reads (.body true) ts body (some (.keyword .again)))
      (hagain : again.kind = .keyword .again) :
      Reads (.statement b) (word :: (ts ++ [again])) [.loop word body] next
  | whileDo {b word cs cond nls ts st next} (hword : word.kind = .keyword .whileWord)
      (hcond : ConditionText cs cond) (hnls : Feeds nls)
      (h : Reads (.statement false) ts [st] next) :
      Reads (.statement b) (word :: (cs ++ (nls ++ ts))) [.whileDo word cond st] next
  | done {b nls next} (hnls : Feeds nls) : Reads (.body b) nls [] next
  | more {b nls ts st us sts next} (hnls : Feeds nls)
      (h : Reads (.statement b) ts [st] (lead us next)) (hs : Reads (.body b) us sts next) :
      Reads (.body b) (nls ++ (ts ++ us)) (st :: sts) next

/-! ## How texts begin -/

/-- A token that may stand first in a statement. -/
def TokenKind.begins : TokenKind → Bool
  | .directive _ | .register _ | .name | .number _ => true
  | .keyword k =>
    match k with
    | .ret | .clear | .bcd | .save | .load | .sprite | .jump | .jump0 | .ifWord | .loop
    | .whileWord => true
    | _ => false
  | _ => false

/-- A register operand is a register or a name. -/
theorem RegRef.kind_of_ofToken? {t : Token} {r : RegRef} (h : RegRef.ofToken? t = some r) :
    (∃ n, t.kind = .register (.v n) ∧ r = .literal t n) ∨ (t.kind = .name ∧ r = .named t) := by
  unfold RegRef.ofToken? at h
  split at h
  · exact .inl ⟨_, ‹_›, by simpa using h.symm⟩
  · exact .inr ⟨‹_›, by simpa using h.symm⟩
  · cases h

/-- An assignment begins with its target and an operator, which two tokens tell it apart from an
    invocation. -/
theorem AssignmentText.begins {ts : List Token} {a : Assignment} (h : AssignmentText ts a) :
    ∃ t o us, ts = t :: o :: us ∧ (t.kind = .name ∨ ∃ r, t.kind = .register r) ∧
      ∀ vs, startsAssignment (t :: o :: vs) = true := by
  -- An operand in front is a register or a name, and every operator here assigns.
  have target : ∀ {t : Token} {dst : RegRef}, RegRef.ofToken? t = some dst →
      t.kind = .name ∨ ∃ r, t.kind = .register r := by
    intro t dst ht
    obtain ⟨n, hn, -⟩ | ⟨hn, -⟩ := RegRef.kind_of_ofToken? ht
    · exact .inr ⟨_, hn⟩
    · exact .inl hn
  have starts : ∀ {t o : Token} {op : Operator}, o.kind = .operator op →
      op.isAssignment = true → ∀ vs, startsAssignment (t :: o :: vs) = true := by
    rintro t ⟨line, kind, text⟩ op rfl hassign vs
    simp [startsAssignment, hassign]
  have ofReg : ∀ {op m}, RegOp.ofOperator? op = some m → op.isAssignment = true := by
    intro op m; cases op <;> simp [RegOp.ofOperator?, Operator.isAssignment]
  have ofImm : ∀ {op m}, ImmOp.ofOperator? op = some m → op.isAssignment = true := by
    intro op m; cases op <;> simp [ImmOp.ofOperator?, Operator.isAssignment]
  cases h with
  | delaySet ht ho | buzzerSet ht ho | indexSet ht ho | indexAdd ht ho | charSprite ht ho =>
    exact ⟨_, _, _, rfl, .inr ⟨_, ht⟩, starts ho rfl⟩
  | delayGet ht ho | keyInput ht ho | random ht ho =>
    exact ⟨_, _, _, rfl, target ht, starts ho rfl⟩
  | register ht ho hop | named ht ho hop => exact ⟨_, _, _, rfl, target ht, starts ho (ofReg hop)⟩
  | immediate ht ho hop | ambiguous ht ho hop =>
    exact ⟨_, _, _, rfl, target ht, starts ho (ofImm hop)⟩

/-- A statement within a line begins with a word of its own. -/
theorem InlineText.begins {ts : List Token} {s : Simple} (h : InlineText ts s) :
    ∃ t us, ts = t :: us ∧ t.kind.begins = true := by
  cases h with
  | assign h =>
    obtain ⟨t, o, us, rfl, hkind, -⟩ := h.begins
    refine ⟨t, _, rfl, ?_⟩
    obtain hkind | ⟨r, hkind⟩ := hkind <;> rw [hkind] <;> rfl
  | _ ht => exact ⟨_, _, rfl, by rw [ht]; rfl⟩

/-- A statement that fills its line begins with its directive. -/
theorem LineText.begins {ts : List Token} {st : Statement} (h : LineText ts st) :
    ∃ w us, ts = w :: us ∧ ∃ word, w.kind = .directive word := by
  cases h with
  | _ hw => exact ⟨_, _, rfl, _, hw⟩

/-- A statement begins with a token that ends nothing and is no line feed. -/
theorem Reads.begins {b : Bool} {ts : List Token} {sts : List Statement} {next : Option TokenKind}
    (h : Reads (.statement b) ts sts next) : ∃ t us, ts = t :: us ∧ t.kind.begins = true := by
  cases h with
  | inline h => exact h.begins
  | line h =>
    obtain ⟨w, us, rfl, word, hw⟩ := h.begins
    exact ⟨w, _, rfl, by rw [hw]; rfl⟩
  | call hkind | invoke hkind | next hkind | macroDef hkind | stringMode hkind | ifThen hkind
  | breakIf hkind | ifBegin hkind | ifElse hkind | loop hkind | whileDo hkind =>
    exact ⟨_, _, rfl, by rw [hkind]; rfl⟩

end OctoAsm
