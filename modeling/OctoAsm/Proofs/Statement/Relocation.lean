/-
  The same text on other lines.

  Which statements a text stands for depends on the kinds of its tokens alone, and what they mean on
  their texts besides; the lines are there for diagnostics.  A change of tokens that leaves kind and
  text alone (`Relines`) therefore goes through the grammar (`Reads.mapTokens`): the induction is on
  the grammar, one case to a form of statement.
-/
import OctoAsm.Proofs.Statement.Grammar

namespace OctoAsm

/-- A change of tokens that changes their lines only. -/
structure Relines (f : Token → Token) : Prop where
  kind : ∀ t, (f t).kind = t.kind
  text : ∀ t, (f t).text = t.text
  /-- whatever the kind is -/
  setKind : ∀ t k, f { t with kind := k } = { f t with kind := k }

/-! ## Statements with their tokens changed -/

/-- A register operand with its token changed. -/
def RegRef.mapTokens (f : Token → Token) : RegRef → RegRef
  | .literal t n => .literal (f t) n
  | .named t => .named (f t)

/-- A value operand with its token changed. -/
def ValueRef.mapTokens (f : Token → Token) : ValueRef → ValueRef
  | .number t n => .number (f t) n
  | .register r => .register (r.mapTokens f)
  | .named t => .named (f t)

/-- An expression with its tokens changed. -/
def CalcExpr.mapTokens (f : Token → Token) : CalcExpr → CalcExpr
  | .number t x => .number (f t) x
  | .name t => .name (f t)
  | .string t => .string (f t)
  | .unary t op e => .unary (f t) op (e.mapTokens f)
  | .binary t op a b => .binary (f t) op (a.mapTokens f) (b.mapTokens f)

/-- The argument of a directive with its tokens changed. -/
def Operand.mapTokens (f : Token → Token) : Operand → Operand
  | .value v => .value (v.mapTokens f)
  | .braced e => .braced (e.mapTokens f)

/-- A condition with its tokens changed. -/
def Condition.mapTokens (f : Token → Token) : Condition → Condition
  | .key r pressed => .key (r.mapTokens f) pressed
  | .compare r op rhs => .compare (r.mapTokens f) op (rhs.mapTokens f)

/-- An assignment with its tokens changed. -/
def Assignment.mapTokens (f : Token → Token) : Assignment → Assignment
  | .delaySet t src => .delaySet (f t) (src.mapTokens f)
  | .buzzerSet t src => .buzzerSet (f t) (src.mapTokens f)
  | .delayGet t dst => .delayGet (f t) (dst.mapTokens f)
  | .keyInput t dst => .keyInput (f t) (dst.mapTokens f)
  | .random t dst mask => .random (f t) (dst.mapTokens f) (mask.mapTokens f)
  | .indexSet t v => .indexSet (f t) (v.mapTokens f)
  | .indexAdd t src => .indexAdd (f t) (src.mapTokens f)
  | .charSprite t src => .charSprite (f t) (src.mapTokens f)
  | .register t dst op src => .register (f t) (dst.mapTokens f) op (src.mapTokens f)
  | .immediate t dst op v => .immediate (f t) (dst.mapTokens f) op (v.mapTokens f)
  | .ambiguous t dst op src => .ambiguous (f t) (dst.mapTokens f) op (f src)

/-- A monitor's style with its token changed. -/
def MonitorStyle.mapTokens (f : Token → Token) : MonitorStyle → MonitorStyle
  | .length t n => .length (f t) n
  | .format t => .format (f t)

/-- A statement that holds no others, with its tokens changed. -/
def Simple.mapTokens (f : Token → Token) : Simple → Simple
  | .ret t => .ret (f t)
  | .clear t => .clear (f t)
  | .bcd t r => .bcd (f t) (r.mapTokens f)
  | .save t r => .save (f t) (r.mapTokens f)
  | .load t r => .load (f t) (r.mapTokens f)
  | .sprite t x y v => .sprite (f t) (x.mapTokens f) (y.mapTokens f) (v.mapTokens f)
  | .jump t v => .jump (f t) (v.mapTokens f)
  | .jumpOffset t v => .jumpOffset (f t) (v.mapTokens f)
  | .datum t n => .datum (f t) n
  | .assign a => .assign (a.mapTokens f)
  | .callAddress t v => .callAddress (f t) (v.mapTokens f)
  | .unpack t tag v => .unpack (f t) (tag.map (ValueRef.mapTokens f)) (v.mapTokens f)
  | .org t o => .org (f t) (o.mapTokens f)
  | .byte t o => .byte (f t) (o.mapTokens f)
  | .pointer t o => .pointer (f t) (o.mapTokens f)
  | .assertion t message e => .assertion (f t) (message.map f) (e.mapTokens f)
  | .breakpoint t name => .breakpoint (f t) (f name)
  | .monitor t v style => .monitor (f t) (v.mapTokens f) (style.mapTokens f)

/-- What an alias stands for, with its tokens changed. -/
def AliasTarget.mapTokens (f : Token → Token) : AliasTarget → AliasTarget
  | .register r => .register (r.mapTokens f)
  | .braced e => .braced (e.mapTokens f)

/-- A declaration with its tokens changed. -/
def Declaration.mapTokens (f : Token → Token) : Declaration → Declaration
  | .aliasName t name target => .aliasName (f t) (f name) (target.mapTokens f)
  | .const t name v => .const (f t) (f name) (v.mapTokens f)
  | .calcName t name e => .calcName (f t) (f name) (e.mapTokens f)

mutual

/-- A statement with all its tokens changed. -/
def Statement.mapTokens (f : Token → Token) : Statement → Statement
  | .simple s => .simple (s.mapTokens f)
  | .declaration d => .declaration (d.mapTokens f)
  | .label name => .label (f name)
  | .next t name st => .next (f t) (f name) (st.mapTokens f)
  | .macroDef t name params body =>
    .macroDef (f t) (f name) (params.map f) (mapTokensAll f body)
  | .stringMode t name alphabet body =>
    .stringMode (f t) (f name) (f alphabet) (mapTokensAll f body)
  | .invoke name args => .invoke (f name) (args.map f)
  | .call name => .call (f name)
  | .ifThen t cond body => .ifThen (f t) (cond.mapTokens f) (body.mapTokens f)
  | .breakIf t cond => .breakIf (f t) (cond.mapTokens f)
  | .ifBegin t cond body => .ifBegin (f t) (cond.mapTokens f) (mapTokensAll f body)
  | .ifElse t cond body otherwise =>
    .ifElse (f t) (cond.mapTokens f) (mapTokensAll f body) (mapTokensAll f otherwise)
  | .loop t body => .loop (f t) (mapTokensAll f body)
  | .whileDo t cond body => .whileDo (f t) (cond.mapTokens f) (body.mapTokens f)

/-- Statements with all their tokens changed. -/
def mapTokensAll (f : Token → Token) : List Statement → List Statement
  | [] => []
  | st :: rest => st.mapTokens f :: mapTokensAll f rest

end

/-- The walk over a body, which the recursion needs in its own shape, is the map over the list. -/
theorem mapTokensAll_eq_map (f : Token → Token) (body : List Statement) :
    mapTokensAll f body = body.map (Statement.mapTokens f) := by
  induction body with
  | nil => rfl
  | cons st rest ih => rw [mapTokensAll, ih, List.map_cons]

/-! ## Nothing changed -/

/-- Leaving tokens as they are is a change of lines. -/
theorem Relines.id : Relines id := ⟨fun _ => rfl, fun _ => rfl, fun _ _ => rfl⟩

/-- Nothing changed in a register operand. -/
@[simp] theorem RegRef.mapTokens_id (r : RegRef) : r.mapTokens id = r := by cases r <;> rfl

/-- Nothing changed in a value operand. -/
@[simp] theorem ValueRef.mapTokens_id (v : ValueRef) : v.mapTokens id = v := by
  cases v <;> simp [mapTokens]

/-- Nothing changed in an expression. -/
@[simp] theorem CalcExpr.mapTokens_id (e : CalcExpr) : e.mapTokens id = e := by
  induction e <;> simp_all [mapTokens]

/-- Nothing changed in the argument of a directive. -/
@[simp] theorem Operand.mapTokens_id (o : Operand) : o.mapTokens id = o := by
  cases o <;> simp [mapTokens]

/-- Nothing changed in a condition. -/
@[simp] theorem Condition.mapTokens_id (c : Condition) : c.mapTokens id = c := by
  cases c <;> simp [mapTokens]

/-- Nothing changed in an assignment. -/
@[simp] theorem Assignment.mapTokens_id (a : Assignment) : a.mapTokens id = a := by
  cases a <;> simp [mapTokens]

/-- Nothing changed in the style of a monitor. -/
@[simp] theorem MonitorStyle.mapTokens_id (m : MonitorStyle) : m.mapTokens id = m := by
  cases m <;> rfl

/-- Nothing changed in a statement that stands alone. -/
theorem Simple.mapTokens_id (s : Simple) : s.mapTokens id = s := by
  have hvalue : ValueRef.mapTokens id = id := funext ValueRef.mapTokens_id
  cases s <;> simp [mapTokens, hvalue]

/-- Nothing changed in what an alias stands for. -/
@[simp] theorem AliasTarget.mapTokens_id (target : AliasTarget) : target.mapTokens id = target := by
  cases target <;> simp [mapTokens]

/-- Nothing changed in a declaration. -/
theorem Declaration.mapTokens_id (d : Declaration) : d.mapTokens id = d := by
  cases d <;> simp [mapTokens]

/-! ## Texts with their lines changed -/

section Texts

variable {f : Token → Token}

/-- What is known of the kind of a token is known of the changed one. -/
theorem Relines.kind_of (hf : Relines f) {t : Token} {k : TokenKind} (h : t.kind = k) :
    (f t).kind = k := (hf.kind t).trans h

/-- A token read as a register is one on any line. -/
theorem RegRef.ofToken?_mapTokens (hf : Relines f) {t : Token} {r : RegRef}
    (h : RegRef.ofToken? t = some r) : RegRef.ofToken? (f t) = some (r.mapTokens f) := by
  unfold ofToken? at h ⊢
  rw [hf.kind]
  split at h <;> cases h <;> rfl

/-- A token read as a value is one on any line. -/
theorem ValueRef.ofToken?_mapTokens (hf : Relines f) {t : Token} {v : ValueRef}
    (h : ValueRef.ofToken? t = some v) : ValueRef.ofToken? (f t) = some (v.mapTokens f) := by
  unfold ofToken? at h ⊢
  rw [hf.kind]
  split at h <;> cases h <;> rfl

/-- A token read as a value, where registers may stand as well, is one on any line. -/
theorem ValueRef.ofEither?_mapTokens (hf : Relines f) {t : Token} {v : ValueRef}
    (h : ValueRef.ofEither? t = some v) : ValueRef.ofEither? (f t) = some (v.mapTokens f) := by
  unfold ofEither? at h ⊢
  rw [hf.kind]
  split at h
  · cases h; rfl
  · exact ofToken?_mapTokens hf h

/-- A token read as an operand of an expression is one on any line. -/
theorem CalcExpr.ofToken?_mapTokens (hf : Relines f) {t : Token} {e : CalcExpr}
    (h : CalcExpr.ofToken? t = some e) : CalcExpr.ofToken? (f t) = some (e.mapTokens f) := by
  unfold ofToken? at h ⊢
  rw [hf.kind]
  split at h <;> cases h <;> rfl

/-- By induction on the derivation of the expression: operators and brackets are told by kind and
    text. -/
theorem CalcText.mapTokens (hf : Relines f) {place : CalcPlace} {n : Nat} {ts : List Token}
    {e : CalcExpr} (h : CalcText place n ts e) :
    CalcText place n (ts.map f) (e.mapTokens f) := by
  induction h with
  | atom h => exact .atom (CalcExpr.ofToken?_mapTokens hf h)
  | paren ho _ hc ih =>
    rw [List.map_cons, List.map_append]
    exact .paren (hf.kind_of ho) ih (hf.kind_of hc)
  | term _ ih => exact .term ih
  | unary ht hop _ ih => exact .unary (hf.kind_of ht) hop ih
  | binary _ ht hop _ ihl ihr =>
    rw [List.map_append]
    exact .binary ihl (hf.kind_of ht) hop ihr

/-- The braces around an expression are told by their kinds. -/
theorem BracedText.mapTokens (hf : Relines f) {ts : List Token} {e : CalcExpr}
    (h : BracedText ts e) : BracedText (ts.map f) (e.mapTokens f) := by
  obtain ⟨ho, h, hc⟩ := h
  rw [List.map_cons, List.map_append]
  exact .mk (hf.kind_of ho) (h.mapTokens hf) (hf.kind_of hc)

/-- An argument of a directive is a value or a braced expression, on any line. -/
theorem OperandText.mapTokens (hf : Relines f) {ts : List Token} {o : Operand}
    (h : OperandText ts o) : OperandText (ts.map f) (o.mapTokens f) := by
  cases h with
  | value h => exact .value (ValueRef.ofToken?_mapTokens hf h)
  | braced h => exact .braced (h.mapTokens hf)

/-- One case to a form of condition. -/
theorem ConditionText.mapTokens (hf : Relines f) {ts : List Token} {c : Condition}
    (h : ConditionText ts c) : ConditionText (ts.map f) (c.mapTokens f) := by
  cases h with
  | key hr hk => exact .key (RegRef.ofToken?_mapTokens hf hr) (hf.kind_of hk)
  | notKey hr hk => exact .notKey (RegRef.ofToken?_mapTokens hf hr) (hf.kind_of hk)
  | compare hr ht hop hv =>
    exact .compare (RegRef.ofToken?_mapTokens hf hr) (hf.kind_of ht) hop
      (ValueRef.ofEither?_mapTokens hf hv)

/-- One case to a form of assignment; the keywords and operators are told by kind and text. -/
theorem AssignmentText.mapTokens (hf : Relines f) {ts : List Token} {a : Assignment}
    (h : AssignmentText ts a) : AssignmentText (ts.map f) (a.mapTokens f) := by
  have hreg {t : Token} {r : RegRef} := RegRef.ofToken?_mapTokens (t := t) (r := r) hf
  have hval {t : Token} {v : ValueRef} := ValueRef.ofToken?_mapTokens (t := t) (v := v) hf
  cases h with
  | delaySet ht ho hr => exact .delaySet (hf.kind_of ht) (hf.kind_of ho) (hreg hr)
  | buzzerSet ht ho hr => exact .buzzerSet (hf.kind_of ht) (hf.kind_of ho) (hreg hr)
  | delayGet ht ho hs => exact .delayGet (hreg ht) (hf.kind_of ho) (hf.kind_of hs)
  | keyInput ht ho hk => exact .keyInput (hreg ht) (hf.kind_of ho) (hf.kind_of hk)
  | random ht ho hk hv => exact .random (hreg ht) (hf.kind_of ho) (hf.kind_of hk) (hval hv)
  | indexSet ht ho hv => exact .indexSet (hf.kind_of ht) (hf.kind_of ho) (hval hv)
  | indexAdd ht ho hr => exact .indexAdd (hf.kind_of ht) (hf.kind_of ho) (hreg hr)
  | charSprite ht ho hk hr =>
    exact .charSprite (hf.kind_of ht) (hf.kind_of ho) (hf.kind_of hk) (hreg hr)
  | register ht ho hop hs => exact .register (hreg ht) (hf.kind_of ho) hop (hf.kind_of hs)
  | named ht ho hop hno hs => exact .named (hreg ht) (hf.kind_of ho) hop hno (hf.kind_of hs)
  | immediate ht ho hop hv hname =>
    exact .immediate (hreg ht) (hf.kind_of ho) hop (hval hv) (by rwa [hf.kind])
  | ambiguous ht ho hop hs => exact .ambiguous (hreg ht) (hf.kind_of ho) hop (hf.kind_of hs)

/-- One case to a statement that may stand within a line. -/
theorem InlineText.mapTokens (hf : Relines f) {ts : List Token} {s : Simple}
    (h : InlineText ts s) : InlineText (ts.map f) (s.mapTokens f) := by
  have hreg {t : Token} {r : RegRef} := RegRef.ofToken?_mapTokens (t := t) (r := r) hf
  have hval {t : Token} {v : ValueRef} := ValueRef.ofToken?_mapTokens (t := t) (v := v) hf
  cases h with
  | ret ht => exact .ret (hf.kind_of ht)
  | clear ht => exact .clear (hf.kind_of ht)
  | bcd ht hr => exact .bcd (hf.kind_of ht) (hreg hr)
  | save ht hr => exact .save (hf.kind_of ht) (hreg hr)
  | load ht hr => exact .load (hf.kind_of ht) (hreg hr)
  | sprite ht hx hy hv => exact .sprite (hf.kind_of ht) (hreg hx) (hreg hy) (hval hv)
  | jump ht hv => exact .jump (hf.kind_of ht) (hval hv)
  | jumpOffset ht hv => exact .jumpOffset (hf.kind_of ht) (hval hv)
  | datum ht => exact .datum (hf.kind_of ht)
  | assign h => exact .assign (h.mapTokens hf)

/-- One case to a statement that fills its line. -/
theorem LineText.mapTokens (hf : Relines f) {ts : List Token} {st : Statement}
    (h : LineText ts st) : LineText (ts.map f) (st.mapTokens f) := by
  have hval {t : Token} {v : ValueRef} := ValueRef.ofToken?_mapTokens (t := t) (v := v) hf
  cases h with
  | label hw hn => exact .label (hf.kind_of hw) (hf.kind_of hn)
  | aliasRegister hw hn hr =>
    exact .aliasRegister (hf.kind_of hw) (hf.kind_of hn) (RegRef.ofToken?_mapTokens hf hr)
  | aliasBraced hw hn h => exact .aliasBraced (hf.kind_of hw) (hf.kind_of hn) (h.mapTokens hf)
  | const hw hn hv => exact .const (hf.kind_of hw) (hf.kind_of hn) (hval hv)
  | calcName hw hn h => exact .calcName (hf.kind_of hw) (hf.kind_of hn) (h.mapTokens hf)
  | callAddress hw hv => exact .callAddress (hf.kind_of hw) (hval hv)
  | unpack hw hv => exact .unpack (hf.kind_of hw) (hval hv)
  | unpackTagged hw hg hv => exact .unpackTagged (hf.kind_of hw) (hval hg) (hval hv)
  | org hw h => exact .org (hf.kind_of hw) (h.mapTokens hf)
  | byte hw h => exact .byte (hf.kind_of hw) (h.mapTokens hf)
  | pointer hw h => exact .pointer (hf.kind_of hw) (h.mapTokens hf)
  | assertion hw h => exact .assertion (hf.kind_of hw) (h.mapTokens hf)
  | assertionWith hw hm h =>
    exact .assertionWith (hf.kind_of hw) (hf.kind_of hm) (h.mapTokens hf)
  | breakpoint hw hn => exact .breakpoint (hf.kind_of hw) (hf.kind_of hn)
  | monitorLength hw hv hl =>
    exact .monitorLength (hf.kind_of hw) (ValueRef.ofEither?_mapTokens hf hv) (hf.kind_of hl)
  | monitorFormat hw hv hq =>
    exact .monitorFormat (hf.kind_of hw) (ValueRef.ofEither?_mapTokens hf hv) (hf.kind_of hq)

/-- A row of line feeds is one on any lines. -/
theorem Feeds.relined (hf : Relines f) {ts : List Token} (h : Feeds ts) : Feeds (ts.map f) := by
  intro u hu
  obtain ⟨t, ht, rfl⟩ := List.mem_map.mp hu
  exact hf.kind_of (h t ht)

/-- The end of a line is a feed, or a closing bracket behind it, or the end of the text: all told by
    kinds. -/
theorem LineEnd.relined (hf : Relines f) {feed : List Token} {next : Option TokenKind}
    (h : LineEnd feed next) : LineEnd (feed.map f) next := by
  cases h with
  | feed ht => exact .feed (hf.kind_of ht)
  | input => exact .input
  | brace => exact .brace

/-- What a reader looks at ahead are the kinds of the tokens. -/
theorem lead_relined (hf : Relines f) (ts : List Token) (next : Option TokenKind) :
    lead (ts.map f) next = lead ts next := by
  cases ts with
  | nil => rfl
  | cons t ts => exact congrArg some (hf.kind t)

/-- Whether an assignment starts here is told by the kinds of the first two tokens. -/
theorem startsAssignment_relined (hf : Relines f) (ts : List Token) :
    startsAssignment (ts.map f) = startsAssignment ts := by
  rcases ts with _ | ⟨t, _ | ⟨o, ts⟩⟩
  · rfl
  · rfl
  · have hkind := hf.kind o
    obtain ⟨line, kind, text⟩ := o
    simp only [List.map_cons]
    generalize f ⟨line, kind, text⟩ = o' at hkind
    obtain ⟨line', kind', text'⟩ := o'
    obtain rfl : kind' = kind := hkind
    cases kind' <;> rfl

/-- **A text on other lines is read as the same statements on those lines.** -/
theorem Reads.mapTokens (hf : Relines f) {part : Part} {ts : List Token} {sts : List Statement}
    {next : Option TokenKind} (h : Reads part ts sts next) :
    Reads part (ts.map f) (sts.map (Statement.mapTokens f)) next := by
  -- forms are told by kinds, which stay; where a text decides, it stays as well
  induction h with
  | inline h => exact .inline (h.mapTokens hf)
  | line h hend =>
    rw [List.map_append]
    exact .line (h.mapTokens hf) (hend.relined hf)
  | call hname hnext => exact .call (hf.kind_of hname) hnext
  | @invoke b name arg args next hname hargs hop hnext =>
    refine .invoke (hf.kind_of hname) ?_ ((startsAssignment_relined hf _).trans hop) hnext
    -- an argument on another line is an argument of the same kind
    intro u hu
    obtain ⟨a, ha, rfl⟩ : ∃ a ∈ arg :: args, f a = u := List.mem_map.mp hu
    rw [hf.kind]
    exact hargs a ha
  | next hword hname hnls _ ih =>
    rw [List.map_cons, List.map_cons, List.map_append]
    exact .next (hf.kind_of hword) (hf.kind_of hname) (hnls.relined hf) ih
  | macroDef hword hname hparams ho _ hc hend ih =>
    simp only [List.map_cons, List.map_append, List.map_nil, Statement.mapTokens,
      mapTokensAll_eq_map]
    refine .macroDef (hf.kind_of hword) (hf.kind_of hname) ?_ (hf.kind_of ho) ih (hf.kind_of hc)
      (hend.relined hf)
    intro u hu
    obtain ⟨p, hp, rfl⟩ := List.mem_map.mp hu
    exact hf.kind_of (hparams p hp)
  | stringMode hword hname halphabet ho _ hc hend ih =>
    simp only [List.map_cons, List.map_append, List.map_nil, Statement.mapTokens,
      mapTokensAll_eq_map]
    exact .stringMode (hf.kind_of hword) (hf.kind_of hname) (hf.kind_of halphabet) (hf.kind_of ho)
      ih (hf.kind_of hc) (hend.relined hf)
  | ifThen hword hcond hthn hnls _ ih =>
    simp only [List.map_cons, List.map_append]
    exact .ifThen (hf.kind_of hword) (hcond.mapTokens hf) (hf.kind_of hthn) (hnls.relined hf) ih
  | breakIf hword hcond hthn hnls =>
    simp only [List.map_cons, List.map_append]
    exact .breakIf (hf.kind_of hword) (hcond.mapTokens hf) (hf.kind_of hthn) (hnls.relined hf)
  | ifBegin hword hcond hbgn _ hfin ih =>
    simp only [List.map_cons, List.map_append, List.map_nil, Statement.mapTokens,
      mapTokensAll_eq_map]
    exact .ifBegin (hf.kind_of hword) (hcond.mapTokens hf) (hf.kind_of hbgn) ih (hf.kind_of hfin)
  | ifElse hword hcond hbgn _ hels _ hfin ih ih' =>
    simp only [List.map_cons, List.map_append, List.map_nil, Statement.mapTokens,
      mapTokensAll_eq_map]
    exact .ifElse (hf.kind_of hword) (hcond.mapTokens hf) (hf.kind_of hbgn) ih (hf.kind_of hels)
      ih' (hf.kind_of hfin)
  | loop hword _ hagain ih =>
    simp only [List.map_cons, List.map_append, List.map_nil, Statement.mapTokens,
      mapTokensAll_eq_map]
    exact .loop (hf.kind_of hword) ih (hf.kind_of hagain)
  | whileDo hword hcond hnls _ ih =>
    simp only [List.map_cons, List.map_append]
    exact .whileDo (hf.kind_of hword) (hcond.mapTokens hf) (hnls.relined hf) ih
  | done hnls => exact .done (hnls.relined hf)
  | @more b nls ts st us sts next hnls _ _ ih ihs =>
    rw [List.map_append, List.map_append]
    refine .more (hnls.relined hf) ?_ ihs
    -- what the rest begins with is a kind
    rw [lead_relined hf]
    exact ih

end Texts

end OctoAsm
