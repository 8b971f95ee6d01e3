/-
  Sources joined by a line feed.

  What a source stands for does not depend on what comes after its last line feed.  The lexer begins
  every line anew (`tokenize_append`).  The parser looks at most one token ahead: where a text ends
  in a line feed, that line feed is the end of a line to the last statement, or the last statement
  ends with a word of its own, so any other token may follow instead of the end of the input
  (`Reads.before_any`).  Two texts in a row are then the statements of both, by induction on the
  statements of the first.
-/
import OctoAsm.Assemble
import OctoAsm.Proofs.Program
import OctoAsm.Proofs.Statement.Printing
import OctoAsm.Proofs.Statement.Relocation
import OctoAsm.Proofs.Token.Lines

namespace OctoAsm

/-! ## Texts that end in a line feed -/

/-- The last token is a line feed. -/
def EndsLine (ts : List Token) : Prop := ts.getLast?.map (·.kind) = some .newline

section EndsLine

variable {ts us : List Token}

/-- What ends in a line feed does so with its last part. -/
theorem EndsLine.of_append (h : EndsLine (ts ++ us)) (hne : us ≠ []) : EndsLine us := by
  rwa [EndsLine, List.getLast?_append_of_ne_nil _ hne] at h

/-- A text that ends in another token does not end in a line feed. -/
theorem not_endsLine_of_last (ts : List Token) {t : Token} (ht : t.kind ≠ .newline) :
    ¬ EndsLine (ts ++ [t]) := by
  intro h
  exact ht (Option.some.inj (h.of_append (List.cons_ne_nil t [])))

/-- Tokens without a line feed among them do not end in one. -/
theorem not_endsLine_of_forall (h : ∀ t ∈ ts, t.kind ≠ .newline) : ¬ EndsLine ts := by
  intro hend
  obtain ⟨t, ht, hkind⟩ := Option.map_eq_some_iff.mp hend
  exact h t (List.mem_of_getLast? ht) hkind

theorem not_endsLine_of_solid (h : solid ts = ts) : ¬ EndsLine ts := by
  refine not_endsLine_of_forall fun t ht => ?_
  rw [← h] at ht
  simpa using (List.mem_filter.mp ht).2

/-- The tokens of a text are complete lines. -/
theorem endsLine_of_closed (h : Lexer.Closed ts.reverse) : ts = [] ∨ EndsLine ts := by
  rcases List.eq_nil_or_concat ts with rfl | ⟨front, t, rfl⟩
  · exact .inl rfl
  · right
    rw [List.concat_eq_append, List.reverse_append] at h
    rw [List.concat_eq_append, EndsLine, List.getLast?_concat]
    exact congrArg some h

end EndsLine

/-! ## Lines have no line feed inside -/

section Solid

variable {ts : List Token}

/-- An expression is written without line feeds. -/
theorem BracedText.solid_eq {e : CalcExpr} (h : BracedText ts e) : solid ts = ts := by
  obtain ⟨ho, h, hc⟩ := h
  rw [solid_cons (by simp [ho]), solid_append, h.solid_eq, solid_cons (by simp [hc]), solid_nil]

/-- So is an argument of a directive. -/
theorem OperandText.solid_eq {o : Operand} (h : OperandText ts o) : solid ts = ts := by
  cases h with
  | value hv => exact solid_cons fun hkind => by simp [ValueRef.ofToken?, hkind] at hv
  | braced h => exact h.solid_eq

/-- A directive's arguments are on its line. -/
theorem LineText.solid_eq {st : Statement} (h : LineText ts st) : solid ts = ts := by
  have hreg : ∀ {t : Token} {r : RegRef}, RegRef.ofToken? t = some r → t.kind ≠ .newline := by
    intro t r hr hkind
    simp [RegRef.ofToken?, hkind] at hr
  have hval : ∀ {t : Token} {v : ValueRef}, ValueRef.ofToken? t = some v → t.kind ≠ .newline := by
    intro t v hv hkind
    simp [ValueRef.ofToken?, hkind] at hv
  have heither : ∀ {t : Token} {v : ValueRef}, ValueRef.ofEither? t = some v →
      t.kind ≠ .newline := by
    intro t v hv hkind
    simp [ValueRef.ofEither?, ValueRef.ofToken?, hkind] at hv
  have hkind : ∀ {t : Token} {k : TokenKind}, t.kind = k → k ≠ .newline → t.kind ≠ .newline :=
    fun h hk => h ▸ hk
  cases h with
  | label hw hn | breakpoint hw hn =>
    rw [solid_cons (hkind hw (by simp)), solid_cons (hkind hn (by simp)), solid_nil]
  | aliasRegister hw hn hr =>
    rw [solid_cons (hkind hw (by simp)), solid_cons (hkind hn (by simp)), solid_cons (hreg hr), solid_nil]
  | aliasBraced hw hn h | calcName hw hn h =>
    rw [solid_cons (hkind hw (by simp)), solid_cons (hkind hn (by simp)), h.solid_eq]
  | const hw hn hv =>
    rw [solid_cons (hkind hw (by simp)), solid_cons (hkind hn (by simp)), solid_cons (hval hv), solid_nil]
  | callAddress hw hv | unpack hw hv =>
    rw [solid_cons (hkind hw (by simp)), solid_cons (hval hv), solid_nil]
  | unpackTagged hw hg hv =>
    rw [solid_cons (hkind hw (by simp)), solid_cons (hval hg), solid_cons (hval hv), solid_nil]
  | org hw h | byte hw h | pointer hw h => rw [solid_cons (hkind hw (by simp)), h.solid_eq]
  | assertion hw h => rw [solid_cons (hkind hw (by simp)), h.solid_eq]
  | assertionWith hw hm h =>
    rw [solid_cons (hkind hw (by simp)), solid_cons (hkind hm (by simp)), h.solid_eq]
  | monitorLength hw hv hl | monitorFormat hw hv hl =>
    rw [solid_cons (hkind hw (by simp)), solid_cons (heither hv), solid_cons (hkind hl (by simp)), solid_nil]

end Solid

/-! ## What may follow a complete line -/

/-- A line that is complete ends in the same way before anything. -/
theorem LineEnd.before_any {ts feed : List Token} (h : LineEnd feed none) (hend : EndsLine (ts ++ feed))
    (hts : ¬ EndsLine ts) (next : Option TokenKind) : LineEnd feed next := by
  cases h with
  | feed ht => exact .feed ht
  | input => exact absurd (by simpa using hend) hts

/-- **A statement that ends its text with a line feed may stand before anything.** -/
theorem Reads.before_any {b : Bool} {ts : List Token} {sts : List Statement}
    (h : Reads (.statement b) ts sts none) (hend : EndsLine ts) (next : Option TokenKind) :
    Reads (.statement b) ts sts next := by
  -- the statement inside another one ends where that one ends
  have hinner : ∀ {b ts sts front}, Reads (.statement b) ts sts none → EndsLine (front ++ ts) →
      EndsLine ts := by
    intro b ts sts front h hend
    obtain ⟨t, us, rfl, -⟩ := h.begins
    exact hend.of_append (List.cons_ne_nil t us)
  cases h with
  | inline h => exact .inline h
  | line h hline => exact .line h (hline.before_any hend (not_endsLine_of_solid h.solid_eq) next)
  | call hname hnext =>
    exact absurd hend (not_endsLine_of_last [] (by simp [hname]))
  | @invoke _ name arg args _ hname hargs hop hnext =>
    refine absurd hend (not_endsLine_of_forall fun t ht => ?_)
    rcases List.mem_cons.mp ht with rfl | ht
    · simp [hname]
    · intro hkind
      simpa [isArgument, hkind] using hargs t ht
  | @next _ word name nls ts st _ hword hname hnls h =>
    have hend : EndsLine ((word :: name :: nls) ++ ts) := hend
    exact .next hword hname hnls (h.before_any (hinner h hend) next)
  | @macroDef _ word name params o ts body c feed _ hword hname hparams ho h hc hline =>
    have hend : EndsLine ((word :: name :: (params ++ o :: (ts ++ [c]))) ++ feed) := by
      simpa using hend
    have hbrace : ¬ EndsLine (word :: name :: (params ++ o :: (ts ++ [c]))) := by
      have hlast : c.kind ≠ .newline := by simp [hc]
      simpa using not_endsLine_of_last (word :: name :: (params ++ o :: ts)) hlast
    exact .macroDef hword hname hparams ho h hc (hline.before_any hend hbrace next)
  | @stringMode _ word name alphabet o ts body c feed _ hword hname halphabet ho h hc hline =>
    have hend : EndsLine ((word :: name :: alphabet :: o :: (ts ++ [c])) ++ feed) := by
      simpa using hend
    have hbrace : ¬ EndsLine (word :: name :: alphabet :: o :: (ts ++ [c])) :=
      not_endsLine_of_last (word :: name :: alphabet :: o :: ts) (by simp [hc])
    exact .stringMode hword hname halphabet ho h hc (hline.before_any hend hbrace next)
  | @ifThen _ word cs cond thn nls ts st _ hword hcond hthn hnls h =>
    have hend : EndsLine ((word :: (cs ++ thn :: nls)) ++ ts) := by simpa using hend
    exact .ifThen hword hcond hthn hnls (h.before_any (hinner h hend) next)
  | ifBegin hword hcond hbgn h hfin => exact .ifBegin hword hcond hbgn h hfin
  | ifElse hword hcond hbgn h hels h' hfin => exact .ifElse hword hcond hbgn h hels h' hfin
  | loop hword h hagain => exact .loop hword h hagain
  | @whileDo _ word cs cond nls ts st _ hword hcond hnls h =>
    have hend : EndsLine ((word :: (cs ++ nls)) ++ ts) := by simpa using hend
    exact .whileDo hword hcond hnls (h.before_any (hinner h hend) next)

/-- **Complete lines in front of a text are read as if they stood alone.** -/
theorem Reads.append {b : Bool} {ts us : List Token} {sts sts' : List Statement}
    (h : Reads (.body b) ts sts none) (hts : ts = [] ∨ EndsLine ts)
    (h' : Reads (.body b) us sts' none) : Reads (.body b) (ts ++ us) (sts ++ sts') none := by
  cases h with
  | done hnls => exact h'.feeds_append hnls
  | @more _ nls ts st vs sts _ hnls h hs =>
    have hends : EndsLine (nls ++ (ts ++ vs)) := by
      obtain ⟨t, rest, rfl, -⟩ := h.begins
      exact hts.resolve_left (by simp)
    have hrest : vs = [] ∨ EndsLine vs := by
      rcases vs with _ | ⟨v, vs⟩
      · exact .inl rfl
      · rw [← List.append_assoc] at hends
        exact .inr (hends.of_append (List.cons_ne_nil v vs))
    rw [List.append_assoc, List.append_assoc]
    refine .more hnls ?_ (hs.append hrest h')
    -- only the last statement meets what comes after the lines
    rw [lead_append]
    rcases vs with _ | ⟨v, vs⟩
    · obtain ⟨t, rest, rfl, -⟩ := h.begins
      rw [List.append_nil] at hends
      exact h.before_any (hends.of_append (List.cons_ne_nil t rest)) _
    · exact h

/-! ## Sources -/

/-- A source is lexed, and its tokens are read by the grammar. -/
theorem readSource_eq_ok {source : String} {program : List Statement} :
    readSource source = .ok program ↔
      ∃ ts, tokenize source = .ok ts ∧ Reads (.body false) ts program none := by
  unfold readSource
  rw [bind_eq_ok]
  simp only [mapError_eq_ok, parse_eq_ok]

/-- Moving tokens down changes their lines only. -/
theorem relines_down (n : Nat) : Relines (Token.down n) :=
  ⟨fun _ => rfl, fun _ => rfl, fun _ _ => rfl⟩

/-- **Sources joined by a line feed.**  If each of two sources reads as statements, both together read
    as the statements of the first and then those of the second, as many lines further down as the
    first source has. -/
theorem readSource_append {s₁ s₂ : String} {p₁ p₂ : List Statement}
    (h₁ : readSource s₁ = .ok p₁) (h₂ : readSource s₂ = .ok p₂) :
    readSource (s₁ ++ "\n" ++ s₂) = .ok (p₁ ++
      p₂.map (Statement.mapTokens (Token.down (1 + s₁.toList.count '\n')))) := by
  obtain ⟨ts, hts, hreads₁⟩ := readSource_eq_ok.mp h₁
  obtain ⟨us, hus, hreads₂⟩ := readSource_eq_ok.mp h₂
  have hclosed := closed_tokenize hts
  refine readSource_eq_ok.mpr ⟨ts ++ us.map (Token.down (1 + s₁.toList.count '\n')), ?_, ?_⟩
  · rw [tokenize_append hts, hus]
    rfl
  · exact hreads₁.append (endsLine_of_closed hclosed) (hreads₂.mapTokens (relines_down _))

/-- A macro, and an invocation of it that takes all that is left of its line. -/
def puttingSource : String := ":macro put X \x7b v0 := X \x7d\nput 3"

/-- A loop over two lines. -/
def loopingSource : String := "loop\n  v1 += 2 again"

/-- The tokens of `puttingSource`. -/
def puttingTokens : List Token :=
  [⟨1, .directive .macroDef, ":macro"⟩, ⟨1, .name, "put"⟩, ⟨1, .name, "X"⟩, ⟨1, .openBrace, "\x7b"⟩,
    ⟨1, .register (.v (vReg 0)), "v0"⟩, ⟨1, .operator .assign, ":="⟩, ⟨1, .name, "X"⟩,
    ⟨1, .closeBrace, "\x7d"⟩, ⟨1, .newline, "\n"⟩, ⟨2, .name, "put"⟩, ⟨2, .number 3, "3"⟩,
    ⟨2, .newline, "\n"⟩]

/-- The tokens of `loopingSource`. -/
def loopingTokens : List Token :=
  [⟨1, .keyword .loop, "loop"⟩, ⟨1, .newline, "\n"⟩, ⟨2, .register (.v (vReg 1)), "v1"⟩,
    ⟨2, .operator .addAssign, "+="⟩, ⟨2, .number 2, "2"⟩, ⟨2, .keyword .again, "again"⟩,
    ⟨2, .newline, "\n"⟩]

/-- The statements of `puttingSource`. -/
def puttingProgram : List Statement :=
  [.macroDef ⟨1, .directive .macroDef, ":macro"⟩ ⟨1, .name, "put"⟩ [⟨1, .name, "X"⟩]
      [.simple (.assign (.ambiguous ⟨1, .register (.v (vReg 0)), "v0"⟩
        (.literal ⟨1, .register (.v (vReg 0)), "v0"⟩ (vReg 0)) .set ⟨1, .name, "X"⟩))],
    .invoke ⟨2, .name, "put"⟩ [⟨2, .number 3, "3"⟩]]

/-- The statements of `loopingSource`. -/
def loopingProgram : List Statement :=
  [.loop ⟨1, .keyword .loop, "loop"⟩
    [.simple (.assign (.immediate ⟨2, .register (.v (vReg 1)), "v1"⟩
      (.literal ⟨2, .register (.v (vReg 1)), "v1"⟩ (vReg 1)) .add (.number ⟨2, .number 2, "2"⟩ 2)))]]

theorem readSource_append_putting : readSource puttingSource = .ok puttingProgram ∧
    readSource loopingSource = .ok loopingProgram ∧
    readSource (puttingSource ++ "\n" ++ loopingSource) = .ok (puttingProgram ++
      loopingProgram.map (Statement.mapTokens (Token.down (1 + puttingSource.toList.count '\n')))) := by
  have h₁ : readSource puttingSource = .ok puttingProgram := by
    have htokens : tokenize puttingSource = .ok puttingTokens := by decide +kernel
    exact readSource_eq_ok.mpr ⟨_, htokens, parse_eq_ok.mp rfl⟩
  have h₂ : readSource loopingSource = .ok loopingProgram := by
    have htokens : tokenize loopingSource = .ok loopingTokens := by decide +kernel
    exact readSource_eq_ok.mpr ⟨_, htokens, parse_eq_ok.mp rfl⟩
  exact ⟨h₁, h₂, readSource_append h₁ h₂⟩

end OctoAsm
