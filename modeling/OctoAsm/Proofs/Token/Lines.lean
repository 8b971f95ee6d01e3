/-
  Lines are read one by one, and the lines before leave nothing behind but their tokens.

  What a line passes on is a line number and the tokens so far, which end in a line feed as soon as
  there are any (`Closed`).  The rest of a text is therefore read as if it stood alone, with its
  tokens further down (`readLines_down`): the induction is on the lines.  Where two texts are joined
  by a line feed, the last line of the first is complete, and a carriage return that it may end in
  becomes part of its ending; no lexeme but a string left open can tell the difference
  (`lexemesFrom_return`).

  A line adds tokens with its own number only, so every token lies on a line of the text
  (`lines_of_readLines`).
-/
import OctoAsm.Token.Lexer

namespace OctoAsm

/-! ## Moving down -/

/-- A token, `n` lines further down. -/
def Token.down (n : Nat) (t : Token) : Token := { t with line := t.line + n }

/-- A diagnostic of the lexer, `n` lines further down. -/
def LexError.down (n : Nat) (e : LexError) : LexError := { e with line := e.line + n }

theorem Lexeme.token_down (line n : Nat) (l : Lexeme) : l.token (line + n) =
    ((l.token line).map (Token.down n)).mapError (LexError.down n) := by
  cases l with
  | quoted chars | unclosed chars => rfl
  | word chars =>
    simp only [Lexeme.token]
    cases classify chars <;> rfl

namespace Lexer

/-- No tokens, or tokens that end in a line feed (newest first). -/
def Closed : List Token → Prop
  | [] => True
  | t :: _ => t.kind = .newline

theorem closed_closeLine (line : Nat) (found : List Token) : Closed (closeLine line found) := by
  cases found with
  | nil => trivial
  | cons t found =>
    rw [closeLine]
    split
    · assumption
    · rfl

theorem closeLine_of_closed {line : Nat} {found : List Token} (h : Closed found) :
    closeLine line found = found := by
  cases found with
  | nil => rfl
  | cons t found => exact if_pos h

variable {n line : Nat} {closed found found' : List Token} {ls : List Lexeme}

/-- Lexemes add the same tokens further down, whatever was found before. -/
theorem readLexemes_down : readLexemes (line + n) (found.map (Token.down n) ++ closed) ls =
    Prod.map (·.map (Token.down n) ++ closed) (Except.mapError (LexError.down n))
      (readLexemes line found ls) := by
  induction ls generalizing found with
  | nil => rfl
  | cons l ls ih =>
    rw [readLexemes, readLexemes, Lexeme.token_down]
    cases l.token line with
    | ok t =>
      show readLexemes (line + n) ((t :: found).map (Token.down n) ++ closed) ls = _
      exact ih
    | error e => rfl

theorem closeLine_down (hclosed : Closed closed) :
    closeLine (line + n) (found.map (Token.down n) ++ closed) =
      (closeLine line found).map (Token.down n) ++ closed := by
  cases found with
  | nil => exact closeLine_of_closed hclosed
  | cons t found =>
    show (if t.kind = .newline then _ else _) = (if t.kind = .newline then _ else _ : List Token).map _ ++ _
    split <;> rfl

/-- **Lines are read the same way further down**, behind tokens that are complete. -/
theorem readLines_down (hclosed : Closed closed) (rest : List (List Char)) :
    readLines (line + n) (found.map (Token.down n) ++ closed) rest =
      ((readLines line found rest).map fun ts =>
        closed.reverse ++ ts.map (Token.down n)).mapError (LexError.down n) := by
  induction rest generalizing line found with
  | nil =>
    show Except.ok (found.map (Token.down n) ++ closed).reverse =
      Except.ok (closed.reverse ++ found.reverse.map (Token.down n))
    rw [List.reverse_append, List.map_reverse]
  | cons l rest ih =>
    rw [readLines, readLines, Nat.add_right_comm, readLexemes_down]
    rcases readLexemes (line + 1) found (lexemes l) with ⟨found', _ | u⟩
    · rfl
    · show readLines _ (closeLine _ (found'.map (Token.down n) ++ closed)) rest = _
      rw [closeLine_down hclosed]
      exact ih

/-! ## The end of a line -/

/-- Lexemes that are read are closed strings and words. -/
theorem not_unclosed_of_readLexemes (h : readLexemes line found ls = (found', .ok ())) :
    ∀ chars, .unclosed chars ∉ ls := by
  induction ls generalizing found with
  | nil => simp
  | cons l ls ih =>
    rw [readLexemes] at h
    cases htoken : l.token line with
    | error e => rw [htoken] at h; cases h
    | ok t =>
      rw [htoken] at h
      intro chars hmem
      rcases List.mem_cons.mp hmem with rfl | hmem
      · cases htoken
      · exact ih h chars hmem

/-- A carriage return at the end of a line matters to an open string only. -/
theorem lexemesFrom_return {mode : LineMode} {cs : List Char}
    (h : ∀ chars, .unclosed chars ∉ lexemesFrom mode (cs ++ ['\r'])) :
    lexemesFrom mode (cs ++ ['\r']) = lexemesFrom mode cs := by
  induction cs generalizing mode with
  -- at the end of the line: only an open string would take the return in
  | nil =>
    cases mode with
    | gap => rfl
    | word acc => rfl
    | quoted acc => exact absurd List.mem_cons_self (h _)
  | cons c cs ih =>
    cases mode with
    | gap =>
      -- a blank, a comment, a string or a word comes next; in each case both lines go on alike
      simp only [List.cons_append, lexemesFrom] at h ⊢
      split
      · rename_i hblank
        rw [if_pos hblank] at h
        exact ih h
      · rename_i hblank
        rw [if_neg hblank] at h
        split
        · rfl
        · rename_i hhash
          rw [if_neg hhash] at h
          split
          · rename_i hquote
            rw [if_pos hquote] at h
            exact ih h
          · rename_i hquote
            rw [if_neg hquote] at h
            exact ih h
    | word acc =>
      simp only [List.cons_append, lexemesFrom] at h ⊢
      split
      · rename_i hblank
        rw [if_pos hblank] at h
        -- the word that ends here is the same, and so is what follows
        rw [ih fun chars hmem => h chars (List.mem_cons_of_mem _ hmem)]
      · rename_i hblank
        rw [if_neg hblank] at h
        split
        · rfl
        · rename_i hhash
          rw [if_neg hhash] at h
          exact ih h
    | quoted acc =>
      simp only [List.cons_append, lexemesFrom] at h ⊢
      split
      · rename_i hquote
        rw [if_pos hquote] at h
        rw [ih fun chars hmem => h chars (List.mem_cons_of_mem _ hmem)]
      · rename_i hquote
        rw [if_neg hquote] at h
        exact ih h

/-- A line that has tokens has the same ones when a line feed ends it. -/
theorem readLexemes_dropReturn {acc : List Char}
    (h : readLexemes line found (lexemes acc.reverse) = (found', .ok ())) :
    readLexemes line found (lexemes (Text.dropReturn acc).reverse) = (found', .ok ()) := by
  have hopen := not_unclosed_of_readLexemes h
  unfold Text.dropReturn
  split
  · rename_i front
    have hline : lexemes ('\r' :: front).reverse =
        lexemesFrom .gap (front.reverse.map spaceForTab ++ ['\r']) := by
      rw [List.reverse_cons, lexemes, List.map_append]
      rfl
    rw [hline] at h hopen
    rw [lexemesFrom_return hopen] at h
    exact h
  · exact h

/-! ## Lines of tokens -/

theorem lines_of_token {l : Lexeme} : (∀ t, l.token line = .ok t → t.line = line) ∧
    ∀ e, l.token line = .error e → e.line = line := by
  cases l with
  | quoted chars =>
    refine ⟨fun t h => ?_, nofun⟩
    obtain rfl := Except.ok.inj h
    rfl
  | unclosed chars =>
    refine ⟨nofun, fun e h => ?_⟩
    obtain rfl := Except.error.inj h
    rfl
  | word chars =>
    simp only [Lexeme.token]
    cases classify chars with
    | ok kind =>
      refine ⟨fun t h => ?_, nofun⟩
      obtain rfl := Except.ok.inj h
      rfl
    | error cause =>
      refine ⟨nofun, fun e h => ?_⟩
      obtain rfl := Except.error.inj h
      rfl

/-- A line adds tokens of its own only, and is blamed if it fails. -/
theorem lines_of_readLexemes {r : Except LexError Unit}
    (h : readLexemes line found ls = (found', r)) :
    (∀ t ∈ found', t ∈ found ∨ t.line = line) ∧ ∀ e, r = .error e → e.line = line := by
  induction ls generalizing found with
  | nil =>
    obtain ⟨rfl, rfl⟩ := Prod.mk.inj h
    exact ⟨fun t ht => .inl ht, nofun⟩
  | cons l ls ih =>
    rw [readLexemes] at h
    cases htoken : l.token line with
    | ok t =>
      rw [htoken] at h
      obtain ⟨hfound, herror⟩ := ih h
      -- a token is from before, or it is the one that was read from this line
      refine ⟨fun t' ht' => ?_, herror⟩
      rcases hfound t' ht' with ht' | ht'
      · rcases List.mem_cons.mp ht' with rfl | ht'
        · exact .inr (lines_of_token.1 _ htoken)
        · exact .inl ht'
      · exact .inr ht'
    | error e =>
      rw [htoken] at h
      obtain ⟨rfl, rfl⟩ := Prod.mk.inj h
      refine ⟨fun t ht => .inl ht, fun e' he' => ?_⟩
      obtain rfl := Except.error.inj he'
      exact lines_of_token.2 _ htoken

theorem lines_of_closeLine : ∀ t ∈ closeLine line found, t ∈ found ∨ t.line = line := by
  intro t ht
  cases found with
  | nil => cases ht
  | cons t' found =>
    rw [closeLine] at ht
    split at ht
    · exact .inl ht
    · rcases List.mem_cons.mp ht with rfl | ht
      · exact .inr rfl
      · exact .inl ht

/-- **Tokens and failures lie on lines of the text.** -/
theorem lines_of_readLines {rest : List (List Char)}
    (hfound : ∀ t ∈ found, 1 ≤ t.line ∧ t.line ≤ line) :
    (∀ ts, readLines line found rest = .ok ts →
      ∀ t ∈ ts, 1 ≤ t.line ∧ t.line ≤ line + rest.length) ∧
    ∀ e, readLines line found rest = .error e → 1 ≤ e.line ∧ e.line ≤ line + rest.length := by
  induction rest generalizing line found with
  | nil =>
    refine ⟨fun ts h t ht => ?_, nofun⟩
    obtain rfl := Except.ok.inj h
    exact hfound t (List.mem_reverse.mp ht)
  | cons l rest ih =>
    rw [readLines, List.length_cons]
    cases hread : readLexemes (line + 1) found (lexemes l) with
    | mk found' r =>
      obtain ⟨hlines, herror⟩ := lines_of_readLexemes hread
      cases r with
      | error e =>
        refine ⟨nofun, fun e' he' => ?_⟩
        obtain rfl := Except.error.inj he'
        have he : e.line = line + 1 := herror e rfl
        omega
      | ok u =>
        -- what closes the line is on this line as well
        have hclosed : ∀ t ∈ closeLine (line + 1) found', 1 ≤ t.line ∧ t.line ≤ line + 1 := by
          intro t ht
          rcases lines_of_closeLine t ht with ht | ht
          · rcases hlines t ht with ht | ht
            · have hbefore := hfound t ht
              omega
            · omega
          · omega
        have hcount : line + 1 + rest.length = line + (rest.length + 1) := by omega
        have hrest := ih hclosed
        rw [hcount] at hrest
        exact hrest

/-! ## Texts -/

/-- A line that is read without its ending is read with it. -/
theorem readLines_dropReturn {acc : List Char} {rest : List (List Char)}
    (h : readLexemes (line + 1) found (lexemes acc.reverse) = (found', .ok ())) :
    readLines line found ((Text.dropReturn acc).reverse :: rest) =
      readLines (line + 1) (closeLine (line + 1) found') rest := by
  rw [readLines, readLexemes_dropReturn h]

/-- The lines of a text that is read to the end, with more lines behind it. -/
theorem readLines_append {cs acc : List Char} {ts : List Token} (hclosed : Closed found)
    (h : readLines line found (Text.linesFrom acc cs) = .ok ts) (more : List Char) :
    Closed ts.reverse ∧ readLines line found (Text.linesFrom acc (cs ++ '\n' :: more)) =
      readLines (line + (1 + cs.count '\n')) ts.reverse (Text.linesFrom [] more) := by
  induction cs generalizing line found acc with
  | nil =>
    show _ ∧ readLines line found (Text.linesFrom acc ('\n' :: more)) = readLines (line + 1) _ _
    -- the line feed ends the line that is open
    rw [Text.linesFrom.eq_3, if_pos rfl]
    cases acc with
    | nil =>
      obtain rfl : found.reverse = ts := Except.ok.inj h
      rw [List.reverse_reverse]
      -- nothing was open: an empty line adds no tokens, and the last line is closed already
      refine ⟨hclosed, ?_⟩
      rw [readLines_dropReturn rfl, closeLine_of_closed hclosed]
    | cons c acc =>
      replace h : readLines line found [(c :: acc).reverse] = .ok ts := h
      rw [readLines] at h
      split at h
      · rename_i found' hread
        obtain rfl : (closeLine (line + 1) found').reverse = ts := Except.ok.inj h
        rw [List.reverse_reverse]
        -- the open line was the last one, and is now ended by the line feed
        exact ⟨closed_closeLine _ _, readLines_dropReturn hread⟩
      · cases h
  | cons c cs ih =>
    rw [Text.linesFrom.eq_3] at h
    rw [List.cons_append, Text.linesFrom.eq_3]
    split at h
    · rename_i hfeed
      -- a line feed inside the text: the line in front of it is read, and the rest by induction
      subst hfeed
      rw [if_pos rfl, List.count_cons_self]
      rw [readLines] at h ⊢
      split at h
      · obtain ⟨hts, heq⟩ := ih (closed_closeLine _ _) h
        refine ⟨hts, heq.trans ?_⟩
        congr 1
        omega
      · cases h
    · rename_i hfeed
      rw [if_neg hfeed, List.count_cons_of_ne hfeed]
      exact ih hclosed h

end Lexer

/-- What a text passes on to the lines after it. -/
theorem readLines_after {s₁ : String} {ts : List Token} (h : tokenize s₁ = .ok ts)
    (more : List Char) : Lexer.Closed ts.reverse ∧
      Lexer.readLines 0 [] (Text.linesFrom [] (s₁.toList ++ '\n' :: more)) =
        Lexer.readLines (0 + (1 + s₁.toList.count '\n')) ts.reverse (Text.linesFrom [] more) := by
  have hstart : Lexer.Closed [] := trivial
  exact Lexer.readLines_append hstart h more

/-- The tokens of a text are complete lines. -/
theorem closed_tokenize {s : String} {ts : List Token} (h : tokenize s = .ok ts) :
    Lexer.Closed ts.reverse := (readLines_after h []).1

/-- **Two texts joined by a line feed**: the tokens of the second come after those of the first, as
    many lines further down as the first has; where the second has no tokens, neither has both. -/
theorem tokenize_append {s₁ : String} {ts : List Token} (h : tokenize s₁ = .ok ts) (s₂ : String) :
    tokenize (s₁ ++ "\n" ++ s₂) = ((tokenize s₂).map fun us =>
      ts ++ us.map (Token.down (1 + s₁.toList.count '\n'))).mapError
        (LexError.down (1 + s₁.toList.count '\n')) := by
  obtain ⟨hclosed, happend⟩ := readLines_after h s₂.toList
  have htext : (s₁ ++ "\n" ++ s₂).toList = s₁.toList ++ '\n' :: s₂.toList := by simp
  show Lexer.readLines 0 [] (Text.linesFrom [] (s₁ ++ "\n" ++ s₂).toList) = _
  rw [htext, happend]
  generalize 1 + s₁.toList.count '\n' = n
  show Lexer.readLines (0 + n) ([].map (Token.down n) ++ ts.reverse) (Text.lines s₂) = _
  rw [Lexer.readLines_down hclosed, List.reverse_reverse]
  rfl

/-- The tokens of a text lie on its lines, and so does a failure. -/
theorem lines_of_tokenize (s : String) :
    (∀ ts, tokenize s = .ok ts → ∀ t ∈ ts, 1 ≤ t.line ∧ t.line ≤ (Text.lines s).length) ∧
      ∀ e, tokenize s = .error e → 1 ≤ e.line ∧ e.line ≤ (Text.lines s).length := by
  have hlines : (∀ ts, tokenize s = .ok ts →
      ∀ t ∈ ts, 1 ≤ t.line ∧ t.line ≤ 0 + (Text.lines s).length) ∧
      ∀ e, tokenize s = .error e → 1 ≤ e.line ∧ e.line ≤ 0 + (Text.lines s).length :=
    Lexer.lines_of_readLines nofun
  rwa [Nat.zero_add] at hlines

end OctoAsm
