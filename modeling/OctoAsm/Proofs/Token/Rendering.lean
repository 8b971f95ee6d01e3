/-
  Tokens written out are read back.

  A token is written as its text and a space, a string between its quotes, and a line feed as one
  (`Token.render`).  What this gives is a text of a simple kind, one line for each line that had
  tokens, whatever the tokens were read from: blanks of all sorts, comments, strings that stand
  against words.  It is read back because of what a lexeme of a line can be (`Lexeme.Legible`, kept by
  every step of the automaton).  A word has no blank and no `#` in it and does not begin with a quote,
  so it is the same word between two spaces; a string has no quote in it, and neither a tab nor a line
  feed, since tabs are spaces before the line is read.

  Tokens that were read are complete lines of such lexemes (`InLines`, by induction on the lines read).
  The way back is an induction on these lines (`readLines_render`).
-/
import Mathlib.Data.List.Forall2
import OctoAsm.Proofs.Token.Lines
import OctoAsm.Proofs.Token.Words

namespace OctoAsm

/-! ## Writing tokens -/

/-- A token as it is written out. -/
def Token.render (t : Token) : List Char :=
  match t.kind with
  | .newline => ['\n']
  | .string => '"' :: (t.text.toList ++ ['"', ' '])
  | _ => t.text.toList ++ [' ']

/-- Tokens as a text. -/
def renderTokens (ts : List Token) : String := String.ofList (ts.flatMap Token.render)

/-- What a token is, apart from its line. -/
def Token.content (t : Token) : TokenKind × String := (t.kind, t.text)

/-- The token on a line. -/
def Token.onLine (line : Nat) (t : Token) : Token := { t with line }

/-- The tokens on lines of their own, from `line` on: a line feed ends each. -/
def renumber : Nat → List Token → List Token
  | _, [] => []
  | line, t :: ts => t.onLine line :: renumber (if t.kind = .newline then line + 1 else line) ts

/-- Renumbering tokens changes their lines only. -/
theorem content_renumber (line : Nat) (ts : List Token) :
    (renumber line ts).map Token.content = ts.map Token.content := by
  induction ts generalizing line with
  | nil => rfl
  | cons t ts ih =>
    rw [renumber, List.map_cons, List.map_cons, ih]
    rfl

/-- A line of tokens stays on one line. -/
theorem renumber_append {toks : List Token} (h : ∀ t ∈ toks, t.kind ≠ .newline) (line : Nat)
    (ts : List Token) : renumber line (toks ++ ts) = toks.map (Token.onLine line) ++ renumber line ts := by
  induction toks with
  | nil => rfl
  | cons t toks ih =>
    have hrest := ih fun t ht => h t (List.mem_cons_of_mem _ ht)
    rw [List.cons_append, renumber, if_neg (h t List.mem_cons_self), hrest]
    rfl

/-! ## Lexemes -/

/-- A lexeme that can be read from a line. -/
def Lexeme.Legible : Lexeme → Prop
  | .word cs => cs ≠ [] ∧ cs.head? ≠ some '"' ∧ ∀ c ∈ cs, Text.isBlank c = false ∧ c ≠ '#'
  | .quoted cs => ∀ c ∈ cs, c ≠ '"' ∧ c ≠ '\t' ∧ c ≠ '\n'
  | .unclosed _ => False

/-- The lexeme that is being read can still become a legible one. -/
def LineMode.Legible : LineMode → Prop
  | .gap => True
  | .word acc => (Lexeme.word acc.reverse).Legible
  | .quoted acc => (Lexeme.quoted acc.reverse).Legible

theorem LineMode.legible_gap : LineMode.gap.Legible := trivial

theorem LineMode.legible_quote : (LineMode.quoted []).Legible :=
  fun _ hc => absurd hc List.not_mem_nil

/-- A word goes on with a character that ends no word and begins no comment. -/
theorem LineMode.Legible.word_cons {c : Char} {acc : List Char} (h : (LineMode.word acc).Legible)
    (hblank : Text.isBlank c = false) (hhash : c ≠ '#') : (LineMode.word (c :: acc)).Legible := by
  obtain ⟨hne, hquote, hchars⟩ := h
  rw [LineMode.Legible, List.reverse_cons]
  refine ⟨by simp, ?_, fun d hd => ?_⟩
  · rwa [List.head?_append_of_ne_nil _ hne]
  · rcases List.mem_append.mp hd with hd | hd
    · exact hchars d hd
    · rw [List.mem_singleton.mp hd]
      exact ⟨hblank, hhash⟩

/-- A string goes on with any character but its quote; tabs and line feeds are not there
    to be met. -/
theorem LineMode.Legible.quoted_cons {c : Char} {acc : List Char} (h : (LineMode.quoted acc).Legible)
    (hquote : c ≠ '"') (htab : c ≠ '\t') (hfeed : c ≠ '\n') :
    (LineMode.quoted (c :: acc)).Legible := by
  rw [LineMode.Legible, List.reverse_cons]
  intro d hd
  rcases List.mem_append.mp hd with hd | hd
  · exact h d hd
  · rw [List.mem_singleton.mp hd]
    exact ⟨hquote, htab, hfeed⟩

/-- **The lexemes of a line are legible**, but for a string that the line does not close. -/
theorem legible_lexemesFrom {mode : LineMode} {cs : List Char} (hmode : mode.Legible)
    (hcs : ∀ c ∈ cs, c ≠ '\t' ∧ c ≠ '\n') :
    ∀ l ∈ lexemesFrom mode cs, (∃ chars, l = .unclosed chars) ∨ l.Legible := by
  have hnone : ∀ l ∈ ([] : List Lexeme), (∃ chars, l = .unclosed chars) ∨ l.Legible :=
    fun l hl => absurd hl List.not_mem_nil
  induction cs generalizing mode with
  | nil =>
    cases mode with
    | gap => exact hnone
    | word acc =>
      intro l hl
      rw [List.mem_singleton.mp hl]
      exact .inr hmode
    | quoted acc =>
      intro l hl
      rw [List.mem_singleton.mp hl]
      exact .inl ⟨_, rfl⟩
  | cons c cs ih =>
    obtain ⟨htab, hfeed⟩ := hcs c List.mem_cons_self
    have hrest : ∀ d ∈ cs, d ≠ '\t' ∧ d ≠ '\n' := fun d hd => hcs d (List.mem_cons_of_mem _ hd)
    -- what the next character does depends on whether a word or a string is open
    cases mode with
    | gap =>
      rw [lexemesFrom]
      split
      · exact ih LineMode.legible_gap hrest
      · rename_i hblank
        split
        · exact hnone
        · rename_i hhash
          split
          · exact ih LineMode.legible_quote hrest
          · rename_i hquote
            -- a word begins: its first character is no quote, no blank and no `#`
            refine ih ⟨by simp, by simpa using hquote, fun d hd => ?_⟩ hrest
            rw [List.mem_singleton.mp hd]
            exact ⟨by simpa using hblank, hhash⟩
    | word acc =>
      rw [lexemesFrom]
      split
      -- a blank ends the word, which is legible as it stands
      · intro l hl
        rcases List.mem_cons.mp hl with rfl | hl
        · exact .inr hmode
        · exact ih LineMode.legible_gap hrest l hl
      · rename_i hblank
        split
        -- a comment ends the line
        · intro l hl
          rw [List.mem_singleton.mp hl]
          exact .inr hmode
        · rename_i hhash
          exact ih (hmode.word_cons (by simpa using hblank) hhash) hrest
    | quoted acc =>
      rw [lexemesFrom]
      -- a quote ends the string
      split
      · intro l hl
        rcases List.mem_cons.mp hl with rfl | hl
        · exact .inr hmode
        · exact ih LineMode.legible_gap hrest l hl
      · rename_i hquote
        exact ih (hmode.quoted_cons hquote htab hfeed) hrest

/-- A whole line begins in a gap, so the same holds of its lexemes. -/
theorem legible_lexemes {line : List Char} (h : '\n' ∉ line) :
    ∀ l ∈ lexemes line, (∃ chars, l = .unclosed chars) ∨ l.Legible := by
  refine legible_lexemesFrom LineMode.legible_gap fun c hc => ?_
  obtain ⟨d, hd, rfl⟩ := List.mem_map.mp hc
  unfold spaceForTab
  split
  · decide
  · rename_i htab
    exact ⟨htab, fun hfeed => h (hfeed ▸ hd)⟩

/-- A lexeme as it is written out. -/
def Lexeme.render : Lexeme → List Char
  | .word cs => cs ++ [' ']
  | .quoted cs => '"' :: (cs ++ ['"', ' '])
  | .unclosed cs => '"' :: cs

/-- A string is read up to its closing quote. -/
theorem lexemesFrom_quoted (acc : List Char) {cs : List Char} (h : ∀ c ∈ cs, c ≠ '"')
    (rest : List Char) : lexemesFrom (.quoted acc) (cs ++ '"' :: rest) =
      .quoted (acc.reverse ++ cs) :: lexemesFrom .gap rest := by
  induction cs generalizing acc with
  | nil => simp [lexemesFrom]
  | cons c cs ih =>
    have hrest := ih (c :: acc) fun d hd => h d (List.mem_cons_of_mem _ hd)
    rw [List.cons_append, lexemesFrom, if_neg (h c List.mem_cons_self), hrest]
    simp

/-- Legible lexemes are read as they are written. -/
theorem lexemesFrom_render {ls : List Lexeme} (h : ∀ l ∈ ls, l.Legible) :
    lexemesFrom .gap (ls.flatMap Lexeme.render) = ls := by
  induction ls with
  | nil => rfl
  | cons l ls ih =>
    have hrest := ih fun l hl => h l (List.mem_cons_of_mem _ hl)
    have hl := h l List.mem_cons_self
    cases l with
    | word cs =>
      obtain ⟨hne, hquote, hchars⟩ := hl
      rw [List.flatMap_cons, Lexeme.render, List.append_assoc, List.singleton_append,
        (lexemesFrom_gap hne hquote hchars).2, hrest]
    | quoted cs =>
      have hclose := lexemesFrom_quoted [] (fun c hc => (hl c hc).1) (' ' :: ls.flatMap Lexeme.render)
      rw [List.flatMap_cons, Lexeme.render, List.cons_append, List.append_assoc]
      show lexemesFrom (.quoted []) (cs ++ '"' :: ' ' :: ls.flatMap Lexeme.render) = _
      rw [hclose]
      show _ :: lexemesFrom .gap (ls.flatMap Lexeme.render) = _
      rw [hrest]
      rfl
    | unclosed cs => exact hl.elim

/-- A line that is written out has neither tabs nor line feeds in it. -/
theorem not_mem_render {c : Char} (hc : c = '\t' ∨ c = '\n') {ls : List Lexeme}
    (h : ∀ l ∈ ls, l.Legible) : c ∉ ls.flatMap Lexeme.render := by
  have hblank : Text.isBlank c = true := by rcases hc with rfl | rfl <;> decide
  have hspace : c ≠ ' ' := by rcases hc with rfl | rfl <;> decide
  have hquote : c ≠ '"' := by rcases hc with rfl | rfl <;> decide
  rw [List.mem_flatMap]
  rintro ⟨l, hl, hmem⟩
  replace hl := h l hl
  cases l with
  | word cs =>
    rcases List.mem_append.mp hmem with hmem | hmem
    · rw [(hl.2.2 c hmem).1] at hblank
      cases hblank
    · exact hspace (List.mem_singleton.mp hmem)
  | quoted cs =>
    have hcs : c ∈ cs := by simpa [Lexeme.render, hspace, hquote] using hmem
    obtain ⟨-, htab, hfeed⟩ := hl c hcs
    exact hc.elim htab hfeed
  | unclosed cs => exact hl.elim

/-- Legible lexemes written out with spaces between them are read back. -/
theorem lexemes_render {ls : List Lexeme} (h : ∀ l ∈ ls, l.Legible) :
    lexemes (ls.flatMap Lexeme.render) = ls := by
  rw [lexemes, map_spaceForTab (not_mem_render (.inl rfl) h), lexemesFrom_render h]

/-! ## Tokens of a line -/

/-- The tokens are those of the lexemes. -/
def Tokens (ls : List Lexeme) (toks : List Token) : Prop :=
  List.Forall₂ (fun l t => ∀ line, l.token line = .ok (t.onLine line)) ls toks

/-- A token that was read from a lexeme can be read from it on any line. -/
theorem token_onLine {l : Lexeme} {line : Nat} {t : Token} (h : l.token line = .ok t) :
    (∀ line', l.token line' = .ok (t.onLine line')) ∧ t.render = l.render ∧ t.kind ≠ .newline := by
  cases l with
  | quoted cs =>
    obtain rfl := Except.ok.inj h
    exact ⟨fun line' => rfl, by simp [Token.render, Lexeme.render], by simp⟩
  | unclosed cs => cases h
  | word cs =>
    simp only [Lexeme.token] at h
    split at h
    · rename_i kind hkind
      obtain rfl := Except.ok.inj h
      obtain ⟨hfeed, hstring⟩ := classify_ne hkind
      refine ⟨fun line' => by simp only [Lexeme.token, hkind]; rfl, ?_, hfeed⟩
      simp only [Token.render, Lexeme.render, String.toList_ofList]
    · cases h

/-- The tokens of lexemes, one for each. -/
theorem tokens_of_forall₂ {line : Nat} {ls : List Lexeme} {toks : List Token}
    (h : List.Forall₂ (fun l t => l.token line = .ok t) ls toks) : Tokens ls toks :=
  h.imp fun _ _ ht => (token_onLine ht).1

/-- Lexemes and their tokens are written alike. -/
theorem Tokens.render {ls : List Lexeme} {toks : List Token} (h : Tokens ls toks) :
    toks.flatMap Token.render = ls.flatMap Lexeme.render ∧ ∀ t ∈ toks, t.kind ≠ .newline := by
  induction h with
  | nil => exact ⟨rfl, nofun⟩
  | @cons l t ls toks ht _ ih =>
    obtain ⟨-, hrender, hkind⟩ := token_onLine (ht 0)
    obtain ⟨hrest, hkinds⟩ := ih
    refine ⟨?_, List.forall_mem_cons.mpr ⟨hkind, hkinds⟩⟩
    rw [List.flatMap_cons, List.flatMap_cons, hrest, ← hrender]
    rfl

theorem Tokens.ne_nil {ls : List Lexeme} {toks : List Token} (h : Tokens ls toks) (hls : ls ≠ []) :
    toks ≠ [] := by
  cases h with
  | nil => exact absurd rfl hls
  | cons => exact List.cons_ne_nil _ _

/-! ## Lines of tokens -/

/-- Complete lines: on each there are tokens of legible lexemes, and a line feed at its end. -/
inductive InLines : List Token → Prop where
  | nil : InLines []
  | line {n ls toks rest} (hls : ls ≠ []) (hlegible : ∀ l ∈ ls, l.Legible) (htoks : Tokens ls toks)
      (h : InLines rest) : InLines (toks ++ ⟨n, .newline, "\n"⟩ :: rest)

/-- Complete lines, one behind the other. -/
theorem InLines.append {ts us : List Token} (hts : InLines ts) (hus : InLines us) :
    InLines (ts ++ us) := by
  induction hts with
  | nil => exact hus
  | line hls hlegible htoks _ ih =>
    rw [List.append_assoc, List.cons_append]
    exact .line hls hlegible htoks ih

/-- **Tokens that were read are complete lines.** -/
theorem inLines_of_readLines {line : Nat} {found ts : List Token} {rest : List (List Char)}
    (hclosed : Lexer.Closed found) (hfound : InLines found.reverse) (hrest : ∀ l ∈ rest, '\n' ∉ l)
    (h : Lexer.readLines line found rest = .ok ts) : InLines ts := by
  induction rest generalizing line found with
  | nil =>
    obtain rfl := Except.ok.inj h
    exact hfound
  | cons l rest ih =>
    rw [Lexer.readLines] at h
    split at h
    · rename_i found' hread
      obtain ⟨toks, htoks, rfl⟩ := Lexer.readLexemes_eq_ok.mp hread
      have htokens := tokens_of_forall₂ htoks
      obtain ⟨-, hkinds⟩ := htokens.render
      refine ih (Lexer.closed_closeLine _ _) ?_ (fun l hl => hrest l (List.mem_cons_of_mem _ hl)) h
      by_cases hls : lexemes l = []
      · -- a line without lexemes leaves no trace
        rw [hls] at htoks
        cases htoks
        rwa [List.reverse_nil, List.nil_append, Lexer.closeLine_of_closed hclosed]
      · have hlegible : ∀ l' ∈ lexemes l, l'.Legible := by
          intro l' hl'
          rcases legible_lexemes (hrest l List.mem_cons_self) l' hl' with ⟨chars, rfl⟩ | hlegible
          · exact absurd hl' (Lexer.not_unclosed_of_readLexemes hread chars)
          · exact hlegible
        have hne : toks.reverse ≠ [] := by simpa using htokens.ne_nil hls
        rw [closeLine_of_forall hne (fun t ht => hkinds t (List.mem_reverse.mp ht)), List.reverse_cons,
          List.reverse_append, List.reverse_reverse, List.append_assoc]
        exact hfound.append (.line hls hlegible htokens .nil)
    · cases h

/-- The lines of a text have no line feeds. -/
theorem not_mem_linesFrom {cs acc : List Char} (hacc : '\n' ∉ acc) :
    ∀ l ∈ Text.linesFrom acc cs, '\n' ∉ l := by
  induction cs generalizing acc with
  | nil =>
    cases acc with
    | nil => nofun
    | cons c acc =>
      intro l hl
      rw [List.mem_singleton.mp hl, List.mem_reverse]
      exact hacc
  | cons c cs ih =>
    rw [Text.linesFrom.eq_3]
    split
    · intro l hl
      rcases List.mem_cons.mp hl with rfl | hl
      · rw [List.mem_reverse]
        unfold Text.dropReturn
        split
        · exact fun hmem => hacc (List.mem_cons_of_mem _ hmem)
        · exact hacc
      · exact ih List.not_mem_nil l hl
    · rename_i hc
      refine ih fun hmem => ?_
      rcases List.mem_cons.mp hmem with hmem | hmem
      · exact hc hmem.symm
      · exact hacc hmem

/-- What is lexed from a text is complete lines. -/
theorem inLines_of_tokenize {text : String} {ts : List Token} (h : tokenize text = .ok ts) :
    InLines ts :=
  have hstart : Lexer.Closed [] := trivial
  inLines_of_readLines hstart .nil (not_mem_linesFrom List.not_mem_nil) h

/-! ## Texts of tokens -/

/-- The text of a name is plain, and that of a string has neither quotes nor line feeds in it. -/
structure Token.Legible (t : Token) : Prop where
  name : t.kind = .name → ∀ c ∈ t.text.toList, isPlain c = true
  string : t.kind = .string → ∀ c ∈ t.text.toList, c ≠ '"' ∧ c ≠ '\n'

/-- The token of a legible lexeme is legible. -/
theorem Lexeme.Legible.token {l : Lexeme} (h : l.Legible) {line : Nat} {t : Token}
    (ht : l.token line = .ok t) : t.Legible := by
  cases l with
  | quoted cs =>
    obtain rfl := Except.ok.inj ht
    refine ⟨nofun, fun _ c hc => ?_⟩
    rw [String.toList_ofList] at hc
    exact ⟨(h c hc).1, (h c hc).2.2⟩
  | unclosed cs => exact h.elim
  | word cs =>
    simp only [Lexeme.token] at ht
    split at ht
    · rename_i kind hkind
      obtain rfl := Except.ok.inj ht
      refine ⟨?_, fun hstring => absurd hstring (classify_ne hkind).2⟩
      rintro rfl
      rw [String.toList_ofList]
      exact (plainWord_name hkind).plain
    · cases ht

theorem Tokens.legible {ls : List Lexeme} {toks : List Token} (h : Tokens ls toks)
    (hls : ∀ l ∈ ls, l.Legible) : ∀ t ∈ toks, t.Legible := by
  induction h with
  | nil => nofun
  | cons ht _ ih =>
    obtain ⟨hl, hls⟩ := List.forall_mem_cons.mp hls
    have htoken := hl.token (ht 0)
    exact List.forall_mem_cons.mpr ⟨⟨htoken.name, htoken.string⟩, ih hls⟩

theorem InLines.legible {ts : List Token} (h : InLines ts) : ∀ t ∈ ts, t.Legible := by
  induction h with
  | nil => nofun
  | line _ hlegible htoks _ ih =>
    exact List.forall_mem_append.mpr
      ⟨htoks.legible hlegible, List.forall_mem_cons.mpr ⟨⟨nofun, nofun⟩, ih⟩⟩

/-! ## The way back -/

/-- A line that ends in a space keeps all its characters. -/
theorem linesFrom_feed {line : List Char} (hfeed : '\n' ∉ line) (acc rest : List Char) :
    Text.linesFrom acc (line ++ ' ' :: '\n' :: rest) =
      (acc.reverse ++ line ++ [' ']) :: Text.linesFrom [] rest := by
  induction line generalizing acc with
  | nil =>
    rw [List.nil_append, Text.linesFrom.eq_3, if_neg (by decide), Text.linesFrom.eq_3, if_pos rfl]
    simp [Text.dropReturn]
  | cons c line ih =>
    have hc : c ≠ '\n' := fun hc => hfeed (hc ▸ List.mem_cons_self)
    have hrest := ih (fun hmem => hfeed (List.mem_cons_of_mem _ hmem)) (c :: acc)
    rw [List.cons_append, Text.linesFrom.eq_3, if_neg hc, hrest]
    simp

/-- What is written of a lexeme ends in a space. -/
theorem Lexeme.render_eq {l : Lexeme} (h : l.Legible) : ∃ front, l.render = front ++ [' '] := by
  cases l with
  | word cs => exact ⟨cs, rfl⟩
  | quoted cs => exact ⟨'"' :: (cs ++ ['"']), by simp [Lexeme.render]⟩
  | unclosed cs => exact h.elim

/-- The lexemes of a line are one line of the text. -/
theorem linesFrom_render {ls : List Lexeme} (hls : ls ≠ []) (h : ∀ l ∈ ls, l.Legible)
    (rest : List Char) : Text.linesFrom [] (ls.flatMap Lexeme.render ++ '\n' :: rest) =
      ls.flatMap Lexeme.render :: Text.linesFrom [] rest := by
  obtain ⟨front, last, rfl⟩ := (List.eq_nil_or_concat' ls).resolve_left hls
  obtain ⟨chars, hlast⟩ := Lexeme.render_eq (h last (by simp))
  have hfeed := not_mem_render (.inr rfl) h
  have hline : (front ++ [last]).flatMap Lexeme.render =
      front.flatMap Lexeme.render ++ chars ++ [' '] := by
    simp [hlast]
  rw [hline] at hfeed ⊢
  have hsplit := linesFrom_feed (fun hmem => hfeed (List.mem_append_left _ hmem)) [] rest
  rw [List.append_assoc, List.singleton_append, hsplit]
  rfl

/-- **Complete lines are read back**, whatever was found before. -/
theorem readLines_render {ts : List Token} (h : InLines ts) (line : Nat) {found : List Token} :
    Lexer.readLines line found (Text.linesFrom [] (ts.flatMap Token.render)) =
      .ok (found.reverse ++ renumber (line + 1) ts) := by
  induction h generalizing line found with
  | nil => simp [Text.linesFrom, Lexer.readLines, renumber]
  | @line n ls toks rest hls hlegible htoks _ ih =>
    obtain ⟨hrender, hkinds⟩ := htoks.render
    have htext : (toks ++ ⟨n, .newline, "\n"⟩ :: rest).flatMap Token.render =
        ls.flatMap Lexeme.render ++ '\n' :: rest.flatMap Token.render := by
      rw [List.flatMap_append, hrender]
      rfl
    have hread : Lexer.readLexemes (line + 1) found ls =
        ((toks.map (Token.onLine (line + 1))).reverse ++ found, .ok ()) :=
      Lexer.readLexemes_eq_ok.mpr ⟨_,
        List.forall₂_map_right_iff.mpr (htoks.imp fun _ _ ht => ht (line + 1)), rfl⟩
    have hne : (toks.map (Token.onLine (line + 1))).reverse ≠ [] := by
      simpa using htoks.ne_nil hls
    have hfeeds : ∀ t ∈ (toks.map (Token.onLine (line + 1))).reverse, t.kind ≠ .newline := by
      intro t ht
      obtain ⟨t', ht', rfl⟩ := List.mem_map.mp (List.mem_reverse.mp ht)
      exact hkinds t' ht'
    rw [htext, linesFrom_render hls hlegible, Lexer.readLines, lexemes_render hlegible, hread]
    show Lexer.readLines (line + 1) (Lexer.closeLine (line + 1) _) _ = _
    rw [closeLine_of_forall hne hfeeds, ih, renumber_append hkinds, renumber, if_pos rfl]
    simp [Token.onLine]

/-- **Lexing is stable under rendering**: the text that is written for the tokens of a text has the
    same tokens again, kind by kind and text by text, each line on a line of its own. -/
theorem tokenize_render {text : String} {ts : List Token} (h : tokenize text = .ok ts) :
    tokenize (renderTokens ts) = .ok (renumber 1 ts) ∧
      (renumber 1 ts).map Token.content = ts.map Token.content := by
  refine ⟨?_, content_renumber 1 ts⟩
  show Lexer.readLines 0 [] (Text.linesFrom [] (renderTokens ts).toList) = _
  rw [renderTokens, String.toList_ofList, readLines_render (inLines_of_tokenize h)]
  rfl

/-- A text with a string that stands against a word, a comment, a tab and an empty line. -/
def gluedText : String := "\tput \"# a\"v1# rest\r\n\n: x"

/-- Its tokens. -/
def gluedTokens : List Token :=
  [⟨1, .name, "put"⟩, ⟨1, .string, "# a"⟩, ⟨1, .register (.v ⟨1, by decide⟩), "v1"⟩, ⟨1, .newline, "\n"⟩,
   ⟨3, .directive .label, ":"⟩, ⟨3, .name, "x"⟩, ⟨3, .newline, "\n"⟩]

/-- The text is written out with one space behind each token, and without the empty line. -/
theorem tokenize_render_glued : tokenize gluedText = .ok gluedTokens ∧
    renderTokens gluedTokens = "put \"# a\" v1 \n: x \n" ∧
    tokenize (renderTokens gluedTokens) = .ok (renumber 1 gluedTokens) ∧
      (renumber 1 gluedTokens).map Token.content = gluedTokens.map Token.content := by
  have htext : tokenize gluedText = .ok gluedTokens := rfl
  exact ⟨htext, rfl, tokenize_render htext⟩

end OctoAsm
