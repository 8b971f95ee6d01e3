/-
  The tokens of a text as they come, one line after the other.

  Whoever asks for the lines of a text may go on after a line that fails, so the tokens so far are
  those of any mixture of complete lines, blank ones and beginnings of lines.  Where a line feed is
  added is decided by the last token of all, not of the line.  What every call keeps is therefore said
  of all tokens so far (`Tidy`): no two line feeds in a row, and none at the beginning.  What one call
  can do is said once (`step_cases`); all that follows is by induction on the number of calls.

  As long as no line fails, the tokens so far end in a line feed before every call, so that a line is
  closed exactly if it has tokens itself (`tokens_of_no_failure`).
-/
import Mathlib.Data.List.Chain
import OctoAsm.Proofs.Token.Rendering

namespace OctoAsm

/-! ## The tokens of a line -/

/-- The tokens of lexemes, up to the first that is none. -/
def tokensOf (line : Nat) : List Lexeme → List Token
  | [] => []
  | l :: ls =>
    match l.token line with
    | .ok t => t :: tokensOf line ls
    | .error _ => []

/-- The line feed at the end of a line. -/
def lineFeed (line : Nat) : Token := ⟨line, .newline, "\n"⟩

/-- The tokens of a line that has some, with a line feed at the end. -/
def lineTokens (line : Nat) (l : List Char) : List Token :=
  if tokensOf line (lexemes l) = [] then [] else tokensOf line (lexemes l) ++ [lineFeed line]

/-- Tokens of lexemes are on the line of these, and none is a line feed. -/
theorem of_mem_tokensOf {line : Nat} {ls : List Lexeme} :
    ∀ t ∈ tokensOf line ls, t.line = line ∧ t.kind ≠ .newline := by
  induction ls with
  | nil => nofun
  | cons l ls ih =>
    rw [tokensOf]
    cases htoken : l.token line with
    | error e => nofun
    | ok t =>
      obtain ⟨-, -, hkind⟩ := token_onLine htoken
      exact List.forall_mem_cons.mpr ⟨⟨Lexer.lines_of_token.1 t htoken, hkind⟩, ih⟩

/-- Where every lexeme is a token, these are all of them. -/
theorem tokensOf_of_forall₂ {line : Nat} {ls : List Lexeme} {toks : List Token}
    (h : List.Forall₂ (fun l t => l.token line = .ok t) ls toks) : tokensOf line ls = toks := by
  induction h with
  | nil => rfl
  | cons ht _ ih => rw [tokensOf, ht, ih]

namespace Lexer

variable {lx : Lexer} {found : List Token} {line : Nat}

theorem found_readLexemes (ls : List Lexeme) :
    (readLexemes line found ls).1 = (tokensOf line ls).reverse ++ found := by
  induction ls generalizing found with
  | nil => rfl
  | cons l ls ih =>
    rw [readLexemes, tokensOf]
    cases l.token line with
    | error e => rfl
    | ok t =>
      show (readLexemes line (t :: found) ls).1 = _
      rw [ih, List.reverse_cons, List.append_assoc]
      rfl

/-! ## One call -/

/-- The tokens so far, in the order of the text. -/
def tokens (lx : Lexer) : List Token := lx.found.reverse

/-- The next call fails. -/
def Fails (lx : Lexer) : Prop := ∃ e, lx.step.2 = .error e

theorem not_fails_of_ok {b : Bool} (h : lx.step.2 = .ok b) : ¬lx.Fails := by
  rintro ⟨e, he⟩
  rw [h] at he
  cases he

theorem step_of_pending_nil (h : lx.pending = []) : lx.step = (lx, .ok false) := by
  rw [step, h]

/-- **What a call does**: it takes one line and keeps the tokens of its lexemes, up to a failure; only
    where there is none, every lexeme is a token, and the line is closed. -/
theorem step_cases {l : List Char} {rest : List (List Char)} (h : lx.pending = l :: rest) :
    (lx.Fails ∧ lx.step.1 =
      ⟨rest, lx.line + 1, (tokensOf (lx.line + 1) (lexemes l)).reverse ++ lx.found⟩) ∨
    (lx.step.2 = .ok true ∧ lx.step.1 = ⟨rest, lx.line + 1, closeLine (lx.line + 1)
        ((tokensOf (lx.line + 1) (lexemes l)).reverse ++ lx.found)⟩ ∧
      List.Forall₂ (fun l t => l.token (lx.line + 1) = .ok t) (lexemes l)
        (tokensOf (lx.line + 1) (lexemes l))) := by
  rw [Fails, step, h]
  dsimp only
  have hfound : (readLexemes (lx.line + 1) lx.found (lexemes l)).1 = _ :=
    found_readLexemes (lexemes l)
  cases hread : readLexemes (lx.line + 1) lx.found (lexemes l) with
  | mk found' answer =>
    rw [hread] at hfound
    obtain rfl : found' = _ := hfound
    cases answer with
    | error e => exact .inl ⟨⟨e, rfl⟩, rfl⟩
    | ok u =>
      obtain ⟨toks, htoks, -⟩ := readLexemes_eq_ok.mp hread
      refine .inr ⟨rfl, rfl, ?_⟩
      rw [tokensOf_of_forall₂ htoks]
      exact htoks

theorem closeLine_cases (line : Nat) (found : List Token) :
    closeLine line found = found ∨ closeLine line found = lineFeed line :: found := by
  cases found with
  | nil => exact .inl rfl
  | cons t found =>
    rw [closeLine]
    split
    · exact .inl rfl
    · exact .inr rfl

/-- A call adds the tokens of its line, and perhaps a line feed. -/
theorem tokens_step {l : List Char} {rest : List (List Char)} (h : lx.pending = l :: rest) :
    ∃ feed, lx.step.1.tokens = lx.tokens ++ (tokensOf (lx.line + 1) (lexemes l) ++ feed) ∧
      (feed = [] ∨ feed = [lineFeed (lx.line + 1)]) := by
  rcases step_cases h with ⟨-, hstep⟩ | ⟨-, hstep, -⟩
  · exact ⟨[], by simp [hstep, tokens], .inl rfl⟩
  · rcases closeLine_cases (lx.line + 1)
      ((tokensOf (lx.line + 1) (lexemes l)).reverse ++ lx.found) with hclose | hclose
    · exact ⟨[], by simp [hstep, hclose, tokens], .inl rfl⟩
    · exact ⟨[lineFeed (lx.line + 1)], by simp [hstep, hclose, tokens], .inr rfl⟩

/-- Reading a text to its end is calling until there is no line left, or one fails. -/
theorem finish_step (lx : Lexer) : lx.finish =
    match lx.step with
    | (_, .ok false) => .ok lx.tokens
    | (next, .ok true) => next.finish
    | (_, .error e) => .error e := by
  rw [finish, step]
  cases lx.pending with
  | nil => rfl
  | cons l rest =>
    dsimp only
    rw [readLines]
    cases readLexemes (lx.line + 1) lx.found (lexemes l) with
    | mk found answer => cases answer <;> rfl

/-! ## What every call keeps -/

/-- Tokens, newest first, without two line feeds in a row and without one at the beginning. -/
structure Tidy (found : List Token) : Prop where
  apart : found.IsChain fun t u => ¬(t.kind = .newline ∧ u.kind = .newline)
  first : ∀ t ∈ found.getLast?, t.kind ≠ .newline

theorem Tidy.nil : Tidy [] := ⟨.nil, nofun⟩

/-- A token that is no line feed may come next. -/
theorem Tidy.cons {t : Token} (h : Tidy found) (ht : t.kind ≠ .newline) : Tidy (t :: found) := by
  refine ⟨h.apart.cons fun u _ hfeeds => ht hfeeds.1, ?_⟩
  cases found with
  | nil =>
    rintro u ⟨⟩
    exact ht
  | cons u found =>
    rw [List.getLast?_cons_cons]
    exact h.first

theorem Tidy.append {toks : List Token} (h : Tidy found) (htoks : ∀ t ∈ toks, t.kind ≠ .newline) :
    Tidy (toks.reverse ++ found) := by
  induction toks generalizing found with
  | nil => exact h
  | cons t toks ih =>
    obtain ⟨ht, htoks⟩ := List.forall_mem_cons.mp htoks
    rw [List.reverse_cons, List.append_assoc]
    exact ih (h.cons ht) htoks

/-- A line feed is put behind another token only. -/
theorem Tidy.closeLine (h : Tidy found) (line : Nat) : Tidy (closeLine line found) := by
  cases found with
  | nil => exact h
  | cons t found =>
    rw [Lexer.closeLine]
    split
    · exact h
    · rename_i ht
      refine ⟨h.apart.cons fun u hu hfeeds => ht ?_, ?_⟩
      · obtain rfl : t = u := Option.some.inj hu
        exact hfeeds.2
      · rw [List.getLast?_cons_cons]
        exact h.first

theorem Tidy.step (h : Tidy lx.found) : Tidy lx.step.1.found := by
  cases hpending : lx.pending with
  | nil =>
    rw [step_of_pending_nil hpending]
    exact h
  | cons l rest =>
    have hkinds : ∀ t ∈ tokensOf (lx.line + 1) (lexemes l),
        t.line = lx.line + 1 ∧ t.kind ≠ .newline := of_mem_tokensOf
    have htoks := h.append fun t ht => (hkinds t ht).2
    rcases step_cases hpending with ⟨-, hstep⟩ | ⟨-, hstep, -⟩
    · rw [hstep]
      exact htoks
    · rw [hstep]
      exact htoks.closeLine _

/-! ## Any number of calls -/

/-- The lexer after some calls, whatever the answers are. -/
def after (lx : Lexer) : Nat → Lexer
  | 0 => lx
  | n + 1 => (lx.after n).step.1

theorem tidy_after (h : Tidy lx.found) (n : Nat) : Tidy (lx.after n).found := by
  induction n with
  | zero => exact h
  | succ n ih => exact ih.step

variable {text : String}

/-- Every call takes one line, as long as there are lines. -/
theorem pending_after (text : String) (n : Nat) :
    ((ofText text).after n).pending = (Text.lines text).drop n ∧
      ((ofText text).after n).line = min n (Text.lines text).length := by
  induction n with
  | zero => exact ⟨rfl, (Nat.zero_min _).symm⟩
  | succ n ih =>
    obtain ⟨hpending, hline⟩ := ih
    rw [after]
    rcases Nat.lt_or_ge n (Text.lines text).length with hlt | hge
    · rw [List.drop_eq_getElem_cons hlt] at hpending
      rcases step_cases hpending with ⟨-, hstep⟩ | ⟨-, hstep, -⟩
      all_goals
        rw [hstep]
        refine ⟨rfl, ?_⟩
        show ((ofText text).after n).line + 1 = _
        omega
    · rw [List.drop_of_length_le hge] at hpending
      rw [step_of_pending_nil hpending, hpending, hline, List.drop_of_length_le (by omega)]
      exact ⟨rfl, by omega⟩

/-- The line that a call takes, with its number. -/
theorem pending_of_line {n : Nat} {l : List Char} (h : (Text.lines text)[n]? = some l) :
    ((ofText text).after n).pending = l :: (Text.lines text).drop (n + 1) ∧
      ((ofText text).after n).line = n := by
  obtain ⟨hlt, rfl⟩ := List.getElem?_eq_some_iff.mp h
  obtain ⟨hpending, hline⟩ := pending_after text n
  rw [List.drop_eq_getElem_cons hlt] at hpending
  exact ⟨hpending, by omega⟩

/-- A call behind the last line does nothing. -/
theorem step_behind {n : Nat} (h : (Text.lines text).length ≤ n) :
    ((ofText text).after n).step = ((ofText text).after n, .ok false) := by
  refine step_of_pending_nil ?_
  rw [(pending_after text n).1, List.drop_of_length_le h]

/-- What a call adds to the tokens so far. -/
theorem tokens_succ {n : Nat} {l : List Char} (h : (Text.lines text)[n]? = some l) :
    ∃ feed, ((ofText text).after (n + 1)).tokens =
        ((ofText text).after n).tokens ++ (tokensOf (n + 1) (lexemes l) ++ feed) ∧
      (feed = [] ∨ feed = [lineFeed (n + 1)]) := by
  obtain ⟨hpending, hline⟩ := pending_of_line h
  have hstep := tokens_step hpending
  rwa [hline] at hstep

/-- Whatever a call adds is on its line. -/
theorem line_of_added {line : Nat} (ls : List Lexeme) {feed : List Token}
    (hfeed : feed = [] ∨ feed = [lineFeed line]) : ∀ t ∈ tokensOf line ls ++ feed, t.line = line := by
  intro t ht
  rcases List.mem_append.mp ht with ht | ht
  · exact (of_mem_tokensOf t ht).1
  · rcases hfeed with rfl | rfl
    · cases ht
    · rw [List.mem_singleton.mp ht]
      rfl

/-- Tokens are on lines that have been read, and these go up. -/
theorem lines_after (text : String) (n : Nat) :
    (∀ t ∈ ((ofText text).after n).tokens, t.line ≤ n) ∧
      (((ofText text).after n).tokens.map (·.line)).Pairwise (· ≤ ·) := by
  induction n with
  | zero => exact ⟨nofun, .nil⟩
  | succ n ih =>
    obtain ⟨hle, hsorted⟩ := ih
    rcases Nat.lt_or_ge n (Text.lines text).length with hlt | hge
    · obtain ⟨feed, htokens, hfeed⟩ := tokens_succ (List.getElem?_eq_getElem hlt)
      have hadded := line_of_added (lexemes (Text.lines text)[n]) hfeed
      rw [htokens]
      refine ⟨fun t ht => ?_, ?_⟩
      · rcases List.mem_append.mp ht with ht | ht
        · exact (hle t ht).trans (Nat.le_succ n)
        · exact (hadded t ht).le
      -- within the feed and the words of one call all lines are the same
      · rw [List.map_append, List.pairwise_append]
        refine ⟨hsorted, ?_, ?_⟩
        · refine List.pairwise_map.mpr (List.pairwise_of_forall_mem_list fun t ht u hu => ?_)
          exact ((hadded t ht).trans (hadded u hu).symm).le
        -- against the tokens from before: those are on lines that were read earlier
        · intro x hx y hy
          obtain ⟨t, ht, rfl⟩ := List.mem_map.mp hx
          obtain ⟨u, hu, rfl⟩ := List.mem_map.mp hy
          have hbefore := hle t ht
          have hnow := hadded u hu
          omega
    · rw [after, step_behind hge]
      exact ⟨fun t ht => (hle t ht).trans (Nat.le_succ n), hsorted⟩

/-! ## Calls without a failure -/

/-- As long as no call fails, every line with tokens is complete, and the others leave no trace. -/
theorem tokens_of_no_failure {n : Nat} (h : ∀ k < n, ¬((ofText text).after k).Fails) :
    Closed ((ofText text).after n).found ∧ ((ofText text).after n).tokens =
      (((Text.lines text).take n).zipIdx 1).flatMap fun line => lineTokens line.2 line.1 := by
  induction n with
  | zero => exact ⟨trivial, rfl⟩
  | succ n ih =>
    obtain ⟨hclosed, htokens⟩ := ih fun k hk => h k (Nat.lt_succ_of_lt hk)
    rcases Nat.lt_or_ge n (Text.lines text).length with hlt | hge
    · have hline := List.getElem?_eq_getElem hlt
      obtain ⟨hpending, hnumber⟩ := pending_of_line hline
      rcases step_cases hpending with ⟨hfails, -⟩ | ⟨-, hstep, -⟩
      · exact absurd hfails (h n (Nat.lt_succ_self n))
      rw [hnumber] at hstep
      have htake : (Text.lines text).take (n + 1) = (Text.lines text).take n ++ [(Text.lines text)[n]] := by
        rw [List.take_add_one, hline]
        rfl
      have hcount : ((Text.lines text).take n).length = n := List.length_take_of_le hlt.le
      rw [after, hstep, htake, List.zipIdx_append, List.flatMap_append, ← htokens, hcount,
        Nat.add_comm 1 n]
      refine ⟨closed_closeLine _ _, ?_⟩
      show (closeLine (n + 1) _).reverse = _ ++ (lineTokens (n + 1) _ ++ [])
      rw [List.append_nil, lineTokens]
      split
      · -- a line without tokens: what was closed stays as it is
        rename_i hnone
        rw [hnone, List.reverse_nil, List.nil_append, closeLine_of_closed hclosed, List.append_nil]
        rfl
      · rename_i hsome
        rw [closeLine_of_forall (by simpa using hsome)
          fun t ht => (of_mem_tokensOf t (List.mem_reverse.mp ht)).2]
        simp [tokens, lineFeed]
    · rw [after, step_behind hge, List.take_of_length_le (by omega)]
      rw [List.take_of_length_le hge] at htokens
      exact ⟨hclosed, htokens⟩

/-- A text that is read to its end has no line that fails, and its tokens are those of all calls. -/
theorem after_of_tokenize {ts : List Token} (h : tokenize text = .ok ts) (n : Nat) :
    ((ofText text).after n).finish = .ok ts ∧ ∀ k < n, ¬((ofText text).after k).Fails := by
  induction n with
  | zero => exact ⟨h, nofun⟩
  | succ n ih =>
    obtain ⟨hfinish, hnone⟩ := ih
    have hcall : ((ofText text).after (n + 1)).finish = .ok ts ∧ ¬((ofText text).after n).Fails := by
      rw [after]
      rcases Nat.lt_or_ge n (Text.lines text).length with hlt | hge
      · rw [finish_step] at hfinish
        have hline := List.getElem?_eq_getElem hlt
        rcases step_cases (pending_of_line hline).1 with ⟨⟨e, he⟩, -⟩ | ⟨htrue, -, -⟩
        · rw [← Prod.mk.eta (p := Lexer.step _), he] at hfinish
          cases hfinish
        · rw [← Prod.mk.eta (p := Lexer.step _), htrue] at hfinish
          exact ⟨hfinish, not_fails_of_ok htrue⟩
      · rw [step_behind hge]
        exact ⟨hfinish, not_fails_of_ok (b := false) (by rw [step_behind hge])⟩
    refine ⟨hcall.1, fun k hk => ?_⟩
    rcases Nat.lt_succ_iff_lt_or_eq.mp hk with hk | rfl
    · exact hnone k hk
    · exact hcall.2

/-- **The tokens of a text, line by line.** -/
theorem tokens_of_tokenize {ts : List Token} (h : tokenize text = .ok ts) :
    ts = ((Text.lines text).zipIdx 1).flatMap fun line => lineTokens line.2 line.1 := by
  obtain ⟨hfinish, hnone⟩ := after_of_tokenize h (Text.lines text).length
  rw [finish_step, step_behind (Nat.le_refl _)] at hfinish
  rw [← Except.ok.inj hfinish, (tokens_of_no_failure hnone).2, List.take_length]

end Lexer

/-! ## The stream of tokens -/

/-- The tokens of a text after any number of calls, whatever the answers are. -/
structure TokensByLine (text : String) : Prop where
  /-- the tokens never start with a line feed -/
  first : ∀ n, ∀ t ∈ ((Lexer.ofText text).after n).tokens.head?, t.kind ≠ .newline
  /-- there are never two in a row -/
  apart : ∀ n, ((Lexer.ofText text).after n).tokens.IsChain fun t u =>
    ¬(t.kind = .newline ∧ u.kind = .newline)
  /-- every call takes one line, whether it fails or not -/
  taken : ∀ n, ((Lexer.ofText text).after n).pending = (Text.lines text).drop n
  /-- it answers that there was none exactly when there is none left, and then nothing changes -/
  behind : ∀ n, (((Lexer.ofText text).after n).step.2 = .ok false ↔ (Text.lines text).length ≤ n) ∧
    ((Text.lines text).length ≤ n → (Lexer.ofText text).after (n + 1) = (Lexer.ofText text).after n)
  /-- tokens are only added, and what a call adds has the number of its line -/
  grows : ∀ n, ∃ added, ((Lexer.ofText text).after (n + 1)).tokens =
    ((Lexer.ofText text).after n).tokens ++ added ∧ ∀ t ∈ added, t.line = n + 1
  /-- it is the tokens of the line's lexemes, up to the first that is none, and perhaps a line feed -/
  added : ∀ n l, (Text.lines text)[n]? = some l → ∃ feed,
    ((Lexer.ofText text).after (n + 1)).tokens =
      ((Lexer.ofText text).after n).tokens ++ (tokensOf (n + 1) (lexemes l) ++ feed) ∧
    (feed = [] ∨ feed = [lineFeed (n + 1)])
  /-- so the lines of the tokens never go down -/
  sorted : ∀ n, (((Lexer.ofText text).after n).tokens.map (·.line)).Pairwise (· ≤ ·)
  /-- a call that does not fail has a token for every lexeme of its line -/
  whole : ∀ n l, (Text.lines text)[n]? = some l → ¬((Lexer.ofText text).after n).Fails →
    List.Forall₂ (fun l t => l.token (n + 1) = .ok t) (lexemes l) (tokensOf (n + 1) (lexemes l))
  /-- if no call has failed, the tokens are those of the lines, each line that has some with one line
      feed at its end -/
  complete : ∀ n, (∀ k < n, ¬((Lexer.ofText text).after k).Fails) →
    ((Lexer.ofText text).after n).tokens =
      (((Text.lines text).take n).zipIdx 1).flatMap fun line => lineTokens line.2 line.1
  /-- the text as a whole has tokens only if no call fails, and these are they -/
  finished : ∀ ts, tokenize text = .ok ts → (∀ n, ¬((Lexer.ofText text).after n).Fails) ∧
    ts = ((Text.lines text).zipIdx 1).flatMap fun line => lineTokens line.2 line.1

open Lexer in
/-- **What holds of the tokens of a text at any time**, also after lines that failed. Every call
    keeps all tokens so far tidy (`Tidy`): a line feed is put behind a token that is none, and
    never at the beginning. What one call can do is said by `step_cases`; the rest is by induction
    on the number of calls. -/
theorem tokens_by_line (text : String) : TokensByLine text := by
  have htidy (n : Nat) : Tidy ((ofText text).after n).found := tidy_after .nil n
  constructor
  case first =>
    intro n t ht
    rw [Lexer.tokens, List.head?_reverse] at ht
    exact (htidy n).first t ht
  case apart =>
    intro n
    refine List.isChain_reverse.mpr ((htidy n).apart.imp fun t u hfeeds => ?_)
    exact fun h => hfeeds ⟨h.2, h.1⟩
  case taken => exact fun n => (pending_after text n).1
  case behind =>
    intro n
    refine ⟨⟨fun hanswer => ?_, fun hge => ?_⟩, fun hge => ?_⟩
    · by_contra hlt
      have hline := List.getElem?_eq_getElem (Nat.lt_of_not_le hlt)
      rcases step_cases (pending_of_line hline).1 with ⟨⟨e, hfails⟩, -⟩ | ⟨htrue, -, -⟩
      · rw [hfails] at hanswer
        cases hanswer
      · rw [htrue] at hanswer
        cases hanswer
    · rw [step_behind hge]
    · rw [after, step_behind hge]
  case grows =>
    intro n
    rcases Nat.lt_or_ge n (Text.lines text).length with hlt | hge
    · obtain ⟨feed, htokens, hfeed⟩ := tokens_succ (List.getElem?_eq_getElem hlt)
      exact ⟨_, htokens, line_of_added _ hfeed⟩
    · rw [after, step_behind hge]
      exact ⟨[], (List.append_nil _).symm, nofun⟩
  case added => exact fun n l => tokens_succ
  case sorted => exact fun n => (lines_after text n).2
  case whole =>
    intro n l hline hfails
    obtain ⟨hpending, hnumber⟩ := pending_of_line hline
    rcases step_cases hpending with ⟨h, -⟩ | ⟨-, -, hwhole⟩
    · exact absurd h hfails
    · rwa [hnumber] at hwhole
  case complete => exact fun n h => (tokens_of_no_failure h).2
  case finished =>
    exact fun ts h => ⟨fun n => (after_of_tokenize h (n + 1)).2 n (Nat.lt_succ_self n),
      tokens_of_tokenize h⟩

/-- The second line fails behind its first token, and the empty line below closes it. -/
example : ((Lexer.ofText "a\nb \"\n\nc").after 3).tokens =
    [⟨1, .name, "a"⟩, lineFeed 1, ⟨2, .name, "b"⟩, lineFeed 3] := rfl

end OctoAsm
