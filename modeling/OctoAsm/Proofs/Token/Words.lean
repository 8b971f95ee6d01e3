/-
  Lines of words.

  A word without blanks, quotes and `#` is a lexeme wherever it stands between blanks, so a line of
  such words has one token to a word (`tokenize_words`, by induction on the words).  Names are such
  words (`plainWord_name`), and so are decimal numerals (`plainWord_number`): digits behind a sign are in
  none of the vocabularies that are tried before numbers.
-/
import OctoAsm.Proofs.Outcome
import OctoAsm.Proofs.Text.Decimal
import OctoAsm.Proofs.Token.Numbers
import OctoAsm.Token.Lexer

namespace OctoAsm

/-! ## Plain words -/

/-- A character that neither ends a word nor begins anything else. -/
def isPlain (c : Char) : Bool := !Text.isBlank c && c != '#' && c != '"'

theorem isPlain_iff {c : Char} :
    isPlain c = true ↔ Text.isBlank c = false ∧ c ≠ '#' ∧ c ≠ '"' := by
  simp [isPlain, and_assoc]

/-- The visible ASCII characters from `$` on are plain. -/
theorem isPlain_of_visible {c : Char} (hlo : 0x24 ≤ c.toNat) (hhi : c.toNat ≤ 0x7E) :
    isPlain c = true := by
  refine isPlain_iff.mpr ⟨?_, ?_, ?_⟩
  · simp only [Text.isBlank, Text.inRanges, Text.blankRanges, List.any_cons, List.any_nil,
      Bool.or_eq_false_iff, Bool.and_eq_false_iff, decide_eq_false_iff_not, and_true]
    omega
  · rintro rfl
    exact absurd hlo (by decide)
  · rintro rfl
    exact absurd hlo (by decide)

theorem isPlain_of_isDigit {c : Char} (h : c.isDigit = true) : isPlain c = true := by
  obtain ⟨hlo, hhi⟩ := Char.isDigit_iff_toNat.mp h
  have hlo : 48 ≤ c.toNat := hlo
  have hhi : c.toNat ≤ 57 := hhi
  exact isPlain_of_visible (by omega) (by omega)

theorem isPlain_of_isAlphanum {c : Char} (h : c.isAlphanum = true) : isPlain c = true := by
  rcases Bool.or_eq_true_iff.mp h with halpha | hdigit
  · rcases Bool.or_eq_true_iff.mp halpha with hupper | hlower
    · obtain ⟨hlo, hhi⟩ := of_decide_eq_true hupper
      have hlo : 65 ≤ c.toNat := hlo
      have hhi : c.toNat ≤ 90 := hhi
      exact isPlain_of_visible (by omega) (by omega)
    · obtain ⟨hlo, hhi⟩ := Bool.and_eq_true_iff.mp hlower
      have hlo : 97 ≤ c.toNat := of_decide_eq_true hlo
      have hhi : c.toNat ≤ 122 := of_decide_eq_true hhi
      exact isPlain_of_visible (by omega) (by omega)
  · exact isPlain_of_isDigit hdigit

/-- A word that makes a token of a kind, wherever it stands between blanks. -/
structure PlainWord (word : List Char) (kind : TokenKind) : Prop where
  ne_nil : word ≠ []
  plain : ∀ c ∈ word, isPlain c = true
  ne_newline : kind ≠ .newline
  classified : classify word = .ok kind

/-! ## Lines -/

theorem map_spaceForTab {cs : List Char} (h : '\t' ∉ cs) : cs.map spaceForTab = cs := by
  have hsame : ∀ c ∈ cs, spaceForTab c = id c := by
    intro c hc
    have htab : c ≠ '\t' := fun htab => h (htab ▸ hc)
    exact if_neg htab
  rw [List.map_congr_left hsame, List.map_id]

/-- The rest of a word goes on to the end of the line, or to the next blank. -/
theorem lexemesFrom_word (acc : List Char) {cs : List Char}
    (h : ∀ c ∈ cs, Text.isBlank c = false ∧ c ≠ '#') :
    lexemesFrom (.word acc) cs = [.word (acc.reverse ++ cs)] ∧
      ∀ rest, lexemesFrom (.word acc) (cs ++ ' ' :: rest) =
        .word (acc.reverse ++ cs) :: lexemesFrom .gap rest := by
  induction cs generalizing acc with
  | nil =>
    rw [List.append_nil]
    exact ⟨rfl, fun rest => rfl⟩
  | cons c cs ih =>
    obtain ⟨hblank, hhash⟩ := h c List.mem_cons_self
    have hrest := ih (c :: acc) fun d hd => h d (List.mem_cons_of_mem c hd)
    have hacc : (c :: acc).reverse ++ cs = acc.reverse ++ c :: cs := by simp
    rw [hacc] at hrest
    simp only [List.cons_append, lexemesFrom, hblank, Bool.false_eq_true, if_false, if_neg hhash]
    exact hrest

/-- A word behind a blank.  Only at its beginning would a quote open a string. -/
theorem lexemesFrom_gap {word : List Char} (hne : word ≠ []) (hquote : word.head? ≠ some '"')
    (h : ∀ c ∈ word, Text.isBlank c = false ∧ c ≠ '#') :
    lexemesFrom .gap word = [.word word] ∧
      ∀ rest, lexemesFrom .gap (word ++ ' ' :: rest) = .word word :: lexemesFrom .gap rest := by
  cases word with
  | nil => exact absurd rfl hne
  | cons c cs =>
    obtain ⟨hblank, hhash⟩ := h c List.mem_cons_self
    have hquote : c ≠ '"' := fun hc => hquote (congrArg some hc)
    have hrest := lexemesFrom_word [c] fun d hd => h d (List.mem_cons_of_mem c hd)
    simp only [List.cons_append, lexemesFrom, hblank, Bool.false_eq_true, if_false, if_neg hhash,
      if_neg hquote]
    exact hrest

/-- A plain word is a lexeme behind a blank. -/
theorem PlainWord.lexemesFrom_gap {word : List Char} {kind : TokenKind} (h : PlainWord word kind) :
    lexemesFrom .gap word = [.word word] ∧
      ∀ rest, lexemesFrom .gap (word ++ ' ' :: rest) = .word word :: lexemesFrom .gap rest := by
  refine OctoAsm.lexemesFrom_gap h.ne_nil (fun hhead => ?_) fun c hc => ?_
  · obtain ⟨-, -, hquote⟩ := isPlain_iff.mp (h.plain '"' (List.mem_of_head? hhead))
    exact hquote rfl
  · obtain ⟨hblank, hhash, -⟩ := isPlain_iff.mp (h.plain c hc)
    exact ⟨hblank, hhash⟩

/-- A line is read token by token. -/
theorem Lexer.readLexemes_eq_ok {line : Nat} {found found' : List Token} {ls : List Lexeme} :
    readLexemes line found ls = (found', .ok ()) ↔
      ∃ toks, List.Forall₂ (fun l t => l.token line = .ok t) ls toks ∧
        found' = toks.reverse ++ found := by
  induction ls generalizing found with
  | nil => simp [readLexemes, eq_comm]
  | cons l ls ih =>
    rw [readLexemes]
    cases htoken : l.token line with
    | error e => simp [List.forall₂_cons_left_iff, htoken]
    | ok t =>
      simp only [ih, List.forall₂_cons_left_iff, htoken, Except.ok.injEq]
      constructor
      · rintro ⟨toks, htoks, rfl⟩
        exact ⟨t :: toks, ⟨t, toks, rfl, htoks, rfl⟩, by simp⟩
      · rintro ⟨_, ⟨t', toks, rfl, htoks, rfl⟩, rfl⟩
        exact ⟨toks, htoks, by simp⟩

/-- Words with one space between each two. -/
def unwords (words : List (List Char)) : List Char := [' '].intercalate words

theorem unwords_cons_cons (w v : List Char) (words : List (List Char)) :
    unwords (w :: v :: words) = w ++ ' ' :: unwords (v :: words) := by
  rw [unwords, List.intercalate_cons_cons, List.append_assoc]
  rfl

section Words

variable {words : List (List Char × TokenKind)}

/-- The lexemes of a line of words are the words. -/
theorem lexemesFrom_unwords (h : ∀ w ∈ words, PlainWord w.1 w.2) :
    lexemesFrom .gap (unwords (words.map (·.1))) = words.map fun w => .word w.1 := by
  induction words with
  | nil => rfl
  | cons w words ih =>
    have hw := h w List.mem_cons_self
    have hgap := hw.lexemesFrom_gap
    have hrest := ih fun v hv => h v (List.mem_cons_of_mem w hv)
    cases words with
    | nil =>
      rw [List.map_singleton, unwords, List.intercalate_singleton]
      exact hgap.1
    | cons v words =>
      rw [List.map_cons, List.map_cons, unwords_cons_cons, hgap.2]
      exact congrArg _ hrest

/-- A line of words has no other blanks than the spaces between them. -/
theorem not_mem_unwords {c : Char} (hplain : isPlain c = false) (hspace : c ≠ ' ')
    (h : ∀ w ∈ words, PlainWord w.1 w.2) : c ∉ unwords (words.map (·.1)) := by
  induction words with
  | nil => exact List.not_mem_nil
  | cons w words ih =>
    have hw : c ∉ w.1 := by
      intro hc
      rw [(h w List.mem_cons_self).plain c hc] at hplain
      cases hplain
    have hrest := ih fun v hv => h v (List.mem_cons_of_mem w hv)
    cases words with
    | nil =>
      rw [List.map_singleton, unwords, List.intercalate_singleton]
      exact hw
    | cons v words =>
      rw [List.map_cons, List.map_cons, unwords_cons_cons]
      intro hc
      rcases List.mem_append.mp hc with hc | hc
      · exact hw hc
      · exact hrest ((List.mem_cons.mp hc).resolve_left hspace)

/-- Words become tokens one by one. -/
theorem readLexemes_words (h : ∀ w ∈ words, PlainWord w.1 w.2) (line : Nat) (found : List Token) :
    Lexer.readLexemes line found (words.map fun w => .word w.1) =
      ((words.map fun w => ⟨line, w.2, String.ofList w.1⟩).reverse ++ found, .ok ()) := by
  refine Lexer.readLexemes_eq_ok.mpr ⟨_, ?_, rfl⟩
  rw [List.forall₂_map_left_iff, List.forall₂_map_right_iff]
  refine List.forall₂_same.mpr fun w hw => ?_
  simp only [Lexeme.token, (h w hw).classified]

end Words

/-- Characters without a line feed are one line. -/
theorem linesFrom_of_not_mem {cs acc : List Char} (h : '\n' ∉ cs) (hne : acc ≠ [] ∨ cs ≠ []) :
    Text.linesFrom acc cs = [acc.reverse ++ cs] := by
  induction cs generalizing acc with
  | nil =>
    cases acc with
    | nil => simp at hne
    | cons c acc => simp [Text.linesFrom]
  | cons c cs ih =>
    have hc : c ≠ '\n' := fun hc => h (hc ▸ List.mem_cons_self)
    have hcs : '\n' ∉ cs := fun hcs => h (List.mem_cons_of_mem c hcs)
    rw [Text.linesFrom.eq_3, if_neg hc, ih hcs (.inl (List.cons_ne_nil c acc))]
    simp

/-- A line with tokens gets a line feed. -/
theorem closeLine_of_forall {line : Nat} {found : List Token} (hne : found ≠ [])
    (h : ∀ t ∈ found, t.kind ≠ .newline) (before : List Token) :
    Lexer.closeLine line (found ++ before) = ⟨line, .newline, "\n"⟩ :: (found ++ before) := by
  cases found with
  | nil => exact absurd rfl hne
  | cons t found => exact if_neg (h t List.mem_cons_self)

/-- **A line of words has the tokens of the words**, and a line feed. -/
theorem tokenize_words {w : List Char × TokenKind} {words : List (List Char × TokenKind)}
    (h : ∀ v ∈ w :: words, PlainWord v.1 v.2) {text : String}
    (htext : text.toList = unwords ((w :: words).map (·.1))) :
    tokenize text = .ok (((w :: words).map fun v => ⟨1, v.2, String.ofList v.1⟩) ++
      [⟨1, .newline, "\n"⟩]) := by
  have hfeed := not_mem_unwords (c := '\n') (by decide) (by decide) h
  have htab := not_mem_unwords (c := '\t') (by decide) (by decide) h
  have hwords := lexemesFrom_unwords h
  have hread := readLexemes_words h 1 []
  have hne : unwords ((w :: words).map (·.1)) ≠ [] := by
    intro hnil
    rw [hnil] at hwords
    cases hwords
  have hclose : Lexer.closeLine 1
      (((w :: words).map fun v => (⟨1, v.2, String.ofList v.1⟩ : Token)).reverse ++ []) =
      ⟨1, .newline, "\n"⟩ :: (((w :: words).map fun v => ⟨1, v.2, String.ofList v.1⟩).reverse ++ []) := by
    refine closeLine_of_forall (by simp) (fun t ht => ?_) []
    obtain ⟨v, hv, rfl⟩ := List.mem_map.mp (List.mem_reverse.mp ht)
    exact (h v hv).ne_newline
  show Lexer.readLines 0 [] (Text.linesFrom [] text.toList) = _
  rw [htext, linesFrom_of_not_mem hfeed (.inr hne), Lexer.readLines, List.reverse_nil,
    List.nil_append, lexemes, map_spaceForTab htab, hwords, hread]
  show Except.ok (Lexer.closeLine 1 _).reverse = _
  rw [hclose, List.append_nil, List.reverse_cons, List.reverse_reverse]

/-! ## Names -/

/-- The fixed vocabulary has no names, and neither line feeds nor strings. -/
theorem fixedKind?_ne {word : List Char} {kind : TokenKind} (h : fixedKind? word = .ok (some kind)) :
    kind ≠ .name ∧ kind ≠ .newline ∧ kind ≠ .string := by
  unfold fixedKind? at h
  revert h
  cases Operator.symbols.lookup (String.ofList word) <;>
    cases Keyword.spellings.lookup (String.ofList word) <;> dsimp only <;>
    repeat' split
  all_goals
    intro h
    cases h
  all_goals simp

/-- What a word is, if it is not in the fixed vocabulary: a number, a register or a name. -/
theorem classify_cases {word : List Char} {kind : TokenKind} (h : classify word = .ok kind) :
    fixedKind? word = .ok (some kind) ∨ (∃ n, kind = .number n) ∨ (∃ r, kind = .register r) ∨
      (kind = .name ∧ isName word = true) := by
  unfold classify at h
  obtain ⟨fixed, hkind, h⟩ := bind_eq_ok.mp h
  cases fixed with
  | some fixed =>
    obtain rfl : fixed = kind := pure_eq_ok.mp h
    exact .inl hkind
  | none =>
    obtain ⟨number, -, h⟩ := bind_eq_ok.mp h
    cases number with
    | some n => exact .inr (.inl ⟨n, (pure_eq_ok.mp h).symm⟩)
    | none =>
      dsimp only at h
      split at h
      · exact .inr (.inr (.inl ⟨_, (pure_eq_ok.mp h).symm⟩))
      · split at h
        · exact .inr (.inr (.inr ⟨(pure_eq_ok.mp h).symm, ‹_›⟩))
        · cases h

/-- The words of names are names. -/
theorem isName_of_classify {word : List Char} (h : classify word = .ok .name) :
    isName word = true := by
  rcases classify_cases h with hfixed | ⟨n, hn⟩ | ⟨r, hr⟩ | ⟨-, hname⟩
  · exact absurd rfl (fixedKind?_ne hfixed).1
  · cases hn
  · cases hr
  · exact hname

/-- No word is a line feed or a string. -/
theorem classify_ne {word : List Char} {kind : TokenKind} (h : classify word = .ok kind) :
    kind ≠ .newline ∧ kind ≠ .string := by
  rcases classify_cases h with hfixed | ⟨n, rfl⟩ | ⟨r, rfl⟩ | ⟨rfl, -⟩
  · exact (fixedKind?_ne hfixed).2
  all_goals simp

/-- Names are plain words. -/
theorem plainWord_name {word : List Char} (h : classify word = .ok .name) : PlainWord word .name := by
  have hname := isName_of_classify h
  have hplain : ∀ c, continuesName c = true → isPlain c = true := by
    intro c hc
    rcases Bool.or_eq_true_iff.mp hc with hc | hdash
    · rcases Bool.or_eq_true_iff.mp hc with halphanum | hunderscore
      · exact isPlain_of_isAlphanum halphanum
      · rw [eq_of_beq hunderscore]
        decide
    · rw [eq_of_beq hdash]
      decide
  cases word with
  | nil => cases hname
  | cons c cs =>
    simp only [isName, Bool.and_eq_true, List.all_eq_true] at hname
    have hfirst : continuesName c = true := by
      rcases Bool.or_eq_true_iff.mp hname.1 with halpha | hunderscore
      · have halphanum : c.isAlphanum = true := Bool.or_eq_true_iff.mpr (.inl halpha)
        simp [continuesName, halphanum]
      · simp [continuesName, hunderscore]
    refine ⟨List.cons_ne_nil c cs, fun d hd => ?_, by simp, h⟩
    rcases List.mem_cons.mp hd with rfl | hd
    · exact hplain d hfirst
    · exact hplain d (hname.2 d hd)

/-! ## Decimal numerals -/

/-- The decimal text of a number has nothing but digits behind its sign. -/
theorem areDigits_toString (value : Int) :
    areDigits 10 (unsignedPart (toString value).toList) = true :=
  areDigits_unsignedPart (Text.signedNumeral_toString value)

theorem isPlain_toString (value : Int) : ∀ c ∈ (toString value).toList, isPlain c = true := by
  cases value with
  | ofNat n =>
    rw [Int.ofNat_eq_natCast, Text.toList_toString_nat]
    exact fun c hc => isPlain_of_isDigit (Text.isDigit_of_toDigits hc)
  | negSucc n =>
    rw [Text.toList_toString_negSucc]
    intro c hc
    rcases List.mem_cons.mp hc with rfl | hc
    · decide
    · exact isPlain_of_isDigit (Text.isDigit_of_toDigits hc)

section Decimal

variable {word : List Char} (h : areDigits 10 (unsignedPart word) = true)

include h

/-- A word of digits is not in a vocabulary of other words. -/
theorem lookup_of_areDigits {α : Type} (table : List (String × α))
    (htable : ∀ entry ∈ table, areDigits 10 (unsignedPart entry.1.toList) = false) :
    table.lookup (String.ofList word) = none := by
  refine List.lookup_eq_none_iff.mpr fun entry hentry => ?_
  rw [bne_iff_ne]
  intro heq
  have hword := htable entry hentry
  rw [← heq, String.toList_ofList, h] at hword
  cases hword

theorem fixedKind?_of_areDigits : fixedKind? word = .ok none := by
  have hne : ∀ other, areDigits 10 (unsignedPart other) = false → word ≠ other := by
    rintro other hother rfl
    rw [h] at hother
    cases hother
  have hcolon : word.head? ≠ some ':' := by
    intro hhead
    obtain ⟨cs, rfl⟩ := List.head?_eq_some_iff.mp hhead
    exact absurd (isSome_of_areDigits h List.mem_cons_self) (by decide)
  have hsymbols := lookup_of_areDigits h Operator.symbols (by decide)
  have hkeywords := lookup_of_areDigits h Keyword.spellings (by decide)
  have hconstants := lookup_of_areDigits h Constant.spellings (by decide)
  have hwords := lookup_of_areDigits h Operator.words (by decide)
  simp only [fixedKind?, if_neg (hne ['\x7b'] (by decide)), if_neg (hne ['\x7d'] (by decide)),
    if_neg (hne ['('] (by decide)), if_neg (hne [')'] (by decide)), hsymbols, hkeywords,
    if_neg hcolon, hconstants, hwords]

end Decimal

/-- **Decimal numerals are plain words**, and stand for the numbers they were written for. -/
theorem plainWord_number {value : Int} (hlo : -(Text.maxInt + 1) ≤ value)
    (hhi : value ≤ Text.maxInt) :
    PlainWord (toString value).toList (.number value) := by
  have hdigits := areDigits_toString value
  have hne : (toString value).toList ≠ [] := by
    intro hnil
    rw [hnil] at hdigits
    cases hdigits
  refine ⟨hne, isPlain_toString value, by simp, ?_⟩
  unfold classify
  rw [fixedKind?_of_areDigits hdigits, ok_bind]
  dsimp only
  rw [number?_of_areDigits hdigits, readNumber, Text.readInteger_toString hlo hhi]
  rfl

end OctoAsm
