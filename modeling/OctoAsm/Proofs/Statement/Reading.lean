/-
  The parser reads exactly what the grammar writes (`parse_eq_ok`).

  A body is a repetition that ends at a token of its own; what the three ends have in common is
  `Stops`.  Reading is taken apart by induction on the nesting budget (`readStatement_reads`).  The
  other way round the induction is on the grammar, and the budget is never used up because a statement
  inside another has fewer tokens (`Reads.read`).
-/
import OctoAsm.Proofs.Statement.Operands

namespace OctoAsm

open Reader

section Lines

variable {ts rest : List Token}

/-! ## Line feeds and ends of lines -/

/-- Tokens are taken as long as they satisfy the test, and the next one does not. -/
theorem takeWhile_eq_ok {p : TokenKind → Bool} {xs : List Token} :
    takeWhile p ts = .ok (xs, rest) ↔
      ts = xs ++ rest ∧ (∀ x ∈ xs, p x.kind = true) ∧ ∀ k ∈ lead rest none, p k = false := by
  simp only [takeWhile, Except.ok.injEq, Prod.mk.injEq]
  induction ts generalizing xs with
  | nil =>
    constructor
    · rintro ⟨rfl, rfl⟩
      exact ⟨rfl, by simp, by simp⟩
    · rintro ⟨h, -⟩
      obtain ⟨rfl, rfl⟩ := List.append_eq_nil_iff.mp h.symm
      exact ⟨rfl, rfl⟩
  | cons t ts ih =>
    by_cases ht : p t.kind = true
    · simp only [List.takeWhile_cons, List.dropWhile_cons, ht, if_true]
      constructor
      · rintro ⟨rfl, hrest⟩
        obtain ⟨hts, hxs, hlead⟩ := ih.mp ⟨rfl, hrest⟩
        exact ⟨congrArg (t :: ·) hts, by simpa [ht] using hxs, hlead⟩
      · rintro ⟨heq, hxs, hlead⟩
        cases xs with
        | nil =>
          subst heq
          -- a taken token satisfies the test, so nothing taken means that `t` fails it
          have hno := hlead t.kind rfl
          simp [ht] at hno
        | cons x xs =>
          obtain ⟨rfl, hts⟩ := List.cons.inj heq
          have htail := ih.mpr ⟨hts, fun y hy => hxs y (List.mem_cons_of_mem _ hy), hlead⟩
          exact ⟨congrArg (t :: ·) htail.1, htail.2⟩
    · simp only [List.takeWhile_cons, List.dropWhile_cons, if_neg ht]
      constructor
      · rintro ⟨rfl, rfl⟩
        exact ⟨rfl, by simp, by simpa using ht⟩
      · rintro ⟨heq, hxs, -⟩
        cases xs with
        | nil => exact ⟨rfl, heq⟩
        | cons x xs =>
          obtain ⟨rfl, -⟩ := List.cons.inj heq
          exact absurd (hxs t List.mem_cons_self) ht

theorem skipNewlines_eq_ok {u : Unit} :
    skipNewlines ts = .ok (u, rest) ↔
      ∃ nls, ts = nls ++ rest ∧ Feeds nls ∧ lead rest none ≠ some .newline := by
  have hfeeds : skipNewlines ts = .ok (u, rest) ↔
      ∃ nls, takeWhile (· == .newline) ts = .ok (nls, rest) := by
    simp [skipNewlines, takeWhile]
  rw [hfeeds]
  refine exists_congr fun nls => ?_
  rw [takeWhile_eq_ok]
  simp only [beq_iff_eq, beq_eq_false_iff_ne, Feeds]
  refine and_congr_right fun _ => and_congr_right fun _ => ?_
  cases lead rest none <;> simp

/-- The end of a line is taken exactly where the grammar has one. -/
theorem endOfLine_eq_ok {u : Unit} :
    endOfLine ts = .ok (u, rest) ↔ ∃ feed, ts = feed ++ rest ∧ LineEnd feed (lead rest none) := by
  constructor
  · intro h
    cases ts with
    | nil => cases h; exact ⟨[], rfl, .input⟩
    | cons t ts =>
      obtain ⟨line, kind, text⟩ := t
      cases kind with
      | newline => cases h; exact ⟨[_], rfl, .feed rfl⟩
      | closeBrace => cases h; exact ⟨[], rfl, .brace⟩
      | _ => cases h
  · rintro ⟨feed, rfl, hend⟩
    generalize hnext : lead rest none = next at hend
    cases hend with
    | @feed t _ ht =>
      -- the feed is one token, and the reader looks at its kind alone
      obtain ⟨line, kind, text⟩ := t
      cases ht
      rfl
    | input =>
      cases rest with
      | nil => rfl
      | cons t rest => cases hnext
    | brace =>
      cases rest with
      | nil => cases hnext
      | cons t rest =>
        obtain ⟨line, kind, text⟩ := t
        cases hnext
        rfl

end Lines

/-! ## Bodies -/

section Bodies

variable {β : Type} {ts rest : List Token}

/-- A reader that finds the end of a body: `closes b mid rest` says that the tokens `mid` begin with
    the end `b` and that `rest` comes after it. -/
structure Stops (stop : Reader (Option β)) (closes : β → List Token → List Token → Prop) :
    Prop where
  passed : ∀ {ts rest}, stop ts = .ok (none, rest) → ∃ nls, ts = nls ++ rest ∧ Feeds nls
  ended : ∀ {ts rest b}, stop ts = .ok (some b, rest) →
    ∃ nls mid, ts = nls ++ mid ∧ Feeds nls ∧ closes b mid rest
  pass : ∀ {nls t us}, Feeds nls → t.kind.begins = true → stop (nls ++ t :: us) = .ok (none, t :: us)
  stop : ∀ {nls mid rest b}, Feeds nls → closes b mid rest → stop (nls ++ mid) = .ok (some b, rest)

/-- Line feeds are skipped before the end is looked for, so it is enough to know what is found where
    none comes next. -/
theorem Stops.of_look {look : Reader (Option β)} {closes : β → List Token → List Token → Prop}
    (hnone : ∀ {ts rest}, look ts = .ok (none, rest) → ts = rest)
    (hsome : ∀ {ts rest b}, look ts = .ok (some b, rest) → closes b ts rest)
    (hpass : ∀ {t us}, t.kind.begins = true → look (t :: us) = .ok (none, t :: us))
    (hstop : ∀ {mid rest b}, closes b mid rest →
      lead mid none ≠ some .newline ∧ look mid = .ok (some b, rest)) :
    Stops (skipNewlines >>= fun _ => look) closes where
  passed := by
    intro ts rest h
    obtain ⟨_, mid, hskip, hlook⟩ := Reader.bind_eq_ok.mp h
    obtain ⟨nls, rfl, hnls, -⟩ := skipNewlines_eq_ok.mp hskip
    obtain rfl := hnone hlook
    exact ⟨nls, rfl, hnls⟩
  ended := by
    intro ts rest b h
    obtain ⟨_, mid, hskip, hlook⟩ := Reader.bind_eq_ok.mp h
    obtain ⟨nls, rfl, hnls, -⟩ := skipNewlines_eq_ok.mp hskip
    exact ⟨nls, mid, rfl, hnls, hsome hlook⟩
  pass := by
    intro nls t us hnls ht
    have hmid : lead (t :: us) none ≠ some .newline := by
      intro h
      rw [Option.some.inj h] at ht
      cases ht
    exact Reader.bind_eq_ok.mpr ⟨(), _, skipNewlines_eq_ok.mpr ⟨nls, rfl, hnls, hmid⟩, hpass ht⟩
  stop := by
    intro nls mid rest b hnls hcloses
    obtain ⟨hmid, hlook⟩ := hstop hcloses
    exact Reader.bind_eq_ok.mpr ⟨(), _, skipNewlines_eq_ok.mpr ⟨nls, rfl, hnls, hmid⟩, hlook⟩

/-- A block ends with one of its words. -/
theorem stops_blockEnd {ends : List Keyword} {what : String}
    (hends : ∀ k ∈ ends, (TokenKind.keyword k).begins = false) :
    Stops (blockEnd ends what)
      fun k mid rest => k ∈ ends ∧ ∃ t, mid = t :: rest ∧ t.kind = .keyword k := by
  refine .of_look (fun {ts rest} h => ?_) (fun {ts rest b} h => ?_) (fun {t us} ht => ?_) ?_
  -- a look that finds no end leaves the tokens as they are
  · cases ts with
    | nil => cases h
    | cons t us =>
      obtain ⟨line, kind, text⟩ := t
      cases kind with
      | keyword k =>
        replace h : (if k ∈ ends then (do skip; return some k : Reader _) else return none)
          (⟨line, .keyword k, text⟩ :: us) = .ok (none, rest) := h
        by_cases hk : k ∈ ends
        · rw [if_pos hk] at h
          cases h
        · rw [if_neg hk] at h
          cases h
          rfl
      | _ => cases h <;> rfl
  -- a look that finds an end has found one of the words
  · cases ts with
    | nil => cases h
    | cons t us =>
      obtain ⟨line, kind, text⟩ := t
      cases kind with
      | keyword k =>
        replace h : (if k ∈ ends then (do skip; return some k : Reader _) else return none)
          (⟨line, .keyword k, text⟩ :: us) = .ok (some b, rest) := h
        by_cases hk : k ∈ ends
        · rw [if_pos hk] at h
          cases h
          exact ⟨hk, _, rfl, rfl⟩
        · rw [if_neg hk] at h
          cases h
      | _ => cases h
  -- what begins a statement is none of the words, and is passed
  · obtain ⟨line, kind, text⟩ := t
    cases kind with
    | keyword k =>
      have hk : k ∉ ends := fun hk => by simp [hends k hk] at ht
      show (if k ∈ ends then (do skip; return some k : Reader _) else return none)
          (⟨line, .keyword k, text⟩ :: us) = .ok (none, _)
      rw [if_neg hk]
      rfl
    | _ => first | rfl | cases ht
  -- one of the words is found
  · rintro mid rest k ⟨hk, ⟨line, kind, text⟩, rfl, hkind⟩
    cases hkind
    refine ⟨nofun, ?_⟩
    show (if k ∈ ends then (do skip; return some k : Reader _) else return none)
        (⟨line, .keyword k, text⟩ :: rest) = .ok (some k, rest)
    rw [if_pos hk]
    rfl

/-- A braced body ends with its brace. -/
theorem stops_braceEnd :
    Stops braceEnd fun _ mid rest => ∃ t, mid = t :: rest ∧ t.kind = .closeBrace := by
  refine .of_look (fun {ts rest} h => ?_) (fun {ts rest b} h => ?_) (fun {t us} ht => ?_) ?_
  · cases ts with
    | nil => cases h
    | cons t us =>
      obtain ⟨line, kind, text⟩ := t
      cases kind <;> cases h <;> rfl
  · cases ts with
    | nil => cases h
    | cons t us =>
      obtain ⟨line, kind, text⟩ := t
      cases kind <;> cases h
      exact ⟨_, rfl, rfl⟩
  · obtain ⟨line, kind, text⟩ := t
    cases kind <;> first | rfl | cases ht
  · rintro mid rest b ⟨⟨line, kind, text⟩, rfl, hkind⟩
    cases hkind
    exact ⟨nofun, rfl⟩

/-- A program ends with the input. -/
theorem stops_programEnd : Stops programEnd fun _ mid rest => mid = [] ∧ rest = [] := by
  refine .of_look (fun {ts rest} h => ?_) (fun {ts rest b} h => ?_) (fun {t us} ht => ?_) ?_
  · cases ts with
    | nil => cases h
    | cons t us => cases h; rfl
  · cases ts with
    | nil => cases h; exact ⟨rfl, rfl⟩
    | cons t us => cases h
  · rfl
  · rintro mid rest b ⟨rfl, rfl⟩
    exact ⟨nofun, rfl⟩

/-- A reader of statements whose every result is a text of the grammar. -/
def ItemReads (item : Bool → Reader Statement) : Prop :=
  ∀ {b ts st rest}, item b ts = .ok (st, rest) →
    ∃ p, ts = p ++ rest ∧ Reads (.statement b) p [st] (lead rest none)

variable {item : Bool → Reader Statement} {b : Bool} {sts : List Statement}

/-- By induction on the rounds: a body is read statement by statement, up to the token
    that ends it. -/
theorem repeatUntil_reads {stop : Reader (Option β)} {closes : β → List Token → List Token → Prop}
    (hstops : Stops stop closes) (hitem : ItemReads item) {n : Nat} {answer : β}
    (h : repeatUntil stop (item b) n ts = .ok ((sts, answer), rest)) :
    ∃ p mid, ts = p ++ mid ∧ Reads (.body b) p sts (lead mid none) ∧ closes answer mid rest := by
  induction n generalizing ts sts with
  | zero => cases h
  | succ n ih =>
    simp only [repeatUntil, Reader.bind_eq_ok] at h
    obtain ⟨found, mid, hfound, h⟩ := h
    cases found with
    | some b =>
      -- the body ends here: what was skipped are the line feeds in front of its end
      obtain ⟨nls, mid', rfl, hnls, hcloses⟩ := hstops.ended hfound
      obtain ⟨heq, rfl⟩ := Reader.pure_eq_ok.mp h
      obtain ⟨rfl, rfl⟩ := Prod.mk.inj heq
      exact ⟨nls, mid', rfl, .done hnls, hcloses⟩
    | none =>
      -- a statement more: its text goes in front of what the rest of the body takes
      obtain ⟨nls, rfl, hnls⟩ := hstops.passed hfound
      simp only [Reader.bind_eq_ok, Reader.pure_eq_ok] at h
      obtain ⟨st, after, hst, ⟨others, answer'⟩, end', hothers, heq, rfl⟩ := h
      obtain ⟨rfl, rfl⟩ := Prod.mk.inj heq
      obtain ⟨p, rfl, hp⟩ := hitem hst
      obtain ⟨q, mid', rfl, hq, hcloses⟩ := ih hothers
      rw [lead_append] at hp
      exact ⟨nls ++ (p ++ q), mid', by simp, .more hnls hp hq, hcloses⟩

theorem manyUntil_reads {stop : Reader (Option β)} {closes : β → List Token → List Token → Prop}
    (hstops : Stops stop closes) (hitem : ItemReads item) {answer : β}
    (h : manyUntil stop (item b) ts = .ok ((sts, answer), rest)) :
    ∃ p mid, ts = p ++ mid ∧ Reads (.body b) p sts (lead mid none) ∧ closes answer mid rest := by
  obtain ⟨n, _, hn, hrepeat⟩ := Reader.bind_eq_ok.mp h
  obtain ⟨rfl, rfl⟩ := remaining_eq_ok.mp hn
  exact repeatUntil_reads hstops hitem hrepeat

/-- What is read as a block is a body and the word that ends it. -/
theorem readBlock_reads (hitem : ItemReads item) {ends : List Keyword} {what : String} {k : Keyword}
    (hends : ∀ k ∈ ends, (TokenKind.keyword k).begins = false)
    (h : readBlock ends what (item b) ts = .ok ((sts, k), rest)) :
    ∃ p t, ts = p ++ t :: rest ∧ k ∈ ends ∧ t.kind = .keyword k ∧
      Reads (.body b) p sts (some (.keyword k)) := by
  obtain ⟨p, mid, rfl, hp, hk, t, rfl, ht⟩ := manyUntil_reads (stops_blockEnd hends) hitem h
  rw [lead_cons, ht] at hp
  exact ⟨p, t, rfl, hk, ht, hp⟩

/-- What is read between braces is a body. -/
theorem readBraced_reads (hitem : ItemReads item) (h : readBraced (item b) ts = .ok (sts, rest)) :
    ∃ o p c, ts = o :: (p ++ c :: rest) ∧ o.kind = .openBrace ∧ c.kind = .closeBrace ∧
      Reads (.body b) p sts (some .closeBrace) := by
  simp only [readBraced, Reader.bind_eq_ok, expect_eq_ok, Reader.pure_eq_ok] at h
  obtain ⟨o, us, ⟨rfl, ho⟩, ⟨body, _⟩, mid, hbody, rfl, rfl⟩ := h
  obtain ⟨p, mid', rfl, hp, c, rfl, hc⟩ := manyUntil_reads stops_braceEnd hitem hbody
  rw [lead_cons, hc] at hp
  exact ⟨o, p, c, rfl, ho, hc, hp⟩

end Bodies

/-! ## From readers to texts -/

section Sound

variable {item : Bool → Reader Statement} {w : Token} {ts rest : List Token} {st : Statement}

/-- A directive that holds no statements, up to the end of its line. -/
theorem readDirectiveBody_text {word : Directive} (hw : w.kind = .directive word)
    (hword : word ≠ .next ∧ word ≠ .macroDef ∧ word ≠ .stringMode)
    (h : readDirectiveBody (item false) w word ts = .ok (st, rest)) :
    ∃ p, ts = p ++ rest ∧ LineText (w :: p) st := by
  cases word with
  | next | macroDef | stringMode => simp at hword
  | label =>
    simp only [readDirectiveBody, Reader.bind_eq_ok, readName_eq_ok, Reader.pure_eq_ok] at h
    obtain ⟨name, _, ⟨rfl, hname⟩, rfl, rfl⟩ := h
    exact ⟨[name], rfl, .label hw hname⟩
  | aliasName =>
    simp only [readDirectiveBody, readAlias, Reader.bind_eq_ok, readName_eq_ok, peekKind_eq_ok] at h
    obtain ⟨name, us, ⟨rfl, hname⟩, _, _, ⟨rfl, rfl⟩, h⟩ := h
    -- which reader goes on is decided by the next token, so the two cases are told apart first
    obtain ⟨reader, hreader, hrun⟩ := exists_reader h
    clear h
    split at hreader <;> subst hreader
    · simp only [Reader.bind_eq_ok, readCalc_eq_ok, Reader.pure_eq_ok] at hrun
      obtain ⟨e, _, ⟨p, rfl, hp⟩, rfl, rfl⟩ := hrun
      exact ⟨name :: p, rfl, .aliasBraced hw hname hp⟩
    · simp only [Reader.bind_eq_ok, readRegister_eq_ok, Reader.pure_eq_ok] at hrun
      obtain ⟨reg, _, ⟨r, rfl, hr⟩, rfl, rfl⟩ := hrun
      exact ⟨[name, r], rfl, .aliasRegister hw hname hr⟩
  | call =>
    simp only [readDirectiveBody, Reader.bind_eq_ok, readValue_eq_ok, Reader.pure_eq_ok] at h
    obtain ⟨target, _, ⟨v, rfl, hv⟩, rfl, rfl⟩ := h
    exact ⟨[v], rfl, .callAddress hw hv⟩
  | const =>
    simp only [readDirectiveBody, Reader.bind_eq_ok, readName_eq_ok, readValue_eq_ok,
      Reader.pure_eq_ok] at h
    obtain ⟨name, _, ⟨rfl, hname⟩, value, _, ⟨v, rfl, hv⟩, rfl, rfl⟩ := h
    exact ⟨[name, v], rfl, .const hw hname hv⟩
  | unpack =>
    simp only [readDirectiveBody, readUnpack, Reader.bind_eq_ok, readValue_eq_ok,
      peekKind_eq_ok] at h
    obtain ⟨first, us, ⟨v, rfl, hv⟩, _, _, ⟨rfl, rfl⟩, h⟩ := h
    obtain ⟨reader, hreader, hrun⟩ := exists_reader h
    clear h
    split at hreader <;> subst hreader
    · obtain ⟨rfl, rfl⟩ := Reader.pure_eq_ok.mp hrun
      exact ⟨[v], rfl, .unpack hw hv⟩
    · simp only [Reader.bind_eq_ok, readValue_eq_ok, Reader.pure_eq_ok] at hrun
      obtain ⟨value, _, ⟨v', rfl, hv'⟩, rfl, rfl⟩ := hrun
      exact ⟨[v, v'], rfl, .unpackTagged hw hv hv'⟩
  | org =>
    simp only [readDirectiveBody, Reader.bind_eq_ok, readOperand_eq_ok, Reader.pure_eq_ok] at h
    obtain ⟨target, _, ⟨p, rfl, hp⟩, rfl, rfl⟩ := h
    exact ⟨p, rfl, .org hw hp⟩
  | byte =>
    simp only [readDirectiveBody, Reader.bind_eq_ok, readOperand_eq_ok, Reader.pure_eq_ok] at h
    obtain ⟨value, _, ⟨p, rfl, hp⟩, rfl, rfl⟩ := h
    exact ⟨p, rfl, .byte hw hp⟩
  | pointer =>
    simp only [readDirectiveBody, Reader.bind_eq_ok, readOperand_eq_ok, Reader.pure_eq_ok] at h
    obtain ⟨value, _, ⟨p, rfl, hp⟩, rfl, rfl⟩ := h
    exact ⟨p, rfl, .pointer hw hp⟩
  | calcName =>
    simp only [readDirectiveBody, Reader.bind_eq_ok, readName_eq_ok, readCalc_eq_ok,
      Reader.pure_eq_ok] at h
    obtain ⟨name, _, ⟨rfl, hname⟩, e, _, ⟨p, rfl, hp⟩, rfl, rfl⟩ := h
    exact ⟨name :: p, rfl, .calcName hw hname hp⟩
  | assertion =>
    simp only [readDirectiveBody, readAssertion, Reader.bind_eq_ok, peek_eq_ok] at h
    obtain ⟨_, _, ⟨rfl, rfl⟩, h⟩ := h
    obtain ⟨reader, hreader, hrun⟩ := exists_reader h
    clear h
    split at hreader <;> subst hreader
    · rename_i hhead
      obtain ⟨us, rfl⟩ := List.head?_eq_some_iff.mp hhead
      simp only [Reader.bind_eq_ok, skip_eq_ok, readCalc_eq_ok, Reader.pure_eq_ok] at hrun
      obtain ⟨_, _, rfl, e, _, ⟨p, rfl, hp⟩, rfl, rfl⟩ := hrun
      exact ⟨_ :: p, rfl, .assertionWith hw rfl hp⟩
    · simp only [Reader.bind_eq_ok, readCalc_eq_ok, Reader.pure_eq_ok] at hrun
      obtain ⟨e, _, ⟨p, rfl, hp⟩, rfl, rfl⟩ := hrun
      exact ⟨p, rfl, .assertion hw hp⟩
  | breakpoint =>
    simp only [readDirectiveBody, Reader.bind_eq_ok, readName_eq_ok, Reader.pure_eq_ok] at h
    obtain ⟨name, _, ⟨rfl, hname⟩, rfl, rfl⟩ := h
    exact ⟨[name], rfl, .breakpoint hw hname⟩
  | monitor =>
    simp only [readDirectiveBody, readMonitor, Reader.bind_eq_ok, readRegisterOrValue_eq_ok,
      peek_eq_ok] at h
    obtain ⟨target, us, ⟨v, rfl, hv⟩, _, _, ⟨rfl, rfl⟩, h⟩ := h
    obtain ⟨reader, hreader, hrun⟩ := exists_reader h
    clear h
    split at hreader <;> subst hreader
    · rename_i hhead
      obtain ⟨us, rfl⟩ := List.head?_eq_some_iff.mp hhead
      simp only [Reader.bind_eq_ok, skip_eq_ok, Reader.pure_eq_ok] at hrun
      obtain ⟨_, _, rfl, rfl, rfl⟩ := hrun
      exact ⟨[v, _], rfl, .monitorLength hw hv rfl⟩
    · rename_i hhead
      obtain ⟨us, rfl⟩ := List.head?_eq_some_iff.mp hhead
      simp only [Reader.bind_eq_ok, skip_eq_ok, Reader.pure_eq_ok] at hrun
      obtain ⟨_, _, rfl, rfl, rfl⟩ := hrun
      exact ⟨[v, _], rfl, .monitorFormat hw hv rfl⟩
    · exact (refuse_ne_ok.mp hrun).elim

/-- What is read behind a directive is written as its statement. -/
theorem readDirective_reads (hitem : ItemReads item) {b : Bool} {word : Directive}
    (hw : w.kind = .directive word) (h : readDirective (item false) w word ts = .ok (st, rest)) :
    ∃ p, w :: ts = p ++ rest ∧ Reads (.statement b) p [st] (lead rest none) := by
  obtain ⟨st', mid, hbody, h⟩ := Reader.bind_eq_ok.mp h
  -- of the directives only `:next` holds a statement and is not bound to the end of a line
  by_cases hnext : word = .next
  · subst hnext
    obtain ⟨rfl, rfl⟩ := Reader.pure_eq_ok.mp h
    simp only [readDirectiveBody, Reader.bind_eq_ok, readName_eq_ok, skipNewlines_eq_ok,
      Reader.pure_eq_ok] at hbody
    obtain ⟨name, _, ⟨rfl, hname⟩, _, _, ⟨nls, rfl, hnls, -⟩, inner, _, hinner, rfl, rfl⟩ := hbody
    obtain ⟨p, rfl, hp⟩ := hitem hinner
    exact ⟨w :: name :: (nls ++ p), by simp, .next hw hname hnls hp⟩
  · rw [if_neg hnext] at h
    simp only [Reader.bind_eq_ok, endOfLine_eq_ok, Reader.pure_eq_ok] at h
    obtain ⟨_, _, ⟨feed, rfl, hend⟩, rfl, rfl⟩ := h
    by_cases hmacro : word = .macroDef
    · subst hmacro
      simp only [readDirectiveBody, Reader.bind_eq_ok, readName_eq_ok, takeWhile_eq_ok,
        Reader.pure_eq_ok] at hbody
      obtain ⟨name, _, ⟨rfl, hname⟩, params, _, ⟨rfl, hparams, -⟩, body, _, hbody, rfl, rfl⟩ := hbody
      obtain ⟨o, p, c, rfl, ho, hc, hp⟩ := readBraced_reads hitem hbody
      refine ⟨w :: name :: (params ++ o :: (p ++ c :: feed)), by simp, ?_⟩
      exact .macroDef hw hname (fun x hx => by simpa using hparams x hx) ho hp hc hend
    · by_cases hmode : word = .stringMode
      · subst hmode
        simp only [readDirectiveBody, Reader.bind_eq_ok, readName_eq_ok, expect_eq_ok,
          Reader.pure_eq_ok] at hbody
        obtain ⟨name, _, ⟨rfl, hname⟩, alphabet, _, ⟨rfl, halphabet⟩, body, _, hbody, rfl, rfl⟩ :=
          hbody
        obtain ⟨o, p, c, rfl, ho, hc, hp⟩ := readBraced_reads hitem hbody
        refine ⟨w :: name :: alphabet :: o :: (p ++ c :: feed), by simp, ?_⟩
        exact .stringMode hw hname halphabet ho hp hc hend
      · obtain ⟨p, rfl, hp⟩ := readDirectiveBody_text hw ⟨hnext, hmacro, hmode⟩ hbody
        exact ⟨w :: p ++ feed, by simp, .line hp hend⟩

/-- What is read behind `if` is written as one of its four forms, told by the word behind the
    condition. -/
theorem readIf_reads (hitem : ItemReads item) {b : Bool} (hw : w.kind = .keyword .ifWord)
    (h : readIf (item false) w b ts = .ok (st, rest)) :
    ∃ p, w :: ts = p ++ rest ∧ Reads (.statement b) p [st] (lead rest none) := by
  simp only [readIf, Reader.bind_eq_ok, readCondition_eq_ok, take_eq_ok] at h
  obtain ⟨cond, _, ⟨cs, rfl, hcond⟩, k, us, rfl, h⟩ := h
  cases hk : k.kind with
  | keyword word =>
    cases word with
    | thenWord =>
      simp only [hk, Reader.bind_eq_ok, skipNewlines_eq_ok, peekKind_eq_ok] at h
      obtain ⟨_, mid, ⟨nls, rfl, hnls, -⟩, _, _, ⟨rfl, rfl⟩, h⟩ := h
      obtain ⟨reader, hreader, hrun⟩ := exists_reader h
      clear h
      -- `if … then` in front of `again` leaves the loop, if there is one around
      split at hreader
      · rename_i hbreak
        subst hreader
        obtain ⟨rfl, hagain⟩ : b = true ∧ lead mid none = some (.keyword .again) := by
          simpa using hbreak
        obtain ⟨rfl, rfl⟩ := Reader.pure_eq_ok.mp hrun
        rw [hagain]
        exact ⟨w :: (cs ++ k :: nls), by simp, .breakIf hw hcond hk hnls⟩
      · split at hreader <;> subst hreader
        · exact (refuseAt_ne_ok.mp hrun).elim
        · simp only [Reader.bind_eq_ok, Reader.pure_eq_ok] at hrun
          obtain ⟨inner, _, hinner, rfl, rfl⟩ := hrun
          obtain ⟨p, rfl, hp⟩ := hitem hinner
          exact ⟨w :: (cs ++ k :: (nls ++ p)), by simp, .ifThen hw hcond hk hnls hp⟩
    | beginWord =>
      simp only [hk, Reader.bind_eq_ok] at h
      obtain ⟨⟨body, ending⟩, mid, hbody, h⟩ := h
      obtain ⟨p, t, rfl, hending, ht, hp⟩ := readBlock_reads hitem (by decide) hbody
      -- the first block ended with `else` or with `end`, and that decides the form
      by_cases helse : ending = .elseWord
      · subst helse
        simp only [if_true, Reader.bind_eq_ok, Reader.pure_eq_ok] at h
        obtain ⟨⟨others, _⟩, mid, hothers, rfl, rfl⟩ := h
        obtain ⟨q, t', rfl, hending', ht', hq⟩ := readBlock_reads hitem (by decide) hothers
        obtain rfl := List.mem_singleton.mp hending'
        exact ⟨w :: (cs ++ k :: (p ++ t :: (q ++ [t']))), by simp,
          .ifElse hw hcond hk hp ht hq ht'⟩
      · simp only [if_neg helse, Reader.pure_eq_ok] at h
        obtain ⟨rfl, rfl⟩ := h
        obtain rfl : ending = .endWord := by simpa [helse] using hending
        exact ⟨w :: (cs ++ k :: (p ++ [t])), by simp, .ifBegin hw hcond hk hp ht⟩
    | _ => simp only [hk, refuseAt_ne_ok] at h
  | _ => simp only [hk, refuseAt_ne_ok] at h

/-- What is read behind a keyword is written as its statement. -/
theorem readKeyword_reads (hitem : ItemReads item) {b : Bool} {k : Keyword}
    (hw : w.kind = .keyword k) (h : readKeyword item w b k ts = .ok (st, rest)) :
    ∃ p, w :: ts = p ++ rest ∧ Reads (.statement b) p [st] (lead rest none) := by
  cases k with
  | ret =>
    obtain ⟨rfl, rfl⟩ := Reader.pure_eq_ok.mp h
    exact ⟨[w], rfl, .inline (.ret hw)⟩
  | clear =>
    obtain ⟨rfl, rfl⟩ := Reader.pure_eq_ok.mp h
    exact ⟨[w], rfl, .inline (.clear hw)⟩
  | bcd =>
    simp only [readKeyword, Reader.bind_eq_ok, readRegister_eq_ok, Reader.pure_eq_ok] at h
    obtain ⟨reg, _, ⟨r, rfl, hr⟩, rfl, rfl⟩ := h
    exact ⟨[w, r], rfl, .inline (.bcd hw hr)⟩
  | save =>
    simp only [readKeyword, Reader.bind_eq_ok, readRegister_eq_ok, Reader.pure_eq_ok] at h
    obtain ⟨reg, _, ⟨r, rfl, hr⟩, rfl, rfl⟩ := h
    exact ⟨[w, r], rfl, .inline (.save hw hr)⟩
  | load =>
    simp only [readKeyword, Reader.bind_eq_ok, readRegister_eq_ok, Reader.pure_eq_ok] at h
    obtain ⟨reg, _, ⟨r, rfl, hr⟩, rfl, rfl⟩ := h
    exact ⟨[w, r], rfl, .inline (.load hw hr)⟩
  | sprite =>
    simp only [readKeyword, Reader.bind_eq_ok, readRegister_eq_ok, readValue_eq_ok,
      Reader.pure_eq_ok] at h
    obtain ⟨rx, _, ⟨x, rfl, hx⟩, ry, _, ⟨y, rfl, hy⟩, height, _, ⟨v, rfl, hv⟩, rfl, rfl⟩ := h
    exact ⟨[w, x, y, v], rfl, .inline (.sprite hw hx hy hv)⟩
  | jump =>
    simp only [readKeyword, Reader.bind_eq_ok, readValue_eq_ok, Reader.pure_eq_ok] at h
    obtain ⟨target, _, ⟨v, rfl, hv⟩, rfl, rfl⟩ := h
    exact ⟨[w, v], rfl, .inline (.jump hw hv)⟩
  | jump0 =>
    simp only [readKeyword, Reader.bind_eq_ok, readValue_eq_ok, Reader.pure_eq_ok] at h
    obtain ⟨target, _, ⟨v, rfl, hv⟩, rfl, rfl⟩ := h
    exact ⟨[w, v], rfl, .inline (.jumpOffset hw hv)⟩
  | ifWord => exact readIf_reads hitem hw h
  | loop =>
    simp only [readKeyword, Reader.bind_eq_ok, Reader.pure_eq_ok] at h
    obtain ⟨⟨body, _⟩, _, hbody, rfl, rfl⟩ := h
    obtain ⟨p, t, rfl, hending, ht, hp⟩ := readBlock_reads hitem (by decide) hbody
    obtain rfl := List.mem_singleton.mp hending
    exact ⟨w :: (p ++ [t]), by simp, .loop hw hp ht⟩
  | whileWord =>
    simp only [readKeyword, Reader.bind_eq_ok, readCondition_eq_ok, skipNewlines_eq_ok,
      Reader.pure_eq_ok] at h
    obtain ⟨cond, _, ⟨cs, rfl, hcond⟩, _, _, ⟨nls, rfl, hnls, -⟩, inner, _, hinner, rfl, rfl⟩ := h
    obtain ⟨p, rfl, hp⟩ := hitem hinner
    exact ⟨w :: (cs ++ (nls ++ p)), by simp, .whileDo hw hcond hnls hp⟩
  | _ => cases h

/-- Whether an assignment starts is seen in the first two tokens. -/
theorem startsAssignment_congr (t t' : Token) (us vs : List Token) :
    startsAssignment (t :: t' :: us) = startsAssignment (t :: t' :: vs) := by
  obtain ⟨line, kind, text⟩ := t'
  cases kind <;> rfl

/-- What is read as a statement is written as one, given the same of the statements inside. -/
theorem readStatementWith_reads (hitem : ItemReads item) {b : Bool}
    (h : readStatementWith item b ts = .ok (st, rest)) :
    ∃ p, ts = p ++ rest ∧ Reads (.statement b) p [st] (lead rest none) := by
  -- An assignment begins with a register or a name and shows its operator next.
  have assign : ∀ {t us}, t.kind = .name ∨ (∃ r, t.kind = .register r) →
      (Statement.simple <$> .assign <$> readAssignment : Reader _) (t :: us) = .ok (st, rest) →
      ∃ p, t :: us = p ++ rest ∧ Reads (.statement b) p [st] (lead rest none) := by
    intro t us ht h
    obtain ⟨s, hs, rfl⟩ := Reader.map_eq_ok.mp h
    obtain ⟨a, ha, rfl⟩ := Reader.map_eq_ok.mp hs
    obtain ⟨p, hp, htext⟩ := readAssignment_text ht ha
    exact ⟨p, hp, .inline (.assign htext)⟩
  cases ts with
  | nil => cases h
  | cons t us =>
    cases hkind : t.kind with
    | directive word =>
      simp only [readStatementWith, hkind] at h
      exact readDirective_reads hitem hkind h
    | keyword k =>
      simp only [readStatementWith, hkind] at h
      exact readKeyword_reads hitem hkind h
    | register r =>
      simp only [readStatementWith, hkind] at h
      split at h
      · exact assign (.inr ⟨r, hkind⟩) h
      · exact (refuse_ne_ok.mp h).elim
    | name =>
      simp only [readStatementWith, hkind] at h
      split at h
      · exact assign (.inl hkind) h
      · rename_i hop
        simp only [readInvocation, Reader.bind_eq_ok, takeWhile_eq_ok] at h
        obtain ⟨args, mid, ⟨rfl, hargs, hends⟩, h⟩ := h
        have hnext : endsArguments (lead mid none) = true := by
          cases hlead : lead mid none with
          | none => rfl
          | some k => simpa [endsArguments] using hends k hlead
        cases args with
        | nil =>
          obtain ⟨rfl, rfl⟩ := Reader.pure_eq_ok.mp h
          exact ⟨[t], rfl, .call hkind hnext⟩
        | cons arg args =>
          obtain ⟨rfl, rfl⟩ := Reader.pure_eq_ok.mp h
          have hstart : startsAssignment (t :: arg :: args) = false := by
            rw [startsAssignment_congr t arg args (args ++ mid)]
            simpa using hop
          exact ⟨t :: arg :: args, rfl, .invoke hkind hargs hstart hnext⟩
    | number n =>
      simp only [readStatementWith, hkind, Except.ok.injEq, Prod.mk.injEq] at h
      obtain ⟨rfl, rfl⟩ := h
      exact ⟨[t], rfl, .inline (.datum hkind)⟩
    | _ => simp only [readStatementWith, hkind, reduceCtorEq] at h

/-- What the parser reads as a statement is a text of it. -/
theorem readStatement_reads {n : Nat} : ItemReads (readStatement n) := by
  induction n with
  | zero => intro b ts st rest h; cases h
  | succ n ih => exact readStatementWith_reads ih

end Sound

/-! ## From texts to readers -/

section Complete

variable {p : List Token} {st : Statement} {next : Option TokenKind}

/-- Behind a directive stands the end of its line. -/
theorem LineEnd.lead {feed : List Token} (h : LineEnd feed next) :
    (atLineEnd (lead feed next) || lead feed next == some .closeBrace) = true := by
  cases h with
  | feed ht => simp [atLineEnd, ht]
  | input => rfl
  | brace => rfl

/-- A statement that fills its line is read back behind its directive. -/
theorem LineText.read (h : LineText p st) (item : Reader Statement) :
    ∃ w us word, p = w :: us ∧ w.kind = .directive word ∧ word ≠ .next ∧
      ∀ mid, (atLineEnd (lead mid none) || lead mid none == some .closeBrace) = true →
        readDirectiveBody item w word (us ++ mid) = .ok (st, mid) := by
  cases h with
  | @label w name hw hn =>
    refine ⟨w, [name], _, rfl, hw, by simp, fun mid _ => ?_⟩
    simp only [readDirectiveBody, Reader.bind_eq_ok, readName_eq_ok, Reader.pure_eq_ok]
    exact ⟨name, mid, ⟨rfl, hn⟩, rfl, rfl⟩
  | @aliasRegister w name r reg hw hn hr =>
    refine ⟨w, [name, r], _, rfl, hw, by simp, fun mid _ => ?_⟩
    simp only [readDirectiveBody, readAlias, Reader.bind_eq_ok, readName_eq_ok, peekKind_eq_ok]
    refine ⟨name, r :: mid, ⟨rfl, hn⟩, _, _, ⟨rfl, rfl⟩, ?_⟩
    have hread : (do let r ← readRegister; return .declaration (.aliasName w name (.register r)) :
        Reader Statement) (r :: mid) = .ok (.declaration (.aliasName w name (.register reg)), mid) :=
      Reader.bind_eq_ok.mpr
        ⟨reg, mid, readRegister_eq_ok.mpr ⟨r, rfl, hr⟩, Reader.pure_eq_ok.mpr ⟨rfl, rfl⟩⟩
    obtain ⟨n, hkind, -⟩ | ⟨hkind, -⟩ := RegRef.kind_of_ofToken? hr <;>
      simpa only [lead_cons, hkind] using hread
  | @aliasBraced w name ts e hw hn h =>
    obtain ⟨o, us, rfl, ho⟩ := h.begins
    refine ⟨w, name :: o :: us, _, rfl, hw, by simp, fun mid _ => ?_⟩
    simp only [readDirectiveBody, readAlias, Reader.bind_eq_ok, readName_eq_ok, peekKind_eq_ok]
    refine ⟨name, o :: us ++ mid, ⟨rfl, hn⟩, _, _, ⟨rfl, rfl⟩, ?_⟩
    simp only [List.cons_append, lead_cons, ho, Reader.bind_eq_ok, readCalc_eq_ok, Reader.pure_eq_ok]
    exact ⟨e, mid, ⟨o :: us, rfl, h⟩, rfl, rfl⟩
  | @const w name v value hw hn hv =>
    refine ⟨w, [name, v], _, rfl, hw, by simp, fun mid _ => ?_⟩
    simp only [readDirectiveBody, Reader.bind_eq_ok, readName_eq_ok, readValue_eq_ok,
      Reader.pure_eq_ok]
    exact ⟨name, v :: mid, ⟨rfl, hn⟩, value, mid, ⟨v, rfl, hv⟩, rfl, rfl⟩
  | @calcName w name ts e hw hn h =>
    refine ⟨w, name :: ts, _, rfl, hw, by simp, fun mid _ => ?_⟩
    simp only [readDirectiveBody, Reader.bind_eq_ok, readName_eq_ok, readCalc_eq_ok,
      Reader.pure_eq_ok]
    exact ⟨name, ts ++ mid, ⟨rfl, hn⟩, e, mid, ⟨ts, rfl, h⟩, rfl, rfl⟩
  | @callAddress w v target hw hv =>
    refine ⟨w, [v], _, rfl, hw, by simp, fun mid _ => ?_⟩
    simp only [readDirectiveBody, Reader.bind_eq_ok, readValue_eq_ok, Reader.pure_eq_ok]
    exact ⟨target, mid, ⟨v, rfl, hv⟩, rfl, rfl⟩
  | @unpack w v value hw hv =>
    refine ⟨w, [v], _, rfl, hw, by simp, fun mid hmid => ?_⟩
    simp only [readDirectiveBody, readUnpack, Reader.bind_eq_ok, readValue_eq_ok, peekKind_eq_ok]
    refine ⟨value, mid, ⟨v, rfl, hv⟩, _, _, ⟨rfl, rfl⟩, ?_⟩
    rw [if_pos hmid]
    exact Reader.pure_eq_ok.mpr ⟨rfl, rfl⟩
  | @unpackTagged w g tag v value hw hg hv =>
    refine ⟨w, [g, v], _, rfl, hw, by simp, fun mid _ => ?_⟩
    -- A value does not end the line, so what was read first is the tag.
    have hkind : ¬ (atLineEnd (some v.kind) || some v.kind == some .closeBrace) = true := by
      cases hkind : v.kind with
      | newline | closeBrace => simp [ValueRef.ofToken?, hkind] at hv
      | _ => simp [atLineEnd]
    simp only [readDirectiveBody, readUnpack, Reader.bind_eq_ok, readValue_eq_ok, peekKind_eq_ok]
    refine ⟨tag, v :: mid, ⟨g, rfl, hg⟩, _, _, ⟨rfl, rfl⟩, ?_⟩
    rw [lead_cons, if_neg hkind]
    simp only [Reader.bind_eq_ok, readValue_eq_ok, Reader.pure_eq_ok]
    exact ⟨value, mid, ⟨v, rfl, hv⟩, rfl, rfl⟩
  | @org w ts target hw h =>
    refine ⟨w, ts, _, rfl, hw, by simp, fun mid _ => ?_⟩
    simp only [readDirectiveBody, Reader.bind_eq_ok, readOperand_eq_ok, Reader.pure_eq_ok]
    exact ⟨target, mid, ⟨ts, rfl, h⟩, rfl, rfl⟩
  | @byte w ts value hw h =>
    refine ⟨w, ts, _, rfl, hw, by simp, fun mid _ => ?_⟩
    simp only [readDirectiveBody, Reader.bind_eq_ok, readOperand_eq_ok, Reader.pure_eq_ok]
    exact ⟨value, mid, ⟨ts, rfl, h⟩, rfl, rfl⟩
  | @pointer w ts value hw h =>
    refine ⟨w, ts, _, rfl, hw, by simp, fun mid _ => ?_⟩
    simp only [readDirectiveBody, Reader.bind_eq_ok, readOperand_eq_ok, Reader.pure_eq_ok]
    exact ⟨value, mid, ⟨ts, rfl, h⟩, rfl, rfl⟩
  | @assertion w ts e hw h =>
    obtain ⟨⟨line, kind, text⟩, us, rfl, rfl⟩ := h.begins
    refine ⟨w, _, _, rfl, hw, by simp, fun mid _ => ?_⟩
    simp only [readDirectiveBody, readAssertion, Reader.bind_eq_ok, peek_eq_ok]
    refine ⟨_, _, ⟨rfl, rfl⟩, ?_⟩
    simp only [List.cons_append, List.head?_cons, Reader.bind_eq_ok, readCalc_eq_ok,
      Reader.pure_eq_ok]
    exact ⟨e, mid, ⟨_, rfl, h⟩, rfl, rfl⟩
  | @assertionWith w message ts e hw hm h =>
    obtain ⟨line, kind, text⟩ := message
    cases hm
    refine ⟨w, _ :: ts, _, rfl, hw, by simp, fun mid _ => ?_⟩
    simp only [readDirectiveBody, readAssertion, Reader.bind_eq_ok, peek_eq_ok]
    refine ⟨_, _, ⟨rfl, rfl⟩, ?_⟩
    simp only [List.cons_append, List.head?_cons, Reader.bind_eq_ok, skip_eq_ok, readCalc_eq_ok,
      Reader.pure_eq_ok]
    exact ⟨(), ts ++ mid, rfl, e, mid, ⟨ts, rfl, h⟩, rfl, rfl⟩
  | @breakpoint w name hw hn =>
    refine ⟨w, [name], _, rfl, hw, by simp, fun mid _ => ?_⟩
    simp only [readDirectiveBody, Reader.bind_eq_ok, readName_eq_ok, Reader.pure_eq_ok]
    exact ⟨name, mid, ⟨rfl, hn⟩, rfl, rfl⟩
  | @monitorLength w v target l n hw hv hl =>
    obtain ⟨line, kind, text⟩ := l
    cases hl
    refine ⟨w, [v, _], _, rfl, hw, by simp, fun mid _ => ?_⟩
    simp only [readDirectiveBody, readMonitor, Reader.bind_eq_ok, readRegisterOrValue_eq_ok,
      peek_eq_ok]
    refine ⟨target, _ :: mid, ⟨v, rfl, hv⟩, _, _, ⟨rfl, rfl⟩, ?_⟩
    simp only [List.head?_cons, Reader.bind_eq_ok, skip_eq_ok, Reader.pure_eq_ok]
    exact ⟨(), mid, rfl, trivial, rfl⟩
  | @monitorFormat w v target f hw hv hf =>
    obtain ⟨line, kind, text⟩ := f
    cases hf
    refine ⟨w, [v, _], _, rfl, hw, by simp, fun mid _ => ?_⟩
    simp only [readDirectiveBody, readMonitor, Reader.bind_eq_ok, readRegisterOrValue_eq_ok,
      peek_eq_ok]
    refine ⟨target, _ :: mid, ⟨v, rfl, hv⟩, _, _, ⟨rfl, rfl⟩, ?_⟩
    simp only [List.head?_cons, Reader.bind_eq_ok, skip_eq_ok, Reader.pure_eq_ok]
    exact ⟨(), mid, rfl, trivial, rfl⟩

/-- A statement within a line is read back, whatever follows it. -/
theorem InlineText.read {s : Simple} (h : InlineText p s) (item : Bool → Reader Statement) (b : Bool)
    (rest : List Token) : readStatementWith item b (p ++ rest) = .ok (.simple s, rest) := by
  cases h with
  | @ret t ht | @clear t ht =>
    simp only [List.singleton_append, readStatementWith, ht]
    rfl
  | @bcd t r reg ht hr | @save t r reg ht hr | @load t r reg ht hr =>
    simp only [List.cons_append, List.nil_append, readStatementWith, ht]
    simp only [readKeyword, Reader.bind_eq_ok, readRegister_eq_ok, Reader.pure_eq_ok]
    exact ⟨reg, rest, ⟨r, rfl, hr⟩, rfl, rfl⟩
  | @sprite t x rx y ry v height ht hx hy hv =>
    simp only [List.cons_append, List.nil_append, readStatementWith, ht]
    simp only [readKeyword, Reader.bind_eq_ok, readRegister_eq_ok, readValue_eq_ok,
      Reader.pure_eq_ok]
    exact ⟨rx, _, ⟨x, rfl, hx⟩, ry, _, ⟨y, rfl, hy⟩, height, rest, ⟨v, rfl, hv⟩, rfl, rfl⟩
  | @jump t v target ht hv | @jumpOffset t v target ht hv =>
    simp only [List.cons_append, List.nil_append, readStatementWith, ht]
    simp only [readKeyword, Reader.bind_eq_ok, readValue_eq_ok, Reader.pure_eq_ok]
    exact ⟨target, rest, ⟨v, rfl, hv⟩, rfl, rfl⟩
  | @datum t n ht => simp only [List.singleton_append, readStatementWith, ht]
  | @assign _ a h =>
    have hread : (Statement.simple <$> .assign <$> readAssignment : Reader _) (p ++ rest) =
        .ok (.simple (.assign a), rest) :=
      Reader.map_eq_ok.mpr ⟨.assign a, Reader.map_eq_ok.mpr ⟨a, h.read, rfl⟩, rfl⟩
    obtain ⟨t, o, us, rfl, hname | ⟨r, hr⟩, hstart⟩ := h.begins
    · simp only [List.cons_append, readStatementWith, hname, hstart, if_true]
      exact hread
    · simp only [List.cons_append, readStatementWith, hr, hstart, if_true]
      exact hread

/-- What a text of the grammar is read as.  A statement needs a budget of its length, a body that many
    rounds and one more to find its end. -/
def ReadAs : Part → List Token → List Statement → Option TokenKind → Prop
  | .statement b, p, sts, next => ∀ n rest st, sts = [st] → lead rest none = next → p.length ≤ n →
      readStatement n b (p ++ rest) = .ok (st, rest)
  | .body b, p, sts, next => ∀ (β : Type) (stop : Reader (Option β))
      (closes : β → List Token → List Token → Prop) n m answer mid rest, Stops stop closes →
      closes answer mid rest → lead mid none = next → p.length ≤ n → p.length < m →
      repeatUntil stop (readStatement n b) m (p ++ mid) = .ok ((sts, answer), rest)

/-- A text is read as a statement under every budget that is not smaller than the text, if it is so
    behind one round. -/
theorem ReadAs.of_with {b : Bool} (hne : p ≠ [])
    (h : ∀ {k rest}, p.length ≤ k + 1 → lead rest none = next →
      readStatementWith (readStatement k) b (p ++ rest) = .ok (st, rest)) :
    ReadAs (.statement b) p [st] next := by
  intro n rest st' hst hlead hlen
  obtain rfl := List.singleton_inj.mp hst
  cases n with
  | zero => exact absurd (List.eq_nil_of_length_eq_zero (Nat.le_zero.mp hlen)) hne
  | succ k => exact h hlen hlead

theorem endsArguments_lead (h : endsArguments next = true) : ∀ k ∈ next, isArgument k = false := by
  rintro k rfl
  simpa [endsArguments] using h

/-- The words that end a body begin no statement. -/
theorem begins_not_endsThen {kind : TokenKind} (h : kind.begins = true) :
    endsThen (some kind) = false := by
  cases kind with
  | keyword k => cases k <;> first | rfl | cases h
  | closeBrace => cases h
  | _ => rfl

theorem begins_ne_again {kind : TokenKind} (h : kind.begins = true) :
    (some kind == some (.keyword .again)) = false := by
  rw [beq_eq_false_iff_ne]
  intro hkind
  rw [Option.some.inj hkind] at h
  cases h

section Inside

variable {ts rest : List Token} {sts : List Statement} {b : Bool} {k : Nat}

/-- A block is read back, as the word that ends it begins no statement. -/
theorem ReadAs.readBlock {ends : List Keyword} {what : String} {word : Keyword} {t : Token}
    (h : ReadAs (.body b) ts sts (some (.keyword word))) (ht : t.kind = .keyword word)
    (hends : ∀ k ∈ ends, (TokenKind.keyword k).begins = false) (hword : word ∈ ends)
    (hk : ts.length ≤ k) :
    readBlock ends what (readStatement k b) (ts ++ t :: rest) = .ok ((sts, word), rest) := by
  refine Reader.bind_eq_ok.mpr ⟨_, _, remaining_eq_ok.mpr ⟨rfl, rfl⟩, ?_⟩
  exact h _ _ _ _ _ _ _ _ (stops_blockEnd hends) ⟨hword, t, rfl, ht⟩ (by rw [lead_cons, ht]) hk
    (by simp only [List.length_append]; omega)

/-- A braced body is read back, as its closing brace begins no statement. -/
theorem ReadAs.readBraced {o c : Token} (h : ReadAs (.body b) ts sts (some .closeBrace))
    (ho : o.kind = .openBrace) (hc : c.kind = .closeBrace) (hk : ts.length ≤ k) :
    readBraced (readStatement k b) (o :: (ts ++ c :: rest)) = .ok (sts, rest) := by
  simp only [OctoAsm.readBraced, Reader.bind_eq_ok, expect_eq_ok, Reader.pure_eq_ok]
  refine ⟨o, _, ⟨rfl, ho⟩, (sts, ()), rest, ?_, rfl, rfl⟩
  refine Reader.bind_eq_ok.mpr ⟨_, _, remaining_eq_ok.mpr ⟨rfl, rfl⟩, ?_⟩
  exact h _ _ _ _ _ _ _ _ stops_braceEnd ⟨c, rfl, hc⟩ (by rw [lead_cons, hc]) hk
    (by simp only [List.length_append]; omega)

/-- Line feeds before a statement are skipped. -/
theorem Reads.skipNewlines {nls : List Token} (h : Reads (.statement b) ts sts next)
    (hnls : Feeds nls) : skipNewlines (nls ++ (ts ++ rest)) = .ok ((), ts ++ rest) := by
  obtain ⟨t, us, rfl, ht⟩ := h.begins
  refine skipNewlines_eq_ok.mpr ⟨nls, rfl, hnls, ?_⟩
  intro hnewline
  rw [Option.some.inj hnewline] at ht
  cases ht

/-- A directive other than the one that labels a statement ends with its line. -/
theorem readDirective_line {item : Reader Statement} {w : Token} {word : Directive}
    {feed : List Token} (hnext : word ≠ .next)
    (hbody : readDirectiveBody item w word ts = .ok (st, feed ++ rest))
    (hend : LineEnd feed (lead rest none)) : readDirective item w word ts = .ok (st, rest) := by
  refine Reader.bind_eq_ok.mpr ⟨st, feed ++ rest, hbody, ?_⟩
  rw [if_neg hnext]
  exact Reader.bind_eq_ok.mpr
    ⟨(), rest, endOfLine_eq_ok.mpr ⟨feed, rfl, hend⟩, Reader.pure_eq_ok.mpr ⟨rfl, rfl⟩⟩

end Inside

/-- Every text of the grammar is read to its end. -/
theorem Reads.read {part : Part} {sts : List Statement} (h : Reads part p sts next) :
    ReadAs part p sts next := by
  induction h with
  | @inline b ts s next h =>
    -- the assignments are the hard case: two tokens ahead tell them from invocations
    obtain ⟨t, us, hts, -⟩ := h.begins
    exact .of_with (by simp [hts]) fun _ _ => h.read _ _ _
  | @line b ts st feed next h hend =>
    obtain ⟨w, us, word, rfl, hw, hnext, -⟩ := h.read (readStatement 0 false)
    refine .of_with (by simp) fun {k rest} hlen hlead => ?_
    obtain ⟨w', us', word', heq, hw', hnext, hbody⟩ := h.read (readStatement k false)
    obtain ⟨rfl, rfl⟩ := List.cons.inj heq
    subst hlead
    simp only [List.cons_append, List.append_assoc, readStatementWith, hw']
    exact readDirective_line hnext (hbody _ (by simpa using hend.lead)) hend
  | @call b name next hname hnext =>
    refine .of_with (by simp) fun {k rest} hlen hlead => ?_
    -- no assignment operator follows, as it would not end the arguments
    subst hlead
    have hstart : startsAssignment (name :: rest) = false := by
      cases rest with
      | nil => rfl
      | cons t us =>
        obtain ⟨line, kind, text⟩ := t
        cases kind <;> first | rfl | cases hnext
    simp only [List.singleton_append, readStatementWith, hname, hstart, if_neg, Bool.false_eq_true,
      not_false_eq_true]
    refine Reader.bind_eq_ok.mpr ⟨[], rest, takeWhile_eq_ok.mpr ⟨rfl, by simp, ?_⟩, rfl⟩
    exact endsArguments_lead hnext
  | @invoke b name arg args next hname hargs hop hnext =>
    refine .of_with (by simp) fun {k rest} hlen hlead => ?_
    subst hlead
    rw [startsAssignment_congr name arg args (args ++ rest)] at hop
    simp only [List.cons_append, readStatementWith, hname, hop, if_neg, Bool.false_eq_true,
      not_false_eq_true]
    refine Reader.bind_eq_ok.mpr ⟨arg :: args, rest, takeWhile_eq_ok.mpr ⟨rfl, hargs, ?_⟩, rfl⟩
    exact endsArguments_lead hnext
  | @next b word name nls ts st next hword hname hnls h ih =>
    refine .of_with (by simp) fun {k rest} hlen hlead => ?_
    -- the inner text is shorter by at least the word in front of it
    have hinner := ih k rest st rfl hlead (by simp at hlen; omega)
    simp only [List.cons_append, List.append_assoc, readStatementWith, hword]
    refine Reader.bind_eq_ok.mpr ⟨.next word name st, rest, ?_, Reader.pure_eq_ok.mpr ⟨rfl, rfl⟩⟩
    simp only [readDirectiveBody, Reader.bind_eq_ok, readName_eq_ok, Reader.pure_eq_ok]
    exact ⟨name, _, ⟨rfl, hname⟩, (), _, h.skipNewlines hnls, st, rest, hinner, rfl, rfl⟩
  | @macroDef b word name params o ts body c feed next hword hname hparams ho h hc hend ih =>
    refine .of_with (by simp) fun {k rest} hlen hlead => ?_
    -- the body is read with the budget that is left behind its brace
    subst hlead
    have hbody : readBraced (readStatement k false) (o :: (ts ++ c :: (feed ++ rest))) =
        .ok (body, feed ++ rest) := ih.readBraced ho hc (by simp at hlen; omega)
    simp only [List.cons_append, List.append_assoc, readStatementWith, hword]
    refine readDirective_line (by simp) ?_ hend
    simp only [readDirectiveBody, Reader.bind_eq_ok, readName_eq_ok, takeWhile_eq_ok,
      Reader.pure_eq_ok]
    refine ⟨name, _, ⟨rfl, hname⟩, params, _, ⟨rfl, ?_, ?_⟩, body, _, hbody, rfl, rfl⟩
    · simpa using hparams
    · simp [ho]
  | @stringMode b word name alphabet o ts body c feed next hword hname halphabet ho h hc hend ih =>
    refine .of_with (by simp) fun {k rest} hlen hlead => ?_
    subst hlead
    have hbody : readBraced (readStatement k false) (o :: (ts ++ c :: (feed ++ rest))) =
        .ok (body, feed ++ rest) := ih.readBraced ho hc (by simp at hlen; omega)
    simp only [List.cons_append, List.append_assoc, readStatementWith, hword]
    refine readDirective_line (by simp) ?_ hend
    simp only [readDirectiveBody, Reader.bind_eq_ok, readName_eq_ok, expect_eq_ok,
      Reader.pure_eq_ok]
    exact ⟨name, _, ⟨rfl, hname⟩, alphabet, _, ⟨rfl, halphabet⟩, body, _, hbody, rfl, rfl⟩
  | @ifThen b word cs cond thn nls ts st next hword hcond hthn hnls h ih =>
    refine .of_with (by simp) fun {k rest} hlen hlead => ?_
    have hinner := ih k rest st rfl hlead (by simp at hlen; omega)
    simp only [List.cons_append, List.append_assoc, readStatementWith, hword, readKeyword]
    simp only [readIf, Reader.bind_eq_ok, readCondition_eq_ok, take_eq_ok]
    refine ⟨cond, _, ⟨cs, rfl, hcond⟩, thn, _, rfl, ?_⟩
    simp only [hthn, Reader.bind_eq_ok, peekKind_eq_ok]
    refine ⟨(), _, h.skipNewlines hnls, _, _, ⟨rfl, rfl⟩, ?_⟩
    -- a statement follows, so what comes next is neither `again` nor an end of `then`
    have hagain : (lead (ts ++ rest) none == some (.keyword .again)) = false := by
      obtain ⟨t, us, rfl, ht⟩ := h.begins
      exact begins_ne_again ht
    have hends : endsThen (lead (ts ++ rest) none) = false := by
      obtain ⟨t, us, rfl, ht⟩ := h.begins
      exact begins_not_endsThen ht
    simp only [hagain, hends, Bool.and_false, Bool.false_eq_true, if_false]
    exact Reader.bind_eq_ok.mpr ⟨st, rest, hinner, Reader.pure_eq_ok.mpr ⟨rfl, rfl⟩⟩
  | @breakIf word cs cond thn nls hword hcond hthn hnls =>
    refine .of_with (by simp) fun {k rest} hlen hlead => ?_
    simp only [List.cons_append, List.append_assoc, readStatementWith, hword, readKeyword]
    simp only [readIf, Reader.bind_eq_ok, readCondition_eq_ok, take_eq_ok]
    refine ⟨cond, _, ⟨cs, rfl, hcond⟩, thn, _, rfl, ?_⟩
    simp only [hthn, Reader.bind_eq_ok, peekKind_eq_ok]
    refine ⟨(), rest, skipNewlines_eq_ok.mpr ⟨nls, rfl, hnls, by simp [hlead]⟩, _, _, ⟨rfl, rfl⟩, ?_⟩
    simp only [hlead, Bool.true_and, beq_self_eq_true, if_true, Reader.pure_eq_ok, and_self]
  | @ifBegin b word cs cond bgn ts body fin next hword hcond hbgn h hfin ih =>
    refine .of_with (by simp) fun {k rest} hlen hlead => ?_
    simp only [List.cons_append, List.append_assoc, readStatementWith, hword, readKeyword]
    simp only [readIf, Reader.bind_eq_ok, readCondition_eq_ok, take_eq_ok]
    refine ⟨cond, _, ⟨cs, rfl, hcond⟩, bgn, _, rfl, ?_⟩
    simp only [hbgn, Reader.bind_eq_ok]
    refine ⟨_, _, ih.readBlock hfin (by decide) (by decide) (by simp at hlen; omega), ?_⟩
    exact Reader.pure_eq_ok.mpr ⟨rfl, rfl⟩
  | @ifElse b word cs cond bgn ts body els us otherwise fin next hword hcond hbgn h hels h' hfin ih
      ih' =>
    refine .of_with (by simp) fun {k rest} hlen hlead => ?_
    simp only [List.cons_append, List.append_assoc, readStatementWith, hword, readKeyword]
    simp only [readIf, Reader.bind_eq_ok, readCondition_eq_ok, take_eq_ok]
    refine ⟨cond, _, ⟨cs, rfl, hcond⟩, bgn, _, rfl, ?_⟩
    simp only [hbgn, Reader.bind_eq_ok]
    refine ⟨_, _, ih.readBlock hels (by decide) (by decide) (by simp at hlen; omega), ?_⟩
    simp only [if_true, Reader.bind_eq_ok, Reader.pure_eq_ok]
    exact ⟨_, _, ih'.readBlock hfin (by decide) (by decide) (by simp at hlen; omega), rfl, rfl⟩
  | @loop b word ts body again next hword h hagain ih =>
    refine .of_with (by simp) fun {k rest} hlen hlead => ?_
    simp only [List.cons_append, List.append_assoc, readStatementWith, hword]
    simp only [readKeyword, Reader.bind_eq_ok, Reader.pure_eq_ok]
    exact ⟨_, _, ih.readBlock hagain (by decide) (by decide) (by simp at hlen; omega), rfl, rfl⟩
  | @whileDo b word cs cond nls ts st next hword hcond hnls h ih =>
    refine .of_with (by simp) fun {k rest} hlen hlead => ?_
    have hinner := ih k rest st rfl hlead (by simp at hlen; omega)
    simp only [List.cons_append, List.append_assoc, readStatementWith, hword]
    simp only [readKeyword, Reader.bind_eq_ok, readCondition_eq_ok, Reader.pure_eq_ok]
    exact ⟨cond, _, ⟨cs, rfl, hcond⟩, (), _, h.skipNewlines hnls, st, rest, hinner, rfl, rfl⟩
  | @done b nls next hnls =>
    intro β stop closes n m answer mid rest hstops hcloses hlead hn hm
    cases m with
    | zero => simp at hm
    | succ m =>
      refine Reader.bind_eq_ok.mpr ⟨some answer, rest, hstops.stop hnls hcloses, ?_⟩
      exact Reader.pure_eq_ok.mpr ⟨rfl, rfl⟩
  | @more b nls ts st us sts next hnls h hs ih ihs =>
    intro β stop closes n m answer mid rest hstops hcloses hlead hn hm
    -- the statement has a first token, so the rest of the body is shorter
    obtain ⟨t, vs, rfl, ht⟩ := h.begins
    simp only [List.length_append, List.length_cons] at hn hm
    cases m with
    | zero => omega
    | succ m =>
      have hst := ih n (us ++ mid) st rfl (by rw [lead_append, hlead]) (by simp; omega)
      have hothers := ihs β stop closes n m answer mid rest hstops hcloses hlead (by omega) (by omega)
      simp only [List.append_assoc, List.cons_append] at hst ⊢
      refine Reader.bind_eq_ok.mpr ⟨none, _, hstops.pass hnls ht, ?_⟩
      refine Reader.bind_eq_ok.mpr ⟨st, us ++ mid, hst, ?_⟩
      exact Reader.bind_eq_ok.mpr ⟨_, _, hothers, Reader.pure_eq_ok.mpr ⟨rfl, rfl⟩⟩

/-- **The parser accepts exactly the texts of the grammar**, and answers what they stand for. -/
theorem parse_eq_ok {ts : List Token} {program : List Statement} :
    parse ts = .ok program ↔ Reads (.body false) ts program none := by
  have hparse : parse ts = .ok program ↔ ∃ rest, readProgram ts = .ok (program, rest) := by
    unfold parse
    cases hread : readProgram ts with
    | error stop => simp
    | ok result =>
      obtain ⟨program', rest⟩ := result
      simp
  rw [hparse]
  simp only [readProgram, Reader.bind_eq_ok, remaining_eq_ok, Reader.pure_eq_ok]
  constructor
  · rintro ⟨rest, _, _, ⟨rfl, rfl⟩, ⟨program', _⟩, _, hmany, rfl, rfl⟩
    obtain ⟨p, mid, rfl, hp, rfl, rfl⟩ := manyUntil_reads stops_programEnd readStatement_reads hmany
    simpa using hp
  · intro h
    refine ⟨[], _, _, ⟨rfl, rfl⟩, (program, ()), [], ?_, rfl, rfl⟩
    refine Reader.bind_eq_ok.mpr ⟨_, _, remaining_eq_ok.mpr ⟨rfl, rfl⟩, ?_⟩
    have hread := h.read _ _ _ (ts.length + 1) (ts.length + 1) () [] [] stops_programEnd
      ⟨rfl, rfl⟩ rfl (by omega) (by omega)
    simpa using hread

end Complete

end OctoAsm
