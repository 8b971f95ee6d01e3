/-
  A stringmode in several declarations.

  Declarations of one stringmode are accepted as long as their alphabets are pairwise disjoint, and
  then the table has their rules in the order of the declarations (`resolveBlock_declares`, by
  induction on the declarations).  The order has no further meaning: a string is spelled out by the
  rules as a set (`Spells`), and all that is resolved behind the declarations does not see it
  (`declarations_commute`).

  One diagnostic does depend on the order, when a body declares one more rule whose alphabet meets
  several of the others (`overlap_depends_on_order`).
-/
import OctoAsm.Proofs.Resolve.Reordering

namespace OctoAsm

/-! ## Spelling -/

/-- The one rule that covers a character, and the character's first position in its alphabet. -/
structure OnlyCovers (rules : List CharRule) (c : Char) (rule : CharRule) (value : Nat) : Prop where
  mem : rule ∈ rules
  covers : rule.alphabet.text.toList[value]? = some c
  first : ∀ i < value, rule.alphabet.text.toList[i]? ≠ some c
  only : ∀ r ∈ rules, c ∈ r.alphabet.text.toList → r = rule

/-- What becomes of the characters of a string, from position `index` on: each stands for the body
    of the rule that covers it, until a body fails or a character is in no alphabet. -/
inductive Spells (expand : Expander) (scope : Scope) (name text : Token) (rules : List CharRule)
    (calls : Int) : Nat → List Char → ResolveState →
      Except ResolveError (List Item × ResolveState) → Prop where
  | done {index : Nat} {s} : Spells expand scope name text rules calls index [] s (.ok ([], s))
  | uncovered {index : Nat} {c cs s} (h : ∀ r ∈ rules, c ∉ r.alphabet.text.toList) :
      Spells expand scope name text rules calls index (c :: cs) s
        (.error (text.blame (.uncoveredChar c)))
  | fails {index : Nat} {c cs s rule} {value : Nat} {e} (hrule : OnlyCovers rules c rule value)
      (hbody : expand name ⟨[], calls, some ⟨c.toNat, index, value⟩⟩ scope rule.body s = .error e) :
      Spells expand scope name text rules calls index (c :: cs) s (.error e)
  | expands {index : Nat} {c cs s rule} {value : Nat} {items t out}
      (hrule : OnlyCovers rules c rule value)
      (hbody : expand name ⟨[], calls, some ⟨c.toNat, index, value⟩⟩ scope rule.body s =
        .ok (items, t))
      (hrest : Spells expand scope name text rules calls (index + 1) cs t out) :
      Spells expand scope name text rules calls index (c :: cs) s
        (out.map fun p => (items ++ p.1, p.2))

section Spelling

variable {expand : Expander} {scope : Scope} {name text : Token} {rules rules' : List CharRule}
  {calls : Int} {index : Nat} {c : Char} {cs : List Char} {s : ResolveState}
  {out : Except ResolveError (List Item × ResolveState)}

theorem coveringRule?_iff_onlyCovers (hapart : Apart rules) {rule : CharRule} {value : Nat} :
    coveringRule? rules c = some (rule, value) ↔ OnlyCovers rules c rule value := by
  constructor
  · intro h
    obtain ⟨hmem, hvalue⟩ := (coveringRule?_eq_some hapart).mp h
    obtain ⟨hlt, hat, hfirst⟩ := List.idxOf?_eq_some_iff.mp hvalue
    refine ⟨hmem, List.getElem?_eq_some_iff.mpr ⟨hlt, hat⟩, fun i hi hc => ?_, fun r hr hc => ?_⟩
    · obtain ⟨_, hat'⟩ := List.getElem?_eq_some_iff.mp hc
      exact hfirst i hi hat'
    · obtain ⟨v, hv⟩ : ∃ v, r.alphabet.text.toList.idxOf? c = some v :=
        Option.isSome_iff_exists.mp (by simpa using hc)
      have hr' := (coveringRule?_eq_some hapart).mpr ⟨hr, hv⟩
      exact (Prod.mk.inj (Option.some.inj (hr'.symm.trans h))).1
  · rintro ⟨hmem, hcovers, hfirst, -⟩
    obtain ⟨hlt, hat⟩ := List.getElem?_eq_some_iff.mp hcovers
    refine (coveringRule?_eq_some hapart).mpr ⟨hmem, List.idxOf?_eq_some_iff.mpr ⟨hlt, hat, ?_⟩⟩
    exact fun i hi hc => hfirst i hi (List.getElem?_eq_some_iff.mpr ⟨Nat.lt_trans hi hlt, hc⟩)

/-- A character that a rule covers: its body first, then the characters behind it. -/
theorem expandChars_cons {rule : CharRule} {value : Nat}
    (hrule : coveringRule? rules c = some (rule, value)) :
    expandChars expand scope name text rules calls index (c :: cs) s =
      expand name ⟨[], calls, some ⟨c.toNat, index, value⟩⟩ scope rule.body s >>= fun p =>
        (expandChars expand scope name text rules calls (index + 1) cs p.2).map fun q =>
          (p.1 ++ q.1, q.2) := by
  rw [expandChars, hrule]
  show (expand name _ scope rule.body s >>= fun p =>
    expandChars expand scope name text rules calls (index + 1) cs p.2 >>= fun q =>
      .ok (p.1 ++ q.1, q.2)) = _
  refine bind_congr fun p => ?_
  cases expandChars expand scope name text rules calls (index + 1) cs p.2 <;> rfl

/-- **A stringmode spells its strings out.** -/
theorem spells_iff (hapart : Apart rules) :
    Spells expand scope name text rules calls index cs s out ↔
      expandChars expand scope name text rules calls index cs s = out := by
  constructor
  -- each way to go on is what the function does with the rule it finds
  · intro h
    induction h with
    | done => rfl
    | uncovered h =>
      rw [expandChars, coveringRule?_eq_none.mpr h]
      rfl
    | fails hrule hbody =>
      rw [expandChars_cons ((coveringRule?_iff_onlyCovers hapart).mpr hrule), hbody,
        error_bind]
    | expands hrule hbody hrest ih =>
      rw [expandChars_cons ((coveringRule?_iff_onlyCovers hapart).mpr hrule), hbody,
        ok_bind, ih]
  · rintro rfl
    -- the other way round, by the character at hand: it has a rule, or it has none
    induction cs generalizing index s with
    | nil => exact .done
    | cons c cs ih =>
      cases hrule : coveringRule? rules c with
      | none =>
        rw [expandChars, hrule]
        exact .uncovered (coveringRule?_eq_none.mp hrule)
      | some covering =>
        obtain ⟨rule, value⟩ := covering
        have honly := (coveringRule?_iff_onlyCovers hapart).mp hrule
        rw [expandChars_cons hrule]
        cases hbody : expand name ⟨[], calls, some ⟨c.toNat, index, value⟩⟩ scope rule.body s with
        | error e => exact .fails honly hbody
        | ok p => exact .expands honly hbody ih

end Spelling

/-! ## Declarations -/

/-- A declaration of a stringmode. -/
structure RuleDeclaration where
  directive : Token
  name : Token
  rule : CharRule

/-- The statement of a declaration. -/
def RuleDeclaration.statement (d : RuleDeclaration) : Statement :=
  .stringMode d.directive d.name d.rule.alphabet d.rule.body

/-- The declaration is one of the given name, where it stands. -/
def RuleDeclaration.Declares (scope : Scope) (name : String) (d : RuleDeclaration) : Prop :=
  ∃ word, scope.substitute d.name = .ok word ∧ word.kind = .name ∧ word.text = name

/-- The statements of declarations. -/
def statementsOf (decls : List RuleDeclaration) : List Statement := decls.map (·.statement)

/-- The rules of declarations. -/
def rulesOf (decls : List RuleDeclaration) : List CharRule := decls.map (·.rule)

/-- The name is bound to a stringmode with these rules; it is free if there are none. -/
def NameTable.HasRules (t : NameTable) (name : String) (rules : List CharRule) : Prop :=
  t.get? name = if rules.isEmpty then none else some (.stringMode rules)

section Declarations

variable {expand : Expander} {scope : Scope} {name : String} {earlier : List CharRule}
  {s : ResolveState} {decls : List RuleDeclaration}

/-- A rule is refused for a shared character only. -/
theorem declareRule_of_hasRules {t : NameTable} (h : t.HasRules name earlier) (rule : CharRule) :
    t.declareRule name rule =
      match NameTable.sharedChar? earlier rule.alphabet.text with
      | some c => .error (.alphabetOverlap c)
      | none => .ok (t.set name (.stringMode (earlier ++ [rule]))) := by
  rw [NameTable.declareRule_def]
  cases earlier with
  | nil =>
    have hfree : t.get? name = none := h
    rw [hfree]
    show t.declare name (.stringMode [rule]) = .ok (t.set name (.stringMode [rule]))
    rw [NameTable.declare_def, hfree]
  | cons first rest =>
    have hbound : t.get? name = some (.stringMode (first :: rest)) := h
    cases hshared : NameTable.sharedChar? (first :: rest) rule.alphabet.text <;>
      simp only [hbound, hshared]

theorem resolveStatement_declares {d : RuleDeclaration} (hd : d.Declares scope name)
    (h : s.names.HasRules name earlier) : resolveStatement expand scope d.statement s =
      match NameTable.sharedChar? earlier d.rule.alphabet.text with
      | some c => .error (d.rule.alphabet.blame (.declare (.alphabetOverlap c)))
      | none =>
        .ok ([], { s with names := s.names.set name (.stringMode (earlier ++ [d.rule])) }) := by
  obtain ⟨word, hword, hkind, rfl⟩ := hd
  have hname : Env.declaredName ⟨s.names, scope⟩ d.name = .ok word := by
    unfold Env.declaredName Env.substitute
    rw [hword, ok_bind, hkind]
    rfl
  show (Resolver.look scope (·.declaredName d.name) s >>= fun p =>
    Resolver.declareRule p.1 d.rule p.2 >>= fun q => .ok ([], q.2)) = _
  rw [Resolver.look, hname, ok_bind, Resolver.declareRule, declareRule_of_hasRules h]
  cases NameTable.sharedChar? earlier d.rule.alphabet.text <;> rfl

/-- What declarations of a name do to a state, the name having some rules before. -/
structure Declared (name : String) (rules : List CharRule) (s t : ResolveState) : Prop where
  log : t.log = s.log
  rules : t.names.HasRules name rules
  others : ∀ other, other ≠ name → t.names.get? other = s.names.get? other

/-- **Declarations are accepted as long as their alphabets are apart.** -/
theorem resolveBlock_declares (expand : Expander) (hdecls : ∀ d ∈ decls, d.Declares scope name)
    (h : s.names.HasRules name earlier) (hapart : Apart earlier) :
    (Apart (earlier ++ rulesOf decls) ∧ ∃ t,
        resolveBlock expand scope (statementsOf decls) s = .ok ([], t) ∧
        Declared name (earlier ++ rulesOf decls) s t) ∨
      (¬ Apart (earlier ++ rulesOf decls) ∧ ∃ e,
        resolveBlock expand scope (statementsOf decls) s = .error e) := by
  induction decls generalizing s earlier with
  | nil =>
    rw [rulesOf, List.map_nil, List.append_nil]
    exact .inl ⟨hapart, s, rfl, rfl, h, fun _ _ => rfl⟩
  | cons d decls ih =>
    obtain ⟨hd, hrest⟩ := List.forall_mem_cons.mp hdecls
    have hrules : earlier ++ rulesOf (d :: decls) = (earlier ++ [d.rule]) ++ rulesOf decls := by
      simp [rulesOf]
    -- a declaration gives no items, so the block goes on with the rest
    have hblock : resolveBlock expand scope (statementsOf (d :: decls)) s =
        resolveStatement expand scope d.statement s >>= fun p =>
          resolveBlock expand scope (statementsOf decls) p.2 >>= fun q => .ok (p.1 ++ q.1, q.2) :=
      rfl
    rw [hblock, resolveStatement_declares hd h, hrules]
    cases hshared : NameTable.sharedChar? earlier d.rule.alphabet.text with
    | some c =>
      -- a shared character shows that the alphabets are not apart, so no order of the rules is
      -- accepted
      refine .inr ⟨fun hall => ?_, _, rfl⟩
      have hnew : Apart (earlier ++ [d.rule]) := (List.pairwise_append.mp hall).1
      rw [(apart_append_singleton.mp hnew).2] at hshared
      cases hshared
    | none =>
      have hnew := apart_append_singleton.mpr ⟨hapart, hshared⟩
      have hset : (s.names.set name (.stringMode (earlier ++ [d.rule]))).HasRules name
          (earlier ++ [d.rule]) := by
        rw [NameTable.HasRules, NameTable.get?_set_self]
        simp
      simp only [ok_bind]
      -- the rule stands behind the earlier ones, and the rest is declared in that table
      rcases ih hrest (s := ⟨s.names.set name (.stringMode (earlier ++ [d.rule])), s.log⟩) hset hnew
        with ⟨hall, t, ht, hlog, hrules', hothers⟩ | ⟨hnot, e, he⟩
      · refine .inl ⟨hall, t, by rw [ht]; rfl, hlog, hrules', fun other hother => ?_⟩
        exact (hothers other hother).trans (NameTable.get?_set_of_ne _ _ hother)
      · exact .inr ⟨hnot, e, by rw [he]; rfl⟩

/-- **The next declaration is accepted** if it leaves the alphabets apart. -/
theorem resolveStatement_declares_iff {d : RuleDeclaration} (hd : d.Declares scope name)
    (h : s.names.HasRules name earlier) (hapart : Apart earlier) :
    (∃ items t, resolveStatement expand scope d.statement s = .ok (items, t)) ↔
      Apart (earlier ++ [d.rule]) := by
  rw [resolveStatement_declares hd h, apart_append_singleton]
  cases NameTable.sharedChar? earlier d.rule.alphabet.text with
  | some c => simp
  | none => simp [hapart]

/-- The rules of a name in another order, and nothing else changed. -/
theorem Declared.reordered {rules rules' : List CharRule} {t t' : ResolveState}
    (h : t.names.HasRules name rules) (h' : Declared name rules' t t') (hapart : Apart rules)
    (hperm : rules.Perm rules') : t.Reordered ⟨name, rules, rules', hperm⟩ t' := by
  refine ⟨fun other => ?_, h'.log⟩
  by_cases hother : other = name
  · subst hother
    -- bound to nothing on both sides, or to rules of which one list permutes the other
    rw [h, h'.rules]
    cases rules with
    | nil =>
      obtain rfl := hperm.nil_eq
      exact .refl
    | cons first rest =>
      have hne : rules'.isEmpty = false := by
        rw [List.isEmpty_eq_false_iff, ← List.length_pos_iff, ← hperm.length_eq]
        exact Nat.zero_lt_succ _
      rw [hne]
      have hboth : Apart ((first :: rest) ++ []) := by rwa [List.append_nil]
      have hrules := SameBinding.rules (r := ⟨other, first :: rest, rules', hperm⟩) rfl hboth
      rw [List.append_nil, List.append_nil] at hrules
      exact hrules
  · rw [h'.others other hother]
    exact .refl

end Declarations

/-- Statements in a row, one part after the other. -/
theorem resolveBlock_append (expand : Expander) (scope : Scope) (front rest : List Statement) :
    resolveBlock expand scope (front ++ rest) = (do
      let items ← resolveBlock expand scope front
      let others ← resolveBlock expand scope rest
      return items ++ others) := by
  induction front with
  | nil => simp [resolveBlock]
  | cons st front ih =>
    rw [List.cons_append, resolveBlock, resolveBlock, ih]
    simp only [bind_assoc, pure_bind, List.append_assoc]

/-- Statements without items only hand their state on. -/
theorem resolveBlock_append_of_ok {expand : Expander} {scope : Scope} {front rest : List Statement}
    {s t : ResolveState} (h : resolveBlock expand scope front s = .ok ([], t)) :
    resolveBlock expand scope (front ++ rest) s = resolveBlock expand scope rest t := by
  rw [resolveBlock_append]
  show (resolveBlock expand scope front s >>= fun p =>
    resolveBlock expand scope rest p.2 >>= fun q => .ok (p.1 ++ q.1, q.2)) = _
  rw [h, ok_bind]
  exact bind_pure _

/-- An invocation of a stringmode with a string goes through the string. -/
theorem resolveInvocation_eq_expandChars {expand : Expander} {scope : Scope} {t : ResolveState}
    {rules : List CharRule} {word arg target text : Token}
    (hword : Env.substitute ⟨t.names, scope⟩ word = .ok target) (hkind : target.kind = .name)
    (hbound : t.names.get? target.text = some (.stringMode rules))
    (harg : Env.substitute ⟨t.names, scope⟩ arg = .ok text) (hstring : text.kind = .string) :
    resolveInvocation expand scope word [arg] t =
      expandChars expand scope target text rules ((t.log.lookup target.text).getD 0 + 1) 0
        text.text.toList
        { t with log := (target.text, (t.log.lookup target.text).getD 0 + 1) :: t.log } := by
  have hlook : ∀ {token found}, Env.substitute ⟨t.names, scope⟩ token = .ok found →
      Resolver.look scope (·.substitute token) t = .ok (found, t) := by
    intro token found h
    exact Resolver.look_eq_ok.mpr ⟨h, rfl⟩
  have hmode : expandStringMode expand scope target rules [arg] t = expandChars expand scope target
      text rules ((t.log.lookup target.text).getD 0 + 1) 0 text.text.toList
      { t with log := (target.text, (t.log.lookup target.text).getD 0 + 1) :: t.log } := by
    show (Resolver.look scope (·.substitute arg) t >>= fun p => _) = _
    rw [hlook harg, ok_bind, if_pos hstring]
    rfl
  show (Resolver.look scope (·.substitute word) t >>= fun p => _) = _
  rw [hlook hword, ok_bind, if_pos hkind, get_bind, hbound]
  exact hmode

/-! ## Declarations in any order -/

/-- The rules of declarations that are made in another order. -/
def Reorder.ofDeclarations (name : String) {decls decls' : List RuleDeclaration}
    (h : decls.Perm decls') : Reorder :=
  ⟨name, rulesOf decls, rulesOf decls', h.map _⟩

/-- Declarations of one stringmode, and what their order is good for. -/
structure DeclarationsCommute (scope : Scope) (name : String) (s : ResolveState)
    (decls : List RuleDeclaration) : Prop where
  /-- all are accepted if and only if no two alphabets have a character in common; -/
  accepted : ∀ expand : Expander,
    (∃ items t, resolveBlock expand scope (statementsOf decls) s = .ok (items, t)) ↔
      Apart (rulesOf decls)
  /-- then the name has their rules, and nothing else has changed; -/
  declared : ∀ (expand : Expander) items t,
    resolveBlock expand scope (statementsOf decls) s = .ok (items, t) →
    items = [] ∧ Declared name (rulesOf decls) s t
  /-- wherever one more declaration stands after these, the same is asked of it -/
  further : Apart (rulesOf decls) → ∀ t, t.names.HasRules name (rulesOf decls) →
    ∀ (expand : Expander) place (d : RuleDeclaration), d.Declares place name →
    ((∃ items u, resolveStatement expand place d.statement t = .ok (items, u)) ↔
      Apart (rulesOf decls ++ [d.rule]))
  /-- in another order they are accepted as well, and whatever follows has the same outcome, -/
  commutes : Apart (rulesOf decls) → ∀ decls' (h : decls.Perm decls') limit depth rest,
    Matches (SameResult (.ofDeclarations name h)) (SameFault (.ofDeclarations name h))
      (resolveBlock (expandWithin limit depth) scope (statementsOf decls ++ rest) s)
      (resolveBlock (expandWithin limit depth) scope (statementsOf decls' ++ rest) s)
  /-- also if other statements stand between them -/
  unseen : Apart (rulesOf decls) → ∀ rules (h : (rulesOf decls).Perm rules) t t',
    t.names.HasRules name (rulesOf decls) → Declared name rules t t' → ∀ limit depth place rest,
    Matches (SameResult ⟨name, _, rules, h⟩) (SameFault ⟨name, _, rules, h⟩)
      (resolveBlock (expandWithin limit depth) place rest t)
      (resolveBlock (expandWithin limit depth) place rest t')
  /-- where two diagnostics count as the same if they are equal, or name two characters that a further
      alphabet shares with these declarations; -/
  differ : ∀ decls' (h : decls.Perm decls') e e', SameFault (.ofDeclarations name h) e e' → e = e' ∨
    ∃ alphabet c c', e = Token.blame alphabet (.declare (.alphabetOverlap c)) ∧
      e' = alphabet.blame (.declare (.alphabetOverlap c')) ∧
      (c ∈ alphabet.text.toList ∧ ∃ rule ∈ rulesOf decls, c ∈ rule.alphabet.text.toList) ∧
      c' ∈ alphabet.text.toList ∧ ∃ rule ∈ rulesOf decls, c' ∈ rule.alphabet.text.toList
  /-- in any order, an invocation with a string has the outcome that the rules as a set spell out -/
  spelled : Apart (rulesOf decls) → ∀ rules, (rulesOf decls).Perm rules →
    ∀ (expand : Expander) t place word arg target text,
      t.names.get? name = some (.stringMode rules) →
      Env.substitute ⟨t.names, place⟩ word = .ok target → target.kind = .name →
      target.text = name → Env.substitute ⟨t.names, place⟩ arg = .ok text → text.kind = .string →
      ∀ out, resolveStatement expand place (.invoke word [arg]) t = out ↔
        Spells expand place target text (rulesOf decls) ((t.log.lookup name).getD 0 + 1) 0
          text.text.toList { t with log := (name, (t.log.lookup name).getD 0 + 1) :: t.log } out

/-- **Declarations of a stringmode commute**, if its name is not bound before. Accepted rules share
    no character, so a character finds its rule in any order of them (`coveringRule?_eq_of_perm`),
    and nothing else ever looks at the order; only a later declaration that is refused names the
    first shared character in the order it finds. -/
theorem declarations_commute {scope : Scope} {name : String} {s : ResolveState}
    {decls : List RuleDeclaration} (hdecls : ∀ d ∈ decls, d.Declares scope name)
    (hfree : s.names.get? name = none) : DeclarationsCommute scope name s decls := by
  -- from a free name: all declarations are accepted, or the alphabets meet and one is refused
  have hdeclares : ∀ (expand : Expander) {ds : List RuleDeclaration},
      (∀ d ∈ ds, d.Declares scope name) →
      (Apart (rulesOf ds) ∧ ∃ t, resolveBlock expand scope (statementsOf ds) s = .ok ([], t) ∧
        Declared name (rulesOf ds) s t) ∨
      (¬ Apart (rulesOf ds) ∧ ∃ e, resolveBlock expand scope (statementsOf ds) s = .error e) := by
    intro expand ds hds
    have hnone : s.names.HasRules name [] := hfree
    simpa using resolveBlock_declares expand hds hnone .nil
  -- behind two tables with the same rules in another order everything goes on alike
  have hunseen : ∀ {rules rules'}, Apart rules → ∀ (hperm : rules.Perm rules') {t t'},
      t.names.HasRules name rules → Declared name rules' t t' → ∀ limit depth place rest,
      Matches (SameResult ⟨name, rules, rules', hperm⟩) (SameFault ⟨name, rules, rules', hperm⟩)
        (resolveBlock (expandWithin limit depth) place rest t)
        (resolveBlock (expandWithin limit depth) place rest t') := by
    intro rules rules' hapart hperm t t' ht ht' limit depth place rest
    have hreordered := ht'.reordered ht hapart hperm
    exact resolveBlock_blind (expandWithin_blind limit depth) rest place t t' hreordered
  constructor
  case accepted =>
    intro expand
    rcases hdeclares expand hdecls with ⟨hapart, t, ht, -⟩ | ⟨hnot, e, he⟩
    · exact ⟨fun _ => hapart, fun _ => ⟨[], t, ht⟩⟩
    · refine ⟨fun ⟨items, t, ht⟩ => ?_, fun hapart => absurd hapart hnot⟩
      cases he.symm.trans ht
  case declared =>
    intro expand items t h
    rcases hdeclares expand hdecls with ⟨-, t', ht', hdeclared⟩ | ⟨-, e, he⟩
    · obtain ⟨rfl, rfl⟩ := Prod.mk.inj (Except.ok.inj (ht'.symm.trans h))
      exact ⟨rfl, hdeclared⟩
    · cases he.symm.trans h
  case further =>
    intro hapart t ht expand place d hd
    exact resolveStatement_declares_iff hd ht hapart
  case commutes =>
    intro hapart decls' hperm limit depth rest
    have hrules : (rulesOf decls).Perm (rulesOf decls') := hperm.map _
    have hdecls' : ∀ d ∈ decls', d.Declares scope name :=
      fun d hd => hdecls d (hperm.mem_iff.mpr hd)
    rcases hdeclares (expandWithin limit depth) hdecls with
      ⟨-, t, ht, hlog, hbound, hothers⟩ | ⟨hnot, -⟩
    case inr => exact absurd hapart hnot
    rcases hdeclares (expandWithin limit depth) hdecls' with
      ⟨-, t', ht', hlog', hbound', hothers'⟩ | ⟨hnot, -⟩
    case inr => exact absurd (hapart.perm hrules) hnot
    -- the two tables differ in the order of the rules only
    have hdiffer : Declared name (rulesOf decls') t t' :=
      ⟨hlog'.trans hlog.symm, hbound', fun o ho => (hothers' o ho).trans (hothers o ho).symm⟩
    rw [resolveBlock_append_of_ok ht, resolveBlock_append_of_ok ht']
    exact hunseen hapart hrules hbound hdiffer limit depth scope rest
  case unseen => exact fun hapart rules hperm t t' ht ht' => hunseen hapart hperm ht ht'
  case differ => exact fun decls' hperm e e' h => h.shares
  case spelled =>
    intro hapart rules hperm expand t place word arg target text hbound hword hkind hname harg
      hstring out
    subst hname
    -- the rules are looked up by character, and any order finds the same one
    rw [spells_iff hapart, ← expandChars_congr (coveringRule?_eq_of_perm hapart hperm),
      ← resolveInvocation_eq_expandChars hword hkind hbound harg hstring]
    exact Iff.rfl

/-- A declaration of the stringmode `s` on a line of its own. -/
def declaresS (line : Nat) (alphabet : String) (body : List Statement) : RuleDeclaration :=
  ⟨⟨line, .directive .stringMode, ":stringmode"⟩, ⟨line, .name, "s"⟩,
    ⟨⟨line, .string, alphabet⟩, body⟩⟩

/-- The invocation of `s` with a string. -/
def invokeS (line : Nat) (text : String) : Statement :=
  .invoke ⟨line, .name, "s"⟩ [⟨line, .string, text⟩]

/-- A reserved name as a byte of data. -/
def reservedByte (line : Nat) (c : Constant) (text : String) : Statement :=
  .simple (.byte ⟨line, .directive .byte, ":byte"⟩ (.value (.named ⟨line, .constant c, text⟩)))

/-- The stringmode `s`: positions in the alphabet for `a` and `b`, in the string for `c` and `d`. -/
def positions : List RuleDeclaration :=
  [declaresS 1 "aab" [reservedByte 1 .value "VALUE"],
    declaresS 2 "cd" [reservedByte 2 .index "INDEX"]]

/-- The items of `s "bad"`. -/
def positionItems : List Item :=
  [.leaf ⟨1, ":byte"⟩ (.byte (.number 2)), .leaf ⟨1, ":byte"⟩ (.byte (.number 0)),
    .leaf ⟨2, ":byte"⟩ (.byte (.number 2))]

/-- The declarations of `positions` the other way round give the same items. -/
theorem declarations_commute_positions :
    (∀ d ∈ positions, d.Declares [] "s") ∧ NameTable.get? [] "s" = none ∧ ∃ t,
      resolveBlock (expandWithin 1 1) [] (statementsOf positions.reverse ++ [invokeS 3 "bad"])
        ⟨[], []⟩ = .ok (positionItems, t) := by
  have hdecls : ∀ d ∈ positions, d.Declares [] "s" := by
    simp [positions, declaresS, RuleDeclaration.Declares, Scope.substitute]
  have hresolved : ∃ t, resolveBlock (expandWithin 1 1) []
      (statementsOf positions ++ [invokeS 3 "bad"]) ⟨[], []⟩ = .ok (positionItems, t) := ⟨_, rfl⟩
  obtain ⟨t, ht⟩ := hresolved
  have hcommute : DeclarationsCommute [] "s" ⟨[], []⟩ positions := declarations_commute hdecls rfl
  have hapart : Apart (rulesOf positions) := by
    simp [Apart, rulesOf, positions, declaresS, CharRule.Apart]
  -- both orders give the same items, and those of the first order are known
  have hboth := hcommute.commutes hapart positions.reverse (List.reverse_perm _).symm 1 1
    [invokeS 3 "bad"]
  rw [ht] at hboth
  refine ⟨hdecls, rfl, ?_⟩
  generalize resolveBlock (expandWithin 1 1) [] (statementsOf positions.reverse ++
    [invokeS 3 "bad"]) ⟨[], []⟩ = y at hboth
  cases hboth with
  | @ok _ p hp =>
    obtain ⟨items, t'⟩ := p
    obtain ⟨rfl, -⟩ := hp
    exact ⟨t', rfl⟩

/-- The stringmode `s`, which declares one more rule for itself when it expands `x`. -/
def extending : List RuleDeclaration :=
  [declaresS 1 "ab" [], declaresS 2 "cd" [], declaresS 3 "x" [(declaresS 4 "bc" []).statement]]

/-- `extending` with the first two declarations swapped. -/
def extendingSwapped : List RuleDeclaration :=
  [declaresS 2 "cd" [], declaresS 1 "ab" [], declaresS 3 "x" [(declaresS 4 "bc" []).statement]]

/-- The new rule shares `b` with one rule and `c` with another, and is refused for the character of
    the one that was declared first. -/
theorem overlap_depends_on_order :
    extending.Perm extendingSwapped ∧ Apart (rulesOf extending) ∧
    resolveBlock (expandWithin 64 64) [] (statementsOf extending ++ [invokeS 7 "x"]) ⟨[], []⟩ =
      .error ⟨4, "\"bc\"", .declare (.alphabetOverlap 'b')⟩ ∧
    resolveBlock (expandWithin 64 64) [] (statementsOf extendingSwapped ++ [invokeS 7 "x"])
      ⟨[], []⟩ =
      .error ⟨4, "\"bc\"", .declare (.alphabetOverlap 'c')⟩ := by
  refine ⟨.swap _ _ _, ?_, rfl, rfl⟩
  simp [Apart, rulesOf, extending, declaresS, CharRule.Apart]

end OctoAsm
