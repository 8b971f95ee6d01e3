/-
  The rules of a stringmode in another order.

  No two rules of a stringmode cover the same character, so the rule for a character is found
  wherever it stands (`coveringRule?_eq_of_perm`).  Two tables that differ in the order of some rules
  of one stringmode therefore resolve the same statements to the same items, and fail in the same way
  (`resolveBlock_blind`), but for one diagnostic: a further rule of this stringmode that shares
  characters with several of them is refused with the first of these characters in the order of the
  rules (`SameFault`).

  What reads a table never looks into the rules of a stringmode, which is one lemma for each
  function that reads one, and declarations and invocations keep the tables alike.  `Blind` says
  that of a run of the resolver; it is kept by running one step after the other.
-/
import OctoAsm.Proofs.Names
import OctoAsm.Proofs.Resolve.Derivation

namespace OctoAsm

/-! ## Rules -/

/-- No character is covered by both rules. -/
def CharRule.Apart (r r' : CharRule) : Prop :=
  ∀ c ∈ r.alphabet.text.toList, c ∉ r'.alphabet.text.toList

/-- No character is covered by two of the rules. -/
def Apart (rules : List CharRule) : Prop := rules.Pairwise CharRule.Apart

/-- Sharing a character goes both ways. -/
theorem CharRule.Apart.symm {r r' : CharRule} (h : r.Apart r') : r'.Apart r :=
  fun c hc hc' => h c hc' hc

/-- Being apart speaks of pairs in either order, so any order of the rules will do. -/
theorem Apart.perm {rules rules' : List CharRule} (h : Apart rules) (hperm : rules.Perm rules') :
    Apart rules' :=
  (hperm.pairwise_iff fun hr => hr.symm).mp h

section Rules

variable {rules rules' : List CharRule} {c : Char}

/-- A character has no rule exactly when no alphabet has it. -/
theorem coveringRule?_eq_none :
    coveringRule? rules c = none ↔ ∀ r ∈ rules, c ∉ r.alphabet.text.toList := by
  simp [coveringRule?, List.findSome?_eq_none_iff, List.idxOf?_eq_none_iff]

/-- The rule for a character is the one that covers it, with the first position of the character. -/
theorem coveringRule?_eq_some (hapart : Apart rules) {r : CharRule} {v : Nat} :
    coveringRule? rules c = some (r, v) ↔
      r ∈ rules ∧ r.alphabet.text.toList.idxOf? c = some v := by
  constructor
  · intro h
    obtain ⟨r', hr', hfound⟩ := List.exists_of_findSome?_eq_some h
    obtain ⟨v', hv', hpair⟩ := Option.map_eq_some_iff.mp hfound
    obtain ⟨rfl, rfl⟩ := Prod.mk.inj hpair
    exact ⟨hr', hv'⟩
  · rintro ⟨hr, hv⟩
    induction rules with
    | nil => cases hr
    | cons first rest ih =>
      obtain ⟨hfirst, hrest⟩ := List.pairwise_cons.mp hapart
      rw [coveringRule?, List.findSome?_cons]
      rcases List.mem_cons.mp hr with rfl | hr
      · rw [hv]
        rfl
      · -- the first rule does not cover what a later one covers
        have hmem : c ∈ r.alphabet.text.toList := by simpa using congrArg Option.isSome hv
        have hnot : c ∉ first.alphabet.text.toList := fun hc => hfirst r hr c hc hmem
        rw [List.idxOf?_eq_none_iff.mpr hnot]
        exact ih hrest hr

/-- **The rule for a character does not depend on the order of the rules.** -/
theorem coveringRule?_eq_of_perm (hapart : Apart rules) (hperm : rules.Perm rules') :
    coveringRule? rules' = coveringRule? rules := by
  funext c
  cases h : coveringRule? rules c with
  | none =>
    have hnone := coveringRule?_eq_none.mp h
    exact coveringRule?_eq_none.mpr fun r hr => hnone r (hperm.mem_iff.mpr hr)
  | some covering =>
    obtain ⟨hr, hv⟩ := (coveringRule?_eq_some hapart).mp h
    exact (coveringRule?_eq_some (hapart.perm hperm)).mpr ⟨hperm.mem_iff.mp hr, hv⟩

/-- A new alphabet is accepted exactly when it shares no character with a rule. -/
theorem sharedChar?_eq_none {alphabet : String} : NameTable.sharedChar? rules alphabet = none ↔
    ∀ r ∈ rules, ∀ c ∈ r.alphabet.text.toList, c ∉ alphabet.toList := by
  simp only [NameTable.sharedChar?, List.find?_eq_none, List.mem_flatMap, decide_eq_true_eq]
  exact ⟨fun h r hr c hc => h c ⟨r, hr, hc⟩, fun h c ⟨r, hr, hc⟩ => h r hr c hc⟩

/-- The character named in a refusal is one of the new alphabet. -/
theorem mem_of_sharedChar? {alphabet : String}
    (h : NameTable.sharedChar? rules alphabet = some c) : c ∈ alphabet.toList :=
  of_decide_eq_true (List.find?_some h :)

/-- The rules are searched in order, the earlier ones first. -/
theorem sharedChar?_append {more : List CharRule} {alphabet : String} :
    NameTable.sharedChar? (rules ++ more) alphabet =
      (NameTable.sharedChar? rules alphabet).or (NameTable.sharedChar? more alphabet) := by
  simp [NameTable.sharedChar?]

/-- The character named in a refusal is one of an earlier rule, too. -/
theorem covered_of_sharedChar? {alphabet : String}
    (h : NameTable.sharedChar? rules alphabet = some c) :
    ∃ rule ∈ rules, c ∈ rule.alphabet.text.toList := by
  simpa using List.mem_of_find?_eq_some h

/-- One more rule fits if it shares no character with the others. -/
theorem apart_append_singleton {rule : CharRule} : Apart (rules ++ [rule]) ↔
    Apart rules ∧ NameTable.sharedChar? rules rule.alphabet.text = none := by
  rw [sharedChar?_eq_none, Apart, List.pairwise_append]
  simp [Apart, CharRule.Apart]

end Rules

/-! ## Tables -/

/-- Some rules of a stringmode, and the same rules in another order. -/
structure Reorder where
  name : String
  before : List CharRule
  after : List CharRule
  perm : before.Perm after

variable {r : Reorder}

/-- The same binding, or the stringmode with its first rules in the other order. -/
inductive SameBinding (r : Reorder) (name : String) : Option Binding → Option Binding → Prop where
  | refl {b} : SameBinding r name b b
  | rules {more} (hname : name = r.name) (hapart : Apart (r.before ++ more)) :
      SameBinding r name (some (.stringMode (r.before ++ more)))
        (some (.stringMode (r.after ++ more)))

/-- The same names, the first rules of the stringmode maybe in the other order. -/
def NameTable.Reordered (r : Reorder) (t t' : NameTable) : Prop :=
  ∀ name, SameBinding r name (t.get? name) (t'.get? name)

/-- The same state, the first rules of the stringmode maybe in the other order. -/
structure ResolveState.Reordered (r : Reorder) (s s' : ResolveState) : Prop where
  names : s.names.Reordered r s'.names
  log : s'.log = s.log

/-- The same diagnostic, but that a further rule of the stringmode may be refused for another character
    of its alphabet. -/
inductive SameFault (r : Reorder) : ResolveError → ResolveError → Prop where
  | refl {e} : SameFault r e e
  | overlap {t t' : NameTable} {rule : CharRule} {c c' : Char} (ht : t.Reordered r t')
      (hc : t.declareRule r.name rule = .error (.alphabetOverlap c))
      (hc' : t'.declareRule r.name rule = .error (.alphabetOverlap c')) :
      SameFault r (rule.alphabet.blame (.declare (.alphabetOverlap c)))
        (rule.alphabet.blame (.declare (.alphabetOverlap c')))

/-- Rules declared later stand behind the permuted ones in both tables. -/
theorem Reorder.perm_append (r : Reorder) (more : List CharRule) :
    (r.before ++ more).Perm (r.after ++ more) := r.perm.append_right more

namespace NameTable.Reordered

variable {t t' : NameTable}

/-- Binding a name alike on both sides keeps the tables alike, at this name and at every
    other one. -/
theorem set (h : t.Reordered r t') {name : String} {b b' : Binding}
    (hb : SameBinding r name (some b) (some b')) : (t.set name b).Reordered r (t'.set name b') := by
  intro other
  by_cases hother : other = name
  · subst hother
    rwa [get?_set_self, get?_set_self]
  · rw [get?_set_of_ne _ _ hother, get?_set_of_ne _ _ hother]
    exact h other

/-- A declaration looks at kinds only, and those agree: both tables take it, or both refuse it in
    the same way. -/
theorem declare (h : t.Reordered r t') (name : String) (b : Binding) :
    Matches (NameTable.Reordered r) Eq (t.declare name b) (t'.declare name b) := by
  have hset : (t.set name b).Reordered r (t'.set name b) := h.set .refl
  have hname := h name
  rw [NameTable.declare_def, NameTable.declare_def]
  generalize t.get? name = old, t'.get? name = old' at hname
  cases hname with
  | refl =>
    cases old with
    | none => exact .ok hset
    | some old =>
      simp only
      split
      · exact .ok hset
      · split <;> exact .error rfl
  | rules hperm hapart =>
    cases b with
    | _ => exact .error rfl

/-- A rule fits in both tables, or it is refused for the same reason, or it is one more rule of the
    stringmode that shares characters with it. -/
theorem declareRule (h : t.Reordered r t') (name : String) (rule : CharRule) :
    Matches (NameTable.Reordered r)
      (fun e e' => e = e' ∨ name = r.name ∧ ∃ c c', e = .alphabetOverlap c ∧ e' = .alphabetOverlap c')
      (t.declareRule name rule) (t'.declareRule name rule) := by
  have hfresh := h.declare name (.stringMode [rule])
  have hset : ∀ {b}, (t.set name b).Reordered r (t'.set name b) := h.set .refl
  have hname := h name
  rw [NameTable.declareRule_def, NameTable.declareRule_def]
  generalize t.get? name = old, t'.get? name = old' at hname
  cases hname with
  | refl =>
    cases old with
    | none => exact hfresh.mono fun _ _ => .inl
    | some b =>
      cases b with
      | stringMode rules =>
        simp only
        split
        · exact .error (.inl rfl)
        · exact .ok hset
      | _ => exact hfresh.mono fun _ _ => .inl
  | @rules more hname hapart =>
    have hperm := r.perm_append more
    simp only
    cases hshared : sharedChar? (r.before ++ more) rule.alphabet.text with
    | none =>
      have happend := apart_append_singleton.mpr ⟨hapart, hshared⟩
      rw [(apart_append_singleton.mp (happend.perm (hperm.append_right [rule]))).2]
      rw [List.append_assoc] at happend
      simp only [List.append_assoc]
      exact .ok (h.set (.rules hname happend))
    | some c =>
      cases hshared' : sharedChar? (r.after ++ more) rule.alphabet.text with
      | none =>
        have happend := apart_append_singleton.mpr ⟨hapart.perm hperm, hshared'⟩
        have hnone := (apart_append_singleton.mp (happend.perm (hperm.symm.append_right [rule]))).2
        rw [hnone] at hshared
        cases hshared
      | some c' => exact .error (.inr ⟨hname, c, c', rfl, rfl⟩)

end NameTable.Reordered

/-- A rule is refused for a character that it shares with a rule in the table. -/
theorem declareRule_overlap {t : NameTable} {name : String} {rule : CharRule} {c : Char}
    (h : t.declareRule name rule = .error (.alphabetOverlap c)) :
    ∃ rules, t.get? name = some (.stringMode rules) ∧
      NameTable.sharedChar? rules rule.alphabet.text = some c := by
  have hfresh : t.declare name (.stringMode [rule]) ≠ .error (.alphabetOverlap c) := by
    intro h
    rw [NameTable.declare_def] at h
    split at h
    · cases h
    · split at h
      · cases h
      · split at h <;> cases h
  rw [NameTable.declareRule_def] at h
  split at h
  · rename_i rules hrules
    split at h
    · rename_i c₀ hshared
      cases h
      exact ⟨rules, hrules, hshared⟩
    · cases h
  · exact absurd h hfresh

/-- An alphabet has the character, and so has a rule that changes its place. -/
def Reorder.Shares (r : Reorder) (alphabet : Token) (c : Char) : Prop :=
  c ∈ alphabet.text.toList ∧ ∃ rule ∈ r.before, c ∈ rule.alphabet.text.toList

/-- **Two diagnostics differ** in a character that a further alphabet shares with the rules that change
    their places. -/
theorem SameFault.shares {e e' : ResolveError} (h : SameFault r e e') : e = e' ∨
    ∃ alphabet c c', e = Token.blame alphabet (.declare (.alphabetOverlap c)) ∧
      e' = alphabet.blame (.declare (.alphabetOverlap c')) ∧
      r.Shares alphabet c ∧ r.Shares alphabet c' := by
  cases h with
  | refl => exact .inl rfl
  | @overlap t t' rule c c' ht hc hc' =>
    obtain ⟨rules, hrules, hshared⟩ := declareRule_overlap hc
    obtain ⟨rules', hrules', hshared'⟩ := declareRule_overlap hc'
    have hname := ht r.name
    rw [hrules, hrules'] at hname
    cases hname with
    | refl =>
      obtain rfl := Option.some.inj (hshared.symm.trans hshared')
      exact .inl rfl
    | @rules more _ hapart =>
      have hnone : NameTable.sharedChar? r.before rule.alphabet.text = none ↔
          NameTable.sharedChar? r.after rule.alphabet.text = none := by
        simp only [sharedChar?_eq_none, r.perm.mem_iff]
      rw [sharedChar?_append] at hshared hshared'
      cases hbefore : NameTable.sharedChar? r.before rule.alphabet.text with
      | none =>
        -- all that is shared is shared with rules that keep their places
        rw [hbefore, Option.none_or] at hshared
        rw [hnone.mp hbefore, Option.none_or, hshared] at hshared'
        obtain rfl := Option.some.inj hshared'
        exact .inl rfl
      | some c₀ =>
        cases hafter : NameTable.sharedChar? r.after rule.alphabet.text with
        | none => rw [hnone.mpr hafter] at hbefore; cases hbefore
        | some c₁ =>
          rw [hbefore, Option.some_or] at hshared
          rw [hafter, Option.some_or] at hshared'
          obtain rfl := Option.some.inj hshared
          obtain rfl := Option.some.inj hshared'
          obtain ⟨rule₁, hrule₁, hmem₁⟩ := covered_of_sharedChar? hafter
          exact .inr ⟨rule.alphabet, _, _, rfl, rfl,
            ⟨mem_of_sharedChar? hbefore, covered_of_sharedChar? hbefore⟩,
            mem_of_sharedChar? hafter, rule₁, r.perm.mem_iff.mpr hrule₁, hmem₁⟩
/-! ## Reading a table -/

namespace Env

variable {t t' : NameTable} {scope : Scope}

/-- A register is an alias, which is bound alike in both tables. -/
theorem registerOf?_reordered (h : t.Reordered r t') :
    registerOf? ⟨t', scope⟩ = registerOf? ⟨t, scope⟩ := by
  funext token
  have hname := h token.text
  unfold registerOf?
  simp only
  generalize t.get? token.text = b, t'.get? token.text = b' at hname
  cases hname <;> rfl

/-- A configurable register is one as well. -/
theorem hook_reordered (h : t.Reordered r t') : hook ⟨t', scope⟩ = hook ⟨t, scope⟩ := by
  funext name usual
  have hname := h name
  unfold hook
  simp only
  generalize t.get? name = b, t'.get? name = b' at hname
  cases hname <;> rfl

/-- Whether a token is a register does not depend on rules. -/
theorem register?_reordered (h : t.Reordered r t') :
    register? ⟨t', scope⟩ = register? ⟨t, scope⟩ := by
  funext token
  simp only [register?, registerOf?_reordered h]
  rfl

/-- Neither does the register of an operand. -/
theorem register_reordered (h : t.Reordered r t') :
    register ⟨t', scope⟩ = register ⟨t, scope⟩ := by
  funext r
  cases r with
  | literal => rfl
  | named name =>
    refine bind_congr fun token => ?_
    have hname := h token.text
    simp only [registerOf?_reordered h]
    generalize t.get? token.text = b, t'.get? token.text = b' at hname
    cases hname with
    | refl => rfl
    | rules => cases token.kind <;> rfl

/-- A calc name is a constant or a label; a stringmode is refused by its kind. -/
theorem calcName_reordered (h : t.Reordered r t') :
    calcName ⟨t', scope⟩ = calcName ⟨t, scope⟩ := by
  funext name
  refine bind_congr fun token => ?_
  have hname := h token.text
  generalize t.get? token.text = b, t'.get? token.text = b' at hname
  cases hname <;> rfl

/-- An address is taken of labels, which the tables share. -/
theorem addressOf_reordered (h : t.Reordered r t') :
    addressOf ⟨t', scope⟩ = addressOf ⟨t, scope⟩ := by
  funext token e
  cases e with
  | name name =>
    refine bind_congr fun label => ?_
    have hname := h label.text
    generalize t.get? label.text = b, t'.get? label.text = b' at hname
    cases hname with
    | refl => rfl
    | rules => cases label.kind <;> rfl
  | _ => rfl

/-- By induction on the expression, whose names are read alike. -/
theorem fold_reordered (h : t.Reordered r t') : fold ⟨t', scope⟩ = fold ⟨t, scope⟩ := by
  funext e
  induction e with
  | number | string => rfl
  | name token => exact congrFun (calcName_reordered h) token
  | unary token op e ih =>
    cases op with
    | addressOf => exact congrFun (congrFun (addressOf_reordered h) token) e
    | strlen => rfl
    | _ => simp only [fold, ih]
  | binary token op a b iha ihb => simp only [fold, iha, ihb]

/-- A value is read alike: a stringmode is refused as a value before its rules come up. -/
theorem value_reordered (h : t.Reordered r t') : value ⟨t', scope⟩ = value ⟨t, scope⟩ := by
  funext v
  cases v with
  | named name =>
    refine bind_congr fun token => ?_
    have hname := h token.text
    generalize t.get? token.text = b, t'.get? token.text = b' at hname
    cases hname <;> rfl
  | _ => rfl

/-- The bound on the depth is checked on the same folded expression. -/
theorem bounded_reordered (h : t.Reordered r t') : bounded ⟨t', scope⟩ = bounded ⟨t, scope⟩ := by
  funext e
  simp only [bounded, fold_reordered h]

/-- A braced expression gives the same immediate. -/
theorem calcImm_reordered (h : t.Reordered r t') : calcImm ⟨t', scope⟩ = calcImm ⟨t, scope⟩ := by
  funext e
  simp only [calcImm, bounded_reordered h]

/-- A value gives the same immediate within the same range. -/
theorem imm_reordered (h : t.Reordered r t') : imm ⟨t', scope⟩ = imm ⟨t, scope⟩ := by
  funext bits v
  simp only [imm, value_reordered h]

/-- Bare or in braces, an argument is read alike. -/
theorem operand_reordered (h : t.Reordered r t') : operand ⟨t', scope⟩ = operand ⟨t, scope⟩ := by
  funext bits o
  cases o <;> simp only [operand, imm_reordered h, calcImm_reordered h]

/-- An assignment reads registers and values. -/
theorem assignment_reordered (h : t.Reordered r t') :
    assignment ⟨t', scope⟩ = assignment ⟨t, scope⟩ := by
  funext a
  cases a <;> simp only [assignment, register_reordered h, register?_reordered h, imm_reordered h]

/-- A monitor watches a register or a value. -/
theorem monitorTarget_reordered (h : t.Reordered r t') :
    monitorTarget ⟨t', scope⟩ = monitorTarget ⟨t, scope⟩ := by
  funext v
  cases v <;>
    simp only [monitorTarget, register_reordered h, register?_reordered h, imm_reordered h]

/-- A simple statement reads registers and values. -/
theorem simple_reordered (h : t.Reordered r t') : simple ⟨t', scope⟩ = simple ⟨t, scope⟩ := by
  funext st
  cases st with
  | breakpoint => rfl
  | _ => simp only [simple, register_reordered h, imm_reordered h, operand_reordered h,
      calcImm_reordered h, assignment_reordered h, monitorTarget_reordered h, hook_reordered h]

/-- The right side of a condition is a register or a byte. -/
theorem condRhs_reordered (h : t.Reordered r t') : condRhs ⟨t', scope⟩ = condRhs ⟨t, scope⟩ := by
  funext v
  cases v <;> simp only [condRhs, register_reordered h, register?_reordered h, imm_reordered h]

/-- A condition reads a register and a right side. -/
theorem condition_reordered (h : t.Reordered r t') :
    condition ⟨t', scope⟩ = condition ⟨t, scope⟩ := by
  funext c
  cases c <;> simp only [condition, register_reordered h, condRhs_reordered h, hook_reordered h]

/-- An alias stands for a register or an expression. -/
theorem aliasBinding_reordered (h : t.Reordered r t') :
    aliasBinding ⟨t', scope⟩ = aliasBinding ⟨t, scope⟩ := by
  funext target
  cases target <;> simp only [aliasBinding, register_reordered h, calcImm_reordered h]

/-- What a declaration binds does not depend on rules declared before. -/
theorem declaration_reordered (h : t.Reordered r t') :
    declaration ⟨t', scope⟩ = declaration ⟨t, scope⟩ := by
  funext d
  cases d <;>
    simp only [declaration, aliasBinding_reordered h, value_reordered h, bounded_reordered h] <;>
    rfl

end Env

/-! ## Runs -/

/-- The same result, in states that differ in the order of rules only. -/
def SameResult (r : Reorder) {α : Type} (p p' : α × ResolveState) : Prop :=
  p.1 = p'.1 ∧ p.2.Reordered r p'.2

/-- The run does not see the order of rules. -/
def Blind (r : Reorder) {α : Type} (x : Resolver α) : Prop :=
  ∀ s s', s.Reordered r s' → Matches (SameResult r) (SameFault r) (x s) (x s')

namespace Blind

variable {α β : Type} {x : Resolver α} {scope : Scope}

/-- Doing nothing is blind to the order of rules. -/
theorem pure (a : α) : Blind r (Pure.pure a : Resolver α) := fun _ _ h => .ok ⟨rfl, h⟩

/-- So is failing, with one error on both sides. -/
theorem fail (e : ResolveError) : Blind r (Resolver.fail e : Resolver α) := fun _ _ _ => .error .refl

/-- Runs one after the other are blind when each is: the tables stay alike in between. -/
theorem bind {f : α → Resolver β} (hx : Blind r x) (hf : ∀ a, Blind r (f a)) : Blind r (x >>= f) := by
  intro s s' h
  refine (hx s s' h).bind fun p p' hp => ?_
  obtain ⟨a, t⟩ := p
  obtain ⟨a', t'⟩ := p'
  obtain ⟨rfl, ht⟩ := hp
  exact hf a t t' ht

/-- A step that reads the table is blind when what it reads is the same in both tables. -/
theorem look {f : Env → Except ResolveError α}
    (hf : ∀ {t t' : NameTable}, t.Reordered r t' → f ⟨t', scope⟩ = f ⟨t, scope⟩) :
    Blind r (Resolver.look scope f) := by
  intro s s' h
  unfold Resolver.look
  rw [hf h.names]
  cases f ⟨s.names, scope⟩ with
  | ok a => exact .ok ⟨rfl, h⟩
  | error e => exact .error .refl

/-- Declaring a name is blind: both tables take it, or refuse it in the same way. -/
theorem declare (name : Token) (b : Binding) : Blind r (Resolver.declare name b) := by
  intro s s' h
  have hdeclare := h.names.declare name.text b
  unfold Resolver.declare
  generalize s.names.declare name.text b = x, s'.names.declare name.text b = y at hdeclare
  cases hdeclare with
  | ok ht => exact .ok ⟨rfl, ht, h.log⟩
  | error he =>
    subst he
    exact .error .refl

/-- Declaring a rule is blind up to the character named when it is refused, which is all that
    `SameFault` leaves open. -/
theorem declareRule (name : Token) (rule : CharRule) :
    Blind r (Resolver.declareRule name rule) := by
  intro s s' h
  have hdeclare := h.names.declareRule name.text rule
  unfold Resolver.declareRule
  generalize hx : s.names.declareRule name.text rule = x,
    hy : s'.names.declareRule name.text rule = y at hdeclare
  cases hdeclare with
  | ok ht => exact .ok ⟨rfl, ht, h.log⟩
  | error he =>
    rcases he with rfl | ⟨hname, c, c', rfl, rfl⟩
    · rename_i cause
      cases cause <;> exact .error .refl
    · rw [hname] at hx hy
      exact .error (.overlap h.names hx hy)

/-- Declaring a label is blind: its name is read off the scope. -/
theorem declareLabel (name : Token) (next : Bool) : Blind r (declareLabel scope name next) := by
  unfold OctoAsm.declareLabel
  split
  · exact .pure ()
  · exact .declare _ _

/-- Counting an invocation looks at the log, which is the same on both sides. -/
theorem startCall (name : String) : Blind r (Resolver.startCall name) := by
  intro s s' h
  unfold Resolver.startCall
  rw [h.log]
  exact .ok ⟨rfl, h.names, rfl⟩

end Blind

/-- Looking at the state hands the state on to the rest of the run. -/
theorem get_bind {α : Type} (k : ResolveState → Resolver α) (s : ResolveState) :
    (get >>= k) s = k s s := rfl

/-- Bodies are expanded without seeing the order of rules. -/
def Expander.Blind (r : Reorder) (expand : Expander) : Prop :=
  ∀ name frame scope body, OctoAsm.Blind r (expand name frame scope body)

section Walk

variable {expand : Expander}

/-! ## Invocations -/

/-- By induction on the characters: the rules are given, so each character is expanded by one body
    on both sides. -/
theorem expandChars_blind (hexp : expand.Blind r) (scope : Scope) (name text : Token)
    (rules : List CharRule) (calls : Int) (index : Nat) (cs : List Char) :
    Blind r (expandChars expand scope name text rules calls index cs) := by
  induction cs generalizing index with
  | nil => exact .pure _
  | cons c cs ih =>
    unfold expandChars
    cases coveringRule? rules c with
    | none => exact .fail _
    | some covering =>
      exact (hexp name _ scope covering.1.body).bind fun xs => (ih (index + 1)).bind fun ys =>
        .pure _

/-- A string is spelled by given rules after its argument has been substituted. -/
theorem expandStringMode_blind (hexp : expand.Blind r) (scope : Scope) (name : Token)
    (rules : List CharRule) (args : List Token) :
    Blind r (expandStringMode expand scope name rules args) := by
  rcases args with _ | ⟨arg, _ | ⟨arg', rest⟩⟩
  · exact .fail _
  · refine .bind (.look fun _ => rfl) fun text => ?_
    split
    · exact .bind (.startCall _) fun calls => expandChars_blind hexp scope name text rules calls 0 _
    · exact .fail _
  · exact .fail _

/-- An expansion asks the rules for nothing but the rule of a character. -/
theorem expandChars_congr {rules rules' : List CharRule}
    (h : coveringRule? rules' = coveringRule? rules) (scope : Scope) (name text : Token)
    (calls : Int) (index : Nat) (cs : List Char) :
    expandChars expand scope name text rules' calls index cs =
      expandChars expand scope name text rules calls index cs := by
  induction cs generalizing index with
  | nil => rfl
  | cons c cs ih => simp only [expandChars, h, ih]

/-- Rules that find the same rule for each character spell every string alike, though they stand in
    another order. -/
theorem expandStringMode_congr {rules rules' : List CharRule}
    (h : coveringRule? rules' = coveringRule? rules) (scope : Scope) (name : Token)
    (args : List Token) : expandStringMode expand scope name rules' args =
      expandStringMode expand scope name rules args := by
  rcases args with _ | ⟨arg, _ | ⟨arg', rest⟩⟩
  · rfl
  · simp only [expandStringMode, expandChars_congr h]
  · rfl

/-- The body of a macro stands in its binding and is the same on both sides. -/
theorem expandMacro_blind (hexp : expand.Blind r) (scope : Scope) (name : Token)
    (params : List Token) (body : List Statement) (args : List Token) :
    Blind r (expandMacro expand scope name params body args) := by
  unfold expandMacro
  split
  · exact .bind (.startCall _) fun calls => hexp name _ scope body
  · exact .fail _

/-- The only place where the order could show: a stringmode is invoked with the rules of either
    table, and `coveringRule?` finds the same one in both. -/
theorem resolveInvocation_blind (hexp : expand.Blind r) (scope : Scope) (name : Token)
    (args : List Token) : Blind r (resolveInvocation expand scope name args) := by
  refine .bind (.look fun _ => rfl) fun target => ?_
  split
  · intro s s' h
    have hname := h.names target.text
    simp only [get_bind]
    generalize s.names.get? target.text = b, s'.names.get? target.text = b' at hname
    cases hname with
    | refl =>
      cases b with
      | none => exact .error .refl
      | some b =>
        cases b with
        | macroDef params body => exact expandMacro_blind hexp scope target params body args s s' h
        | stringMode rules => exact expandStringMode_blind hexp scope target rules args s s' h
        | _ => exact .error .refl
    | @rules more _ hapart =>
      have hsame : expandStringMode expand scope target (r.after ++ more) args =
          expandStringMode expand scope target (r.before ++ more) args :=
        expandStringMode_congr (coveringRule?_eq_of_perm hapart (r.perm_append more)) scope target args
      simp only [hsame]
      exact expandStringMode_blind hexp scope target (r.before ++ more) args s s' h
  · exact .fail _

/-- A bare name is an invocation without arguments, or a call. -/
theorem resolveCall_blind (hexp : expand.Blind r) (scope : Scope) (name : Token) :
    Blind r (resolveCall expand scope name) := by
  refine .bind (.look fun _ => rfl) fun target => ?_
  cases target.kind with
  | number n => exact .bind (.look fun _ => rfl) fun _ => .pure _
  | name =>
    intro s s' h
    have hinvocation := resolveInvocation_blind hexp scope name [] s s' h
    have hname := h.names target.text
    simp only [get_bind]
    generalize s.names.get? target.text = b, s'.names.get? target.text = b' at hname
    cases hname with
    | refl =>
      cases b with
      | none => exact .error .refl
      | some b =>
        cases b with
        | macroDef params body => exact hinvocation
        | stringMode rules => exact hinvocation
        | label next => exact .ok ⟨rfl, h⟩
        | _ =>
          have hvalue : Blind r (Resolver.look scope (·.imm 12 (.named name))) :=
            .look fun ht => by rw [Env.imm_reordered ht]
          exact (hvalue.bind fun _ => .pure _) s s' h
    | rules => exact hinvocation
  | _ => exact .fail _

/-! ## Statements -/

/-- The declared name is read off the scope. -/
theorem declaredName_blind (scope : Scope) (name : Token) :
    Blind r (Resolver.look scope (·.declaredName name)) := .look fun _ => rfl

/-- A condition reads the table alike, so resolving it is blind. -/
theorem condition_blind (scope : Scope) (cond : Condition) :
    Blind r (Resolver.look scope (·.condition cond)) :=
  .look fun ht => congrFun (Env.condition_reordered ht) cond

mutual

/-- By recursion on the statement, together with the walks over blocks and loops. -/
theorem resolveStatement_blind (hexp : expand.Blind r) : ∀ (st : Statement) (scope : Scope),
    Blind r (resolveStatement expand scope st)
  | .simple s, _ =>
    .bind (.look fun ht => congrFun (Env.simple_reordered ht) s) fun _ => .pure _
  | .declaration d, _ =>
    .bind (.look fun ht => congrFun (Env.declaration_reordered ht) d) fun _ =>
      .bind (.declare _ _) fun _ => .pure _
  | .label name, scope =>
    .bind (declaredName_blind scope name) fun _ => .bind (.declareLabel _ _) fun _ => .pure _
  | .next _ name st, scope =>
    .bind (declaredName_blind scope name) fun _ => .bind (.declareLabel _ _) fun _ =>
      (resolveStatement_blind hexp st scope).bind fun _ => .pure _
  | .macroDef _ name _ _, scope =>
    .bind (declaredName_blind scope name) fun _ => .bind (.declare _ _) fun _ => .pure _
  | .stringMode _ name _ _, scope =>
    .bind (declaredName_blind scope name) fun _ => .bind (.declareRule _ _) fun _ => .pure _
  | .invoke name args, scope => resolveInvocation_blind hexp scope name args
  | .call name, scope => resolveCall_blind hexp scope name
  | .breakIf .., _ => .fail _
  | .ifThen _ cond body, scope | .whileDo _ cond body, scope =>
    .bind (condition_blind scope cond) fun _ =>
      (resolveStatement_blind hexp body scope).bind fun _ => .pure _
  | .ifBegin _ cond body, scope =>
    .bind (condition_blind scope cond) fun _ =>
      (resolveBlock_blind hexp body scope).bind fun _ => .pure _
  | .ifElse _ cond body otherwise, scope =>
    .bind (condition_blind scope cond) fun _ =>
      (resolveBlock_blind hexp body scope).bind fun _ =>
        (resolveBlock_blind hexp otherwise scope).bind fun _ => .pure _
  | .loop _ body, scope =>
    (resolveLoop_blind hexp body scope).bind fun
      | (_, none) => .pure _
      | (_, some _) => .pure _

/-- **Statements do not see the order of the rules of a stringmode.** -/
theorem resolveBlock_blind (hexp : expand.Blind r) : ∀ (body : List Statement) (scope : Scope),
    Blind r (resolveBlock expand scope body)
  | [], _ => .pure _
  | st :: rest, scope =>
    (resolveStatement_blind hexp st scope).bind fun _ =>
      (resolveBlock_blind hexp rest scope).bind fun _ => .pure _

/-- A loop is a block with `while` among its statements; the recursion is the same. -/
theorem resolveLoop_blind (hexp : expand.Blind r) : ∀ (body : List Statement) (scope : Scope),
    Blind r (resolveLoop expand scope body)
  | [], _ => .pure _
  | st :: rest, scope => by
    by_cases hleave : ∃ token condition, st = .breakIf token condition ∧ rest = []
    · obtain ⟨token, condition, rfl, rfl⟩ := hleave
      exact .bind (condition_blind scope condition) fun _ => .pure _
    · rw [resolveLoop_cons hleave]
      exact (resolveStatement_blind hexp st scope).bind fun _ =>
        (resolveLoop_blind hexp rest scope).bind fun _ => .pure _

end

end Walk

/-- Whatever is expanded, however deep. -/
theorem expandWithin_blind (limit depth : Nat) : (expandWithin limit depth).Blind r := by
  induction depth with
  | zero => exact fun _ _ _ _ => .fail _
  | succ depth ih => exact fun _ frame scope body => resolveBlock_blind ih body (frame :: scope)

end OctoAsm
