/-
  Labels and their declarations.

  Labels enter the names by two routes, beforehand for what the program shows and on the way inside
  expansions, while the items that declare them come from a third walk.  `Accounts names ds` ties the
  three together: `ds` lists every label bound in `names`, and none twice but those of second bytes.
  Labels shown by the tasks still to come are already in the list; when a task is done, the ones its
  items declare have taken their place.
-/
import OctoAsm.Proofs.Names
import OctoAsm.Proofs.Resolve.Derivation
import OctoAsm.Proofs.Resolve.Values

namespace OctoAsm

/-! ## Accounts -/

/-- The labels bound in a table are those of a list, in which only the labels of second bytes may
    come twice. -/
structure Accounts (names : NameTable) (ds : List (String × Bool)) : Prop where
  mem_iff : ∀ name next, names.get? name = some (.label next) ↔ (name, next) ∈ ds
  distinct : DistinctLabels ds

namespace Accounts

variable {names names' : NameTable} {ds es : List (String × Bool)} {name : String}

/-- Nothing is bound and nothing declared. -/
theorem nil : Accounts [] [] := ⟨by simp, .nil⟩

/-- The order of an account does not matter. -/
theorem perm (h : Accounts names ds) (hp : ds.Perm es) : Accounts names es :=
  ⟨fun name next => (h.mem_iff name next).trans hp.mem_iff, h.distinct.perm hp⟩

theorem rotate {as bs : List (String × Bool)} (h : Accounts names (ds ++ as ++ bs)) :
    Accounts names (ds ++ bs ++ as) := by
  refine h.perm ?_
  rw [List.append_assoc, List.append_assoc]
  exact List.Perm.append_left ds List.perm_append_comm

/-- A new label joins the list. -/
theorem declare_label (h : Accounts names ds) {next : Bool}
    (hd : names.declare name (.label next) = .ok names') :
    Accounts names' (ds ++ [(name, next)]) := by
  obtain ⟨rfl, hold⟩ := NameTable.declare_eq_ok hd
  -- all earlier declarations of the name are, like this one, of second bytes
  have hearlier : ∀ b, (name, b) ∈ ds → b = true ∧ next = true := by
    intro b hb
    have hb := (h.mem_iff name b).mpr hb
    rcases hold with hfree | ⟨old, hold, hyields⟩
    · rw [hfree] at hb; cases hb
    · rw [hb] at hold
      obtain rfl := Option.some.inj hold
      revert hyields
      cases b <;> cases next <;> simp [Binding.yieldsTo]
  refine ⟨?_, ?_⟩
  · intro other b
    by_cases hother : other = name
    · subst hother
      simp only [NameTable.get?_set_self, Option.some.injEq, Binding.label.injEq, List.mem_append,
        List.mem_singleton, Prod.mk.injEq, true_and]
      constructor
      · rintro rfl; exact .inr rfl
      · rintro (hb | rfl)
        · obtain ⟨rfl, rfl⟩ := hearlier b hb; rfl
        · rfl
    · rw [NameTable.get?_set_of_ne _ _ hother, h.mem_iff]
      simp [hother]
  · refine List.pairwise_append.mpr ⟨h.distinct, List.pairwise_singleton _ _, ?_⟩
    intro a ha b hb heq
    obtain rfl := List.mem_singleton.mp hb
    obtain ⟨n, c⟩ := a
    obtain rfl : n = name := heq
    exact hearlier c ha

/-- Binding a name that is no label to something that is no label changes nothing here. -/
theorem set_other (h : Accounts names ds) {b : Binding} (hb : ∀ next, b ≠ .label next)
    (hold : ∀ next, names.get? name ≠ some (.label next)) : Accounts (names.set name b) ds := by
  refine ⟨fun other next => ?_, h.distinct⟩
  by_cases hother : other = name
  · subst hother
    have hne : (other, next) ∉ ds := fun hmem => hold next ((h.mem_iff other next).mpr hmem)
    simp only [NameTable.get?_set_self, Option.some.injEq, hne, iff_false]
    exact hb next
  · rw [NameTable.get?_set_of_ne _ _ hother, h.mem_iff]

/-- Names of other kinds change nothing in the account. -/
theorem declare_other (h : Accounts names ds) {b : Binding} (hb : ∀ next, b ≠ .label next)
    (hd : names.declare name b = .ok names') : Accounts names' ds := by
  obtain ⟨rfl, hold⟩ := NameTable.declare_eq_ok hd
  refine h.set_other hb fun next hnext => ?_
  rcases hold with hfree | ⟨old, hold, hyields⟩
  · rw [hfree] at hnext; cases hnext
  · rw [hold] at hnext
    obtain rfl := Option.some.inj hnext
    revert hyields hb
    cases b <;> cases next <;> simp [Binding.yieldsTo]

/-- Rules of a stringmode change nothing in the account. -/
theorem declareRule (h : Accounts names ds) {rule : CharRule}
    (hd : names.declareRule name rule = .ok names') : Accounts names' ds := by
  obtain ⟨rules, rfl, hold⟩ := NameTable.declareRule_eq_ok hd
  refine h.set_other (by simp) fun next hnext => ?_
  rcases hold with hfree | ⟨earlier, hold⟩
  · rw [hfree] at hnext; cases hnext
  · rw [hold] at hnext; cases hnext

/-- A label statement adds its label to the list, unless the program showed it beforehand. -/
theorem declareLabel {scope : Scope} {token : Token} {next : Bool} {s t : ResolveState}
    (h : Accounts s.names (ds ++ if scope.isEmpty then [(token.text, next)] else []))
    (hd : declareLabel scope token next s = .ok ((), t)) :
    Accounts t.names (ds ++ [(token.text, next)]) := by
  unfold OctoAsm.declareLabel at hd
  split at hd
  · rename_i hempty
    obtain ⟨-, rfl⟩ := Resolver.pure_eq_ok.mp hd
    simpa only [hempty, if_true] using h
  · rename_i hscope
    obtain ⟨names', hnames, rfl⟩ := Resolver.declare_eq_ok.mp hd
    simp only [hscope, Bool.false_eq_true, if_false, List.append_nil] at h
    exact h.declare_label hnames

end Accounts

/-! ## Labels shown beforehand -/

mutual

/-- The labels that a statement shows without any expansion. -/
def Statement.shownLabels : Statement → List (String × Bool)
  | .label name => [(name.text, false)]
  | .next _ name statement => (name.text, true) :: statement.shownLabels
  | .ifThen _ _ body | .whileDo _ _ body => body.shownLabels
  | .ifBegin _ _ body | .loop _ body => shownLabelsOf body
  | .ifElse _ _ body otherwise => shownLabelsOf body ++ shownLabelsOf otherwise
  | .simple _ | .declaration _ | .macroDef .. | .stringMode .. | .invoke .. | .call _
  | .breakIf .. => []

/-- The labels that statements in a row show without any expansion. -/
def shownLabelsOf : List Statement → List (String × Bool)
  | [] => []
  | s :: rest => s.shownLabels ++ shownLabelsOf rest

end

theorem shownLabelsOf_append (a b : List Statement) :
    shownLabelsOf (a ++ b) = shownLabelsOf a ++ shownLabelsOf b := by
  induction a with
  | nil => rfl
  | cons s rest ih => simp [shownLabelsOf, ih]

mutual

/-- Collecting adds the labels that a statement shows. -/
theorem Accounts.collectLabels : ∀ (st : Statement) {names names' : NameTable}
    {ds : List (String × Bool)}, Accounts names ds → collectLabels names st = .ok names' →
      Accounts names' (ds ++ st.shownLabels)
  | .label name, names, names', ds, h, hc => h.declare_label (declareIn_eq_ok hc)
  | .next _ name statement, names, names', ds, h, hc => by
    obtain ⟨names₁, hname, hc⟩ := bind_eq_ok.mp hc
    have h₁ := h.declare_label (declareIn_eq_ok hname)
    simpa [Statement.shownLabels] using h₁.collectLabels statement hc
  | .ifThen _ _ body, names, names', ds, h, hc => h.collectLabels body hc
  | .ifBegin _ _ body, names, names', ds, h, hc => h.collectBlockLabels body hc
  | .ifElse _ _ body otherwise, names, names', ds, h, hc => by
    obtain ⟨names₁, hbody, hc⟩ := bind_eq_ok.mp hc
    have h₁ := h.collectBlockLabels body hbody
    simpa [Statement.shownLabels] using h₁.collectBlockLabels otherwise hc
  | .loop _ body, names, names', ds, h, hc => h.collectBlockLabels body hc
  | .whileDo _ _ body, names, names', ds, h, hc => h.collectLabels body hc
  | .simple _, names, names', ds, h, hc | .declaration _, names, names', ds, h, hc
  | .macroDef .., names, names', ds, h, hc | .stringMode .., names, names', ds, h, hc
  | .invoke .., names, names', ds, h, hc | .call _, names, names', ds, h, hc
  | .breakIf .., names, names', ds, h, hc => by
    obtain rfl := Except.ok.inj hc
    simpa [Statement.shownLabels] using h

/-- The first walk over a block, together with the one over statements. -/
theorem Accounts.collectBlockLabels : ∀ (body : List Statement) {names names' : NameTable}
    {ds : List (String × Bool)}, Accounts names ds → collectBlockLabels names body = .ok names' →
      Accounts names' (ds ++ shownLabelsOf body)
  | [], names, names', ds, h, hc => by
    obtain rfl := Except.ok.inj hc
    simpa [shownLabelsOf] using h
  | st :: rest, names, names', ds, h, hc => by
    obtain ⟨names₁, hst, hc⟩ := bind_eq_ok.mp hc
    have h₁ := h.collectLabels st hst
    simpa [shownLabelsOf] using h₁.collectBlockLabels rest hc

end

/-- Names given from outside are no labels. -/
theorem Accounts.defineAll {names names' : NameTable} {ds : List (String × Bool)}
    (h : Accounts names ds) {defines : List (String × Int)}
    (hd : defineAll names defines = .ok names') : Accounts names' ds := by
  induction defines generalizing names with
  | nil =>
    obtain rfl := Except.ok.inj hd
    exact h
  | cons entry rest ih =>
    obtain ⟨name, value⟩ := entry
    obtain ⟨names₁, hname, hd⟩ := bind_eq_ok.mp hd
    exact ih (h.declare_other (by simp) (declareIn_eq_ok hname)) hd

/-! ## Labels of a derivation -/

/-- The labels of a task that were declared beforehand: none inside of expansions. -/
def Task.shown (task : Task) : List (String × Bool) :=
  if task.scope.isEmpty then task.statement.shownLabels else []

/-- The labels of tasks that were declared beforehand. -/
def shownIn (tasks : List Task) : List (String × Bool) := tasks.flatMap Task.shown

@[simp] theorem shownIn_nil : shownIn [] = [] := rfl

@[simp] theorem shownIn_singleton (task : Task) : shownIn [task] = task.shown := by simp [shownIn]

@[simp] theorem shownIn_append (a b : List Task) : shownIn (a ++ b) = shownIn a ++ shownIn b := by
  simp [shownIn]

/-- Tasks show the labels of their statements when they stand in no expansion. -/
theorem shownIn_tasksOf (scope : Scope) (body : List Statement) :
    shownIn (tasksOf scope body) = if scope.isEmpty then shownLabelsOf body else [] := by
  induction body with
  | nil => simp [tasksOf, shownLabelsOf]
  | cons st rest ih =>
    show Task.shown ⟨scope, st⟩ ++ shownIn (tasksOf scope rest) = _
    rw [ih]
    split <;> simp_all [Task.shown, shownLabelsOf]

/-- What a string expands to stands in an expansion, and shows nothing. -/
theorem shownIn_charTasks (scope : Scope) (rules : List CharRule) (calls : Int) (index : Nat)
    (cs : List Char) : shownIn (charTasks scope rules calls index cs) = [] := by
  induction cs generalizing index with
  | nil => rfl
  | cons c cs ih =>
    rw [charTasks]
    split
    · simp [shownIn_append, shownIn_tasksOf, ih]
    · rfl

/-- An expansion shows no label and binds no name. -/
theorem Expands.shownIn {scope : Scope} {s t : ResolveState} {word : Token} {args : List Token}
    {tasks : List Task} (h : Expands scope s word args tasks t) :
    shownIn tasks = [] ∧ t.names = s.names := by
  cases h with
  | macroDef => exact ⟨by simp [shownIn_tasksOf], rfl⟩
  | stringMode => exact ⟨shownIn_charTasks .., rfl⟩

/-- What the statement of a label adds to the labels declared beforehand. -/
theorem shown_label {scope : Scope} {names : NameTable} {token name : Token} {next : Bool}
    (h : Env.declaredName ⟨names, scope⟩ token = .ok name) :
    (if scope.isEmpty then [(token.text, next)] else []) =
      if scope.isEmpty then [(name.text, next)] else [] := by
  cases scope with
  | nil => rw [Env.declaredName_text h]
  | cons frame outer => rfl

/-- **Labels are accounted for along a derivation**: what its tasks showed beforehand is replaced by
    what its items declare. -/
theorem Resolves.accounts {tasks : List Task} {s t : ResolveState} {items : List Item}
    (h : Resolves tasks s items t) : ∀ ds, Accounts s.names (ds ++ shownIn tasks) →
      Accounts t.names (ds ++ declaredIn items) := by
  induction h with
  | nil => exact fun ds h => h
  | @append as bs s t u xs ys ha hb iha ihb =>
    intro ds h
    rw [shownIn_append, ← List.append_assoc] at h
    -- the second half waits behind the list while the first is done, and the other way round
    have ht : Accounts t.names (ds ++ declaredIn xs ++ shownIn bs) := (iha _ h.rotate).rotate
    simpa using ihb _ ht
  | simple h =>
    intro ds hacc
    simpa [Task.shown, Statement.shownLabels, Env.simple_declares h] using hacc
  | @declaration _ s _ _ _ _ h hd =>
    intro ds hacc
    have hacc : Accounts s.names ds := by simpa [Task.shown, Statement.shownLabels] using hacc
    simpa using hacc.declare_other (Env.declaration_ne_label h) hd
  | label h hd =>
    intro ds hacc
    rw [shownIn_singleton, Task.shown, Statement.shownLabels, shown_label h] at hacc
    simpa [Leaf.declares] using hacc.declareLabel hd
  | @next scope s word token name t inner items u h hd hi ih =>
    intro ds hacc
    have hs : Accounts s.names ((ds ++ Task.shown ⟨scope, inner⟩) ++
        if scope.isEmpty then [(name.text, true)] else []) := by
      refine hacc.perm ?_
      rw [← shown_label h, List.append_assoc, shownIn_singleton]
      refine List.Perm.append_left ds ?_
      cases scope with
      | nil => exact (List.perm_append_singleton _ _).symm
      | cons frame outer => exact .refl _
    -- the label itself comes before those of the statement that it names
    have ht : Accounts t.names (ds ++ [(name.text, true)] ++ Task.shown ⟨scope, inner⟩) :=
      (hs.declareLabel hd).rotate
    rw [← shownIn_singleton] at ht
    simpa [Leaf.declares] using ih _ ht
  | @macroDef _ s _ _ _ _ _ _ h hd =>
    intro ds hacc
    have hacc : Accounts s.names ds := by simpa [Task.shown, Statement.shownLabels] using hacc
    simpa using hacc.declare_other (by simp) hd
  | @stringMode _ s _ _ _ _ _ _ h hd =>
    intro ds hacc
    have hacc : Accounts s.names ds := by simpa [Task.shown, Statement.shownLabels] using hacc
    simpa using hacc.declareRule hd
  | invoke h hi ih | callMacro h hi ih =>
    intro ds hacc
    obtain ⟨hshown, hnames⟩ := h.shownIn
    refine ih ds ?_
    rw [hshown, hnames]
    simpa [Task.shown, Statement.shownLabels] using hacc
  | callNumber h hkind hv | callLabel h hkind hbound | callValue h =>
    intro ds hacc
    simpa [Task.shown, Statement.shownLabels, Leaf.declares] using hacc
  | ifThen hc hb ih | whileDo hc hb ih =>
    intro ds hacc
    simpa [declaredIn, Item.leaves] using
      ih ds (by simpa [Task.shown, Statement.shownLabels] using hacc)
  | ifBegin hc hb ih | loop hb ih =>
    intro ds hacc
    simpa [declaredIn, Item.leaves] using
      ih ds (by simpa [Task.shown, Statement.shownLabels, shownIn_tasksOf] using hacc)
  | @ifElse scope s token condition cond body otherwise items t others u hc hb ho ihb iho =>
    intro ds hacc
    have hs : Accounts s.names ((ds ++ shownIn (tasksOf scope otherwise)) ++
        shownIn (tasksOf scope body)) := by
      refine hacc.perm ?_
      rw [List.append_assoc, shownIn_singleton]
      refine List.Perm.append_left ds ?_
      cases scope with
      | nil => simpa [Task.shown, Statement.shownLabels, shownIn_tasksOf] using List.perm_append_comm
      | cons frame outer => simp [Task.shown, shownIn_tasksOf]
    have ht : Accounts t.names (ds ++ declaredIn items ++ shownIn (tasksOf scope otherwise)) :=
      (ihb _ hs).rotate
    simpa [declaredIn, Item.leaves] using iho _ ht
  | loopUntil hb hc ih =>
    intro ds hacc
    simpa [declaredIn, Item.leaves] using
      ih ds (by simpa [Task.shown, Statement.shownLabels, shownIn_tasksOf, shownLabelsOf_append,
        shownLabelsOf] using hacc)

end OctoAsm
