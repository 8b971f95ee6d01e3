/-
  What a declaration does to the names.

  Declarations work on the table in place, so it has to be shown that one that is refused has not
  touched it yet (`Naming.Atomic`): the check comes first, and the table is changed by the last step
  only.  One that is not refused sets the entry of its name (`declare_eq_ok`, `declareRule_eq_set`).

  A name that is bound to a label stays bound to one: of all bindings only that of a second byte's
  label can be replaced by a label's, and no other can replace it.  What a value mentions is
  therefore still there when the program ends.
-/
import OctoAsm.Proofs.Outcome
import OctoAsm.Resolve.Expansion

namespace OctoAsm

/-! ## In place -/

namespace Naming

variable {ε ε' : Type} {change : Naming ε Unit} {t t' : NameTable}

/-- What a change gives is what it leaves behind when it succeeds. -/
theorem outcome_eq_ok : change.outcome t = .ok t' ↔ change t = .ok () t' := by
  unfold outcome
  cases change t <;> simp

theorem get_bind_apply (f : NameTable → Naming ε Unit) : (get >>= f) t = f t t := rfl

theorem adapt_eq_error {f : ε → ε'} {e : ε'} :
    EStateM.adaptExcept f change t = .error e t' ↔ ∃ e₀, change t = .error e₀ t' ∧ f e₀ = e := by
  unfold EStateM.adaptExcept
  cases change t with
  | ok => simp
  | error e₀ t₀ =>
    constructor
    · intro h
      obtain ⟨rfl, rfl⟩ := EStateM.Result.error.inj h
      exact ⟨e₀, rfl, rfl⟩
    · rintro ⟨e₁, h, rfl⟩
      obtain ⟨rfl, rfl⟩ := EStateM.Result.error.inj h
      rfl

/-- A change that leaves the table as it was if it is refused. -/
def Atomic (change : Naming ε Unit) : Prop := ∀ t e t', change t = .error e t' → t' = t

/-- Another wording of the refusal changes nothing in the table. -/
theorem Atomic.adapt (h : change.Atomic) (f : ε → ε') : Atomic (EStateM.adaptExcept f change) := by
  intro t e t' hadapt
  obtain ⟨e₀, hchange, -⟩ := adapt_eq_error.mp hadapt
  exact h t e₀ t' hchange

variable {name : String} {b : Binding} {rule : CharRule}

/-- What a declaration does to a table: the check comes before the change. -/
theorem declare_apply : declare name b t =
    match t.get? name with
    | none => .ok () (t.set name b)
    | some old =>
      if old.yieldsTo b then .ok () (t.set name b)
      else .error (if old.kind = .label ∧ b.kind = .label then .duplicateLabel
        else .nameInUse old.kind) t := by
  unfold declare
  rw [get_bind_apply]
  cases t.get? name with
  | none => rfl
  | some old =>
    dsimp only
    cases old.yieldsTo b <;> rfl

/-- What a rule does to a table: characters are compared before it is appended. -/
theorem declareRule_apply : declareRule name rule t =
    match t.get? name with
    | some (.stringMode rules) =>
      match NameTable.sharedChar? rules rule.alphabet.text with
      | some c => .error (.alphabetOverlap c) t
      | none => .ok () (t.set name (.stringMode (rules ++ [rule])))
    | _ => declare name (.stringMode [rule]) t := by
  unfold declareRule
  rw [get_bind_apply]
  cases hold : t.get? name with
  | none => rfl
  | some old =>
    cases old with
    | stringMode rules =>
      dsimp only
      cases NameTable.sharedChar? rules rule.alphabet.text with
      | some c => rfl
      | none =>
        show EStateM.Result.ok () (t.appendRule name rule) = _
        rw [NameTable.appendRule, hold]
    | _ => rfl

/-- **A declaration that is refused has not touched the table.** -/
theorem declare_atomic (name : String) (b : Binding) : Atomic (declare name b) := by
  intro t e t' h
  rw [declare_apply] at h
  split at h
  · cases h
  · split at h
    · cases h
    · exact (EStateM.Result.error.inj h).2.symm

/-- **Nor has a rule of a stringmode**, whether characters overlap or the name is something else. -/
theorem declareRule_atomic (name : String) (rule : CharRule) : Atomic (declareRule name rule) := by
  intro t e t' h
  rw [declareRule_apply] at h
  split at h
  · split at h
    · exact (EStateM.Result.error.inj h).2.symm
    · cases h
  · exact declare_atomic name _ t e t' h

/-- A constant from outside is declared or refused like any other name. -/
theorem define_atomic (name : String) (value : Int) : Atomic (define name value) :=
  (declare_atomic name _).adapt _

end Naming

namespace NameTable

variable {t t' : NameTable} {name other : String} {b : Binding}

/-- Two names may be bound in either order. -/
theorem get?_set_comm (h : other ≠ name) (b b' : Binding) (x : String) :
    ((t.set other b).set name b').get? x = ((t.set name b').set other b).get? x := by
  by_cases hname : x = name
  · subst hname
    rw [get?_set_self, get?_set_of_ne _ _ h.symm, get?_set_self]
  · rw [get?_set_of_ne _ _ hname]
    by_cases hother : x = other
    · subst hother
      rw [get?_set_self, get?_set_self]
    · rw [get?_set_of_ne _ _ hother, get?_set_of_ne _ _ hother, get?_set_of_ne _ _ hname]

/-- Declarations without the table of a refusal. -/
theorem declare_def (t : NameTable) (name : String) (b : Binding) : t.declare name b =
    match t.get? name with
    | none => .ok (t.set name b)
    | some old =>
      if old.yieldsTo b then .ok (t.set name b)
      else if old.kind = .label ∧ b.kind = .label then .error .duplicateLabel
      else .error (.nameInUse old.kind) := by
  rw [declare, Naming.outcome, Naming.declare_apply]
  cases t.get? name with
  | none => rfl
  | some old =>
    dsimp only
    by_cases hyields : old.yieldsTo b = true
    · rw [if_pos hyields, if_pos hyields]
    · rw [if_neg hyields, if_neg hyields]
      dsimp only
      split <;> rfl

/-- Rules of stringmodes without the table of a refusal. -/
theorem declareRule_def (t : NameTable) (name : String) (rule : CharRule) :
    t.declareRule name rule =
      match t.get? name with
      | some (.stringMode rules) =>
        match sharedChar? rules rule.alphabet.text with
        | some c => .error (.alphabetOverlap c)
        | none => .ok (t.set name (.stringMode (rules ++ [rule])))
      | _ => t.declare name (.stringMode [rule]) := by
  rw [declareRule, Naming.outcome, Naming.declareRule_apply]
  cases t.get? name with
  | none => rfl
  | some old =>
    cases old with
    | stringMode rules =>
      dsimp only
      cases sharedChar? rules rule.alphabet.text <;> rfl
    | _ => rfl

/-- A declaration sets the entry of a name that is free or may be bound again. -/
theorem declare_eq_ok (h : t.declare name b = .ok t') : t' = t.set name b ∧
    (t.get? name = none ∨ ∃ old, t.get? name = some old ∧ old.yieldsTo b = true) := by
  rw [declare_def] at h
  split at h
  · rename_i hfree
    exact ⟨(Except.ok.inj h).symm, .inl hfree⟩
  · rename_i old hold
    split at h
    · rename_i hyields
      exact ⟨(Except.ok.inj h).symm, .inr ⟨old, hold, hyields⟩⟩
    · split at h <;> cases h

/-- A rule comes behind those that the name has, if it has any. -/
theorem declareRule_eq_set {rule : CharRule} (h : t.declareRule name rule = .ok t') :
    ∃ earlier, t' = t.set name (.stringMode (earlier ++ [rule])) ∧
      (t.get? name = none ∧ earlier = [] ∨ t.get? name = some (.stringMode earlier)) := by
  rw [declareRule_def] at h
  split at h
  · rename_i rules hrules
    split at h
    · cases h
    · exact ⟨rules, (Except.ok.inj h).symm, .inr hrules⟩
  · obtain ⟨rfl, hfree | ⟨old, hold, hyields⟩⟩ := declare_eq_ok h
    · exact ⟨[], rfl, .inl ⟨hfree, rfl⟩⟩
    · cases old <;> simp [Binding.yieldsTo] at hyields

/-- A rule that is declared leaves a stringmode bound, and finds one or nothing there before. -/
theorem declareRule_eq_ok {rule : CharRule} (h : t.declareRule name rule = .ok t') :
    ∃ rules, t' = t.set name (.stringMode rules) ∧
      (t.get? name = none ∨ ∃ earlier, t.get? name = some (.stringMode earlier)) := by
  obtain ⟨earlier, rfl, ⟨hfree, -⟩ | hold⟩ := declareRule_eq_set h
  · exact ⟨_, rfl, .inl hfree⟩
  · exact ⟨_, rfl, .inr ⟨earlier, hold⟩⟩

theorem isLabel_iff : t.isLabel name = true ↔ ∃ next, t.get? name = some (.label next) := by
  unfold isLabel
  split
  · rename_i next h; simp [h]
  · rename_i h
    simp only [Bool.false_eq_true, false_iff]
    rintro ⟨next, hnext⟩
    exact h next hnext

theorem isLabel_set_label (next : Bool) : (t.set name (.label next)).isLabel name = true :=
  isLabel_iff.mpr ⟨next, get?_set_self t name _⟩

theorem isLabel_set_of_ne (h : other ≠ name) : (t.set name b).isLabel other = t.isLabel other := by
  unfold isLabel
  rw [get?_set_of_ne t b h]

/-! ## Labels are kept -/

/-- The labels of the first table are labels in the second. -/
def KeepsLabels (t t' : NameTable) : Prop := ∀ name, t.isLabel name = true → t'.isLabel name = true

theorem KeepsLabels.refl (t : NameTable) : KeepsLabels t t := fun _ h => h

theorem KeepsLabels.trans {t₁ t₂ t₃ : NameTable} (h : KeepsLabels t₁ t₂) (h' : KeepsLabels t₂ t₃) :
    KeepsLabels t₁ t₃ := fun name hname => h' name (h name hname)

theorem KeepsLabels.set (h : t.isLabel name = true → (t.set name b).isLabel name = true) :
    KeepsLabels t (t.set name b) := by
  intro other hother
  by_cases hne : other = name
  · subst hne; exact h hother
  · rw [isLabel_set_of_ne hne]; exact hother

/-- A declaration binds no label to anything else. -/
theorem keepsLabels_of_declare (h : t.declare name b = .ok t') : KeepsLabels t t' := by
  obtain ⟨rfl, hold⟩ := declare_eq_ok h
  refine .set fun hlabel => ?_
  obtain ⟨next, hnext⟩ := isLabel_iff.mp hlabel
  rcases hold with hfree | ⟨old, hold, hyields⟩
  · rw [hfree] at hnext; cases hnext
  · rw [hold] at hnext
    obtain rfl := Option.some.inj hnext
    -- only a label replaces a label
    cases b with
    | label next' => exact isLabel_set_label next'
    | _ => cases next <;> simp [Binding.yieldsTo] at hyields

/-- A rule is declared for a stringmode, and no label is one. -/
theorem keepsLabels_of_declareRule {rule : CharRule} (h : t.declareRule name rule = .ok t') :
    KeepsLabels t t' := by
  obtain ⟨rules, rfl, hold⟩ := declareRule_eq_ok h
  refine .set fun hlabel => ?_
  obtain ⟨next, hnext⟩ := isLabel_iff.mp hlabel
  rcases hold with hfree | ⟨earlier, hold⟩
  · rw [hfree] at hnext; cases hnext
  · rw [hold] at hnext; cases hnext

end NameTable

/-- Declaring a token declares its text, and the token is blamed for a refusal. -/
theorem declareIn_def (names : NameTable) (name : Token) (b : Binding) : declareIn names name b =
    match names.declare name.text b with
    | .ok names => .ok names
    | .error cause => .error (name.blame (.declare cause)) := by
  unfold declareIn Naming.declareToken NameTable.declare Naming.outcome EStateM.adaptExcept
  cases Naming.declare name.text b names <;> rfl

theorem declareIn_eq_ok {names names' : NameTable} {name : Token} {b : Binding}
    (h : declareIn names name b = .ok names') : names.declare name.text b = .ok names' := by
  rw [declareIn_def] at h
  split at h
  · rename_i t ht
    obtain rfl := Except.ok.inj h
    exact ht
  · cases h

end OctoAsm
