/-
  Constants declared from outside.

  A constant from outside is bound before the labels of the program are collected, and one that the
  first line declares is bound after them.  In between, the tables differ by that one binding.  A
  label of the same name is refused either way, in the first case as a label and in the second because
  the constant comes too late; every other label sees the same names (`declareLabels_define`, by
  induction on the labels).  From then on the two resolutions go through the same statements on
  different lines.
-/
import OctoAsm.Proofs.Resolve.Labels
import OctoAsm.Proofs.Resolve.Relocation

namespace OctoAsm

/-! ## Labels -/

/-- Declares labels in order. -/
def NameTable.declareLabels (names : NameTable) (labels : List (String × Bool)) :
    Except DeclareCause NameTable :=
  labels.foldlM (fun t l => t.declare l.1 (.label l.2)) names

theorem declareLabels_append (names : NameTable) (ls ls' : List (String × Bool)) :
    names.declareLabels (ls ++ ls') = names.declareLabels ls >>= fun t => t.declareLabels ls' :=
  List.foldlM_append

theorem declareIn_agree (names : NameTable) (name : Token) (b : Binding) :
    Agree Eq (declareIn names name b) (names.declare name.text b) := by
  rw [declareIn_def]
  cases names.declare name.text b with
  | ok t => exact .ok rfl
  | error cause => exact .error

mutual

/-- Collecting the labels of a statement declares those it shows. -/
theorem collectLabels_agree : ∀ (st : Statement) (names : NameTable),
    Agree Eq (collectLabels names st) (names.declareLabels st.shownLabels)
  | .label name, names => by
    show Agree Eq (declareIn names name (.label false))
      (names.declare name.text (.label false) >>= pure)
    rw [bind_pure]
    exact declareIn_agree names name (.label false)
  | .next _ name st, names =>
    (declareIn_agree names name _).bind_eq fun t => collectLabels_agree st t
  | .ifThen _ _ body, names => collectLabels_agree body names
  | .ifBegin _ _ body, names => collectBlockLabels_agree body names
  | .ifElse _ _ body otherwise, names => by
    rw [Statement.shownLabels, declareLabels_append]
    exact (collectBlockLabels_agree body names).bind_eq fun t =>
      collectBlockLabels_agree otherwise t
  | .loop _ body, names => collectBlockLabels_agree body names
  | .whileDo _ _ body, names => collectLabels_agree body names
  | .simple _, names | .declaration _, names | .macroDef .., names | .stringMode .., names
  | .invoke .., names | .call _, names | .breakIf .., names => .ok rfl

theorem collectBlockLabels_agree : ∀ (body : List Statement) (names : NameTable),
    Agree Eq (collectBlockLabels names body) (names.declareLabels (shownLabelsOf body))
  | [], names => .ok rfl
  | st :: rest, names => by
    rw [shownLabelsOf, declareLabels_append]
    exact (collectLabels_agree st names).bind_eq fun t => collectBlockLabels_agree rest t

end

section Lines

variable {f : Token → Token}

mutual

/-- A statement shows the same labels on other lines. -/
theorem shownLabels_mapTokens (hf : Relines f) :
    ∀ st : Statement, (st.mapTokens f).shownLabels = st.shownLabels
  | .label name => by simp only [Statement.mapTokens, Statement.shownLabels, hf.text]
  | .next _ name st => by
    simp only [Statement.mapTokens, Statement.shownLabels, hf.text, shownLabels_mapTokens hf st]
  | .ifThen _ _ body | .whileDo _ _ body => shownLabels_mapTokens hf body
  | .ifBegin _ _ body | .loop _ body => shownLabelsOf_mapTokens hf body
  | .ifElse _ _ body otherwise => by
    simp only [Statement.mapTokens, Statement.shownLabels, shownLabelsOf_mapTokens hf body,
      shownLabelsOf_mapTokens hf otherwise]
  | .simple _ | .declaration _ | .macroDef .. | .stringMode .. | .invoke .. | .call _
  | .breakIf .. => rfl

theorem shownLabelsOf_mapTokens (hf : Relines f) :
    ∀ body : List Statement, shownLabelsOf (mapTokensAll f body) = shownLabelsOf body
  | [] => rfl
  | st :: rest => by
    rw [mapTokensAll, shownLabelsOf, shownLabelsOf, shownLabels_mapTokens hf st,
      shownLabelsOf_mapTokens hf rest]

end

end Lines

/-! ## A constant before the labels, or after them -/

section Constant

variable {f : Token → Token} {name : String} {value : Int}

theorem keepsLabels_of_declareLabels {names names' : NameTable} {ls : List (String × Bool)}
    (h : names.declareLabels ls = .ok names') : NameTable.KeepsLabels names names' := by
  induction ls generalizing names with
  | nil =>
    obtain rfl := Except.ok.inj h
    exact .refl _
  | cons l ls ih =>
    obtain ⟨t, ht, h⟩ := bind_eq_ok.mp h
    exact (NameTable.keepsLabels_of_declare ht).trans (ih h)

/-- A label is no constant. -/
theorem declare_const_of_isLabel {names : NameTable} (h : names.isLabel name = true)
    (value : Int) : ∃ cause, names.declare name (.const value) = .error cause := by
  obtain ⟨next, hnext⟩ := NameTable.isLabel_iff.mp h
  rw [NameTable.declare_def, hnext]
  cases next <;> exact ⟨_, rfl⟩

/-- The first table has the constant already, and the second will get it. -/
structure Ahead (f : Token → Token) (name : String) (value : Int) (a b : NameTable) : Prop where
  free : b.get? name = none
  names : a.Relined f (b.set name (.const value))

namespace Ahead

variable {a b : NameTable} {other : String}

theorem get?_const (h : Ahead f name value a b) : a.get? name = some (.const value) := by
  have hname := h.names name
  rw [NameTable.get?_set_self] at hname
  obtain ⟨old, hold, hconst⟩ := Option.map_eq_some_iff.mp hname.symm
  cases old with
  | const n => rw [hold]; exact congrArg some hconst
  | _ => cases hconst

/-- Any other name may be bound first or last. -/
theorem set (h : Ahead f name value a b) (hother : other ≠ name) (next : Bool) :
    Ahead f name value (a.set other (.label next)) (b.set other (.label next)) := by
  refine ⟨?_, fun x => ?_⟩
  · rw [NameTable.get?_set_of_ne _ _ hother.symm]
    exact h.free
  · rw [NameTable.get?_set_comm hother]
    exact h.names.set other (.label next) x

/-- A label of another name finds the same names with the constant and without it. -/
theorem declare (h : Ahead f name value a b) (hother : other ≠ name) (next : Bool) :
    Agree (Ahead f name value) (a.declare other (.label next)) (b.declare other (.label next)) := by
  have hget : b.get? other = (a.get? other).map (Binding.mapTokens f) := by
    rw [← h.names other, NameTable.get?_set_of_ne _ _ hother]
  exact NameTable.Relined.declare_agree (b := .label next) hget (h.set hother next)

end Ahead

/-- A constant is no label's name, and a label's name is no constant. -/
theorem declareLabels_clash {a b : NameTable} (h : Ahead f name value a b) (next : Bool)
    (ls : List (String × Bool)) :
    Agree (NameTable.Relined f) (a.declareLabels ((name, next) :: ls))
      (b.declareLabels ((name, next) :: ls) >>= fun t => t.declare name (.const value)) := by
  have ha : a.declare name (.label next) = .error (.nameInUse .const) := by
    rw [NameTable.declare_def, h.get?_const]
    rfl
  have hb : b.declare name (.label next) = .ok (b.set name (.label next)) := by
    rw [NameTable.declare_def, h.free]
  show Agree _ (a.declare name (.label next) >>= fun t => t.declareLabels ls)
    ((b.declare name (.label next) >>= fun t => t.declareLabels ls) >>= fun t => _)
  rw [ha, hb, ok_bind]
  cases hls : (b.set name (.label next)).declareLabels ls with
  | error cause => exact .error
  | ok t =>
    have hlabel := keepsLabels_of_declareLabels hls name (NameTable.isLabel_set_label next)
    obtain ⟨cause, hcause⟩ := declare_const_of_isLabel hlabel value
    rw [ok_bind, hcause]
    exact .error

/-- **Labels behind a constant, and a constant behind the labels.** -/
theorem declareLabels_define {a b : NameTable} (h : Ahead f name value a b)
    (ls : List (String × Bool)) :
    Agree (NameTable.Relined f) (a.declareLabels ls)
      (b.declareLabels ls >>= fun t => t.declare name (.const value)) := by
  induction ls generalizing a b with
  | nil =>
    show Agree _ (Except.ok a) (b.declare name (.const value))
    rw [NameTable.declare_def, h.free]
    exact .ok h.names
  | cons l ls ih =>
    obtain ⟨other, next⟩ := l
    by_cases hother : other = name
    · subst hother
      exact declareLabels_clash h next ls
    · show Agree _ (a.declare other (.label next) >>= fun t => t.declareLabels ls)
        ((b.declare other (.label next) >>= fun t => t.declareLabels ls) >>= fun t => _)
      rw [bind_assoc]
      exact (h.declare hother next).bind fun a' b' h' => ih h'

/-- The labels of a program behind a constant, and a constant behind the labels of the same program on
    other lines. -/
theorem collectBlockLabels_define (hf : Relines f) {a b : NameTable} (h : Ahead f name value a b)
    (body : List Statement) {word : Token} (hword : word.text = name) :
    Agree (NameTable.Relined f) (collectBlockLabels a body)
      (collectBlockLabels b (mapTokensAll f body) >>= fun t => declareIn t word (.const value)) := by
  have hbefore := collectBlockLabels_agree body a
  have hafter := (collectBlockLabels_agree (mapTokensAll f body) b).bind_eq fun t =>
    declareIn_agree t word (.const value)
  rw [shownLabelsOf_mapTokens hf, hword] at hafter
  exact .congr hbefore hafter (declareLabels_define h (shownLabelsOf body))

/-! ## Programs -/

/-- A declaration of a constant outside of all expansions. -/
theorem resolveBlock_const (expand : Expander) {directive word number : Token}
    (hkind : word.kind = .name) (body : List Statement) (names : NameTable) :
    resolveBlock expand [] (.declaration (.const directive word (.number number value)) :: body)
        ⟨names, []⟩ =
      declareIn names word (.const value) >>= fun t => resolveBlock expand [] body ⟨t, []⟩ := by
  have hfound : Env.declaration ⟨names, []⟩ (.const directive word (.number number value)) =
      .ok (word, .const value) := by
    obtain ⟨line, kind, text⟩ := word
    obtain rfl : kind = .name := hkind
    rfl
  have hstatement : resolveStatement expand []
      (.declaration (.const directive word (.number number value))) ⟨names, []⟩ =
        declareIn names word (.const value) >>= fun t => .ok ([], ⟨t, []⟩) := by
    show (Resolver.look [] (·.declaration (.const directive word (.number number value))) ⟨names, []⟩
      >>= fun p => Resolver.declare p.1.1 p.1.2 p.2 >>= fun q => .ok ([], q.2)) = _
    rw [Resolver.look, hfound, ok_bind, Resolver.declare, declareIn_def]
    cases names.declare word.text (.const value) <;> rfl
  show (resolveStatement expand [] _ ⟨names, []⟩ >>= fun p =>
    resolveBlock expand [] body p.2 >>= fun q => .ok (p.1 ++ q.1, q.2)) = _
  rw [hstatement, bind_assoc]
  congr 1
  funext t
  show (resolveBlock expand [] body ⟨t, []⟩ >>= pure) = _
  rw [bind_pure]

/-- The items of a program whose labels are collected. -/
def resolveLabelled (limit : Nat) (program : List Statement) (names : NameTable) :
    Except ResolveError (List Item) := do
  let (items, state) ← resolveBlock (expandWithin limit limit) [] program ⟨names, []⟩
  if state.names.isLabel "main" then return items
  else throw ⟨lastLine items, "main", .missingMain⟩

/-- A constant of the first line is declared once the labels are. -/
theorem resolveLabelled_const (limit : Nat) {directive word number : Token}
    (hkind : word.kind = .name) (body : List Statement) (names : NameTable) :
    resolveLabelled limit (.declaration (.const directive word (.number number value)) :: body)
        names = declareIn names word (.const value) >>= resolveLabelled limit body := by
  unfold resolveLabelled
  rw [resolveBlock_const _ hkind, bind_assoc]

theorem resolveLabelled_relined (hf : Relines f) (limit : Nat) (body : List Statement)
    {names names' : NameTable} (h : names.Relined f names') :
    Agree (Alike SameText) (resolveLabelled limit body names)
      (resolveLabelled limit (mapTokensAll f body) names') := by
  have hexpand := expandWithin_relined hf limit limit
  have hblock := resolveBlock_relined hf hexpand body [] ⟨names, []⟩ ⟨names', []⟩ ⟨h, rfl⟩
  refine hblock.bind fun p p' hp => ?_
  have hmain := hp.2.names.isLabel "main"
  show Agree _ (if p.2.names.isLabel "main" then pure p.1 else throw _)
    (if p'.2.names.isLabel "main" then pure p'.1 else throw _)
  rw [hmain]
  split
  · exact .ok hp.1
  · exact .error

/-- **A constant from outside is a constant of the first line.** -/
theorem resolve_define (hf : Relines f) {options : Options} (hnone : options.defines = [])
    {directive word number : Token} (hkind : word.kind = .name) (hword : word.text = name)
    (body : List Statement) :
    Agree (Alike SameText) (resolve { options with defines := [(name, value)] } body)
      (resolve options
        (.declaration (.const directive word (.number number value)) :: mapTokensAll f body)) := by
  have hahead : Ahead f name value (NameTable.set [] name (.const value)) [] := by
    refine ⟨rfl, ?_⟩
    have hnil : NameTable.Relined f [] [] := fun _ => rfl
    exact hnil.set name (.const value)
  have hlabels := collectBlockLabels_define hf hahead body hword
  have hafter : resolve options
      (.declaration (.const directive word (.number number value)) :: mapTokensAll f body) =
      (collectBlockLabels [] (mapTokensAll f body) >>= fun t => declareIn t word (.const value)) >>=
        resolveLabelled options.maxExpansionDepth (mapTokensAll f body) := by
    unfold resolve
    rw [hnone]
    show (collectBlockLabels [] (mapTokensAll f body) >>= resolveLabelled _ (_ :: _)) = _
    rw [bind_assoc]
    congr 1
    funext t
    exact resolveLabelled_const _ hkind _ t
  rw [hafter]
  show Agree _ (collectBlockLabels (NameTable.set [] name (.const value)) body >>=
    resolveLabelled options.maxExpansionDepth body) _
  exact hlabels.bind fun t t' ht => resolveLabelled_relined hf _ body ht

end Constant

end OctoAsm
