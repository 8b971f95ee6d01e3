/-
  Where the leaves and the conditions of a resolved program come from.

  A leaf is what an environment makes of a statement (`Env.Makes`), and some point of the analysis has
  that statement to resolve next (`SourcedLeaf`).  A condition is what an environment makes of one in the
  source, and the names of that environment are bound at some point of the analysis (`Reachable`).  So
  what holds of the tasks and the names all along an analysis can be used of everything in the result.
  The only names that hand values on are calc names, and they are bound by declarations only, to what
  `Env.bounded` makes of an expression (`Step.calcName`).

  The induction is on the derivation of the items.  A derivation does not say how the analysis came
  to its tasks, so the run that leads there is carried along, whatever tasks are still to come.
-/
import OctoAsm.Proofs.Resolve.Sound
import OctoAsm.Proofs.Resolve.Stability

namespace OctoAsm

/-- Names that are bound at some point of an analysis of a program. -/
def Reachable (program : List Statement) (names : NameTable) : Prop :=
  ∃ c, Analysis.Run program (.defining []) c ∧ c.names = names

/-- A leaf that an environment makes of a statement. -/
inductive Env.Makes (env : Env) : Statement → Leaf → Prop where
  | simple {st token l} (h : env.simple st = .ok (token, l)) : Makes env (.simple st) l
  | label {token name} (h : env.declaredName token = .ok name) :
      Makes env (.label token) (.label name.text)
  | nextLabel {word token inner name} (h : env.declaredName token = .ok name) :
      Makes env (.next word token inner) (.nextLabel name.text)
  /-- a name alone that an argument puts a number in the place of -/
  | datum {word target n v} (h : env.substitute word = .ok target) (hkind : target.kind = .number n)
      (hv : Env.inRange target 8 (.number n) = .ok v) : Makes env (.call word) (.byte v)
  | call {word target next} (h : env.substitute word = .ok target) (hkind : target.kind = .name)
      (hbound : env.names.get? target.text = some (.label next)) :
      Makes env (.call word) (.instr (.addr .call (.label target.text)))
  /-- a name alone that stands for a value -/
  | callValue {word v} (h : env.imm 12 (.named word) = .ok v) :
      Makes env (.call word) (.instr (.addr .call v))

/-- A leaf that is made of a statement which some point of an analysis resolves next. -/
def SourcedLeaf (program : List Statement) (l : Leaf) : Prop :=
  ∃ scope st rest s, Analysis.Run program (.defining []) (.resolving (⟨scope, st⟩ :: rest) s) ∧
    Env.Makes ⟨s.names, scope⟩ st l

/-- A condition that an environment with reachable names makes of one in the source. -/
def SourcedCond (program : List Statement) (cond : Cond) : Prop :=
  ∃ (env : Env) (condition : Condition), Reachable program env.names ∧
    env.condition condition = .ok cond

/-! ## Calc names -/

namespace NameTable

variable {t t' : NameTable} {name other : String} {b : Binding} {e : Expr} {depth : Nat}

/-- The expressions that calc names stand for, with their depths, are as they should be. -/
def CalcNames (P : Expr → Nat → Prop) (t : NameTable) : Prop :=
  ∀ name e depth, t.get? name = some (.calcName e depth) → P e depth

theorem calcName_of_set (h : (t.set name b).get? other = some (.calcName e depth)) :
    t.get? other = some (.calcName e depth) ∨ b = .calcName e depth := by
  by_cases hother : other = name
  · subst hother
    rw [get?_set_self] at h
    exact .inr (Option.some.inj h)
  · rw [get?_set_of_ne t b hother] at h
    exact .inl h

theorem calcName_of_declare (hd : t.declare name b = .ok t')
    (h : t'.get? other = some (.calcName e depth)) :
    t.get? other = some (.calcName e depth) ∨ b = .calcName e depth := by
  obtain ⟨rfl, -⟩ := declare_eq_ok hd
  exact calcName_of_set h

theorem calcName_of_declareRule {rule : CharRule} (hd : t.declareRule name rule = .ok t')
    (h : t'.get? other = some (.calcName e depth)) : t.get? other = some (.calcName e depth) := by
  obtain ⟨rules, rfl, -⟩ := declareRule_eq_ok hd
  rcases calcName_of_set h with hbound | hrules
  · exact hbound
  · cases hrules

end NameTable

namespace Analysis

variable {program : List Statement} {c c' : Analysis}

/-- A step binds a calc name only to what its environment makes of an expression. -/
theorem Step.calcName (h : Step program c c') {name : String} {e : Expr} {depth : Nat}
    (hbound : c'.names.get? name = some (.calcName e depth)) :
    c.names.get? name = some (.calcName e depth) ∨
      ∃ scope expr, Env.bounded ⟨c.names, scope⟩ expr = .ok (e, depth) := by
  -- most steps bind nothing, or a name of another kind
  have hstill : c'.names = c.names → c.names.get? name = some (.calcName e depth) :=
    fun heq => heq ▸ hbound
  cases h with
  | define h =>
    have hd := declareIn_eq_ok (Naming.outcome_eq_ok.mpr h)
    exact (NameTable.calcName_of_declare hd hbound).imp_right (by simp)
  | refuse h => exact .inl (hstill (Naming.define_atomic _ _ _ _ _ h))
  | collectLabel h | collectNext h =>
    exact (NameTable.calcName_of_declare (declareIn_eq_ok h) hbound).imp_right (by simp)
  -- the one step that may bind a calc name, and what it binds went through the bound on depths
  | @declaration scope _ _ _ _ _ _ h hd =>
    refine (NameTable.calcName_of_declare hd hbound).imp_right ?_
    rintro rfl
    rcases Env.declaration_eq_ok h with hplain | ⟨expr, e', depth', heq, hexpr⟩
    · simp [Binding.kind] at hplain
    · obtain ⟨rfl, rfl⟩ := Binding.calcName.inj heq
      exact ⟨scope, expr, hexpr⟩
  | label h hd | next h hd =>
    rcases attempt_of_declareLabel hd with heq | hd
    · exact .inl (hstill heq)
    · exact (NameTable.calcName_of_declare hd hbound).imp_right (by simp)
  | macroDef h hd => exact (NameTable.calcName_of_declare hd hbound).imp_right (by simp)
  | stringMode h hd => exact .inl (NameTable.calcName_of_declareRule hd hbound)
  | invoke h | call h => exact .inl (hstill (names_of_expands h))
  | collect | collectParts _ | resolve | parts _ => exact .inl hbound

/-- **What holds of every expression that is bound holds of all calc names**, if it holds of each
    new one as long as it holds of those before. -/
theorem calcNames_of_run {P : Expr → Nat → Prop}
    (hP : ∀ env : Env, env.names.CalcNames P → ∀ expr e depth,
      env.bounded expr = .ok (e, depth) → P e depth)
    (h : Run program (.defining []) c) : c.names.CalcNames P := by
  induction h with
  | refl =>
    intro name e depth hbound
    cases hbound
  | tail _ hstep ih =>
    intro name e depth hbound
    rcases hstep.calcName hbound with hold | ⟨scope, expr, hexpr⟩
    · exact ih name e depth hold
    · exact hP _ ih expr e depth hexpr

end Analysis

/-! ## Values and conditions -/

section Runs

variable {program : List Statement}

theorem Env.Makes.gives {env : Env} {st : Statement} {l : Leaf} (h : env.Makes st l) :
    env.GivesLeaf st.IsSubtraction l := by
  cases h with
  | simple h => exact Env.simple_gives h
  | label h | nextLabel h => exact ⟨by simp [Leaf.values], by simp⟩
  | datum h hkind hv => exact .datum hv
  | call h hkind hbound => exact .call h hkind hbound
  | callValue h => exact .value rfl (.imm h) rfl

/-- **What a derivation makes has a source**, if a run leads to its tasks. -/
theorem Resolves.sourced {tasks : List Task} {s t : ResolveState} {items : List Item}
    (h : Resolves tasks s items t) :
    ∀ rest, Analysis.Run program (.defining []) (.resolving (tasks ++ rest) s) →
      Throughout (SourcedLeaf program) (SourcedCond program) items := by
  induction h with
  | nil => exact fun rest hrun => .nil
  | append ha hb iha ihb =>
    intro rest hrun
    rw [List.append_assoc] at hrun
    -- the run to the first tasks goes on through them to the second ones
    exact (iha _ hrun).append (ihb rest (hrun.trans (Analysis.run_of_resolves ha _)))
  | simple h => exact fun rest hrun => .leaf ⟨_, _, rest, _, hrun, .simple h⟩
  | declaration h hd => exact fun rest hrun => .nil
  | label h hd => exact fun rest hrun => .leaf ⟨_, _, rest, _, hrun, .label h⟩
  | @next _ _ _ _ name _ _ _ _ h hd hi ih =>
    intro rest hrun
    have hleaf : Throughout (SourcedLeaf program) (SourcedCond program)
        [.leaf name.site (.nextLabel name.text)] := .leaf ⟨_, _, rest, _, hrun, .nextLabel h⟩
    -- the inner statement is resolved behind the declaration of its label
    exact hleaf.append (ih rest (hrun.tail (.next h hd)))
  | macroDef h hd => exact fun rest hrun => .nil
  | stringMode h hd => exact fun rest hrun => .nil
  | invoke h hi ih =>
    intro rest hrun
    exact ih rest (hrun.tail (.invoke h))
  | callMacro h hi ih =>
    intro rest hrun
    exact ih rest (hrun.tail (.call h))
  | callNumber h hkind hv =>
    exact fun rest hrun => .leaf ⟨_, _, rest, _, hrun, .datum h hkind hv⟩
  | callLabel h hkind hbound =>
    exact fun rest hrun => .leaf ⟨_, _, rest, _, hrun, .call h hkind hbound⟩
  | callValue h => exact fun rest hrun => .leaf ⟨_, _, rest, _, hrun, .callValue h⟩
  | ifThen hc hb ih | ifBegin hc hb ih | whileDo hc hb ih =>
    intro rest hrun
    have hbody := ih rest (hrun.tail (.parts rfl))
    exact hbody.control (by simp [Item.leaves]) (by simp [Item.conds]) ⟨_, _, ⟨_, hrun, rfl⟩, hc⟩
  | @ifElse scope s _ _ _ body otherwise _ _ _ _ hc hb ho ihb iho =>
    intro rest hrun
    have hparts : Analysis.Run program (.defining [])
        (.resolving (tasksOf scope (body ++ otherwise) ++ rest) s) := hrun.tail (.parts rfl)
    rw [Analysis.tasksOf_append, List.append_assoc] at hparts
    have hbody := ihb _ hparts
    -- the second body starts from the names that the first one leaves
    have hother := iho rest (hparts.trans (Analysis.run_of_resolves hb _))
    exact (hbody.append hother).control (by simp [Item.leaves]) (by simp [Item.conds])
      ⟨_, _, ⟨_, hrun, rfl⟩, hc⟩
  | loop hb ih => exact fun rest hrun => (ih rest (hrun.tail (.parts rfl))).loop
  | @loopUntil scope s _ body leave condition _ _ _ hb hc ih =>
    intro rest hrun
    have hparts : Analysis.Run program (.defining [])
        (.resolving (tasksOf scope (body ++ [.breakIf leave condition]) ++ rest) s) :=
      hrun.tail (.parts rfl)
    rw [Analysis.tasksOf_append, List.append_assoc] at hparts
    have hbody := ih _ hparts
    -- the condition at the end is resolved behind the body
    have hend := hparts.trans (Analysis.run_of_resolves hb _)
    refine hbody.control (by simp [Item.leaves]) ?_ ⟨_, _, ⟨_, hend, rfl⟩, hc⟩
    simp only [Item.conds, List.mem_append, List.mem_singleton]
    exact fun c hmem => hmem.symm

/-- The values of what has a source have one, too. -/
theorem sourced_values {items : List Item}
    (h : Throughout (SourcedLeaf program) (SourcedCond program) items) :
    ∀ v ∈ valuesIn items, ∃ env : Env, Reachable program env.names ∧ env.Gives True v := by
  intro v hv
  rcases List.mem_append.mp hv with hv | hv
  · obtain ⟨l, hl, hv⟩ := List.mem_flatMap.mp hv
    obtain ⟨scope, st, rest, s, hrun, hmakes⟩ := h.leaves l hl
    exact ⟨⟨s.names, scope⟩, ⟨_, hrun, rfl⟩, (hmakes.gives.values v hv).imp fun _ => trivial⟩
  · obtain ⟨cond, hcond, hv⟩ := List.mem_flatMap.mp hv
    obtain ⟨env, condition, hnames, hsource⟩ := h.conds cond hcond
    exact ⟨env, hnames, (Env.condition_gives hsource v hv).imp False.elim⟩

end Runs

/-! ## Whole analyses -/

theorem Analysis.run_of_defineAll {program : List Statement} {names names' : NameTable}
    {defines : List (String × Int)} (h : defineAll names defines = .ok names') :
    Run program (.defining names) (.defining names') := by
  induction defines generalizing names with
  | nil =>
    obtain rfl := Except.ok.inj h
    exact .refl
  | cons entry rest ih =>
    obtain ⟨name, value⟩ := entry
    obtain ⟨names₁, hname, h⟩ := bind_eq_ok.mp h
    exact .head (.define (Naming.outcome_eq_ok.mp hname)) (ih h)

/-- **Everything in a resolved program has a source.** -/
theorem resolve_sourced {options : Options} {program : List Statement} {items : List Item}
    (h : resolve options program = .ok items) :
    Throughout (SourcedLeaf program) (SourcedCond program) items := by
  obtain ⟨defined, labelled, final, hdefined, hlabelled, hrun, -⟩ := resolve_eq_ok h
  have hres := resolveBlock_derivation (expandWithin_derives _ _) program hrun
  have hcollected : Analysis.Run program (.collecting (program ++ []) defined)
      (.collecting [] labelled) := Analysis.run_of_collectBlockLabels program [] hlabelled
  refine hres.sourced [] ?_
  rw [List.append_nil] at hcollected ⊢
  exact (Analysis.run_of_defineAll hdefined).trans (.head .collect (hcollected.tail .resolve))

end OctoAsm
