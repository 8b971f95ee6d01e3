/-
  The addresses of labels.

  The first pass records an address at every declaration it comes past; the second pass records
  none.  So the addresses of a label after a first pass are those before it, followed by the ones
  that the moves of the pass declare, in order (`recorded_follow`): `mark?` reads them off the trail.

  Two facts about later declarations carry what is proved about the two passes.  The address of the
  next byte only grows, so what a later move declares is not below it (`pc_le_of_mem_trail`).  And a
  label that has an address already is declared again only as the label of a second byte (`Ready`),
  so its later addresses lie strictly beyond the address of the next byte.
-/
import OctoAsm.Proofs.Image.Growth

namespace OctoAsm

/-! ## Contents of a plan -/

/-- The leaf that an act appends. -/
def Act.leaf? : Act → Option Leaf
  | .leaf l => some l
  | _ => none

/-- The condition that an act tests. -/
def Act.cond? : Act → Option Cond
  | .skip cond _ => some cond
  | _ => none

/-- The values that an act looks at. -/
def Act.values : Act → List (Imm × Option Nat)
  | .leaf l => l.values
  | .skip cond _ => cond.values
  | _ => []

theorem Act.declares_eq (a : Act) : a.declares = a.leaf?.bind Leaf.declares := by
  cases a <;> rfl

section Moves

variable (m : Move) (rest a b : List Move)

/-- The leaves that moves append, in order. -/
def leavesBy (moves : List Move) : List Leaf := moves.filterMap (·.act.leaf?)

@[simp] theorem leavesBy_nil : leavesBy [] = [] := rfl

theorem leavesBy_cons : leavesBy (m :: rest) = m.act.leaf?.toList ++ leavesBy rest := by
  cases h : m.act.leaf? <;> simp [leavesBy, h]

theorem leavesBy_append : leavesBy (a ++ b) = leavesBy a ++ leavesBy b := by simp [leavesBy]

/-- The conditions that moves test, in order. -/
def condsBy (moves : List Move) : List Cond := moves.filterMap (·.act.cond?)

@[simp] theorem condsBy_nil : condsBy [] = [] := rfl

theorem condsBy_cons : condsBy (m :: rest) = m.act.cond?.toList ++ condsBy rest := by
  cases h : m.act.cond? <;> simp [condsBy, h]

theorem condsBy_append : condsBy (a ++ b) = condsBy a ++ condsBy b := by simp [condsBy]

/-- The labels that moves declare, in order. -/
def declaredBy (moves : List Move) : List (String × Bool) := moves.filterMap (·.act.declares)

theorem declaredBy_cons : declaredBy (m :: rest) = m.act.declares.toList ++ declaredBy rest := by
  cases h : m.act.declares <;> simp [declaredBy, h]

end Moves

mutual

/-- The plan of an item has its leaves, in the order of the program; by recursion on the item. -/
theorem leavesBy_plan : ∀ i : Item, leavesBy i.plan = i.leaves
  | .leaf _ _ => rfl
  | .ifThen _ _ body | .ifBegin _ _ body | .loop _ body | .loopUntil _ body _
  | .whileDo _ _ body => by
    have hbody := leavesBy_planOf body
    simp [Item.plan, Item.leaves, leavesBy_cons, leavesBy_append, Act.leaf?, hbody]
  | .ifElse _ _ body otherwise => by
    have hbody := leavesBy_planOf body
    have hother := leavesBy_planOf otherwise
    simp [Item.plan, Item.leaves, leavesBy_cons, leavesBy_append, Act.leaf?, hbody, hother]

/-- The plan appends the leaves of the program. -/
theorem leavesBy_planOf : ∀ items : List Item, leavesBy (planOf items) = leavesOf items
  | [] => rfl
  | i :: rest => by
    rw [planOf, leavesBy_append, leavesBy_plan i, leavesBy_planOf rest]
    rfl

end

mutual

/-- The plan of an item has its conditions, in the order of the program. -/
theorem condsBy_plan : ∀ i : Item, condsBy i.plan = i.conds
  | .leaf _ _ => rfl
  | .ifThen _ _ body | .ifBegin _ _ body | .loop _ body | .loopUntil _ body _
  | .whileDo _ _ body => by
    have hbody := condsBy_planOf body
    simp [Item.plan, Item.conds, condsBy_cons, condsBy_append, Act.cond?, hbody]
  | .ifElse _ _ body otherwise => by
    have hbody := condsBy_planOf body
    have hother := condsBy_planOf otherwise
    simp [Item.plan, Item.conds, condsBy_cons, condsBy_append, Act.cond?, hbody, hother]

/-- The plan tests the conditions of the program. -/
theorem condsBy_planOf : ∀ items : List Item, condsBy (planOf items) = condsOf items
  | [] => rfl
  | i :: rest => by
    rw [planOf, condsBy_append, condsBy_plan i, condsBy_planOf rest]
    rfl

end

/-- The plan declares the labels of the program, in order. -/
theorem declaredBy_planOf (items : List Item) : declaredBy (planOf items) = declaredIn items := by
  rw [declaredIn, ← leavesBy_planOf, leavesBy, List.filterMap_filterMap, declaredBy]
  congr 1
  funext m
  exact m.act.declares_eq

/-- A leaf in a plan is a leaf of the program. -/
theorem mem_leavesOf_of_mem_planOf {items : List Item} {m : Move} {l : Leaf}
    (hm : m ∈ planOf items) (hact : m.act = .leaf l) : l ∈ leavesOf items := by
  rw [← leavesBy_planOf]
  exact List.mem_filterMap.mpr ⟨m, hm, by rw [hact]; rfl⟩

/-- A condition in a plan is a condition of the program. -/
theorem mem_condsOf_of_mem_planOf {items : List Item} {m : Move} {cond : Cond} {w : Bool}
    (hm : m ∈ planOf items) (hact : m.act = .skip cond w) : cond ∈ condsOf items := by
  rw [← condsBy_planOf]
  exact List.mem_filterMap.mpr ⟨m, hm, by rw [hact]; rfl⟩

/-! ## Recorded addresses -/

/-- The addresses that a table has for a label. -/
def LabelTable.recorded (t : LabelTable) (name : String) : List Nat := (t.lookup name).getD []

/-- An address is recorded behind those that its label has already. -/
theorem LabelTable.recorded_add (t : LabelTable) (name other : String) (address : Nat) :
    (t.add name address).recorded other =
      t.recorded other ++ if name = other then [address] else [] := by
  unfold recorded
  by_cases h : name = other
  · subst h
    rw [lookup_add_self, if_pos rfl]
    rfl
  · rw [lookup_add_of_ne _ _ (Ne.symm h), if_neg h, List.append_nil]

/-- The first address of a label never gets lost: no entry is empty. -/
def LabelTable.Filled (t : LabelTable) : Prop := ∀ name, t.lookup name ≠ some []

/-- A label that stands in the table has an address. -/
theorem LabelTable.Filled.add {t : LabelTable} (h : t.Filled) (name : String) (address : Nat) :
    (t.add name address).Filled := by
  intro other
  by_cases hother : other = name
  · subst hother
    rw [lookup_add_self]
    simp
  · rw [lookup_add_of_ne _ _ hother]
    exact h other

theorem LabelTable.Filled.recorded_ne_nil {t : LabelTable} (h : t.Filled) {name : String}
    (hname : (t.lookup name).isSome = true) : t.recorded name ≠ [] := by
  obtain ⟨addresses, haddr⟩ := Option.isSome_iff_exists.mp hname
  unfold recorded
  rw [haddr]
  rintro hnil
  exact h name (haddr.trans (congrArg some hnil))

namespace Run

variable {run : Run}

/-- The address of a label is the nearest of those recorded. -/
theorem address?_eq (d : Draft) (name : String) :
    run.address? d name = nearest? (run.pc d) (d.labels.recorded name) := by
  unfold address? LabelTable.recorded
  cases d.labels.lookup name <;> rfl

/-- Among any addresses there is a nearest one. -/
theorem nearest?_isSome {pc : Nat} {addresses : List Nat} (h : addresses ≠ []) :
    (nearest? pc addresses).isSome = true := by
  cases addresses with
  | nil => exact absurd rfl h
  | cons a rest => simp [nearest?]

/-- Addresses beyond `pc` that come later do not change which one is nearest. -/
theorem nearest?_append {pc : Nat} {addresses later : List Nat} (hne : addresses ≠ [])
    (hlater : ∀ a ∈ later, pc < a) :
    nearest? pc (addresses ++ later) = nearest? pc addresses := by
  have hnone : later.reverse.find? (· ≤ pc) = none := by
    rw [List.find?_eq_none]
    intro a ha
    have := hlater a (List.mem_reverse.mp ha)
    simp only [decide_eq_true_eq]
    omega
  have hhead : (addresses ++ later).head? = addresses.head? := by
    cases addresses with
    | nil => exact absurd rfl hne
    | cons a rest => rfl
  unfold nearest?
  rw [List.reverse_append, List.find?_append, hnone, hhead]
  rfl

/-! ## Along a trail -/

/-- The address that a stage of a first pass records for a label. -/
def mark? (run : Run) (name : String) (stage : Stage) : Option Nat :=
  match stage.move.act.declares with
  | some (other, next) =>
    if other = name then some ((run.pc stage.before.draft + next.toNat) % 0x10000) else none
  | none => none

/-- What is recorded is the place of the next byte, or of the one behind it, cut to sixteen bits. -/
theorem mark?_eq_some {name : String} {stage : Stage} {a : Nat}
    (h : run.mark? name stage = some a) : ∃ next, stage.move.act.declares = some (name, next) ∧
      a = (run.pc stage.before.draft + next.toNat) % 0x10000 := by
  unfold mark? at h
  split at h
  · rename_i other next hdecl
    split at h
    · rename_i heq
      subst heq
      exact ⟨next, hdecl, (Option.some.inj h).symm⟩
    · cases h
  · cases h

/-- What one move of a first pass records. -/
theorem recorded_act {p q : Progress} {m : Move} (hpass : run.pass = .layout)
    (h : run.act p m.act = .ok q) (name : String) : q.draft.labels.recorded name =
      p.draft.labels.recorded name ++ (run.mark? name ⟨m, p⟩).toList := by
  rw [(act_effect h).labels]
  unfold labelsAfter mark?
  rw [hpass]
  cases hdecl : m.act.declares with
  | none => simp
  | some d =>
    obtain ⟨other, next⟩ := d
    simp only [LabelTable.recorded_add]
    split <;> rfl

/-- **The addresses of a label after a first pass**: those before it, then the ones declared. -/
theorem recorded_follow {moves : List Move} {p r : Progress} (hpass : run.pass = .layout)
    (h : run.follow p moves = .ok r) (name : String) : r.draft.labels.recorded name =
      p.draft.labels.recorded name ++ (run.trail p moves).filterMap (run.mark? name) := by
  induction moves generalizing p with
  | nil =>
    obtain rfl := Except.ok.inj h
    simp [trail]
  | cons m rest ih =>
    obtain ⟨q, hact, hrest⟩ := run.follow_cons_eq_ok.mp h
    rw [trail_cons_of_ok run hact, ih hrest, recorded_act hpass hact name, List.append_assoc]
    cases hmark : run.mark? name ⟨m, p⟩ <;> simp [hmark]

/-- The second pass leaves the labels alone. -/
theorem labels_follow_emit {moves : List Move} {p : Progress} (hpass : run.pass = .emit) :
    (∀ stage ∈ run.trail p moves, stage.before.draft.labels = p.draft.labels) ∧
      ∀ r, run.follow p moves = .ok r → r.draft.labels = p.draft.labels := by
  refine run.follow_induct (I := fun r => r.draft.labels = p.draft.labels) rfl ?_
  intro m _ p' q hp' hact
  rw [labels_of_act_emit hpass hact, hp']

/-- The address of the next byte only grows. -/
theorem pc_le_of_mem_trail {moves : List Move} {p : Progress} {stage : Stage}
    (h : stage ∈ run.trail p moves) : run.pc p.draft ≤ run.pc stage.before.draft := by
  refine (run.follow_induct (I := fun r => run.pc p.draft ≤ run.pc r.draft)
    (Nat.le_refl _) ?_).1 stage h
  intro m _ p' q hp' hact
  have := (act_effect hact).grows
  unfold pc at hp' ⊢
  omega

/-- The address of the next byte stays within memory. -/
theorem pc_le_memory {moves : List Move} {p : Progress} {limit : Nat}
    (hp : run.pc p.draft ≤ limit) (hmemory : run.options.memoryEnd ≤ limit) :
    ∀ stage ∈ run.trail p moves, run.pc stage.before.draft ≤ limit := by
  refine (run.follow_induct (I := fun r => run.pc r.draft ≤ limit) hp ?_).1
  intro m _ p' q hp' hact
  have := (act_effect hact).room
  omega

/-- Moves that succeed end within memory, unless they started beyond it. -/
theorem pc_le_max_of_follow {moves : List Move} {p q : Progress}
    (h : run.follow p moves = .ok q) :
    run.pc q.draft ≤ max (run.pc p.draft) run.options.memoryEnd := by
  refine (run.follow_induct (I := fun r => run.pc r.draft ≤ max (run.pc p.draft)
    run.options.memoryEnd) (Nat.le_max_left _ _) ?_).2 q h
  intro m _ p' r hp' hact
  exact Nat.le_trans (act_effect hact).room (Nat.max_le.mpr ⟨hp', Nat.le_max_right _ _⟩)

end Run

end OctoAsm
