/-
  What a resolved program contains, at any depth: the leaves and the conditions in the order in which
  they are emitted, the labels that are declared, and the values with the labels they mention; and when
  two programs contain the same, apart from where it was written (`Alike`).
-/
import OctoAsm.Program

namespace OctoAsm

/-! ## Leaves and conditions -/

mutual

/-- The leaves of an item. -/
def Item.leaves : Item → List Leaf
  | .leaf _ l => [l]
  | .ifThen _ _ body | .ifBegin _ _ body | .loop _ body | .loopUntil _ body _ | .whileDo _ _ body =>
    leavesOf body
  | .ifElse _ _ body otherwise => leavesOf body ++ leavesOf otherwise

/-- The leaves of items in a row. -/
def leavesOf : List Item → List Leaf
  | [] => []
  | i :: rest => i.leaves ++ leavesOf rest

end

mutual

/-- The conditions of an item. -/
def Item.conds : Item → List Cond
  | .leaf _ _ => []
  | .ifThen _ cond body | .ifBegin _ cond body | .whileDo _ cond body => cond :: condsOf body
  | .ifElse _ cond body otherwise => cond :: (condsOf body ++ condsOf otherwise)
  | .loop _ body => condsOf body
  | .loopUntil _ body cond => condsOf body ++ [cond]

/-- The conditions of items in a row. -/
def condsOf : List Item → List Cond
  | [] => []
  | i :: rest => i.conds ++ condsOf rest

end

/-- An empty block has no leaves. -/
@[simp] theorem leavesOf_nil : leavesOf [] = [] := rfl

/-- The leaves of a block are those of its items, in order. -/
@[simp] theorem leavesOf_cons (i : Item) (rest : List Item) :
    leavesOf (i :: rest) = i.leaves ++ leavesOf rest := rfl

/-- Leaves of one block behind another. -/
@[simp] theorem leavesOf_append (a b : List Item) :
    leavesOf (a ++ b) = leavesOf a ++ leavesOf b := by
  induction a with
  | nil => rfl
  | cons i rest ih => simp [ih]

/-- An empty block has no conditions. -/
@[simp] theorem condsOf_nil : condsOf [] = [] := rfl

/-- The conditions of a block are those of its items, in order. -/
@[simp] theorem condsOf_cons (i : Item) (rest : List Item) :
    condsOf (i :: rest) = i.conds ++ condsOf rest := rfl

/-- Conditions of one block behind another. -/
@[simp] theorem condsOf_append (a b : List Item) : condsOf (a ++ b) = condsOf a ++ condsOf b := by
  induction a with
  | nil => rfl
  | cons i rest ih => simp [ih]

/-- All leaves and all conditions of some items are as they should be. -/
structure Throughout (P : Leaf → Prop) (Q : Cond → Prop) (items : List Item) : Prop where
  leaves : ∀ l ∈ leavesOf items, P l
  conds : ∀ c ∈ condsOf items, Q c

namespace Throughout

variable {P P' : Leaf → Prop} {Q Q' : Cond → Prop} {a b items : List Item}

/-- Anything holds throughout an empty block. -/
theorem nil : Throughout P Q [] := ⟨by simp, by simp⟩

/-- What follows from the properties holds throughout as well. -/
theorem imp (hleaf : ∀ l, P l → P' l) (hcond : ∀ c, Q c → Q' c) (h : Throughout P Q items) :
    Throughout P' Q' items :=
  ⟨fun l hl => hleaf l (h.leaves l hl), fun c hc => hcond c (h.conds c hc)⟩

/-- One block behind another. -/
theorem append (ha : Throughout P Q a) (hb : Throughout P Q b) : Throughout P Q (a ++ b) := by
  refine ⟨?_, ?_⟩
  · intro l hl
    rcases List.mem_append.mp (leavesOf_append a b ▸ hl) with hl | hl
    · exact ha.leaves l hl
    · exact hb.leaves l hl
  · intro c hc
    rcases List.mem_append.mp (condsOf_append a b ▸ hc) with hc | hc
    · exact ha.conds c hc
    · exact hb.conds c hc

/-- A leaf on its own. -/
theorem leaf {site : Site} {l : Leaf} (h : P l) : Throughout P Q [.leaf site l] :=
  ⟨by simpa [Item.leaves] using h, by simp [Item.conds]⟩

/-- A loop has the leaves and the conditions of its body. -/
theorem loop {site : Site} (h : Throughout P Q items) : Throughout P Q [.loop site items] :=
  ⟨by simpa [Item.leaves] using h.leaves, by simpa [Item.conds] using h.conds⟩

/-- An item of control flow is as it should be if its condition and its bodies are. -/
theorem control {i : Item} {cond : Cond} (hleaves : ∀ l ∈ i.leaves, l ∈ leavesOf items)
    (hconds : ∀ c ∈ i.conds, c = cond ∨ c ∈ condsOf items) (hc : Q cond)
    (h : Throughout P Q items) : Throughout P Q [i] := by
  refine ⟨?_, ?_⟩
  · intro l hl
    exact h.leaves l (hleaves l (by simpa using hl))
  · intro c hmem
    rcases hconds c (by simpa using hmem) with rfl | hmem
    · exact hc
    · exact h.conds c hmem

end Throughout

/-! ## Declared labels -/

/-- The label that a leaf declares; `true` for the label of a second byte. -/
def Leaf.declares : Leaf → Option (String × Bool)
  | .label name => some (name, false)
  | .nextLabel name => some (name, true)
  | _ => none

/-- The labels that a program declares, in order. -/
def declaredIn (items : List Item) : List (String × Bool) := (leavesOf items).filterMap Leaf.declares

/-- An empty block declares nothing. -/
@[simp] theorem declaredIn_nil : declaredIn [] = [] := rfl

/-- Labels are declared by the leaves, in order. -/
@[simp] theorem declaredIn_append (a b : List Item) :
    declaredIn (a ++ b) = declaredIn a ++ declaredIn b := by
  simp [declaredIn]

/-- A leaf declares at most one label, in front of the rest. -/
@[simp] theorem declaredIn_cons_leaf (site : Site) (l : Leaf) (rest : List Item) :
    declaredIn (.leaf site l :: rest) = l.declares.toList ++ declaredIn rest := by
  cases h : l.declares <;> simp [declaredIn, Item.leaves, h]

/-- A name is declared once, or each time as the label of a second byte. -/
def DistinctLabels (ds : List (String × Bool)) : Prop :=
  ds.Pairwise fun a b => a.1 = b.1 → a.2 = true ∧ b.2 = true

/-- Being declared once does not depend on the order of declarations. -/
theorem DistinctLabels.perm {as bs : List (String × Bool)} (h : DistinctLabels as)
    (hp : as.Perm bs) : DistinctLabels bs := by
  refine (hp.pairwise_iff ?_).mp h
  intro a b hab heq
  exact (hab heq.symm).symm

/-! ## Values -/

/-- The value of an expression depends only on the addresses of its labels. -/
theorem Expr.eval_congr {f g : String → Float} (e : Expr)
    (h : ∀ label ∈ e.labels, f label = g label) : e.eval f = e.eval g := by
  induction e with
  | number x => rfl
  | address label => exact h label (by simp [Expr.labels])
  | unary op e ih => rw [Expr.eval, Expr.eval, ih h]
  | binary op a b iha ihb =>
    have ha := iha fun label hlabel => h label (List.mem_append_left _ hlabel)
    have hb := ihb fun label hlabel => h label (List.mem_append_right _ hlabel)
    rw [Expr.eval, Expr.eval, ha, hb]

/-- The value of an instruction, with the width of its field. -/
def Instr.value? : Instr → Option (Imm × Nat)
  | .bare _ | .regReg _ _ _ | .reg _ _ => none
  | .addr _ target => some (target, 12)
  | .regImm _ _ v => some (v, 8)
  | .draw _ _ height => some (height, 4)

/-- The values of a leaf, with the widths of the fields they are meant for; an assertion has no
    field. -/
def Leaf.values : Leaf → List (Imm × Option Nat)
  | .instr i => i.value?.toList.map fun v => (v.1, some v.2)
  | .label _ | .nextLabel _ | .breakpoint _ | .monitor (.register _) _ => []
  | .org target => [(target, some 16)]
  | .unpack _ _ tag v => tag.toList.map (·, some 4) ++ [(v, some 16)]
  | .byte v => [(v, some 8)]
  | .pointer v => [(v, some 16)]
  | .assertion _ expr => [(expr, none)]
  | .monitor (.address v) _ => [(v, some 12)]

/-- The values of a condition. -/
def Cond.values : Cond → List (Imm × Option Nat)
  | .compare _ _ (.imm v) _ => [(v, some 8)]
  | .compare _ _ (.reg _) _ | .key _ _ => []

/-- All values of a program. -/
def valuesIn (items : List Item) : List (Imm × Option Nat) :=
  (leavesOf items).flatMap Leaf.values ++ (condsOf items).flatMap Cond.values

/-- The labels whose addresses a program needs. -/
def mentionedIn (items : List Item) : List String := (valuesIn items).flatMap (·.1.labels)

/-- A label is mentioned by a value of a leaf or by a value of a condition, at any depth. -/
theorem mem_mentionedIn {items : List Item} {name : String} : name ∈ mentionedIn items ↔
    (∃ l ∈ leavesOf items, ∃ v ∈ l.values, name ∈ v.1.labels) ∨
      ∃ c ∈ condsOf items, ∃ v ∈ c.values, name ∈ v.1.labels := by
  simp only [mentionedIn, valuesIn, List.mem_flatMap, List.mem_append]
  constructor
  · rintro ⟨v, ⟨l, hl, hv⟩ | ⟨c, hc, hv⟩, hname⟩
    · exact .inl ⟨l, hl, v, hv, hname⟩
    · exact .inr ⟨c, hc, v, hv, hname⟩
  · rintro (⟨l, hl, v, hv, hname⟩ | ⟨c, hc, v, hv, hname⟩)
    · exact ⟨v, .inl ⟨l, hl, hv⟩, hname⟩
    · exact ⟨v, .inr ⟨c, hc, hv⟩, hname⟩

/-! ## Items that differ in their sites -/

/-- The same items at every depth, at sites that are related. -/
inductive Alike (same : Site → Site → Prop) : List Item → List Item → Prop where
  | nil : Alike same [] []
  | leaf {x y leaf is js} (hsite : same x y) (h : Alike same is js) :
      Alike same (.leaf x leaf :: is) (.leaf y leaf :: js)
  | ifThen {x y cond bs cs is js} (hsite : same x y) (hbody : Alike same bs cs)
      (h : Alike same is js) : Alike same (.ifThen x cond bs :: is) (.ifThen y cond cs :: js)
  | ifBegin {x y cond bs cs is js} (hsite : same x y) (hbody : Alike same bs cs)
      (h : Alike same is js) : Alike same (.ifBegin x cond bs :: is) (.ifBegin y cond cs :: js)
  | ifElse {x y cond bs cs bs' cs' is js} (hsite : same x y) (hbody : Alike same bs cs)
      (hother : Alike same bs' cs') (h : Alike same is js) :
      Alike same (.ifElse x cond bs bs' :: is) (.ifElse y cond cs cs' :: js)
  | loop {x y bs cs is js} (hsite : same x y) (hbody : Alike same bs cs) (h : Alike same is js) :
      Alike same (.loop x bs :: is) (.loop y cs :: js)
  | loopUntil {x y cond bs cs is js} (hsite : same x y) (hbody : Alike same bs cs)
      (h : Alike same is js) : Alike same (.loopUntil x bs cond :: is) (.loopUntil y cs cond :: js)
  | whileDo {x y cond bs cs is js} (hsite : same x y) (hbody : Alike same bs cs)
      (h : Alike same is js) : Alike same (.whileDo x cond bs :: is) (.whileDo y cond cs :: js)

/-- Blocks that are alike, one behind the other. -/
theorem Alike.append {same : Site → Site → Prop} {as bs cs ds : List Item} (h : Alike same as bs)
    (h' : Alike same cs ds) : Alike same (as ++ cs) (bs ++ ds) := by
  induction h with
  | nil => exact h'
  | leaf hsite _ ih => exact .leaf hsite ih
  | ifThen hsite hbody _ _ ih => exact .ifThen hsite hbody ih
  | ifBegin hsite hbody _ _ ih => exact .ifBegin hsite hbody ih
  | ifElse hsite hbody hother _ _ _ ih => exact .ifElse hsite hbody hother ih
  | loop hsite hbody _ _ ih => exact .loop hsite hbody ih
  | loopUntil hsite hbody _ _ ih => exact .loopUntil hsite hbody ih
  | whileDo hsite hbody _ _ ih => exact .whileDo hsite hbody ih

/-! ## Registers -/

/-- A register by its number, for programs that are written out. -/
def vReg (n : Nat) : Fin 16 := ⟨n % 16, Nat.mod_lt n (by decide)⟩

end OctoAsm
