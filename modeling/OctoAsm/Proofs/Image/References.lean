/-
  No reference dangles.

  Three walks have to agree: the one that collects labels beforehand, the one that resolves
  statements, and the one that emits items.  The first two agree by the accounts of a resolution, so
  every label that a resolved program mentions is declared by one of its items.  The third comes past
  every declaration in its first pass and records an address there (`recorded_layOut`), so in the
  second pass no label is without one, and the zero that stands for a missing address is never used.
-/
import OctoAsm.Proofs.Image.Layout

namespace OctoAsm

/-! ## Declared labels -/

/-- A label that is not one of a second byte is declared once and in no other way. -/
theorem DistinctLabels.count_plain {ds : List (String × Bool)} (h : DistinctLabels ds)
    {name : String} (hname : (name, false) ∈ ds) :
    ds.count (name, false) = 1 ∧ (name, true) ∉ ds := by
  obtain ⟨before, after, rfl⟩ := List.append_of_mem hname
  obtain ⟨-, hafter, hcross⟩ := List.pairwise_append.mp h
  -- neither side of the declaration declares the name again
  have hleft : ∀ next, (name, next) ∉ before := by
    intro next hmem
    have hboth := hcross (name, next) hmem (name, false) List.mem_cons_self rfl
    exact Bool.false_ne_true hboth.2
  have hright : ∀ next, (name, next) ∉ after := by
    intro next hmem
    have hboth := (List.pairwise_cons.mp hafter).1 (name, next) hmem rfl
    exact Bool.false_ne_true hboth.1
  refine ⟨?_, ?_⟩
  · rw [List.count_append, List.count_cons_self, List.count_eq_zero.mpr (hleft false),
      List.count_eq_zero.mpr (hright false)]
  · simp [hleft true, hright true]

section Programs

variable {options : Options} {program : List Statement} {items : List Item} {names : NameTable}

/-- The labels that a resolved program mentions are declared by its items. -/
theorem EndsWith.mentioned_declared (h : EndsWith options program items names) {name : String}
    (hname : name ∈ mentionedIn items) : ∃ next, (name, next) ∈ declaredIn items := by
  obtain ⟨-, hitems, haccounts⟩ := h.sound
  refine haccounts.declared ?_
  rcases mem_mentionedIn.mp hname with ⟨l, hl, v, hv, hlabel⟩ | ⟨c, hc, v, hv, hlabel⟩
  · exact ((hitems.leaves l hl).values v hv).bound name hlabel
  · exact (hitems.conds c hc v hv).bound name hlabel

theorem mem_mentionedIn_of_mem_planOf {m : Move} (hm : m ∈ planOf items) {v : Imm × Option Nat}
    (hv : v ∈ m.act.values) {name : String} (hname : name ∈ v.1.labels) :
    name ∈ mentionedIn items := by
  rw [mem_mentionedIn]
  cases hact : m.act with
  | leaf l =>
    rw [hact] at hv
    exact .inl ⟨l, mem_leavesOf_of_mem_planOf hm hact, v, hv, hname⟩
  | skip cond w =>
    rw [hact] at hv
    exact .inr ⟨cond, mem_condsOf_of_mem_planOf hm hact, v, hv, hname⟩
  | _ => rw [hact] at hv; cases hv

end Programs

/-! ## Addresses -/

section Addresses

variable {settings : Options} {items : List Item} {laid : Draft}

/-- The first pass records an address for every label that is declared. -/
theorem recorded_layOut (h : layOut settings items = .ok laid) {name : String} {next : Bool}
    (hname : (name, next) ∈ declaredIn items) : laid.labels.recorded name ≠ [] := by
  have hfollow := layOut_eq_ok.mp h
  rw [← declaredBy_planOf] at hname
  obtain ⟨m, hm, hdecl⟩ := List.mem_filterMap.mp hname
  -- the declaring move is reached, and its stage leaves a mark
  rw [← Run.map_move_trail hfollow] at hm
  obtain ⟨stage, hstage, rfl⟩ := List.mem_map.mp hm
  have hmark : Run.mark? ⟨settings, .layout⟩ name stage ≠ none := by
    unfold Run.mark?
    rw [hdecl]
    simp
  obtain ⟨a, ha⟩ := Option.ne_none_iff_exists'.mp hmark
  have hmem := List.mem_filterMap.mpr ⟨stage, hstage, ha⟩
  -- so the record of the whole pass has an address for the name
  have hrecorded := Run.recorded_follow rfl hfollow name
  intro hnil
  rw [hnil] at hrecorded
  have hnone := (List.append_eq_nil_iff.mp hrecorded.symm).2
  rw [hnone] at hmem
  cases hmem

/-- All along the second pass a declared label has an address. -/
theorem address?_isSome_of_declared (h : layOut settings items = .ok laid) {name : String}
    {next : Bool} (hname : (name, next) ∈ declaredIn items) {stage : Stage} {moves : List Move}
    (hstage : stage ∈ Run.trail ⟨settings, .emit⟩ (emitStart laid) moves) :
    (Run.address? ⟨settings, .emit⟩ stage.before.draft name).isSome = true := by
  have hlabels := (Run.labels_follow_emit rfl).1 stage hstage
  rw [Run.address?_eq, hlabels]
  exact Run.nearest?_isSome (recorded_layOut h hname)

/-- A finished image has every label that its draft has an address for. -/
theorem lookup_heads {t : LabelTable} {name : String} (h : t.recorded name ≠ []) :
    ((t.filterMap fun entry => entry.2.head?.map fun a => (entry.1, a)).lookup name).isSome =
      true := by
  induction t with
  | nil => exact absurd rfl h
  | cons entry rest ih =>
    obtain ⟨n, addresses⟩ := entry
    by_cases hn : name = n
    · subst hn
      cases addresses with
      | nil => simp [LabelTable.recorded] at h
      | cons a as => simp
    · have hne : (name == n) = false := by simpa using hn
      have hrest : LabelTable.recorded rest name ≠ [] := by
        simpa [LabelTable.recorded, List.lookup_cons, hne] using h
      cases addresses with
      | nil => simpa using ih hrest
      | cons a as => simpa [List.lookup_cons, hne] using ih hrest

theorem label?_finish (h : layOut settings items = .ok laid) {emitted : Draft}
    (hemitted : emit settings laid items = .ok emitted) {name : String} {next : Bool}
    (hname : (name, next) ∈ declaredIn items) :
    ((emitted.finish settings.origin).label? name).isSome = true := by
  have hlabels := (Run.labels_follow_emit rfl).2 _ (emit_eq_ok.mp hemitted)
  refine lookup_heads ?_
  rw [hlabels]
  exact recorded_layOut h hname

end Addresses

/-! ## Programs -/

/-- No reference of a resolved program dangles, neither among its items nor in its emission. -/
structure ReferencesHold (options : Options) (program : List Statement) (items : List Item) :
    Prop where
  /-- every label that an item mentions is declared by an item -/
  mentioned : ∀ name ∈ mentionedIn items, ∃ next, (name, next) ∈ declaredIn items
  /-- and so is every label that is mentioned by a calc name bound at the end -/
  calcNames : ∀ names, EndsWith options program items names → ∀ name e depth,
    names.get? name = some (.calcName e depth) →
    ∀ label ∈ e.labels, ∃ next, (label, next) ∈ declaredIn items
  /-- a label that is not one of a second byte is declared exactly once -/
  plain : ∀ name, (name, false) ∈ declaredIn items →
    (declaredIn items).count (name, false) = 1 ∧ (name, true) ∉ declaredIn items
  main : ∃ next, ("main", next) ∈ declaredIn items
  /-- whatever value the second pass comes to look at, its labels have addresses -/
  addresses : ∀ settings laid, layOut settings items = .ok laid →
    ∀ stage ∈ Run.trail ⟨settings, .emit⟩ (emitStart laid) (planOf items),
      ∀ v ∈ stage.move.act.values, ∀ label ∈ v.1.labels,
        (Run.address? ⟨settings, .emit⟩ stage.before.draft label).isSome = true
  /-- an image has an address for `main` -/
  entry : ∀ settings image, Image.ofItems settings items = .ok image →
    (image.label? "main").isSome = true

/-- **No reference of a resolved program dangles.** Sound values mention labels of the table only
    (`EndsWith.sound`), the labels of the table are those that items declare (`Accounts.declared`),
    and the first pass records an address at every declaration (`recorded_layOut`), before the
    second pass looks for one. -/
theorem references_hold {options : Options} {program : List Statement} {items : List Item}
    (h : resolve options program = .ok items) : ReferencesHold options program items := by
  obtain ⟨names, hends, hmain⟩ := resolve_endsWith h
  obtain ⟨-, -, haccounts⟩ := hends.sound
  obtain ⟨next, hmain⟩ := haccounts.declared hmain
  constructor
  case mentioned => exact fun name hname => hends.mentioned_declared hname
  case calcNames =>
    intro names' hends' name e depth hbound label hlabel
    obtain ⟨hnames', -, haccounts'⟩ := hends'.sound
    exact haccounts'.declared (hnames' name e depth hbound label hlabel)
  case plain => exact fun name hname => haccounts.distinct.count_plain hname
  case main => exact ⟨next, hmain⟩
  case addresses =>
    intro settings laid hlaid stage hstage v hv label hlabel
    have hmove := Run.move_mem_of_mem_trail _ hstage
    have hmentioned := mem_mentionedIn_of_mem_planOf hmove hv hlabel
    obtain ⟨next', hdeclared⟩ := hends.mentioned_declared hmentioned
    exact address?_isSome_of_declared hlaid hdeclared hstage
  case entry =>
    intro settings image himage
    obtain ⟨laid, emitted, hlaid, hemitted, rfl⟩ := ofItems_eq_ok.mp himage
    exact label?_finish hlaid hemitted hmain

/-- A label declared inside an expansion and used by `-=`, and one that goes through a calc name. -/
def referringProgram : List Statement :=
  [.label (word "main"),
    .declaration (.calcName (word ":calc") (word "page") (.binary (word "/") .div
      (.unary (word "@") .addressOf (.name (word "main"))) (.number (word "16") 16))),
    .macroDef (word ":macro") (word "put") [word "at"] [.label (word "at"),
      .simple (.assign (.immediate (word "v0") (.literal (word "v0") (vReg 0)) .sub (.named (word "at"))))],
    .invoke (word "put") [word "spot"],
    .next (word ":next") (word "tail") (.simple (.assign (.immediate (word "v1")
      (.literal (word "v1") (vReg 1)) .set (.named (word "page")))))]
where
  /-- A word of the first line. -/
  word (text : String) : Token := ⟨1, .name, text⟩

/-- The items of `referringProgram`. -/
def referringItems : List Item :=
  [.leaf ⟨1, "main"⟩ (.label "main"),
    .leaf ⟨1, "spot"⟩ (.label "spot"),
    .leaf ⟨1, "v0"⟩ (.instr (.regImm .addi (vReg 0) (Imm.label "spot").negate)),
    .leaf ⟨1, "tail"⟩ (.nextLabel "tail"),
    .leaf ⟨1, "v1"⟩ (.instr (.regImm .seti (vReg 1) (.expr (.binary .div (.address "main") (.number 16)))))]

theorem references_hold_referring : resolve {} referringProgram = .ok referringItems ∧
    ReferencesHold {} referringProgram referringItems := by
  have hresolved : resolve {} referringProgram = .ok referringItems := rfl
  exact ⟨hresolved, references_hold hresolved⟩

end OctoAsm
