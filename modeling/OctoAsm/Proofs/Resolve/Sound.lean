/-
  Resolved programs are sound: every value mentions labels only, every number fits its field, every
  instruction has the shape of its pattern, and every label is declared by an item.

  Along a derivation the names stay sound and lose no label, so what was sound when an item was made
  is sound at the end (`Resolves.sound`).  At the end the labels are those that the items declare
  (`Resolves.accounts`), and the two together give `resolve_sound`.
-/
import OctoAsm.Proofs.Resolve.Labels

namespace OctoAsm

/-! ## Sound items -/

/-- All leaves and conditions of some items are sound. -/
abbrev SoundItems (names : NameTable) : List Item → Prop :=
  Throughout (SoundLeaf names) (SoundCond names)

theorem SoundItems.mono {names names' : NameTable} {items : List Item}
    (hkeeps : names.KeepsLabels names') (h : SoundItems names items) : SoundItems names' items :=
  h.imp (fun _ hl => hl.mono hkeeps) fun _ hc => hc.mono hkeeps

/-! ## Along a derivation -/

/-- What a derivation leaves behind: sound items under sound names, and no label lost. -/
structure SoundStep (s : ResolveState) (items : List Item) (t : ResolveState) : Prop where
  keeps : s.names.KeepsLabels t.names
  names : SoundNames t.names
  items : SoundItems t.names items

/-- Items made without changing the names. -/
theorem SoundStep.still {s : ResolveState} {items : List Item} (hnames : SoundNames s.names)
    (h : SoundItems s.names items) : SoundStep s items s := ⟨.refl _, hnames, h⟩

theorem declareLabel_sound {scope : Scope} {name : Token} {next : Bool} {s t : ResolveState}
    (hnames : SoundNames s.names) (h : declareLabel scope name next s = .ok ((), t)) :
    s.names.KeepsLabels t.names ∧ SoundNames t.names := by
  unfold declareLabel at h
  split at h
  · obtain ⟨-, rfl⟩ := Resolver.pure_eq_ok.mp h
    exact ⟨.refl _, hnames⟩
  · obtain ⟨names, hd, rfl⟩ := Resolver.declare_eq_ok.mp h
    exact ⟨NameTable.keepsLabels_of_declare hd, hnames.declare (by simp) hd⟩

/-- A leaf without values that is no instruction. -/
theorem SoundLeaf.of_declares {names : NameTable} {l : Leaf} (h : l.declares ≠ none) :
    SoundLeaf names l := by
  cases l <;> simp [Leaf.declares] at h <;> exact ⟨by simp [Leaf.values], by simp⟩

/-- **Soundness is kept along a derivation.** -/
theorem Resolves.sound {tasks : List Task} {s t : ResolveState} {items : List Item}
    (h : Resolves tasks s items t) : SoundNames s.names → SoundStep s items t := by
  induction h with
  | nil => exact fun hnames => .still hnames .nil
  | append ha hb iha ihb =>
    intro hnames
    -- what was sound after the first part stays so, since the second part loses no label
    have hfirst := iha hnames
    have hsecond := ihb hfirst.names
    exact ⟨hfirst.keeps.trans hsecond.keeps, hsecond.names,
      (hfirst.items.mono hsecond.keeps).append hsecond.items⟩
  | simple h => exact fun hnames => .still hnames (.leaf ((Env.simple_gives h).sound hnames))
  | declaration h hd =>
    intro hnames
    refine ⟨NameTable.keepsLabels_of_declare hd, hnames.declare ?_ hd, .nil⟩
    rintro e depth rfl
    -- only the expression of a calc name could mention a label that is not there
    exact Env.declaration_bound hnames h
  | label h hd =>
    intro hnames
    obtain ⟨hkeeps, hnames'⟩ := declareLabel_sound hnames hd
    -- the label is declared on the way, and declaring leaves mention no values
    exact ⟨hkeeps, hnames', .leaf (.of_declares (by simp [Leaf.declares]))⟩
  | @next scope s word token name t inner items u h hd hi ih =>
    intro hnames
    obtain ⟨hkeeps, hnames'⟩ := declareLabel_sound hnames hd
    have hinner := ih hnames'
    have hleaf : SoundItems u.names [.leaf name.site (.nextLabel name.text)] :=
      .leaf (.of_declares (by simp [Leaf.declares]))
    exact ⟨hkeeps.trans hinner.keeps, hinner.names, hleaf.append hinner.items⟩
  | macroDef h hd =>
    intro hnames
    exact ⟨NameTable.keepsLabels_of_declare hd, hnames.declare (by simp) hd, .nil⟩
  | stringMode h hd =>
    intro hnames
    exact ⟨NameTable.keepsLabels_of_declareRule hd, hnames.declareRule hd, .nil⟩
  | invoke h hi ih | callMacro h hi ih =>
    intro hnames
    -- opening an expansion leaves the names as they were
    obtain ⟨-, heq⟩ := h.shownIn
    have hbody := ih (heq ▸ hnames)
    exact ⟨heq ▸ hbody.keeps, hbody.names, hbody.items⟩
  | @callNumber scope s _ _ _ _ h hkind hv =>
    intro hnames
    have hgives : Env.GivesLeaf ⟨s.names, scope⟩ False _ := .datum hv
    exact .still hnames (.leaf (hgives.sound hnames))
  | @callLabel scope s _ _ _ h hkind hbound =>
    intro hnames
    have hgives : Env.GivesLeaf ⟨s.names, scope⟩ False _ := .call h hkind hbound
    exact .still hnames (.leaf (hgives.sound hnames))
  | @callValue scope s _ v h =>
    intro hnames
    have hgives : Env.GivesLeaf ⟨s.names, scope⟩ False (.instr (.addr .call v)) :=
      .value rfl (.imm h) rfl
    exact .still hnames (.leaf (hgives.sound hnames))
  | ifThen hc hb ih | ifBegin hc hb ih | whileDo hc hb ih =>
    intro hnames
    have hbody := ih hnames
    -- the condition was resolved before the body, so it is carried over the body's declarations
    have hcond := (Env.condition_sound hnames hc).mono hbody.keeps
    exact ⟨hbody.keeps, hbody.names,
      hbody.items.control (by simp [Item.leaves]) (by simp [Item.conds]) hcond⟩
  | ifElse hc hb ho ihb iho =>
    intro hnames
    have hbody := ihb hnames
    have hother := iho hbody.names
    have hkeeps := hbody.keeps.trans hother.keeps
    have hcond := (Env.condition_sound hnames hc).mono hkeeps
    have hboth := (hbody.items.mono hother.keeps).append hother.items
    exact ⟨hkeeps, hother.names,
      hboth.control (by simp [Item.leaves]) (by simp [Item.conds]) hcond⟩
  | loop hb ih =>
    intro hnames
    have hbody := ih hnames
    exact ⟨hbody.keeps, hbody.names, hbody.items.loop⟩
  | loopUntil hb hc ih =>
    intro hnames
    have hbody := ih hnames
    -- here the condition comes last and needs no carrying over
    have hcond := Env.condition_sound hbody.names hc
    refine ⟨hbody.keeps, hbody.names, hbody.items.control (by simp [Item.leaves]) ?_ hcond⟩
    simp only [Item.conds, List.mem_append, List.mem_singleton]
    exact fun c hmem => hmem.symm

/-! ## Programs -/

theorem SoundNames.defineAll {names names' : NameTable} (h : SoundNames names)
    {defines : List (String × Int)} (hd : defineAll names defines = .ok names') :
    SoundNames names' := by
  induction defines generalizing names with
  | nil =>
    obtain rfl := Except.ok.inj hd
    exact h
  | cons entry rest ih =>
    obtain ⟨name, value⟩ := entry
    obtain ⟨names₁, hname, hd⟩ := bind_eq_ok.mp hd
    exact ih (h.declare (by simp) (declareIn_eq_ok hname)) hd

mutual

theorem SoundNames.collectLabels : ∀ (st : Statement) {names names' : NameTable},
    SoundNames names → collectLabels names st = .ok names' → SoundNames names'
  | .label name, names, names', h, hc => h.declare (by simp) (declareIn_eq_ok hc)
  | .next _ name statement, names, names', h, hc => by
    obtain ⟨names₁, hname, hc⟩ := bind_eq_ok.mp hc
    exact (h.declare (by simp) (declareIn_eq_ok hname)).collectLabels statement hc
  | .ifThen _ _ body, names, names', h, hc => h.collectLabels body hc
  | .ifBegin _ _ body, names, names', h, hc => h.collectBlockLabels body hc
  | .ifElse _ _ body otherwise, names, names', h, hc => by
    obtain ⟨names₁, hbody, hc⟩ := bind_eq_ok.mp hc
    exact (h.collectBlockLabels body hbody).collectBlockLabels otherwise hc
  | .loop _ body, names, names', h, hc => h.collectBlockLabels body hc
  | .whileDo _ _ body, names, names', h, hc => h.collectLabels body hc
  | .simple _, names, names', h, hc | .declaration _, names, names', h, hc
  | .macroDef .., names, names', h, hc | .stringMode .., names, names', h, hc
  | .invoke .., names, names', h, hc | .call _, names, names', h, hc
  | .breakIf .., names, names', h, hc => by
    obtain rfl := Except.ok.inj hc
    exact h

theorem SoundNames.collectBlockLabels : ∀ (body : List Statement) {names names' : NameTable},
    SoundNames names → collectBlockLabels names body = .ok names' → SoundNames names'
  | [], names, names', h, hc => by
    obtain rfl := Except.ok.inj hc
    exact h
  | st :: rest, names, names', h, hc => by
    obtain ⟨names₁, hst, hc⟩ := bind_eq_ok.mp hc
    exact (h.collectLabels st hst).collectBlockLabels rest hc

end

/-- The resolution of a program ends with these names bound. -/
def EndsWith (options : Options) (program : List Statement) (items : List Item)
    (names : NameTable) : Prop :=
  ∃ defined labelled log, defineAll [] options.defines = .ok defined ∧
    collectBlockLabels defined program = .ok labelled ∧
    resolveBlock (expandWithin options.maxExpansionDepth options.maxExpansionDepth) [] program
      ⟨labelled, []⟩ = .ok (items, ⟨names, log⟩)

section Programs

variable {options : Options} {program : List Statement} {items : List Item}

theorem resolve_endsWith (h : resolve options program = .ok items) :
    ∃ names, EndsWith options program items names ∧ names.isLabel "main" = true := by
  obtain ⟨defined, labelled, ⟨names, log⟩, hdefined, hlabelled, hrun, hmain⟩ := resolve_eq_ok h
  exact ⟨names, ⟨defined, labelled, log, hdefined, hlabelled, hrun⟩, hmain⟩

/-- **Resolved programs are sound**: under the names bound at the end, whose labels are those that
    the items declare. -/
theorem EndsWith.sound {names : NameTable} (h : EndsWith options program items names) :
    SoundNames names ∧ SoundItems names items ∧ Accounts names (declaredIn items) := by
  obtain ⟨defined, labelled, log, hdefined, hlabelled, hrun⟩ := h
  have hres := resolveBlock_derivation (expandWithin_derives _ _) program hrun
  have hsound := hres.sound ((SoundNames.nil.defineAll hdefined).collectBlockLabels _ hlabelled)
  have hshown : Accounts labelled (shownLabelsOf program) := by
    simpa using (Accounts.nil.defineAll hdefined).collectBlockLabels program hlabelled
  have hacc := hres.accounts [] (by simpa [shownIn_tasksOf] using hshown)
  exact ⟨hsound.names, hsound.items, by simpa using hacc⟩

/-- A value of a sound program mentions declared labels only. -/
theorem Accounts.declared {names : NameTable} {ds : List (String × Bool)} {label : String}
    (h : Accounts names ds) (hlabel : names.isLabel label = true) : ∃ next, (label, next) ∈ ds := by
  obtain ⟨next, hnext⟩ := NameTable.isLabel_iff.mp hlabel
  exact ⟨next, (h.mem_iff label next).mp hnext⟩

end Programs

end OctoAsm
