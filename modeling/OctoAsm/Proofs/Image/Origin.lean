/-
  The layout does not depend on the origin.

  Two emissions of one program that differ in their origin see different addresses of labels, and so
  different values; but as long as no `org` is among the leaves, no value has a say in a size.  Two
  inductions carry this.  Over the items, the code at an address and the code at another one agree
  segment by segment, with all targets moved by the distance of the two (`block_shifted`).  Over the
  moves, both runs pass all leaves at the same offsets (`Run.trail_aligned`), from which the tables
  of labels and breakpoints are read off.
-/
import OctoAsm.Proofs.Image.Direct

namespace OctoAsm

/-! ## Values that mention no label -/

/-- A value without labels has the same number everywhere. -/
theorem Imm.valueAt_of_labels_nil {v : Imm} (h : v.labels = []) (labels labels' : LabelTable)
    (pc pc' : Nat) : v.valueAt labels' pc' = v.valueAt labels pc := by
  cases v with
  | number n => rfl
  | label name => cases h
  | expr e =>
    have heval : (e.eval fun label => Float.ofNat (labels'.addressAt pc' label)) =
        e.eval fun label => Float.ofNat (labels.addressAt pc label) :=
      e.eval_congr fun label hlabel => by rw [show e.labels = [] from h] at hlabel; cases hlabel
    rw [Imm.valueAt, heval]
    rfl

theorem Imm.fieldAt_of_labels_nil {v : Imm} (h : v.labels = []) (labels labels' : LabelTable)
    (pc pc' bits : Nat) : v.fieldAt labels' pc' bits = v.fieldAt labels pc bits := by
  rw [Imm.fieldAt, v.valueAt_of_labels_nil h labels labels' pc pc']
  rfl

/-! ## Code at two addresses -/

namespace Segment

/-- A segment in two emissions: jumps of control flow have their targets moved by `shift`, and what
    mentions no label is the same. -/
def Shifted (shift : Int) : Segment → Segment → Prop
  | .data bs ms, .data bs' ms' => ms' = ms ∧ bs'.length = bs.length ∧ (ms = [] → bs' = bs)
  | .op i ms, .op i' ms' => ms' = ms ∧ i'.mnemonic = i.mnemonic ∧ (ms = [] → i' = i)
  | .jump t, .jump t' => (t' : Int) = t + shift
  | _, _ => False

/-- Neither a jump of control flow nor an instruction or datum that mentions a label. -/
def Stays : Segment → Prop
  | .data _ ms | .op _ ms => ms = []
  | .jump _ => False

variable {shift : Int} {s s' : Segment}

/-- Segments that are moved keep their size. -/
theorem Shifted.size (h : Shifted shift s s') : s'.bytes.length = s.bytes.length := by
  cases s <;> cases s' <;> first | exact h.elim | exact h.2.1 | rfl

/-- A segment that mentions no label stays as it is. -/
theorem Shifted.eq_of_stays (h : Shifted shift s s') (hs : s.Stays) : s' = s := by
  cases s with
  | data bs ms =>
    cases s' with
    | data bs' ms' =>
      obtain ⟨rfl, -, hsame⟩ := h
      rw [hsame hs]
    | _ => exact h.elim
  | op i ms =>
    cases s' with
    | op i' ms' =>
      obtain ⟨rfl, -, hsame⟩ := h
      rw [hsame hs]
    | _ => exact h.elim
  | jump t => exact hs.elim

theorem Shifted.jump {t : Nat} (h : Shifted shift (.jump t) s') :
    ∃ t', s' = .jump t' ∧ (t' : Int) = t + shift := by
  cases s' with
  | jump t' => exact ⟨t', rfl, h⟩
  | _ => exact h.elim

/-- An instruction whose last operand is a value. -/
theorem shifted_op {m : Machine.Mnemonic} {operands operands' : List Machine.Word}
    {ms : List String} (h : ms = [] → operands' = operands) :
    Shifted shift (.op ⟨m, operands⟩ ms) (.op ⟨m, operands'⟩ ms) :=
  ⟨rfl, rfl, fun hms => by rw [h hms]⟩

theorem shifted_refl (i : Machine.Instruction) (ms : List String) :
    Shifted shift (.op i ms) (.op i ms) :=
  ⟨rfl, rfl, fun _ => rfl⟩

theorem shifted_jump {t t' : Nat} (h : (t' : Int) = t + shift) :
    Shifted shift (.jump t) (.jump t') := h

end Segment

/-- Code that is moved keeps its size. -/
theorem codeSize_of_shifted {shift : Int} {code code' : List Segment}
    (h : List.Forall₂ (Segment.Shifted shift) code code') : codeSize code' = codeSize code := by
  induction h with
  | nil => rfl
  | cons hs _ ih => rw [codeSize_cons, codeSize_cons, hs.size, ih]

/-- Code that corresponds to code in three parts has three parts as well. -/
theorem split_shifted {shift : Int} {before after code' : List Segment} {s : Segment}
    (h : List.Forall₂ (Segment.Shifted shift) (before ++ s :: after) code') :
    ∃ before' s' after', code' = before' ++ s' :: after' ∧ codeSize before' = codeSize before ∧
      s.Shifted shift s' := by
  induction before generalizing code' with
  | nil =>
    obtain ⟨s', after', hs, -, rfl⟩ := List.forall₂_cons_left_iff.mp h
    exact ⟨[], s', after', rfl, rfl, hs⟩
  | cons b rest ih =>
    obtain ⟨b', code₁, hb, hrest, rfl⟩ := List.forall₂_cons_left_iff.mp h
    obtain ⟨before', s', after', rfl, hsize, hs⟩ := ih hrest
    exact ⟨b' :: before', s', after', rfl, by simp [hb.size, hsize], hs⟩

section Shifts

variable (shift : Int) (labels labels' : LabelTable)

/-- The code of a condition is moved: its registers stay, and its values stay where they mention no
    label. -/
theorem Cond.code_shifted (cond : Cond) (pc pc' : Nat) (w : Bool) :
    List.Forall₂ (Segment.Shifted shift) (cond.code labels pc w) (cond.code labels' pc' w) := by
  have hequal : ∀ (rhs : CondRhs) (reg : Fin 16) (w : Bool), List.Forall₂ (Segment.Shifted shift)
      [rhs.equalSegment labels pc reg w] [rhs.equalSegment labels' pc' reg w] := by
    intro rhs reg w
    cases rhs with
    | reg r => exact .cons (Segment.shifted_refl _ _) .nil
    | imm v =>
      refine .cons (Segment.shifted_op fun hv => ?_) .nil
      rw [v.fieldAt_of_labels_nil hv labels labels' pc pc']
  have hdifference : ∀ (rhs : CondRhs) (reg temp : Fin 16) (atLeast : Bool),
      List.Forall₂ (Segment.Shifted shift) (rhs.differenceCode labels pc reg temp atLeast)
        (rhs.differenceCode labels' pc' reg temp atLeast) := by
    intro rhs reg temp atLeast
    cases rhs with
    | reg r =>
      cases atLeast <;>
        exact .cons (Segment.shifted_refl _ _) (.cons (Segment.shifted_refl _ _) .nil)
    | imm v =>
      refine .cons (Segment.shifted_op fun hv => ?_) (.cons (Segment.shifted_refl _ _) .nil)
      rw [v.fieldAt_of_labels_nil hv labels labels' pc pc']
  cases cond with
  | key reg pressed => exact .cons (Segment.shifted_refl _ _) .nil
  | compare reg op rhs temp =>
    cases op with
    | eq | ne => exact hequal rhs reg _
    | lt | gt | le | ge =>
      exact List.rel_append (hdifference rhs reg temp _) (.cons (Segment.shifted_refl _ _) .nil)

/-- The code of a leaf is moved, unless it is `org`, whose size would depend on where it stands. -/
theorem Leaf.code_shifted {l : Leaf} (hl : ∀ target, l ≠ .org target) (pc pc' : Nat) :
    List.Forall₂ (Segment.Shifted shift) (l.code labels pc) (l.code labels' pc') := by
  cases l with
  -- an instruction without labels has the same operands at both addresses
  | instr i =>
    refine .cons (Segment.shifted_op fun hmentions => ?_) .nil
    unfold Instr.operandsAt
    cases hv : i.value? with
    | none => rfl
    | some v =>
      have hlabels : v.1.labels = [] := by simpa [Instr.mentions, hv] using hmentions
      simp only [Option.map_some, v.1.fieldAt_of_labels_nil hlabels labels labels' pc pc']
  | org target => exact absurd rfl (hl target)
  | unpack hi lo tag value =>
    refine .cons (Segment.shifted_op fun hmentions => ?_)
      (.cons (Segment.shifted_op fun hmentions => ?_) .nil)
    -- the first instruction holds the tag and the high half of the address, the second one the rest
    · obtain ⟨htag, hvalue⟩ := List.append_eq_nil_iff.mp hmentions
      rw [value.valueAt_of_labels_nil hvalue labels labels' pc pc']
      cases tag with
      | none => rfl
      | some tag =>
        have htag : tag.labels = [] := htag
        rw [unpackedHigh, tag.valueAt_of_labels_nil htag labels labels' pc pc']
        rfl
    · rw [value.valueAt_of_labels_nil hmentions labels labels' pc pc']
  | byte value =>
    refine .cons ⟨rfl, rfl, fun hv => ?_⟩ .nil
    rw [value.fieldAt_of_labels_nil hv labels labels' pc pc']
  | pointer value =>
    refine .cons ⟨rfl, rfl, fun hv => ?_⟩ .nil
    rw [value.fieldAt_of_labels_nil hv labels labels' pc pc']
  | label _ | nextLabel _ | assertion _ _ | breakpoint _ | monitor _ _ => exact .nil

end Shifts

/-- No `org` is among the leaves. -/
def NoOrg (items : List Item) : Prop := ∀ target, .org target ∉ leavesOf items

theorem NoOrg.sub {items body : List Item} (h : NoOrg items)
    (hsub : ∀ l ∈ leavesOf body, l ∈ leavesOf items) : NoOrg body :=
  fun target htarget => h target (hsub _ htarget)

section Blocks

variable {labels labels' : LabelTable} {shift : Int}

/-- Behind code of one size and `n` more bytes, two addresses are as far apart as before. -/
theorem startsApart {pc pc' size size' : Nat} (hpc : (pc' : Int) = pc + shift)
    (hsize : size' = size) (n : Nat) :
    ((pc' + size' + n : Nat) : Int) = (pc + size + n : Nat) + shift := by
  omega

-- Blocks start at addresses that are apart by `shift`, and the blocks before them have equal sizes.
mutual

/-- By recursion on the item, with the walk over blocks: targets are computed from sizes, and those
    are the same on both sides. -/
theorem item_shifted : ∀ (i : Item) {pc pc' : Nat}, NoOrg [i] → (pc' : Int) = pc + shift →
    List.Forall₂ (Segment.Shifted shift) (i.code labels pc) (i.code labels' pc')
  | .leaf _ l, pc, pc', hno, hpc => by
    refine l.code_shifted shift labels labels' (fun target hl => ?_) pc pc'
    exact hno target (by simp [Item.leaves, hl])
  | .ifThen _ cond body, pc, pc', hno, hpc => by
    have htest := cond.code_shifted shift labels labels' pc pc' false
    -- the body starts behind the test, which has the same size on both sides
    have hstart := startsApart hpc (codeSize_of_shifted htest) 0
    have hbody := block_shifted body (hno.sub (by simp [Item.leaves])) hstart
    simp only [Item.code]
    exact List.rel_append htest hbody
  | .ifBegin _ cond body, pc, pc', hno, hpc => by
    have htest := cond.code_shifted shift labels labels' pc pc' true
    have hstart := startsApart hpc (codeSize_of_shifted htest) 2
    have hbody := block_shifted body (hno.sub (by simp [Item.leaves])) hstart
    have hend := startsApart hstart (codeSize_of_shifted hbody) 0
    simp only [Item.code]
    exact List.rel_append htest (.cons (Segment.shifted_jump hend) hbody)
  | .ifElse _ cond body otherwise, pc, pc', hno, hpc => by
    have htest := cond.code_shifted shift labels labels' pc pc' true
    have hstart := startsApart hpc (codeSize_of_shifted htest) 2
    have hbody := block_shifted body (hno.sub (by simp +contextual [Item.leaves])) hstart
    -- the second body starts behind the jump that ends the first one
    have hstart' := startsApart hstart (codeSize_of_shifted hbody) 2
    have hother := block_shifted otherwise (hno.sub (by simp +contextual [Item.leaves])) hstart'
    have hend := startsApart hstart' (codeSize_of_shifted hother) 0
    simp only [Item.code]
    exact List.rel_append (List.rel_append htest (.cons (Segment.shifted_jump hstart') hbody))
      (.cons (Segment.shifted_jump hend) hother)
  | .loop _ body, pc, pc', hno, hpc => by
    have hbody := block_shifted body (hno.sub (by simp [Item.leaves])) hpc
    simp only [Item.code]
    exact List.rel_append hbody (.cons (Segment.shifted_jump hpc) .nil)
  | .loopUntil _ body cond, pc, pc', hno, hpc => by
    have hbody := block_shifted body (hno.sub (by simp [Item.leaves])) hpc
    have hmiddle := startsApart hpc (codeSize_of_shifted hbody) 0
    have htest := cond.code_shifted shift labels labels' (pc + codeSize (codeOf labels pc body))
      (pc' + codeSize (codeOf labels' pc' body)) false
    -- the loop ends behind its two jumps
    have hend := startsApart hmiddle (codeSize_of_shifted htest) 4
    simp only [Item.code]
    exact List.rel_append (List.rel_append hbody htest)
      (.cons (Segment.shifted_jump hend) (.cons (Segment.shifted_jump hpc) .nil))
  | .whileDo _ cond body, pc, pc', hno, hpc => by
    have htest := cond.code_shifted shift labels labels' pc pc' true
    have hstart := startsApart hpc (codeSize_of_shifted htest) 2
    have hbody := block_shifted body (hno.sub (by simp [Item.leaves])) hstart
    have hend := startsApart hstart (codeSize_of_shifted hbody) 2
    simp only [Item.code]
    exact List.rel_append (List.rel_append htest (.cons (Segment.shifted_jump hend) hbody))
      (.cons (Segment.shifted_jump hpc) .nil)

/-- **The code of a block at two addresses**: the targets of control flow are moved with it, and
    what mentions no label is the same. -/
theorem block_shifted : ∀ (items : List Item) {pc pc' : Nat}, NoOrg items →
    (pc' : Int) = pc + shift →
    List.Forall₂ (Segment.Shifted shift) (codeOf labels pc items) (codeOf labels' pc' items)
  | [], _, _, _, _ => .nil
  | i :: rest, pc, pc', hno, hpc => by
    have hfirst := item_shifted i (hno.sub (by simp +contextual)) hpc
    have hstart := startsApart hpc (codeSize_of_shifted hfirst) 0
    exact List.rel_append hfirst (block_shifted rest (hno.sub (by simp +contextual)) hstart)

end

end Blocks

/-! ## Leaves at two origins -/

/-- Without `org` every act has a size of its own. -/
theorem NoOrg.size? {items : List Item} (h : NoOrg items) :
    ∀ m ∈ planOf items, m.act.size? ≠ none := by
  intro m hm hnone
  obtain ⟨target, horg⟩ := Act.size?_eq_none hnone
  exact h target (mem_leavesOf_of_mem_planOf hm horg)

namespace Run

variable {run run' : Run} {p p' r r' : Progress} {moves : List Move}

/-- Without `org`, two runs come past every move at the same offset, and end with as many bytes. -/
theorem trail_aligned (hsized : ∀ m ∈ moves, m.act.size? ≠ none) (h : run.follow p moves = .ok r)
    (h' : run'.follow p' moves = .ok r') (hsize : p'.draft.bytes.size = p.draft.bytes.size) :
    List.Forall₂ (fun stage stage' => stage'.move = stage.move ∧
      stage'.before.draft.bytes.size = stage.before.draft.bytes.size)
      (run.trail p moves) (run'.trail p' moves) := by
  induction moves generalizing p p' with
  | nil => exact .nil
  | cons m rest ih =>
    obtain ⟨q, hact, hrest⟩ := run.follow_cons_eq_ok.mp h
    obtain ⟨q', hact', hrest'⟩ := run'.follow_cons_eq_ok.mp h'
    obtain ⟨n, hn⟩ := Option.ne_none_iff_exists'.mp (hsized m List.mem_cons_self)
    have hq := (act_effect hact).size n hn
    have hq' := (act_effect hact').size n hn
    rw [trail_cons_of_ok run hact, trail_cons_of_ok run' hact']
    exact .cons ⟨rfl, hsize⟩
      (ih (fun m hm => hsized m (List.mem_cons_of_mem _ hm)) hrest hrest' (by omega))

/-- So they place every leaf at the same offset. -/
theorem placed_aligned (hsized : ∀ m ∈ moves, m.act.size? ≠ none) (h : run.follow p moves = .ok r)
    (h' : run'.follow p' moves = .ok r') (hsize : p'.draft.bytes.size = p.draft.bytes.size) :
    List.Forall₂ (fun place place' => place'.1 = place.1 ∧
      place'.2.bytes.size = place.2.bytes.size) (run.placed p moves) (run'.placed p' moves) := by
  refine List.rel_filterMap ?_ (trail_aligned hsized h h' hsize)
  rintro stage stage' ⟨hmove, hstage⟩
  dsimp only
  rw [hmove]
  cases stage.move.act.leaf? with
  | none => exact .none
  | some l => exact .some ⟨rfl, hstage⟩

end Run

/-! ## Tables at two origins -/

/-- The same name, at the same offset from its origin. -/
def SameOffset (origin origin' : Nat) (e e' : String × Nat) : Prop :=
  e'.1 = e.1 ∧ (e'.2 : Int) - origin' = e.2 - origin

/-- The first entries of each name correspond, as corresponding entries have the same name. -/
theorem firstOfEach_related {R : String × Nat → String × Nat → Prop} {es es' : List (String × Nat)}
    (hname : ∀ e e', R e e' → e'.1 = e.1) (h : List.Forall₂ R es es') :
    List.Forall₂ R (firstOfEach es) (firstOfEach es') := by
  induction h with
  | nil => exact .nil
  | cons he _ ih =>
    refine .cons he (List.rel_filter ?_ ih)
    intro x x' hx
    simp only [hname _ _ hx, hname _ _ he]

section Tables

variable {origin origin' : Nat} {places places' : List (Leaf × Draft)}
  (h : List.Forall₂ (fun place place' => place'.1 = place.1 ∧
    place'.2.bytes.size = place.2.bytes.size) places places')

include h

/-- The labels are declared at the same offsets. -/
theorem declarations_aligned : List.Forall₂ (SameOffset origin origin')
    (places.filterMap (declaredAt origin)) (places'.filterMap (declaredAt origin')) := by
  refine List.rel_filterMap ?_ h
  rintro ⟨l, d⟩ ⟨l', d'⟩ ⟨hleaf, hsize⟩
  simp only at hleaf hsize
  subst hleaf
  simp only [declaredAt]
  cases l'.declares with
  | none => exact .none
  | some label => exact .some ⟨rfl, by push_cast; omega⟩

/-- The breakpoints stand at the same offsets. -/
theorem breakpoints_aligned : List.Forall₂ (SameOffset origin origin')
    (places.filterMap (breakpointAt origin)) (places'.filterMap (breakpointAt origin')) := by
  refine List.rel_filterMap ?_ h
  rintro ⟨l, d⟩ ⟨l', d'⟩ ⟨hleaf, hsize⟩
  simp only at hleaf hsize
  subst hleaf
  cases l' with
  | breakpoint name => exact .some ⟨rfl, by push_cast; omega⟩
  | _ => exact .none

end Tables

/-! ## Images at two origins -/

/-- Two images of one program, given with the code of their bytes, have the same layout. -/
structure SameLayout (code code' : List Segment) (image image' : Image) : Prop where
  bytes : image.bytes.toList = codeBytes code ∧ image'.bytes.toList = codeBytes code'
  size : image'.bytes.size = image.bytes.size
  /-- the same labels in the same order -/
  labels : List.Forall₂ (SameOffset image.origin image'.origin) image.labels image'.labels
  breakpoints :
    List.Forall₂ (SameOffset image.origin image'.origin) image.breakpoints image'.breakpoints
  /-- the images agree segment by segment -/
  segments : List.Forall₂ (Segment.Shifted (image'.origin - image.origin)) code code'
  /-- wherever one of them jumps for control flow, so does the other, to a target moved with the
      origin -/
  jumps : ∀ before t after, code = before ++ .jump t :: after → ∃ t',
    image.instruction? (codeSize before) = some (jumpTo t) ∧
      image'.instruction? (codeSize before) = some (jumpTo t') ∧
      t < 0x1000 ∧ t' < 0x1000 ∧ (t' : Int) - t = image'.origin - image.origin
  /-- a byte of anything else is the same, unless it is part of what mentions a label -/
  stays : ∀ before s after, code = before ++ s :: after → s.Stays → ∀ k < s.bytes.length,
    image'.bytes[codeSize before + k]? = image.bytes[codeSize before + k]?

section Images

variable {image image' : Image} {code code' before after : List Segment} {shift : Int}
  (hshift : List.Forall₂ (Segment.Shifted shift) code code')
  (hbytes : image.bytes.toList = codeBytes code) (hbytes' : image'.bytes.toList = codeBytes code')

include hshift hbytes hbytes'

/-- Both images have the same size. -/
theorem size_of_shifted : image'.bytes.size = image.bytes.size := by
  rw [← Array.length_toList, ← Array.length_toList, hbytes, hbytes']
  exact codeSize_of_shifted hshift

/-- A jump of control flow stands at the same offset in both images. -/
theorem jump_of_shifted {t : Nat} (hcode : code = before ++ .jump t :: after)
    (hencodes : ∀ s ∈ code, s.Encodes) (hencodes' : ∀ s ∈ code', s.Encodes) :
    ∃ t' : Nat, .jump t' ∈ code' ∧ (t' : Int) = t + shift ∧
      (image.instruction? (codeSize before) = some (jumpTo t) ∧ t % 0x10000 < 0x1000) ∧
      image'.instruction? (codeSize before) = some (jumpTo t') ∧ t' % 0x10000 < 0x1000 := by
  subst hcode
  obtain ⟨before', s', after', rfl, hsize, hs⟩ := split_shifted hshift
  obtain ⟨t', rfl, ht'⟩ := hs.jump
  have hjump := jump_of_code hbytes (hencodes _ (by simp))
  have hjump' := jump_of_code hbytes' (hencodes' _ (by simp))
  rw [hsize] at hjump'
  exact ⟨t', by simp, ht', hjump, hjump'⟩

/-- A byte of a segment that stays is the same in both images. -/
theorem byte_of_shifted {s : Segment} (hcode : code = before ++ s :: after) (hs : s.Stays) {k : Nat}
    (hk : k < s.bytes.length) :
    image'.bytes[codeSize before + k]? = image.bytes[codeSize before + k]? := by
  subst hcode
  obtain ⟨before', s', after', rfl, hsize, hshifted⟩ := split_shifted hshift
  obtain rfl := hshifted.eq_of_stays hs
  have hbyte := getElem?_of_code hbytes hk
  have hbyte' := getElem?_of_code hbytes' hk
  rw [hsize] at hbyte'
  exact hbyte'.trans hbyte.symm

end Images

/-- **The layout does not depend on the origin.** Two images of one program without `org`, made
    with settings that may differ in the origin, have the same layout. No size depends on a value
    then, so the code at the one origin is the code at the other, segment by segment, with every
    target of control flow moved (`block_shifted`), and both runs come past each leaf at the same
    offset (`Run.trail_aligned`). -/
theorem layout_moves_with_origin {options settings settings' : Options} {program : List Statement}
    {items : List Item} {image image' : Image} (hresolved : resolve options program = .ok items)
    (hplain : NoOrg items) (horigin : settings.origin < 0xFFFF)
    (hmemory : settings.memoryEnd < 0xFFFF) (horigin' : settings'.origin < 0xFFFF)
    (hmemory' : settings'.memoryEnd < 0xFFFF) (himage : Image.ofItems settings items = .ok image)
    (himage' : Image.ofItems settings' items = .ok image') :
    image.origin = settings.origin ∧ image'.origin = settings'.origin ∧
      ∃ laid laid', layOut settings items = .ok laid ∧ layOut settings' items = .ok laid' ∧
        SameLayout (codeOf laid.labels settings.origin items)
          (codeOf laid'.labels settings'.origin items) image image' := by
  obtain ⟨laid, emitted, hlaid, hemitted, rfl⟩ := ofItems_eq_ok.mp himage
  obtain ⟨laid', emitted', hlaid', hemitted', rfl⟩ := ofItems_eq_ok.mp himage'
  obtain ⟨names, hends, -⟩ := resolve_endsWith hresolved
  obtain ⟨-, -, haccounts⟩ := hends.sound
  obtain ⟨hbytes, hencodes⟩ := emit_code hemitted
  obtain ⟨hbytes', hencodes'⟩ := emit_code hemitted'
  have hshift : List.Forall₂ (Segment.Shifted (settings'.origin - settings.origin))
      (codeOf laid.labels settings.origin items) (codeOf laid'.labels settings'.origin items) :=
    block_shifted items hplain (by omega)
  have haligned := Run.placed_aligned hplain.size? (emit_eq_ok.mp hemitted)
    (emit_eq_ok.mp hemitted') rfl
  refine ⟨rfl, rfl, laid, laid', hlaid, hlaid', ?_⟩
  constructor
  case bytes => exact ⟨hbytes, hbytes'⟩
  case size => exact size_of_shifted hshift hbytes hbytes'
  case labels =>
    show List.Forall₂ _ emitted.labels.heads emitted'.labels.heads
    rw [heads_emitted haccounts.distinct horigin hmemory hlaid hemitted,
      heads_emitted haccounts.distinct horigin' hmemory' hlaid' hemitted']
    exact firstOfEach_related (fun e e' h => h.1) (declarations_aligned haligned)
  case breakpoints =>
    show List.Forall₂ _ emitted.breakpoints.reverse emitted'.breakpoints.reverse
    rw [(notes_emitted horigin hmemory hlaid hemitted).1,
      (notes_emitted horigin' hmemory' hlaid' hemitted').1]
    exact breakpoints_aligned haligned
  case segments => exact hshift
  case jumps =>
    intro before t after hcode
    obtain ⟨t', hmem', ht', ⟨hjump, hcut⟩, hjump', hcut'⟩ :=
      jump_of_shifted hshift hbytes hbytes' hcode hencodes hencodes'
    -- targets lie within the memory, so nothing of them is cut
    have hmem : .jump t ∈ codeOf laid.labels settings.origin items := by simp [hcode]
    have hlt := target_le_memory hemitted hmem
    have hlt' := target_le_memory hemitted' hmem'
    exact ⟨t', hjump, hjump', by omega, by omega, by simp only [Draft.finish]; omega⟩
  case stays =>
    intro before s after hcode hs k hk
    exact byte_of_shifted hshift hbytes hbytes' hcode hs hk

/-- A loop around an instruction that mentions a label, and a breakpoint behind it. -/
def movingItems : List Item :=
  [.leaf ⟨1, "main"⟩ (.label "main"),
    .whileDo ⟨2, "while"⟩ (.key (vReg 0) true)
      [.leaf ⟨3, "i"⟩ (.instr (.addr .sto (.label "main")))],
    .leaf ⟨4, ":breakpoint"⟩ (.breakpoint "done"),
    .leaf ⟨5, "clear"⟩ (.instr (.bare .clr))]

/-- The statements of `movingItems`. -/
def movingProgram : List Statement :=
  [.label (word 1 "main"),
    .whileDo (word 2 "while") (.key (.literal (word 2 "v0") (vReg 0)) true)
      (.simple (.assign (.indexSet (word 3 "i") (.named (word 3 "main"))))),
    .simple (.breakpoint (word 4 ":breakpoint") (word 4 "done")),
    .simple (.clear (word 5 "clear"))]
where
  /-- A word of a line. -/
  word (line : Nat) (text : String) : Token := ⟨line, .name, text⟩

/-- The image of `movingItems` at an origin whose high digit is `page`. -/
def movingImage (page : UInt8) : Image where
  origin := page.toNat * 256
  bytes := #[0xE0, 0x9E, 0x10 + page, 8, 0xA0 + page, 0, 0x10 + page, 0, 0, 0xE0]
  labels := [("main", page.toNat * 256)]
  breakpoints := [("done", page.toNat * 256 + 8)]
  monitors := []

/-- A loop that names a label, at two origins: its jumps and its value have moved, and all else has
    stayed. -/
theorem layout_moves_with_origin_moving :
    resolve {} movingProgram = .ok movingItems ∧
      Image.ofItems {} movingItems = .ok (movingImage 2) ∧
      Image.ofItems { origin := 0x300 } movingItems = .ok (movingImage 3) ∧
      (movingImage 2).origin = 0x200 ∧ (movingImage 3).origin = 0x300 ∧
      ∃ laid laid', layOut {} movingItems = .ok laid ∧
        layOut { origin := 0x300 } movingItems = .ok laid' ∧
        SameLayout (codeOf laid.labels 0x200 movingItems) (codeOf laid'.labels 0x300 movingItems)
          (movingImage 2) (movingImage 3) := by
  have hresolved : resolve {} movingProgram = .ok movingItems := rfl
  have himages : Image.ofItems {} movingItems = .ok (movingImage 2) ∧
      Image.ofItems { origin := 0x300 } movingItems = .ok (movingImage 3) := by
    decide +kernel
  have hplain : NoOrg movingItems := by simp [NoOrg, movingItems, Item.leaves]
  exact ⟨hresolved, himages.1, himages.2, layout_moves_with_origin hresolved hplain (by decide)
    (by decide) (by decide) (by decide) himages.1 himages.2⟩

end OctoAsm
