/-
  What a resolved program can fail of when it is emitted.

  Resolution promises much about the items it makes, and the emission relies on it: it never finds an
  instruction with the wrong number of operands, nor an operand too large for its field, nor a known
  number too large for the field it goes into.  What is left are the jumps of control flow, whose
  targets come from the layout alone, and the values that had to wait for addresses.
-/
import OctoAsm.Proofs.Image.Causes
import OctoAsm.Proofs.Image.Layout

namespace OctoAsm

namespace Act

/-- An act is sound under some names if what it appends or tests is. -/
structure Sound (names : NameTable) (a : Act) : Prop where
  leaf : ∀ l, a = .leaf l → SoundLeaf names l
  cond : ∀ c w, a = .skip c w → SoundCond names c

/-- The act appends an `unpack` with a tag. -/
def isTagged : Act → Bool
  | .leaf l => l.isTagged
  | _ => false

/-- But for a tagged `unpack`, an act looks at one value at most. -/
theorem values_eq_singleton {a : Act} (htagged : a.isTagged = false) {v : Imm × Option Nat}
    (hv : v ∈ a.values) : a.values = [v] := by
  have hsingle : ∀ w, a.values = [w] → a.values = [v] := by
    intro w hw
    rw [hw] at hv ⊢
    rw [List.mem_singleton.mp hv]
  cases a with
  | leaf l =>
    cases l with
    | instr i =>
      cases i with
      | bare _ | regReg _ _ _ | reg _ _ => cases hv
      | addr _ _ | regImm _ _ _ | draw _ _ _ => exact hsingle _ rfl
    | label _ | nextLabel _ | breakpoint _ => cases hv
    | org _ | byte _ | pointer _ | assertion _ _ => exact hsingle _ rfl
    | unpack hi lo tag value =>
      cases tag with
      | none => exact hsingle _ rfl
      | some tag => cases htagged
    | monitor target format =>
      cases target with
      | register _ => cases hv
      | address _ => exact hsingle _ rfl
  | skip cond w =>
    cases cond with
    | key _ _ => cases hv
    | compare reg op rhs temp =>
      cases rhs with
      | reg _ => cases hv
      | imm _ => exact hsingle _ rfl
  | enter _ | here | hole | swap | jump | patch | single => cases hv

end Act

/-! ## One act -/

namespace Run

variable {run : Run} {p : Progress} {cause : EmitCause}

/-- A jump fails to be encoded only for a target of more than twelve bits. -/
theorem encoded_jmpi_error {target : Nat}
    (h : encoded .jmpi [UInt16.ofNat target] = .error cause) :
    0x1000 ≤ target ∧ cause = .encode (.overflow .jmpi (UInt16.ofNat target) 12) := by
  obtain ⟨e, he, rfl⟩ := encoded_eq_error h
  obtain ⟨rfl, hle⟩ := Machine.encode_jmpi_eq_error.mp he
  refine ⟨?_, rfl⟩
  rw [UInt16.toNat_ofNat'] at hle
  have := Nat.mod_le target (2 ^ 16)
  omega

/-- An encoding error of an act is that of a jump of control flow that leads too far. -/
def JumpsTooFar (run : Run) (p : Progress) (a : Act) (e : Machine.EncodeError) : Prop :=
  ∃ target, a.target? run p = some target ∧ 0x1000 ≤ target ∧
    e = .overflow .jmpi (UInt16.ofNat target) 12

/-- Why a sound act fails. -/
theorem act_error {names : NameTable} {a : Act} (ha : a.Sound names)
    (h : run.act p a = .error cause) :
    Excused run p.draft a.values a.isTagged cause ∨
      ∃ e, cause = .encode e ∧ JumpsTooFar run p a e := by
  cases a with
  | enter item | here | swap => cases h
  | leaf l =>
    rcases bind_eq_error.mp h with h | ⟨d, -, h⟩
    · exact .inl (leaf_error (ha.leaf l rfl) h)
    · cases h
  | skip cond w =>
    rcases bind_eq_error.mp h with h | ⟨d, -, h⟩
    · exact .inl (skip_error (ha.cond cond w rfl) h)
    · cases h
  | hole =>
    rcases bind_eq_error.mp h with h | ⟨d, -, h⟩
    · obtain rfl := word_error h
      exact .inl trivial
    · cases h
  | jump =>
    rcases bind_eq_error.mp h with h | ⟨d, -, h⟩
    · rcases bind_eq_error.mp h with h | ⟨w, -, h⟩
      · obtain ⟨hle, rfl⟩ := encoded_jmpi_error h
        exact .inr ⟨_, rfl, _, rfl, hle, rfl⟩
      · obtain rfl := word_error h
        exact .inl trivial
    · cases h
  | patch =>
    rcases bind_eq_error.mp h with h | ⟨d, -, h⟩
    · rcases bind_eq_error.mp h with h | ⟨w, -, h⟩
      · obtain ⟨hle, rfl⟩ := encoded_jmpi_error h
        exact .inr ⟨_, rfl, _, rfl, hle, rfl⟩
      · cases h
    · cases h
  | single =>
    simp only [act] at h
    split at h
    · cases h
    · obtain rfl := Except.error.inj h
      exact .inl trivial

end Run

/-! ## Programs -/

/-- The making of an image fails with a diagnostic at a move of one of its passes. -/
def FailsAt (settings : Options) (items : List Item) (e : EmitError) (run : Run) (stage : Stage) :
    Prop :=
  ((run = ⟨settings, .layout⟩ ∧ stage ∈ run.trail layoutStart (planOf items)) ∨
    ∃ laid, layOut settings items = .ok laid ∧ run = ⟨settings, .emit⟩ ∧
      stage ∈ run.trail (emitStart laid) (planOf items)) ∧
  run.act stage.before stage.move.act = .error e.cause ∧
  e = ⟨stage.move.site.line, stage.move.site.text, e.cause⟩

theorem FailsAt.move_mem {settings : Options} {items : List Item} {e : EmitError} {run : Run}
    {stage : Stage} (h : FailsAt settings items e run stage) : stage.move ∈ planOf items := by
  obtain ⟨⟨-, hstage⟩ | ⟨laid, -, -, hstage⟩, -⟩ := h
  · exact run.move_mem_of_mem_trail hstage
  · exact run.move_mem_of_mem_trail hstage

/-- A pass stops exactly when a move that it reached fails. -/
theorem block_eq_error_iff {run : Run} {d : Draft} {items : List Item} {e : EmitError} :
    run.block d items = .error e ↔ ∃ stage ∈ run.trail ⟨d, []⟩ (planOf items),
      run.act stage.before stage.move.act = .error e.cause ∧
      e = ⟨stage.move.site.line, stage.move.site.text, e.cause⟩ := by
  rw [Run.block_eq_error, Run.follow_eq_error]
  constructor
  · rintro ⟨stage, hstage, cause, hact, rfl⟩
    exact ⟨stage, hstage, hact, rfl⟩
  · rintro ⟨stage, hstage, hact, he⟩
    exact ⟨stage, hstage, e.cause, hact, he⟩

/-- No image is made exactly when a move of one of the passes fails. -/
theorem ofItems_eq_error {settings : Options} {items : List Item} {e : EmitError} :
    Image.ofItems settings items = .error e ↔ ∃ run stage, FailsAt settings items e run stage := by
  constructor
  · intro h
    rcases bind_eq_error.mp h with h | ⟨laid, hlaid, h⟩
    · obtain ⟨stage, hstage, hact, he⟩ := block_eq_error_iff.mp h
      exact ⟨_, stage, .inl ⟨rfl, hstage⟩, hact, he⟩
    · rcases bind_eq_error.mp h with h | ⟨emitted, -, h⟩
      · obtain ⟨stage, hstage, hact, he⟩ := block_eq_error_iff.mp h
        exact ⟨_, stage, .inr ⟨laid, hlaid, rfl, hstage⟩, hact, he⟩
      · cases h
  · rintro ⟨run, stage, ⟨rfl, hstage⟩ | ⟨laid, hlaid, rfl, hstage⟩, hact, he⟩
    · have hfails : layOut settings items = .error e :=
        block_eq_error_iff.mpr ⟨stage, hstage, hact, he⟩
      exact bind_eq_error.mpr (.inl hfails)
    · have hfails : emit settings laid items = .error e :=
        block_eq_error_iff.mpr ⟨stage, hstage, hact, he⟩
      exact bind_eq_error.mpr (.inr ⟨laid, hlaid, bind_eq_error.mpr (.inl hfails)⟩)

theorem SoundItems.act {names : NameTable} {items : List Item} (h : SoundItems names items)
    {m : Move} (hm : m ∈ planOf items) : m.act.Sound names where
  leaf _ hact := h.leaves _ (mem_leavesOf_of_mem_planOf hm hact)
  cond _ _ hact := h.conds _ (mem_condsOf_of_mem_planOf hm hact)

/-- **Resolved programs can be encoded.**  Where a resolved program makes no image, some move fails,
    in one of the passes.  If it fails with an encoding error, then it is a jump of control flow
    whose target has more than twelve bits: the number of operands is never wrong, and no register
    and no value of an instruction is ever too large.  If it fails because a value does not fit, then
    the value is the only one of the move and was not known to be a number, or the move is an
    `unpack` with a tag. -/
theorem resolved_encodable {options settings : Options} {program : List Statement}
    {items : List Item} {e : EmitError} (hresolved : resolve options program = .ok items)
    (hfails : Image.ofItems settings items = .error e) :
    ∃ run stage, FailsAt settings items e run stage ∧
      (∀ c, e.cause = .encode c → ∃ target, stage.move.act.target? run stage.before = some target ∧
        0x1000 ≤ target ∧ c = .overflow .jmpi (UInt16.ofNat target) 12) ∧
      (∀ n bits, e.cause = .overflow n bits → ∃ v ∈ stage.move.act.values,
        run.eval stage.before.draft v.1 = .ok n ∧
        ((stage.move.act.values = [v] ∧ ∀ m, v.1 ≠ .number m) ∨
          stage.move.act.isTagged = true)) := by
  obtain ⟨names, hends, -⟩ := resolve_endsWith hresolved
  obtain ⟨-, hitems, -⟩ := hends.sound
  obtain ⟨run, stage, hstage⟩ := ofItems_eq_error.mp hfails
  have hact := Run.act_error (hitems.act hstage.move_mem) hstage.2.1
  refine ⟨run, stage, hstage, ?_, ?_⟩
  · intro c hc
    rw [hc] at hact
    rcases hact with hexcused | ⟨c', heq, hfar⟩
    · exact hexcused.elim
    · obtain rfl := EmitCause.encode.inj heq
      exact hfar
  · intro n bits hoverflow
    rw [hoverflow] at hact
    rcases hact with ⟨v, hv, heval, hwhy⟩ | ⟨c', heq, -⟩
    -- an act without a tag has one value only; with a tag it may be any of them
    · refine ⟨v, hv, heval, ?_⟩
      cases htagged : stage.move.act.isTagged with
      | true => exact .inr rfl
      | false =>
        rcases hwhy with ⟨-, -, hnumber⟩ | hwhy
        · exact .inl ⟨Act.values_eq_singleton htagged hv, hnumber⟩
        · rw [htagged] at hwhy; cases hwhy
    · cases heq

/-- A loop at the first address beyond the reach of a jump. -/
def farLoopProgram : List Statement :=
  [.label ⟨1, .name, "main"⟩, .loop ⟨2, .name, "loop"⟩ []]

/-- The items of `farLoopProgram`. -/
def farLoopItems : List Item :=
  [.leaf ⟨1, "main"⟩ (.label "main"), .loop ⟨2, "loop"⟩ []]

theorem resolved_encodable_farLoop :
    resolve {} farLoopProgram = .ok farLoopItems ∧
      Image.ofItems { origin := 0x1000, memoryEnd := 0x2000 } farLoopItems =
        .error ⟨2, "loop", .encode (.overflow .jmpi 0x1000 12)⟩ ∧
      ∃ run stage, FailsAt { origin := 0x1000, memoryEnd := 0x2000 } farLoopItems
          ⟨2, "loop", .encode (.overflow .jmpi 0x1000 12)⟩ run stage ∧
        ∃ target, stage.move.act.target? run stage.before = some target ∧ 0x1000 ≤ target := by
  have hresolved : resolve {} farLoopProgram = .ok farLoopItems := rfl
  have hfails : Image.ofItems { origin := 0x1000, memoryEnd := 0x2000 } farLoopItems =
      .error ⟨2, "loop", .encode (.overflow .jmpi 0x1000 12)⟩ := by decide +kernel
  obtain ⟨run, stage, hstage, hfar, -⟩ := resolved_encodable hresolved hfails
  obtain ⟨target, htarget, hle, -⟩ := hfar _ rfl
  exact ⟨hresolved, hfails, run, stage, hstage, target, htarget, hle⟩

end OctoAsm
