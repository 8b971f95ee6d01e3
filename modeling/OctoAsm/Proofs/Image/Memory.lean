/-
  The memory limit only cuts off.

  The end of memory is looked at in one place, where a byte is appended (`Run.byte_cut`); everything
  else, the values, the padding of `org` and the patches, goes by the origin and by what has been
  appended.  So two passes under different limits make the same moves until there is no room under the
  smaller one, which may well be in the middle of a word.  The induction is on the moves of the plan
  (`Run.follow_cut`), once for both passes.
-/
import OctoAsm.Proofs.Image.Layout

namespace OctoAsm

open Machine (Mnemonic Word)

/-- There is no room for the program. -/
def EmitCause.IsTooLarge (cause : EmitCause) : Prop := ∃ limit, cause = .programTooLarge limit

/-- There is no room for the program. -/
def EmitError.IsTooLarge (e : EmitError) : Prop := e.cause.IsTooLarge

/-- A failure that is blamed on an item keeps its cause. -/
theorem blame_cut {α : Type} (site : Site) {x y : Except EmitCause α}
    (h : CutShort EmitCause.IsTooLarge x y) :
    CutShort EmitError.IsTooLarge (site.blame x) (site.blame y) := by
  rcases h with rfl | ⟨cause, rfl, hcause⟩
  · exact .refl _
  · exact .inr ⟨_, rfl, hcause⟩

namespace Run

/-- The same pass, with another end of memory. -/
def within (run : Run) (memoryEnd : Nat) : Run :=
  { run with options := { run.options with memoryEnd } }

section Limits

variable {run : Run} {limit : Nat} (hlimit : run.options.memoryEnd ≤ limit)

include hlimit

/-! ## Bytes -/

/-- **Only for want of room is a byte refused under one limit and appended under a greater one.** -/
theorem byte_cut (d : Draft) (b : UInt8) :
    CutShort EmitCause.IsTooLarge (run.byte d b) ((run.within limit).byte d b) := by
  unfold byte
  by_cases hroom : run.pc d < run.options.memoryEnd
  · have hroom' : (run.within limit).pc d < limit := Nat.lt_of_lt_of_le hroom hlimit
    exact .inl (by rw [if_pos hroom]; exact (if_pos hroom').symm)
  · exact .inr ⟨_, if_neg hroom, _, rfl⟩

/-- A word may be cut off between its two bytes. -/
theorem word_cut (d : Draft) (w : Word) :
    CutShort EmitCause.IsTooLarge (run.word d w) ((run.within limit).word d w) :=
  (byte_cut hlimit d _).bind fun d' => byte_cut hlimit d' _

theorem op_cut (d : Draft) (m : Mnemonic) (operands : List Word) :
    CutShort EmitCause.IsTooLarge (run.op d m operands) ((run.within limit).op d m operands) :=
  .after _ fun w => word_cut hlimit d w

theorem ops_cut (d : Draft) (code : List (Mnemonic × List Word)) :
    CutShort EmitCause.IsTooLarge (run.ops d code) ((run.within limit).ops d code) := by
  induction code generalizing d with
  | nil => exact .refl _
  | cons c rest ih => exact (op_cut hlimit d c.1 c.2).bind ih

/-- A row of zeros may be cut off anywhere in it. -/
theorem zeros_cut (d : Draft) (n : Nat) :
    CutShort EmitCause.IsTooLarge (run.zeros d n) ((run.within limit).zeros d n) := by
  induction n generalizing d with
  | zero => exact .refl _
  | succ n ih => exact (byte_cut hlimit d 0).bind ih

/-! ## Moves -/

/-- Moving the place of emission goes by the origin, and is cut off while it fills up. -/
theorem org_cut (d : Draft) (target : Imm) :
    CutShort EmitCause.IsTooLarge (run.org d target) ((run.within limit).org d target) := by
  unfold org
  split
  · refine .after (run.eval d target) fun goal => ?_
    split
    · exact .refl _
    · -- both passes stand at the same address
      by_cases hback : goal < run.pc d
      · have hback' : goal < (run.within limit).pc d := hback
        rw [if_pos hback, if_pos hback']
        exact .refl _
      · have hback' : ¬ goal < (run.within limit).pc d := hback
        rw [if_neg hback, if_neg hback']
        exact zeros_cut hlimit d _
  · exact .refl _

theorem leaf_cut (d : Draft) (l : Leaf) :
    CutShort EmitCause.IsTooLarge (run.leaf d l) ((run.within limit).leaf d l) := by
  cases l with
  | instr i => exact .after (run.instrCode d i) fun c => op_cut hlimit d c.1 c.2
  | org target => exact org_cut hlimit d target
  | unpack hi lo tag value =>
    refine .after (run.eval d value) fun v => ?_
    exact .after (run.unpackHigh d tag v) fun high => ops_cut hlimit d _
  | byte value => exact .after (run.imm d value 8) fun w => byte_cut hlimit d _
  | pointer value => exact .after (run.imm d value 16) fun w => word_cut hlimit d w
  | label | nextLabel | assertion | breakpoint | monitor => exact .refl _

/-- One case to an act: only those that append look at the end of memory. -/
theorem act_cut (p : Progress) (a : Act) :
    CutShort EmitCause.IsTooLarge (run.act p a) ((run.within limit).act p a) := by
  cases a with
  | leaf l => exact (leaf_cut hlimit p.draft l).bind fun d => .refl _
  | skip cond w =>
    refine CutShort.bind ?_ fun d => .refl _
    exact .after (run.skipCode p.draft cond w) fun code => ops_cut hlimit p.draft code
  | hole => exact (word_cut hlimit p.draft 0).bind fun d => .refl _
  | jump => exact (op_cut hlimit p.draft .jmpi _).bind fun d => .refl _
  | enter | here | swap | patch | single => exact .refl _

/-- By induction on the moves of the plan, for either pass. -/
theorem follow_cut (p : Progress) (moves : List Move) :
    CutShort EmitError.IsTooLarge (run.follow p moves) ((run.within limit).follow p moves) := by
  induction moves generalizing p with
  | nil => exact .refl _
  | cons m rest ih => exact (blame_cut m.site (act_cut hlimit p m.act)).bind ih

/-- **A pass is cut off only for want of room.** -/
theorem block_cut (d : Draft) (items : List Item) :
    CutShort EmitError.IsTooLarge (run.block d items) ((run.within limit).block d items) := by
  rcases follow_cut hlimit ⟨d, []⟩ (planOf items) with hsame | ⟨e, he, hlarge⟩
  · rw [follow_planOf, follow_planOf] at hsame
    refine .inl ?_
    cases hend : run.block d items with
    | error e =>
      rw [hend] at hsame
      exact (map_eq_error.mp hsame.symm).symm
    | ok d' =>
      rw [hend] at hsame
      obtain ⟨d'', hend', hprogress⟩ := map_eq_ok.mp hsame.symm
      rw [hend', (Progress.mk.inj hprogress).1]
  · exact .inr ⟨e, run.block_eq_error.mpr he, hlarge⟩

end Limits

end Run

/-! ## Images -/

/-- A greater limit changes nothing about an image, or about a failure for another reason. -/
theorem ofItems_cut (options : Options) {limit limit' : Nat} (h : limit ≤ limit')
    (items : List Item) : CutShort EmitError.IsTooLarge
      (Image.ofItems { options with memoryEnd := limit } items)
      (Image.ofItems { options with memoryEnd := limit' } items) := by
  have hpass : ∀ pass d, CutShort EmitError.IsTooLarge
      (Run.block ⟨{ options with memoryEnd := limit }, pass⟩ d items)
      (Run.block ⟨{ options with memoryEnd := limit' }, pass⟩ d items) := by
    intro pass d
    let run : Run := ⟨{ options with memoryEnd := limit }, pass⟩
    have hlimit : run.options.memoryEnd ≤ limit' := h
    exact Run.block_cut hlimit d items
  exact (hpass .layout .empty).bind fun laid =>
    (hpass .emit { laid with bytes := #[] }).bind fun emitted => .refl _

/-- An image that is not empty ends within memory. -/
theorem end_le_memory {options : Options} {items : List Item} {image : Image}
    (h : Image.ofItems options items = .ok image) (hbytes : 0 < image.bytes.size) :
    options.origin + image.bytes.size ≤ options.memoryEnd := by
  obtain ⟨laid, emitted, -, hemitted, rfl⟩ := ofItems_eq_ok.mp h
  have hend := Run.pc_le_max_of_follow (emit_eq_ok.mp hemitted)
  have hbytes : 0 < emitted.bytes.size := hbytes
  have hstart : Run.pc ⟨options, .emit⟩ (emitStart laid).draft = options.origin := rfl
  rw [hstart] at hend
  show options.origin + emitted.bytes.size ≤ options.memoryEnd
  simp only [Run.pc] at hend
  omega

/-- The limit on the memory only cuts an emission off. -/
structure MemoryCutsOff (items : List Item) : Prop where
  /-- an image with any bytes ends within memory -/
  fits : ∀ options image, Image.ofItems options items = .ok image → 0 < image.bytes.size →
    options.origin + image.bytes.size ≤ options.memoryEnd
  /-- what a limit does not cut off is the same under every greater one: image or diagnostic -/
  monotone : ∀ (options : Options) limit limit', limit ≤ limit' →
    (∀ e, Image.ofItems { options with memoryEnd := limit } items = .error e → ¬ e.IsTooLarge) →
    Image.ofItems { options with memoryEnd := limit' } items =
      Image.ofItems { options with memoryEnd := limit } items

/-- **The memory limit is a pure cut-off**, for whatever items and options. The limit is looked at
    where a byte is appended and nowhere else, so two passes under different limits make the same
    moves, one by one, until a byte has no room under the smaller one (`Run.follow_cut`). -/
theorem memory_cuts_off (items : List Item) : MemoryCutsOff items where
  fits := fun _ _ h hbytes => end_le_memory h hbytes
  monotone := fun options _ _ hle h => ((ofItems_cut options hle items).eq_of_not h).symm

/-- One label and one instruction. -/
def halvedItems : List Item :=
  [.leaf ⟨1, "main"⟩ (.label "main"), .leaf ⟨2, "clear"⟩ (.instr (.bare .clr))]

/-- The image of `halvedItems`. -/
def halvedImage : Image := ⟨0x200, #[0x00, 0xE0], [("main", 0x200)], [], []⟩

/-- With room for half of its only word `halvedItems` is cut off; with any more there is always the
    same image, and it ends within memory. -/
theorem memory_cuts_off_halved :
    Image.ofItems { memoryEnd := 0x201 } halvedItems =
        .error ⟨2, "clear", .programTooLarge 0x201⟩ ∧
      ∀ limit, 0x202 ≤ limit →
        Image.ofItems { memoryEnd := limit } halvedItems = .ok halvedImage ∧
          0x200 + halvedImage.bytes.size ≤ limit := by
  have himage : Image.ofItems { memoryEnd := 0x202 } halvedItems = .ok halvedImage := by
    decide +kernel
  refine ⟨by decide +kernel, fun limit hlimit => ?_⟩
  have hsame : Image.ofItems { memoryEnd := limit } halvedItems = .ok halvedImage := by
    refine ((memory_cuts_off halvedItems).monotone {} 0x202 limit hlimit fun e he => ?_).trans himage
    cases himage.symm.trans he
  exact ⟨hsame, (memory_cuts_off halvedItems).fits _ _ hsame (by decide)⟩

end OctoAsm
