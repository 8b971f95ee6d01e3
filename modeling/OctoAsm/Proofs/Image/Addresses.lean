/-
  Which addresses an image has.

  Offsets are counted in full, and an address is cut to sixteen bits where it is written down: at
  the declaration of a label, at a breakpoint, and in the operand of a jump.  Only then is the
  operand checked to fit its twelve bits, so an address beyond `0xFFFF` is not refused but loses its
  high part: `AddressesCut` says for every image what becomes of it.  Memory that ends below `0xFFFF`
  leaves nothing to cut, and all addresses are the true ones (`AddressesTrue`).
-/
import OctoAsm.Proofs.Image.Direct

namespace OctoAsm

/-- The leaves of a program where its first pass comes past them. -/
def layoutPlaces (settings : Options) (items : List Item) : List (Leaf × Draft) :=
  Run.placed ⟨settings, .layout⟩ layoutStart (planOf items)

/-- The leaves of a program where its second pass comes past them: the size of the draft is the
    offset in the image. -/
def emitPlaces (settings : Options) (laid : Draft) (items : List Item) : List (Leaf × Draft) :=
  Run.placed ⟨settings, .emit⟩ (emitStart laid) (planOf items)

/-- The addresses of an image, each as it is written down: cut to sixteen bits. -/
structure AddressesCut (settings : Options) (items : List Item) (laid : Draft) (image : Image) :
    Prop where
  labels : image.labels = (firstOfEach ((layoutPlaces settings items).filterMap
    (declaredAt settings.origin))).map cutEntry
  breakpoints : image.breakpoints = ((emitPlaces settings laid items).filterMap
    (breakpointAt settings.origin)).map cutEntry
  /-- a jump of control flow to `t` leads to `t % 0x10000`, which has twelve bits -/
  jumps : ∀ before t after, codeOf laid.labels settings.origin items = before ++ .jump t :: after →
    ∃ w : Machine.Word, image.instruction? (codeSize before) = some ⟨.jmpi, [w]⟩ ∧
      w.toNat = t % 0x10000 ∧ w.toNat < 0x1000

/-- The addresses of an image are the true ones: the origin and the number of bytes before, and one
    more for the label of a second byte. -/
structure AddressesTrue (settings : Options) (items : List Item) (laid : Draft) (image : Image) :
    Prop where
  labels : image.labels =
    firstOfEach ((emitPlaces settings laid items).filterMap (declaredAt settings.origin))
  breakpoints : image.breakpoints =
    (emitPlaces settings laid items).filterMap (breakpointAt settings.origin)
  jumps : ∀ before t after, codeOf laid.labels settings.origin items = before ++ .jump t :: after →
    ∃ w : Machine.Word, image.instruction? (codeSize before) = some ⟨.jmpi, [w]⟩ ∧ w.toNat = t

section Images

variable {settings : Options} {items : List Item} {laid emitted : Draft}

theorem addressesCut_of_emit (hlaid : layOut settings items = .ok laid)
    (hemitted : emit settings laid items = .ok emitted) :
    AddressesCut settings items laid (emitted.finish settings.origin) where
  labels := heads_laid hlaid hemitted
  breakpoints := (notes_cut hlaid hemitted).1
  jumps := by
    intro before t after hcode
    obtain ⟨hbytes, hencodes⟩ := emit_code hemitted
    rw [hcode] at hbytes hencodes
    obtain ⟨hjump, hfits⟩ := jump_of_code hbytes (hencodes _ (by simp))
    have hword : (UInt16.ofNat t).toNat = t % 0x10000 := UInt16.toNat_ofNat'
    exact ⟨_, hjump, hword, by omega⟩

/-- Where no target is beyond `0xFFFF`, nothing of it is cut. -/
theorem AddressesCut.jump_true (h : AddressesCut settings items laid (emitted.finish settings.origin))
    (hemitted : emit settings laid items = .ok emitted) (horigin : settings.origin < 0x10000)
    (hmemory : settings.memoryEnd < 0x10000) {before after : List Segment} {t : Nat}
    (hcode : codeOf laid.labels settings.origin items = before ++ .jump t :: after) :
    ∃ w : Machine.Word, (emitted.finish settings.origin).instruction? (codeSize before) =
      some ⟨.jmpi, [w]⟩ ∧ w.toNat = t := by
  obtain ⟨w, hjump, hword, -⟩ := h.jumps before t after hcode
  have hmem : .jump t ∈ codeOf laid.labels settings.origin items := by simp [hcode]
  have hle := target_le_memory hemitted hmem
  exact ⟨w, hjump, by omega⟩

end Images

/-- **Addresses are cut to sixteen bits**, and they are the true ones as long as the memory ends
    below `0xFFFF`: an address is the origin and the bytes in front of it, and no byte stands
    beyond the end of memory. -/
theorem addresses_cut {options settings : Options} {program : List Statement} {items : List Item}
    {image : Image} (hresolved : resolve options program = .ok items)
    (himage : Image.ofItems settings items = .ok image) :
    ∃ laid emitted, layOut settings items = .ok laid ∧ emit settings laid items = .ok emitted ∧
      emitted.finish settings.origin = image ∧ AddressesCut settings items laid image ∧
      (settings.origin < 0xFFFF → settings.memoryEnd < 0xFFFF →
        AddressesTrue settings items laid image) := by
  obtain ⟨laid, emitted, hlaid, hemitted, rfl⟩ := ofItems_eq_ok.mp himage
  obtain ⟨names, hends, -⟩ := resolve_endsWith hresolved
  obtain ⟨-, -, haccounts⟩ := hends.sound
  have hcut := addressesCut_of_emit hlaid hemitted
  refine ⟨laid, emitted, hlaid, hemitted, rfl, hcut, fun horigin hmemory => ?_⟩
  constructor
  case labels => exact heads_emitted haccounts.distinct horigin hmemory hlaid hemitted
  case breakpoints => exact (notes_emitted horigin hmemory hlaid hemitted).1
  case jumps =>
    intro before t after hcode
    exact hcut.jump_true hemitted (by omega) (by omega) hcode

/-- A label, a breakpoint and a loop, all at the second instruction. -/
def endingItems : List Item :=
  [.leaf ⟨1, "main"⟩ (.label "main"),
    .leaf ⟨2, "clear"⟩ (.instr (.bare .clr)),
    .leaf ⟨3, "tail"⟩ (.label "tail"),
    .leaf ⟨4, ":breakpoint"⟩ (.breakpoint "here"),
    .loop ⟨5, "loop"⟩ []]

/-- The statements of `endingItems`. -/
def endingProgram : List Statement :=
  [.label ⟨1, .name, "main"⟩,
    .simple (.clear ⟨2, .keyword .clear, "clear"⟩),
    .label ⟨3, .name, "tail"⟩,
    .simple (.breakpoint ⟨4, .directive .breakpoint, ":breakpoint"⟩ ⟨4, .name, "here"⟩),
    .loop ⟨5, .keyword .loop, "loop"⟩ []]

/-- The image of `endingItems` at an origin where the second instruction has the address `tail`. -/
def endingImage (origin tail : Nat) : Image where
  origin
  bytes := #[0, 0xE0, 0x10 + UInt8.ofNat (tail / 256), UInt8.ofNat tail]
  labels := [("main", origin), ("tail", tail)]
  breakpoints := [("here", tail)]
  monitors := []

/-- At the default origin all addresses are true.  At the end of the address space the second
    instruction is at `0x10001`, and there label, breakpoint and jump all say `1`. -/
theorem addresses_cut_ending :
    resolve {} endingProgram = .ok endingItems ∧
      Image.ofItems { origin := 0xFFFF, memoryEnd := 70000 } endingItems =
        .ok (endingImage 0xFFFF 1) ∧
      Image.ofItems {} endingItems = .ok (endingImage 0x200 0x202) ∧
      ∃ laid emitted, layOut {} endingItems = .ok laid ∧ emit {} laid endingItems = .ok emitted ∧
        emitted.finish 0x200 = endingImage 0x200 0x202 ∧
        AddressesCut {} endingItems laid (endingImage 0x200 0x202) ∧
        AddressesTrue {} endingItems laid (endingImage 0x200 0x202) := by
  have hresolved : resolve {} endingProgram = .ok endingItems := rfl
  have himages : Image.ofItems { origin := 0xFFFF, memoryEnd := 70000 } endingItems =
        .ok (endingImage 0xFFFF 1) ∧
      Image.ofItems {} endingItems = .ok (endingImage 0x200 0x202) := by
    have hclear : Machine.encode .clr [] = .ok 0x00E0 := rfl
    have hfar : Machine.encode .jmpi [1] = .ok 0x1001 := rfl
    have hnear : Machine.encode .jmpi [0x202] = .ok 0x1202 := rfl
    constructor <;>
      simp [Image.ofItems, layOut, emit, endingItems, endingImage, Draft.empty, Draft.finish,
        Run.block, Run.item, Run.leaf, Run.mark, LabelTable.add, Run.pc, Run.instrCode, Run.jump,
        Run.op, Run.encoded, hclear, hfar, hnear, Except.mapError, Run.word, Run.byte, Run.highByte,
        Run.lowByte, Site.blame, bind, Except.bind, pure, Except.pure]
  obtain ⟨laid, emitted, hlaid, hemitted, hfinish, hcut, htrue⟩ :=
    addresses_cut hresolved himages.2
  exact ⟨hresolved, himages.1, himages.2, laid, emitted, hlaid, hemitted, hfinish, hcut,
    htrue (by decide) (by decide)⟩

end OctoAsm
