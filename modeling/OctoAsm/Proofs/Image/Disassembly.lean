/-
  An image, read back word by word.

  What a leaf appends is final: later leaves come behind it, and a patch changes nothing but a hole,
  which no leaf lies in (`Run.block_stands`).  The holes of an item are made around its blocks, so the
  claim goes through the nesting of items with the range of offsets that a block fills; a patch lies
  outside the range of every block that is complete by then.  With that, the bytes of an instruction
  are in the image what the encoder made of them, and decoding undoes the encoder.
-/
import OctoAsm.Proofs.Flow.Kept
import OctoAsm.Proofs.Flow.Machine
import OctoAsm.Proofs.Image.Causes
import OctoAsm.Proofs.Image.Metadata
import OctoAsm.Proofs.Machine.Decode

namespace OctoAsm

open Machine (Mnemonic Word Instruction encode decode)

/-! ## Places along a plan -/

namespace Run

variable {run : Run} {p q : Progress} {d d₁ d₂ d' : Draft} {o : List Nat}

theorem act_skip {cond : Cond} {w : Bool} (h : run.skip d cond w = .ok d') :
    run.act ⟨d, o⟩ (.skip cond w) = .ok ⟨d', o⟩ := by
  show (run.skip d cond w >>= _) = _
  rw [h]; rfl

theorem act_hole (h : run.hole d = .ok d') :
    run.act ⟨d, o⟩ .hole = .ok ⟨d', d.bytes.size :: o⟩ := by
  show (run.hole d >>= _) = _
  rw [h]; rfl

theorem act_patch {start : Nat} (h : run.patch d start = .ok d') :
    run.act ⟨d, start :: o⟩ .patch = .ok ⟨d', o⟩ := by
  show (run.patch d start >>= _) = _
  rw [h]; rfl

/-- An act of control flow places no leaf. -/
theorem placed_step {m : Move} (h : run.act p m.act = .ok q) (hleaf : m.act.leaf? = none)
    (rest : List Move) : run.placed p (m :: rest) = run.placed q rest := by
  rw [placed_cons_of_ok h, hleaf]
  rfl

theorem placed_of_leafless {moves : List Move} (h : leavesBy moves = []) :
    run.placed p moves = [] := by
  refine List.filterMap_eq_nil_iff.mpr fun stage hstage => ?_
  have hleaf := List.filterMap_eq_nil_iff.mp h _ (run.move_mem_of_mem_trail hstage)
  rw [hleaf]
  rfl

theorem placed_append {a : List Move} (h : run.follow p a = .ok q) (b : List Move) :
    run.placed p (a ++ b) = run.placed p a ++ run.placed q b := by
  induction a generalizing p with
  | nil =>
    obtain rfl := Except.ok.inj h
    rfl
  | cons m rest ih =>
    obtain ⟨p', hact, hrest⟩ := run.follow_cons_eq_ok.mp h
    rw [List.cons_append, placed_cons_of_ok hact, placed_cons_of_ok hact, ih hrest,
      List.append_assoc]

/-- The leaves of a block come before those of what follows it. -/
theorem placed_block_append {body : List Item} (h : run.block d body = .ok d') (rest : List Move) :
    run.placed ⟨d, o⟩ (planOf body ++ rest) =
      run.placed ⟨d, o⟩ (planOf body) ++ run.placed ⟨d', o⟩ rest := by
  refine placed_append ?_ rest
  rw [follow_planOf, h]
  rfl

/-- The leaves of a block with only control flow behind it. -/
theorem placed_block {body : List Item} (h : run.block d body = .ok d') {rest : List Move}
    (hrest : leavesBy rest = []) :
    run.placed ⟨d, o⟩ (planOf body ++ rest) = run.placed ⟨d, o⟩ (planOf body) := by
  rw [placed_block_append h, placed_of_leafless hrest, List.append_nil]

end Run

/-! ## Bytes that stand -/

/-- The bytes that a leaf appends at its place lie between the offsets `lo` and `hi`, and `d` has
    them there. -/
structure Stands (run : Run) (lo hi : Nat) (place : Leaf × Draft) (d : Draft) : Prop where
  above : lo ≤ place.2.bytes.size
  appended : ∃ d₁, run.leaf place.2 place.1 = .ok d₁ ∧ d₁.bytes.size ≤ hi ∧
    ∀ k, place.2.bytes.size ≤ k → k < d₁.bytes.size → d.bytes[k]? = d₁.bytes[k]?

namespace Stands

variable {run : Run} {lo hi lo' hi' start : Nat} {place : Leaf × Draft} {d d' : Draft}

theorem widen (h : Stands run lo hi place d) (hlo : lo' ≤ lo) (hhi : hi ≤ hi') :
    Stands run lo' hi' place d := by
  obtain ⟨d₁, hleaf, hle, hbytes⟩ := h.appended
  exact ⟨Nat.le_trans hlo h.above, d₁, hleaf, Nat.le_trans hle hhi, hbytes⟩

theorem kept (h : Stands run lo hi place d) (hkept : KeptTo hi d d') :
    Stands run lo hi place d' := by
  obtain ⟨d₁, hleaf, hle, hbytes⟩ := h.appended
  refine ⟨h.above, d₁, hleaf, hle, fun k hk hk' => ?_⟩
  rw [hkept k (by omega), hbytes k hk hk']

/-- A patch outside the range leaves the bytes alone. -/
theorem patched (h : Stands run lo hi place d) (hpatch : run.patch d start = .ok d')
    (hout : start + 2 ≤ lo ∨ hi ≤ start) : Stands run lo hi place d' := by
  obtain ⟨d₁, hleaf, hle, hbytes⟩ := h.appended
  have habove := h.above
  refine ⟨habove, d₁, hleaf, hle, fun k hk hk' => ?_⟩
  rw [Run.patch_elsewhere hpatch (by omega) (by omega), hbytes k hk hk']

end Stands

namespace Run

variable {run : Run}

-- Each case follows the leaves of its blocks through the steps that come after them.
mutual

/-- What the leaves of an item append stands when the item is complete. -/
theorem item_stands : ∀ (i : Item) {d d' : Draft} (o : List Nat), run.item d i = .ok d' →
    ∀ place ∈ run.placed ⟨d, o⟩ i.plan, Stands run d.bytes.size d'.bytes.size place d'
  | .leaf site l, d, d', o, h => by
    have hleaf := Site.blame_eq_ok.mp h
    have hact : run.act ⟨d, o⟩ (.leaf l) = .ok ⟨d', o⟩ := by
      show (run.leaf d l >>= _) = _
      rw [hleaf]; rfl
    have hplaced : run.placed ⟨d, o⟩ (Item.leaf site l).plan = [(l, d)] := by
      rw [Item.plan, placed_step rfl rfl, placed_cons_of_ok hact]; rfl
    intro place hplace
    rw [hplaced, List.mem_singleton] at hplace
    subst hplace
    exact ⟨Nat.le_refl _, d', hleaf, Nat.le_refl _, fun _ _ _ => rfl⟩
  | .ifThen site cond body, d, d', o, h => by
    obtain ⟨d₁, h₁, h₂, -⟩ := item_ifThen h
    have hskip := (skip_grown h₁).size
    intro place hplace
    rw [Item.plan, placed_step rfl rfl, placed_step (act_skip h₁) rfl, placed_step rfl rfl,
      placed_block h₂ rfl] at hplace
    exact (block_stands body _ h₂ place hplace).widen (by omega) (Nat.le_refl _)
  | .ifBegin site cond body, d, d', o, h => by
    obtain ⟨d₁, d₂, d₃, h₁, h₂, h₃, h₄⟩ := item_ifBegin h
    have hskip := (skip_grown h₁).size
    have hhole := (hole_grown h₂).size
    have hend := size_of_patch h₄
    intro place hplace
    rw [Item.plan, placed_step rfl rfl, placed_step (act_skip h₁) rfl, placed_step (act_hole h₂) rfl,
      placed_block h₃ rfl] at hplace
    have hbody := block_stands body _ h₃ place hplace
    exact (hbody.patched h₄ (.inl (by omega))).widen (by omega) (by omega)
  | .ifElse site cond body otherwise, d, d', o, h => by
    obtain ⟨d₁, d₂, d₃, d₄, d₅, d₆, h₁, h₂, h₃, h₄, h₅, h₆, h₇⟩ := item_ifElse h
    have hskip := (skip_grown h₁).size
    have hhole := (hole_grown h₂).size
    have hhole' := (hole_grown h₄).size
    have hmiddle := size_of_patch h₅
    have hend := size_of_patch h₇
    obtain ⟨n, hgrown, -⟩ := block_grows body h₃
    obtain ⟨n', hgrown', -⟩ := block_grows otherwise h₆
    have hbodySize := hgrown.size
    have hotherSize := hgrown'.size
    intro place hplace
    rw [Item.plan, placed_step rfl rfl, placed_step (act_skip h₁) rfl, placed_step (act_hole h₂) rfl,
      placed_block_append h₃, placed_step (act_hole h₄) rfl, placed_step rfl rfl,
      placed_step (act_patch h₅) rfl, placed_block h₆ rfl] at hplace
    rcases List.mem_append.mp hplace with hplace | hplace
    · have hbody := block_stands body _ h₃ place hplace
      -- the first patch lies before the block, the second one behind it
      have hpatched := (hbody.kept (hole_grown h₄).kept).patched h₅ (.inl (by omega))
      have hlater := hpatched.kept (hgrown'.kept.mono (by omega))
      exact (hlater.patched h₇ (.inr (Nat.le_refl _))).widen (by omega) (by omega)
    · have hother := block_stands otherwise _ h₆ place hplace
      exact (hother.patched h₇ (.inl (by omega))).widen (by omega) (by omega)
  | .loop site body, d, d', o, h => by
    obtain ⟨d₁, h₁, h₂⟩ := item_loop h
    have hjump := (jump_grown h₂).size
    intro place hplace
    rw [Item.plan, placed_step rfl rfl, placed_step rfl rfl, placed_block h₁ rfl] at hplace
    have hbody := block_stands body _ h₁ place hplace
    exact (hbody.kept (jump_grown h₂).kept).widen (Nat.le_refl _) (by omega)
  | .loopUntil site body cond, d, d', o, h => by
    obtain ⟨d₁, d₂, d₃, d₄, h₁, h₂, h₃, h₄, h₅⟩ := item_loopUntil h
    have htail := ((skip_grown h₂).trans (hole_grown h₃)).trans (jump_grown h₄)
    have hskip := (skip_grown h₂).size
    have hsize := htail.size
    have hend := size_of_patch h₅
    intro place hplace
    rw [Item.plan, placed_step rfl rfl, placed_step rfl rfl, placed_block h₁ rfl] at hplace
    have hbody := block_stands body _ h₁ place hplace
    exact ((hbody.kept htail.kept).patched h₅ (.inr (by omega))).widen (Nat.le_refl _) (by omega)
  | .whileDo site cond body, d, d', o, h => by
    obtain ⟨d₁, d₂, d₃, d₄, h₁, h₂, h₃, h₄, h₅⟩ := item_whileDo h
    have hskip := (skip_grown h₁).size
    have hhole := (hole_grown h₂).size
    have hjump := (jump_grown h₄).size
    have hend := size_of_patch h₅
    intro place hplace
    rw [Item.plan, placed_step rfl rfl, placed_step rfl rfl, placed_step (act_skip h₁) rfl,
      placed_step (act_hole h₂) rfl, placed_block h₃ rfl] at hplace
    have hbody := block_stands body _ h₃ place hplace
    have hjumped := hbody.kept (jump_grown h₄).kept
    exact (hjumped.patched h₅ (.inl (by omega))).widen (by omega) (by omega)

/-- What the leaves of a block append stands when the block is complete. -/
theorem block_stands : ∀ (items : List Item) {d d' : Draft} (o : List Nat),
    run.block d items = .ok d' →
    ∀ place ∈ run.placed ⟨d, o⟩ (planOf items), Stands run d.bytes.size d'.bytes.size place d'
  | [], d, d', o, h => by
    intro place hplace
    cases hplace
  | i :: rest, d, d', o, h => by
    obtain ⟨d₁, h₁, h₂⟩ := bind_eq_ok.mp h
    obtain ⟨n, hfirst, -⟩ := item_grows i h₁
    obtain ⟨n', hrest, -⟩ := block_grows rest h₂
    have hsize := hfirst.size
    have hsize' := hrest.size
    have hfollow : run.follow ⟨d, o⟩ i.plan = .ok ⟨d₁, o⟩ := by
      rw [follow_plan, h₁]; rfl
    intro place hplace
    rw [planOf, placed_append hfollow] at hplace
    rcases List.mem_append.mp hplace with hplace | hplace
    · exact ((item_stands i o h₁ place hplace).kept hrest.kept).widen (Nat.le_refl _) (by omega)
    · exact (block_stands rest o h₂ place hplace).widen (by omega) (Nat.le_refl _)

end

end Run

/-! ## Operands -/

/-- The registers of an instruction, in the order of its operands. -/
def Instr.registers : Instr → List (Fin 16)
  | .bare _ | .addr _ _ => []
  | .regImm _ x _ | .reg _ x => [x]
  | .regReg _ x y | .draw x y _ => [x, y]

/-- The operands that stand for the value of an instruction: none if it has none, and else the value
    in the bits of its field, which hold it. -/
def Run.ValueOperands (run : Run) (d : Draft) : Option (Imm × Nat) → List Word → Prop
  | none, operands => operands = []
  | some (v, bits), operands => ∃ n w, run.eval d v = .ok n ∧ Calc.fits n bits = true ∧
      (w.toNat : Int) = n % 2 ^ bits ∧ operands = [w]

namespace Run

variable {run : Run} {d d' : Draft}

theorem lowBits_eq (value : Int) (bits : Nat) : (lowBits value bits : Int) = value % 2 ^ bits := by
  have hpos : (0 : Int) < 2 ^ bits := Int.pow_pos (by decide)
  have hge := Int.emod_nonneg value (Int.ne_of_gt hpos)
  have hcast : ((Nat.pow 2 bits : Nat) : Int) = 2 ^ bits := Int.natCast_pow 2 bits
  rw [lowBits, hcast]
  omega

theorem toNat_ofNat_lowBits {value : Int} {bits : Nat} (hbits : bits ≤ 16) :
    ((UInt16.ofNat (lowBits value bits)).toNat : Int) = value % 2 ^ bits := by
  have hlt : lowBits value bits < 2 ^ 16 :=
    Nat.lt_of_lt_of_le (lowBits_lt value bits) (Nat.pow_le_pow_right (by decide) hbits)
  rw [UInt16.toNat_ofNat_of_lt' hlt, lowBits_eq]

/-- In the second pass a value goes into its field only if it fits. -/
theorem valueOperands_of_imm (hpass : run.pass = .emit) {v : Imm} {bits : Nat} {w : Word}
    (hbits : bits ≤ 16) (h : run.imm d v bits = .ok w) :
    run.ValueOperands d (some (v, bits)) [w] := by
  obtain ⟨n, hn, h⟩ := bind_eq_ok.mp h
  unfold field at h
  split at h
  · cases h
  · rename_i hfits
    obtain rfl := Except.ok.inj h
    have hfits : Calc.fits n bits = true := by simpa [hpass] using hfits
    exact ⟨n, _, hn, hfits, toNat_ofNat_lowBits hbits, rfl⟩

/-- The operands of an instruction: its registers, then its value. -/
theorem instrCode_eq_ok (hpass : run.pass = .emit) {i : Instr} {c : Mnemonic × List Word}
    (h : run.instrCode d i = .ok c) : ∃ operands, c = (i.mnemonic, i.registers.map regWord ++ operands) ∧
      run.ValueOperands d i.value? operands := by
  cases i with
  | bare m | regReg m x y | reg m x =>
    obtain rfl := Except.ok.inj h
    exact ⟨[], rfl, rfl⟩
  | addr m target | regImm m x target | draw x y target =>
    obtain ⟨w, hw, h⟩ := bind_eq_ok.mp h
    obtain rfl := pure_eq_ok.mp h
    exact ⟨[w], rfl, valueOperands_of_imm hpass (by decide) hw⟩

/-- In the second pass an unsigned field takes a value as it is, if it is in range. -/
theorem unsigned_eq_ok_emit (hpass : run.pass = .emit) {value : Int} {bits n : Nat}
    (h : run.unsigned value bits = .ok n) : (n : Int) = value ∧ 0 ≤ value ∧ value < 2 ^ bits := by
  unfold unsigned at h
  split at h
  · cases h
  · rename_i hrange
    obtain rfl := Except.ok.inj h
    have hrange : 0 ≤ value ∧ value < (Nat.pow 2 bits : Nat) := by
      by_contra hout
      exact hrange ⟨hpass, hout⟩
    have hcast : ((Nat.pow 2 bits : Nat) : Int) = 2 ^ bits := Int.natCast_pow 2 bits
    rw [hcast] at hrange
    refine ⟨?_, hrange⟩
    rw [lowBits_eq, Int.emod_eq_of_lt hrange.1 hrange.2]

end Run

/-! ## Words of an image -/

/-- The word at an offset, high byte first. -/
def Image.word? (image : Image) (offset : Nat) : Option Word :=
  match image.bytes[offset]?, image.bytes[offset + 1]? with
  | some high, some low => some (joined high low)
  | _, _ => none

/-- The instruction at an offset. -/
def Image.instruction? (image : Image) (offset : Nat) : Option Instruction :=
  (image.word? offset).bind fun w => (decode w).toOption

section Words

variable {run : Run} {d d' : Draft} {image : Image}

/-- Words that were appended and stand in an image can be read there. -/
theorem word?_of_appends {ws : List Word} (h : run.Appends d (ws.flatMap wordBytes) d')
    (hbytes : ∀ k, d.bytes.size ≤ k → k < d'.bytes.size → image.bytes[k]? = d'.bytes[k]?)
    {k : Nat} {w : Word} (hw : ws[k]? = some w) :
    image.word? (d.bytes.size + 2 * k) = some w := by
  have hlen : k < ws.length := (List.getElem?_eq_some_iff.mp hw).1
  have hsize := h.size
  rw [length_flatMap_wordBytes] at hsize
  have hbyte : ∀ j < 2 * ws.length,
      image.bytes[d.bytes.size + j]? = (ws.flatMap wordBytes)[j]? := by
    intro j hj
    rw [hbytes _ (by omega) (by omega), h.getElem?]
  have hword : ∀ {ws : List Word} {k : Nat}, ws[k]? = some w →
      (ws.flatMap wordBytes)[2 * k]? = some (Run.highByte w) ∧
        (ws.flatMap wordBytes)[2 * k + 1]? = some (Run.lowByte w) := by
    intro ws
    induction ws with
    | nil => intro k hk; cases hk
    | cons w' ws ih =>
      intro k hk
      cases k with
      | zero =>
        obtain rfl : w' = w := Option.some.inj hk
        exact ⟨rfl, rfl⟩
      | succ k => exact ih hk
  obtain ⟨hhigh, hlow⟩ := hword hw
  have hfirst := (hbyte (2 * k) (by omega)).trans hhigh
  have hsecond := (hbyte (2 * k + 1) (by omega)).trans hlow
  rw [← Nat.add_assoc] at hsecond
  simp only [Image.word?, hfirst, hsecond, joined_bytes]

/-- An instruction that was encoded into a word is read there. -/
theorem instruction?_of_word? {offset : Nat} {m : Mnemonic} {operands : List Word} {w : Word}
    (hword : image.word? offset = some w) (hencode : encode m operands = .ok w) :
    image.instruction? offset = some ⟨m, operands⟩ := by
  simp only [Image.instruction?, hword, Option.bind_some,
    Machine.encode_eq_ok_iff_decode.mp hencode]
  rfl

end Words

/-! ## Disassembly -/

/-- `a` and `b` are the high and the low byte of a value of sixteen bits, or of a tag in front of a
    value of twelve. -/
def Run.Unpacked (run : Run) (d : Draft) (tag : Option Imm) (v : Imm) (a b : Word) : Prop :=
  ∃ n, run.eval d v = .ok n ∧
    match tag with
    | none => 0 ≤ n ∧ n < 2 ^ 16 ∧ 256 * (a.toNat : Int) + b.toNat = n
    | some tag => ∃ t, run.eval d tag = .ok t ∧ 0 ≤ t ∧ t ≤ 15 ∧ 0 ≤ n ∧ n < 2 ^ 12 ∧
        256 * (a.toNat : Int) + b.toNat = t * 4096 + n

/-- The words of an image are those of its program.  Each leaf comes with the draft as it stood there,
    which gives its offset, its address and the labels for its values. -/
structure Disassembles (settings : Options) (items : List Item) (labels : LabelTable)
    (places : List (Leaf × Draft)) (image : Image) : Prop where
  /-- the places are those of all leaves, in order -/
  leaves : places.map Prod.fst = leavesOf items
  /-- every value is looked at with the labels of the whole program -/
  labels : ∀ place ∈ places, place.2.labels = labels
  instr : ∀ place ∈ places, ∀ i, place.1 = .instr i →
    ∃ operands, Run.ValueOperands ⟨settings, .emit⟩ place.2 i.value? operands ∧
      image.instruction? place.2.bytes.size =
        some ⟨i.mnemonic, i.registers.map regWord ++ operands⟩
  unpack : ∀ place ∈ places, ∀ hi lo tag v, place.1 = .unpack hi lo tag v →
    ∃ a b, Run.Unpacked ⟨settings, .emit⟩ place.2 tag v a b ∧
      image.instruction? place.2.bytes.size = some ⟨.seti, [regWord hi, a]⟩ ∧
      image.instruction? (place.2.bytes.size + 2) = some ⟨.seti, [regWord lo, b]⟩

section Leaves

variable {run : Run} {lo hi : Nat} {d d' : Draft} {image : Image}

theorem instr_disassembles (hpass : run.pass = .emit) {i : Instr}
    (h : run.leaf d (.instr i) = .ok d')
    (hbytes : ∀ k, d.bytes.size ≤ k → k < d'.bytes.size → image.bytes[k]? = d'.bytes[k]?) :
    ∃ operands, run.ValueOperands d i.value? operands ∧
      image.instruction? d.bytes.size = some ⟨i.mnemonic, i.registers.map regWord ++ operands⟩ := by
  obtain ⟨c, hcode, h⟩ := bind_eq_ok.mp h
  obtain ⟨operands, rfl, hvalue⟩ := Run.instrCode_eq_ok hpass hcode
  obtain ⟨w, hw, happ⟩ := Run.op_eq_ok h
  have hsingle : run.Appends d ([w].flatMap wordBytes) d' := by simpa using happ
  have hword : image.word? d.bytes.size = some w :=
    word?_of_appends hsingle hbytes (k := 0) rfl
  exact ⟨operands, hvalue, instruction?_of_word? hword hw⟩

/-- The two bytes of an unpacked value. -/
theorem unpacked_of_high (hpass : run.pass = .emit) {tag : Option Imm} {v : Imm} {n : Int}
    {high : Nat} (hn : run.eval d v = .ok n) (h : run.unpackHigh d tag n = .ok high) :
    run.Unpacked d tag v (UInt16.ofNat high) (UInt16.ofNat (Run.lowBits n 8)) := by
  have hhigh : (UInt16.ofNat high).toNat = high :=
    UInt16.toNat_ofNat_of_lt' (Nat.lt_trans (Run.unpackHigh_eq_ok h) (by decide))
  have hlow : ((UInt16.ofNat (Run.lowBits n 8)).toNat : Int) = n % 256 :=
    Run.toNat_ofNat_lowBits (by decide)
  refine ⟨n, hn, ?_⟩
  rw [hhigh, hlow]
  cases tag with
  | none =>
    obtain ⟨u, hu, h⟩ := bind_eq_ok.mp h
    obtain rfl := pure_eq_ok.mp h
    obtain ⟨hvalue, hrange⟩ := Run.unsigned_eq_ok_emit hpass hu
    refine ⟨hrange.1, hrange.2, ?_⟩
    omega
  | some tag =>
    obtain ⟨t, ht, h⟩ := bind_eq_ok.mp h
    obtain ⟨ut, hut, h⟩ := bind_eq_ok.mp h
    obtain ⟨u, hu, h⟩ := bind_eq_ok.mp h
    obtain rfl := pure_eq_ok.mp h
    obtain ⟨htag, htagRange⟩ := Run.unsigned_eq_ok_emit hpass hut
    obtain ⟨hvalue, hrange⟩ := Run.unsigned_eq_ok_emit hpass hu
    refine ⟨t, ht, htagRange.1, by omega, hrange.1, hrange.2, ?_⟩
    omega

theorem unpack_disassembles (hpass : run.pass = .emit) {x y : Fin 16} {tag : Option Imm} {v : Imm}
    (h : run.leaf d (.unpack x y tag v) = .ok d')
    (hbytes : ∀ k, d.bytes.size ≤ k → k < d'.bytes.size → image.bytes[k]? = d'.bytes[k]?) :
    ∃ a b, run.Unpacked d tag v a b ∧
      image.instruction? d.bytes.size = some ⟨.seti, [regWord x, a]⟩ ∧
      image.instruction? (d.bytes.size + 2) = some ⟨.seti, [regWord y, b]⟩ := by
  obtain ⟨n, hn, h⟩ := bind_eq_ok.mp h
  obtain ⟨high, hhigh, h⟩ := bind_eq_ok.mp h
  obtain ⟨ws, hws, happ⟩ := Run.ops_eq_ok h
  obtain ⟨w, w', rfl⟩ : ∃ w w', ws = [w, w'] := by
    have hlen := Run.length_words hws
    match ws, hlen with
    | [w, w'], _ => exact ⟨w, w', rfl⟩
  simp only [List.map_cons, List.map_nil, List.cons.injEq, and_true] at hws
  obtain ⟨hw, hw'⟩ := hws
  have hword : image.word? d.bytes.size = some w := word?_of_appends happ hbytes (k := 0) rfl
  have hword' : image.word? (d.bytes.size + 2) = some w' :=
    word?_of_appends happ hbytes (k := 1) rfl
  exact ⟨_, _, unpacked_of_high hpass hn hhigh, instruction?_of_word? hword hw,
    instruction?_of_word? hword' hw'⟩

end Leaves

/-- **The words of an image disassemble to its program.** What a leaf appends is final, as later
    leaves come behind it and patches change nothing but holes (`Run.block_stands`). So the bytes
    of an instruction are in the image what the encoder made of them, and decoding undoes
    encoding. -/
theorem image_disassembles {settings : Options} {items : List Item} {image : Image}
    (himage : Image.ofItems settings items = .ok image) :
    ∃ laid emitted, layOut settings items = .ok laid ∧ emit settings laid items = .ok emitted ∧
      emitted.finish settings.origin = image ∧
      Disassembles settings items laid.labels
        (Run.placed ⟨settings, .emit⟩ (emitStart laid) (planOf items)) image := by
  obtain ⟨laid, emitted, hlaid, hemitted, rfl⟩ := ofItems_eq_ok.mp himage
  have hrun := emit_eq_ok.mp hemitted
  have hstands : ∀ place ∈ Run.placed ⟨settings, .emit⟩ (emitStart laid) (planOf items),
      ∃ d₁, Run.leaf ⟨settings, .emit⟩ place.2 place.1 = .ok d₁ ∧
        ∀ k, place.2.bytes.size ≤ k → k < d₁.bytes.size → emitted.bytes[k]? = d₁.bytes[k]? := by
    intro place hplace
    obtain ⟨-, d₁, hleaf, -, hbytes⟩ := Run.block_stands items [] hemitted place hplace
    exact ⟨d₁, hleaf, hbytes⟩
  refine ⟨laid, emitted, hlaid, hemitted, rfl, ?_, ?_, ?_, ?_⟩
  · exact (Run.map_fst_placed hrun).trans (leavesBy_planOf items)
  · intro place hplace
    obtain ⟨stage, hstage, heq⟩ := List.mem_filterMap.mp hplace
    obtain ⟨l, -, rfl⟩ := Option.map_eq_some_iff.mp heq
    exact (Run.labels_follow_emit rfl).1 stage hstage
  · intro place hplace i hi
    obtain ⟨d₁, hleaf, hbytes⟩ := hstands place hplace
    rw [hi] at hleaf
    exact instr_disassembles rfl hleaf hbytes
  · intro place hplace x y tag v hunpack
    obtain ⟨d₁, hleaf, hbytes⟩ := hstands place hplace
    rw [hunpack] at hleaf
    exact unpack_disassembles rfl hleaf hbytes

/-- A negative value and an unpacked address, inside a loop whose hole is filled behind them. -/
def packedItems : List Item :=
  [.leaf ⟨1, "main"⟩ (.label "main"),
    .whileDo ⟨2, "while"⟩ (.key (vReg 0) true)
      [.leaf ⟨3, "v1"⟩ (.instr (.regImm .addi (vReg 1) (.number (-1)))),
        .leaf ⟨4, ":unpack"⟩ (.unpack (vReg 2) (vReg 3) (some (.number 10)) (.label "main"))],
    .leaf ⟨5, "sprite"⟩ (.instr (.draw (vReg 0) (vReg 1) (.number 3)))]

/-- The image of `packedItems`. -/
def packedImage : Image where
  origin := 0x200
  bytes := #[0xE0, 0x9E, 0x12, 0x0C, 0x71, 0xFF, 0x62, 0xA2, 0x63, 0, 0x12, 0, 0xD0, 0x13]
  labels := [("main", 0x200)]
  breakpoints := []
  monitors := []

theorem image_disassembles_packed :
    Image.ofItems {} packedItems = .ok packedImage ∧
      ∃ laid emitted, layOut {} packedItems = .ok laid ∧ emit {} laid packedItems = .ok emitted ∧
        emitted.finish 0x200 = packedImage ∧
        Disassembles {} packedItems laid.labels
          (Run.placed ⟨{}, .emit⟩ (emitStart laid) (planOf packedItems)) packedImage := by
  have himage : Image.ofItems {} packedItems = .ok packedImage := by decide +kernel
  exact ⟨himage, image_disassembles himage⟩

end OctoAsm
