/-
  Code without holes.

  `codeOf` writes down the code of a block at an address, given the final table of labels: every
  target of control flow is computed from the sizes of the blocks around it, so nothing is patched.
  The second pass appends exactly this (`Run.block_emits`).  The one fact about patches that the
  induction needs is `Run.Emits.patched`: a hole is a segment of its own, and its patch puts the
  jump in its place and leaves all other segments alone.

  A segment is one instruction or one datum.  It carries the labels that its value mentions; jumps
  of control flow are told apart from the jumps that a program asks for, and keep their targets in
  full.
-/
import OctoAsm.Proofs.Image.Disassembly

namespace OctoAsm

open Machine (Mnemonic Word Instruction encode)

/-! ## Segments -/

/-- An instruction or a datum of an emission. -/
inductive Segment where
  | data (bytes : List UInt8) (mentions : List String)
  | op (instruction : Instruction) (mentions : List String)
  /-- a jump of control flow -/
  | jump (target : Nat)

/-- The jump to an address; the operand has sixteen bits. -/
def jumpTo (target : Nat) : Instruction := ⟨.jmpi, [UInt16.ofNat target]⟩

/-- The bytes of an instruction; those of the word zero if it has none. -/
def Machine.Instruction.bytes (i : Instruction) : List UInt8 :=
  wordBytes ((encode i.mnemonic i.operands).toOption.getD 0)

namespace Segment

/-- The instruction of a segment. -/
def instruction? : Segment → Option Instruction
  | .data _ _ => none
  | .op i _ => some i
  | .jump target => some (jumpTo target)

/-- The bytes of a segment. -/
def bytes : Segment → List UInt8
  | .data bs _ => bs
  | .op i _ => i.bytes
  | .jump target => (jumpTo target).bytes

/-- The instruction of a segment, if there is one, can be encoded. -/
def Encodes (s : Segment) : Prop :=
  ∀ i, s.instruction? = some i → ∃ w, encode i.mnemonic i.operands = .ok w

end Segment

/-- The bytes of code. -/
def codeBytes (code : List Segment) : List UInt8 := code.flatMap Segment.bytes

/-- The number of bytes of code. -/
def codeSize (code : List Segment) : Nat := (codeBytes code).length

/-- The bytes of an instruction are those of its word, as soon as it has one. -/
theorem Machine.Instruction.bytes_of_encode {i : Instruction} {w : Word}
    (h : encode i.mnemonic i.operands = .ok w) : i.bytes = wordBytes w := by
  rw [bytes, h]
  rfl

section Sizes

variable (s : Segment) (a b : List Segment)

/-- No segments have no bytes. -/
@[simp] theorem codeBytes_nil : codeBytes [] = [] := rfl

/-- The bytes of segments are those of the first one and of the rest. -/
@[simp] theorem codeBytes_cons : codeBytes (s :: b) = s.bytes ++ codeBytes b := rfl

/-- Segments one behind the other. -/
@[simp] theorem codeBytes_append : codeBytes (a ++ b) = codeBytes a ++ codeBytes b := by
  simp [codeBytes]

/-- No segments take no room. -/
@[simp] theorem codeSize_nil : codeSize [] = 0 := rfl

/-- The room of segments, one by one. -/
@[simp] theorem codeSize_cons : codeSize (s :: b) = s.bytes.length + codeSize b := by
  simp [codeSize]

/-- The room of segments one behind the other. -/
@[simp] theorem codeSize_append : codeSize (a ++ b) = codeSize a + codeSize b := by
  simp [codeSize]

/-- A jump of control flow takes two bytes wherever it leads. -/
@[simp] theorem Segment.length_bytes_jump (target : Nat) : (Segment.jump target).bytes.length = 2 :=
  rfl

/-- A datum takes as many bytes as it has. -/
@[simp] theorem Segment.length_bytes_data (bs : List UInt8) (mentions : List String) :
    (Segment.data bs mentions).bytes.length = bs.length := rfl

end Sizes

/-! ## Values at an address -/

/-- The address that a label stands for at an address of the program. -/
def LabelTable.addressAt (labels : LabelTable) (pc : Nat) (label : String) : Nat :=
  (Run.nearest? pc (labels.recorded label)).getD 0

/-- The value of an operand at an address. -/
def Imm.valueAt (labels : LabelTable) (pc : Nat) : Imm → Int
  | .number n => n
  | .label name => labels.addressAt pc name
  | .expr e => (Calc.toInt? (e.eval fun label => Float.ofNat (labels.addressAt pc label))).getD 0

/-- The value of an operand in a field of `bits` bits. -/
def Imm.fieldAt (labels : LabelTable) (pc : Nat) (v : Imm) (bits : Nat) : Word :=
  UInt16.ofNat (Run.lowBits (v.valueAt labels pc) bits)

/-! ## The code of items -/

section Code

variable (labels : LabelTable) (pc : Nat)

/-- The operands of an instruction: its registers, then its value. -/
def Instr.operandsAt (i : Instr) : List Word :=
  i.registers.map regWord ++ (i.value?.map fun v => v.1.fieldAt labels pc v.2).toList

/-- The labels that the value of an instruction mentions. -/
def Instr.mentions (i : Instr) : List String := (i.value?.map (·.1.labels)).getD []

/-- The test for equality. -/
def CondRhs.equalSegment (reg : Fin 16) (skipIfEqual : Bool) : CondRhs → Segment
  | .reg r => .op ⟨if skipIfEqual then .seq else .sne, [regWord reg, regWord r]⟩ []
  | .imm v =>
    .op ⟨if skipIfEqual then .seqi else .snei, [regWord reg, v.fieldAt labels pc 8]⟩ v.labels

/-- The subtraction that an order is read off; `atLeast` says which side is taken away. -/
def CondRhs.differenceCode (reg temp : Fin 16) (atLeast : Bool) : CondRhs → List Segment
  | .reg r =>
    if atLeast then
      [.op ⟨.set, [regWord temp, regWord reg]⟩ [], .op ⟨.sub, [regWord temp, regWord r]⟩ []]
    else [.op ⟨.set, [regWord temp, regWord r]⟩ [], .op ⟨.sub, [regWord temp, regWord reg]⟩ []]
  | .imm v =>
    [.op ⟨.seti, [regWord temp, v.fieldAt labels pc 8]⟩ v.labels,
      .op ⟨if atLeast then .rsub else .sub, [regWord temp, regWord reg]⟩ []]

/-- The code that skips the next instruction exactly when the condition is `skipWhen`. -/
def Cond.code (skipWhen : Bool) : Cond → List Segment
  | .key reg pressed => [.op ⟨if pressed == skipWhen then .skeq else .skne, [regWord reg]⟩ []]
  | .compare reg .eq rhs _ => [rhs.equalSegment labels pc reg skipWhen]
  | .compare reg .ne rhs _ => [rhs.equalSegment labels pc reg !skipWhen]
  | .compare reg op rhs temp =>
    rhs.differenceCode labels pc reg temp (op == .lt || op == .ge) ++
      [.op ⟨if skipWhen then .seqi else .snei, [0xF, if op == .ge || op == .le then 1 else 0]⟩ []]

/-- The high byte of an unpacked value, with the tag in its high nibble if there is one. -/
def unpackedHigh (tag : Option Imm) (value : Int) : Nat :=
  match tag with
  | some tag => Run.lowBits (tag.valueAt labels pc) 4 * 16 + Run.lowBits value 12 / 256
  | none => Run.lowBits value 16 / 256

/-- The code of an item that holds no items. -/
def Leaf.code : Leaf → List Segment
  | .instr i => [.op ⟨i.mnemonic, i.operandsAt labels pc⟩ i.mentions]
  | .org target =>
    [.data (List.replicate (target.valueAt labels pc - pc).toNat 0) target.labels]
  | .unpack hi lo tag value =>
    let v := value.valueAt labels pc
    [.op ⟨.seti, [regWord hi, UInt16.ofNat (unpackedHigh labels pc tag v)]⟩
        ((tag.map Imm.labels).getD [] ++ value.labels),
      .op ⟨.seti, [regWord lo, UInt16.ofNat (Run.lowBits v 8)]⟩ value.labels]
  | .byte value => [.data [Run.lowByte (value.fieldAt labels pc 8)] value.labels]
  | .pointer value => [.data (wordBytes (value.fieldAt labels pc 16)) value.labels]
  | .label _ | .nextLabel _ | .assertion .. | .breakpoint _ | .monitor .. => []

end Code

mutual

/-- The code of an item at an address. -/
def Item.code (labels : LabelTable) (pc : Nat) : Item → List Segment
  | .leaf _ l => l.code labels pc
  | .ifThen _ cond body =>
    let test := cond.code labels pc false
    test ++ codeOf labels (pc + codeSize test) body
  | .ifBegin _ cond body =>
    let test := cond.code labels pc true
    let start := pc + codeSize test + 2
    let inner := codeOf labels start body
    test ++ .jump (start + codeSize inner) :: inner
  | .ifElse _ cond body otherwise =>
    let test := cond.code labels pc true
    let start := pc + codeSize test + 2
    let inner := codeOf labels start body
    let start' := start + codeSize inner + 2
    let inner' := codeOf labels start' otherwise
    test ++ .jump start' :: inner ++ .jump (start' + codeSize inner') :: inner'
  | .loop _ body => codeOf labels pc body ++ [.jump pc]
  | .loopUntil _ body cond =>
    let inner := codeOf labels pc body
    let test := cond.code labels (pc + codeSize inner) false
    inner ++ test ++ [.jump (pc + codeSize inner + codeSize test + 4), .jump pc]
  | .whileDo _ cond body =>
    let test := cond.code labels pc true
    let start := pc + codeSize test + 2
    let inner := codeOf labels start body
    test ++ .jump (start + codeSize inner + 2) :: inner ++ [.jump pc]

/-- The code of items in a row. -/
def codeOf (labels : LabelTable) (pc : Nat) : List Item → List Segment
  | [] => []
  | i :: rest =>
    let first := i.code labels pc
    first ++ codeOf labels (pc + codeSize first) rest

end

/-! ## Appending code -/

namespace Run

variable {run : Run} {d d₁ d' : Draft} {a b code : List Segment}

/-- `d'` is `d` with code behind it, and every instruction of the code can be encoded. -/
structure Emits (run : Run) (d : Draft) (code : List Segment) (d' : Draft) : Prop where
  bytes : d'.bytes.toList = d.bytes.toList ++ codeBytes code
  labels : d'.labels = d.labels
  encodes : ∀ s ∈ code, s.Encodes

/-- Segments make the draft longer by their room. -/
theorem Emits.size (h : run.Emits d code d') : d'.bytes.size = d.bytes.size + codeSize code := by
  simpa [codeSize] using congrArg List.length h.bytes

/-- The place of emission moves by the room of the segments. -/
theorem Emits.pc (h : run.Emits d code d') : run.pc d' = run.pc d + codeSize code := by
  rw [Run.pc, h.size, Run.pc, Nat.add_assoc]

/-- What is emitted in two steps is emitted one behind the other. -/
theorem Emits.append (h : run.Emits d a d₁) (h' : run.Emits d₁ b d') : run.Emits d (a ++ b) d' where
  bytes := by rw [h'.bytes, h.bytes, codeBytes_append, List.append_assoc]
  labels := h'.labels.trans h.labels
  encodes s hs := (List.mem_append.mp hs).elim (h.encodes s) (h'.encodes s)

/-- Bytes that were appended are segments, if they are the bytes of these segments and each of them
    encodes. -/
theorem Appends.emits {bs : List UInt8} (h : run.Appends d bs d') (hbytes : codeBytes code = bs)
    (hencodes : ∀ s ∈ code, s.Encodes) : run.Emits d code d' where
  bytes := by rw [h.eq, hbytes]; simp
  labels := h.labels
  encodes := hencodes

/-- Bytes that were appended as a datum. -/
theorem Appends.emits_data {bs : List UInt8} (h : run.Appends d bs d') (mentions : List String) :
    run.Emits d [.data bs mentions] d' := by
  refine h.emits (by simp [Segment.bytes]) ?_
  intro s hs i hi
  obtain rfl := List.mem_singleton.mp hs
  cases hi

/-- A step that leaves bytes and labels alone emits no segments. -/
theorem emits_nil (hbytes : d'.bytes = d.bytes) (hlabels : d'.labels = d.labels) :
    run.Emits d [] d' :=
  ⟨by simp [hbytes], hlabels, by simp⟩

/-- A word that was encoded is the code of its instruction. -/
theorem Appends.emits_word {i : Instruction} {w : Word} {s : Segment}
    (h : run.Appends d (wordBytes w) d') (hw : encode i.mnemonic i.operands = .ok w)
    (hs : s.instruction? = some i) (hbytes : s.bytes = i.bytes) : run.Emits d [s] d' := by
  refine h.emits ?_ ?_
  · simp [hbytes, i.bytes_of_encode hw]
  · intro s' hs' j hj
    obtain rfl := List.mem_singleton.mp hs'
    obtain rfl := Option.some.inj (hs.symm.trans hj)
    exact ⟨w, hw⟩

/-- An instruction is one segment. -/
theorem op_emits {m : Mnemonic} {operands : List Word} (h : run.op d m operands = .ok d')
    (mentions : List String) : run.Emits d [.op ⟨m, operands⟩ mentions] d' := by
  obtain ⟨w, hw, happ⟩ := op_eq_ok h
  exact happ.emits_word (i := ⟨m, operands⟩) hw rfl rfl

/-- A jump of control flow is one segment. -/
theorem jump_emits {target : Nat} (h : run.jump d target = .ok d') :
    run.Emits d [.jump target] d' := by
  obtain ⟨w, hw, happ⟩ := op_eq_ok h
  exact happ.emits_word (i := jumpTo target) hw rfl rfl

/-- Instructions in a row are the segments that they are listed in. -/
theorem ops_emits {ops : List (Mnemonic × List Word)} (h : run.ops d ops = .ok d')
    (hcode : List.Forall₂ (fun o s => ∃ mentions, s = .op ⟨o.1, o.2⟩ mentions) ops code) :
    run.Emits d code d' := by
  induction hcode generalizing d with
  | nil =>
    obtain rfl := Except.ok.inj h
    exact emits_nil rfl rfl
  | cons hs _ ih =>
    obtain ⟨mentions, rfl⟩ := hs
    obtain ⟨d₁, h₁, h₂⟩ := bind_eq_ok.mp h
    exact (op_emits h₁ mentions).append (ih h₂)

/-- Room for a jump, until it is patched. -/
def holeSegment : Segment := .data [0, 0] []

/-- A hole is a segment of its own, which the patch will replace. -/
theorem hole_emits (h : run.hole d = .ok d') : run.Emits d [holeSegment] d' :=
  (word_eq_ok h).emits_data []

/-- Two bytes in the middle of a list are overwritten. -/
theorem set_pair {α : Type} (xs ys : List α) (p q x y : α) :
    ((xs ++ p :: q :: ys).set xs.length x).set (xs.length + 1) y = xs ++ x :: y :: ys := by
  simp

/-- **A patch puts a jump in the place of its hole** and leaves the code around it alone. -/
theorem Emits.patched {start : Nat} (h : run.Emits d (a ++ holeSegment :: b) d₁)
    (hpatch : run.patch d₁ start = .ok d') (hstart : start = d.bytes.size + codeSize a) :
    run.Emits d (a ++ .jump (run.pc d₁) :: b) d' := by
  obtain ⟨w, hw, rfl⟩ := patch_eq_ok hpatch
  -- the two bytes that the patch writes are those of the jump to the next byte
  have hjump : (Segment.jump (run.pc d₁)).bytes = [highByte w, lowByte w] :=
    (jumpTo (run.pc d₁)).bytes_of_encode hw
  have hbefore : start = (d.bytes.toList ++ codeBytes a).length := by
    simp [hstart, codeSize]
  refine ⟨?_, h.labels, ?_⟩
  · show ((d₁.bytes.setIfInBounds start _).setIfInBounds (start + 1) _).toList = _
    rw [Array.toList_setIfInBounds, Array.toList_setIfInBounds, h.bytes]
    simp only [codeBytes_append, codeBytes_cons, hjump, ← List.append_assoc]
    rw [hbefore]
    simpa [holeSegment, Segment.bytes] using
      set_pair (d.bytes.toList ++ codeBytes a) (codeBytes b) 0 0 (highByte w) (lowByte w)
  -- the jump encodes, as the patch succeeded; all other segments were there before
  · intro s hs
    rcases List.mem_append.mp hs with hs | hs
    · exact h.encodes s (List.mem_append_left _ hs)
    · rcases List.mem_cons.mp hs with rfl | hs
      · intro i hi
        obtain rfl := Option.some.inj hi
        exact ⟨w, hw⟩
      · exact h.encodes s (List.mem_append_right _ (List.mem_cons_of_mem _ hs))

/-! ## Values of the second pass -/

section Values

variable (hpass : run.pass = .emit)

include hpass

/-- In the second pass a value is worked out against the table of labels and the place of emission,
    as the reference does it. -/
theorem eval_emit {v : Imm} {n : Int} (h : run.eval d v = .ok n) :
    n = v.valueAt d.labels (run.pc d) := by
  cases v with
  | number m => exact (Except.ok.inj h).symm
  | label name =>
    obtain rfl := Except.ok.inj h
    rw [address?_eq]
    rfl
  | expr e =>
    simp only [eval, address?_eq, hpass] at h
    simp only [Imm.valueAt, LabelTable.addressAt]
    split at h
    · rename_i m _ hm
      obtain rfl := Except.ok.inj h
      rw [hm]
      rfl
    · rename_i hlayout; cases hlayout
    · cases h

/-- So is a value that goes into a field. -/
theorem imm_emit {v : Imm} {bits : Nat} {w : Word} (h : run.imm d v bits = .ok w) :
    w = v.fieldAt d.labels (run.pc d) bits := by
  obtain ⟨n, hn, h⟩ := bind_eq_ok.mp h
  obtain rfl := eval_emit hpass hn
  unfold field at h
  split at h
  · cases h
  · exact (Except.ok.inj h).symm

end Values

/-- A number that passes as unsigned is its own low bits. -/
theorem unsigned_eq_lowBits {value : Int} {bits n : Nat} (h : run.unsigned value bits = .ok n) :
    n = lowBits value bits := by
  unfold unsigned at h
  split at h
  · cases h
  · exact (Except.ok.inj h).symm

/-! ## Leaves and conditions -/

section Leaves

variable (hpass : run.pass = .emit)

include hpass

/-- The instruction of a leaf has the mnemonic and the operands that the reference writes down. -/
theorem instrCode_emit {i : Instr} {c : Mnemonic × List Word} (h : run.instrCode d i = .ok c) :
    c = (i.mnemonic, i.operandsAt d.labels (run.pc d)) := by
  cases i with
  | bare m | regReg m x y | reg m x => exact (Except.ok.inj h).symm
  | addr m v | regImm m x v | draw x y v =>
    obtain ⟨w, hw, h⟩ := bind_eq_ok.mp h
    obtain rfl := pure_eq_ok.mp h
    obtain rfl := imm_emit hpass hw
    rfl

/-- The first byte of an unpacked address is the one that the reference writes down. -/
theorem unpackHigh_emit {tag : Option Imm} {value : Int} {high : Nat}
    (h : run.unpackHigh d tag value = .ok high) :
    high = unpackedHigh d.labels (run.pc d) tag value := by
  cases tag with
  | none =>
    obtain ⟨n, hn, h⟩ := bind_eq_ok.mp h
    obtain rfl := pure_eq_ok.mp h
    obtain rfl := unsigned_eq_lowBits hn
    rfl
  | some tag =>
    obtain ⟨t, ht, h⟩ := bind_eq_ok.mp h
    obtain ⟨n, hn, h⟩ := bind_eq_ok.mp h
    obtain ⟨n', hn', h⟩ := bind_eq_ok.mp h
    obtain rfl := pure_eq_ok.mp h
    obtain rfl := eval_emit hpass ht
    obtain rfl := unsigned_eq_lowBits hn
    obtain rfl := unsigned_eq_lowBits hn'
    rfl

/-- One case to a leaf: what is emitted is the segment of the reference, or nothing for marks and
    checks. -/
theorem leaf_emits {l : Leaf} (h : run.leaf d l = .ok d') :
    run.Emits d (l.code d.labels (run.pc d)) d' := by
  cases l with
  | instr i =>
    obtain ⟨c, hcode, h⟩ := bind_eq_ok.mp h
    obtain rfl := instrCode_emit hpass hcode
    exact op_emits h i.mentions
  -- the padding is a datum that mentions the labels of the target
  | org target =>
    obtain ⟨-, goal, hgoal, -, happ⟩ := org_eq_ok h
    obtain rfl := eval_emit hpass hgoal
    exact happ.emits_data target.labels
  | unpack hi lo tag value =>
    obtain ⟨n, hn, h⟩ := bind_eq_ok.mp h
    obtain ⟨high, hhigh, h⟩ := bind_eq_ok.mp h
    obtain rfl := eval_emit hpass hn
    obtain rfl := unpackHigh_emit hpass hhigh
    exact ops_emits h (.cons ⟨_, rfl⟩ (.cons ⟨_, rfl⟩ .nil))
  | byte value =>
    obtain ⟨w, hw, h⟩ := bind_eq_ok.mp h
    obtain rfl := imm_emit hpass hw
    exact (byte_eq_ok h).emits_data value.labels
  | pointer value =>
    obtain ⟨w, hw, h⟩ := bind_eq_ok.mp h
    obtain rfl := imm_emit hpass hw
    exact (word_eq_ok h).emits_data value.labels
  | label _ | nextLabel _ | assertion _ _ | breakpoint _ | monitor _ _ =>
    -- marks and checks have size zero, so nothing was appended
    obtain ⟨⟨bs, hbytes, -, hsize⟩, hlabels⟩ := leaf_effect h
    obtain rfl : bs = [] := List.eq_nil_of_length_eq_zero (hsize 0 rfl)
    refine emits_nil (by simpa using hbytes) ?_
    simp [hlabels, labelsAfter, hpass]

/-- A test for equality is the one instruction of the reference. -/
theorem equalCode_emit {reg : Fin 16} {rhs : CondRhs} {w : Bool} {ops : List (Mnemonic × List Word)}
    (h : run.equalCode d reg rhs w = .ok ops) :
    List.Forall₂ (fun o s => ∃ mentions, s = .op ⟨o.1, o.2⟩ mentions) ops
      [rhs.equalSegment d.labels (run.pc d) reg w] := by
  cases rhs with
  | reg r =>
    obtain rfl := Except.ok.inj h
    exact .cons ⟨_, rfl⟩ .nil
  | imm v =>
    obtain ⟨x, hx, h⟩ := bind_eq_ok.mp h
    obtain rfl := pure_eq_ok.mp h
    obtain rfl := imm_emit hpass hx
    exact .cons ⟨_, rfl⟩ .nil

/-- A comparison by order is the three instructions of the reference: the operand into the scratch
    register, the difference, the test of the flag. -/
theorem orderCode_emit {reg temp : Fin 16} {op : Comparison} {rhs : CondRhs} {w : Bool}
    {ops : List (Mnemonic × List Word)} (h : run.orderCode d reg op rhs temp w = .ok ops) :
    List.Forall₂ (fun o s => ∃ mentions, s = .op ⟨o.1, o.2⟩ mentions) ops
      (rhs.differenceCode d.labels (run.pc d) reg temp (op == .lt || op == .ge) ++
        [.op ⟨if w then .seqi else .snei, [0xF, if op == .ge || op == .le then 1 else 0]⟩ []]) := by
  unfold orderCode at h
  cases rhs with
  | reg r =>
    simp only [CondRhs.differenceCode] at h ⊢
    split at h
    all_goals
      rename_i hside
      obtain ⟨difference, hd, h⟩ := bind_eq_ok.mp h
      obtain rfl := pure_eq_ok.mp hd
      obtain rfl := pure_eq_ok.mp h
      simp only [hside, if_true, if_false, Bool.false_eq_true]
      exact .cons ⟨_, rfl⟩ (.cons ⟨_, rfl⟩ (.cons ⟨_, rfl⟩ .nil))
  | imm v =>
    obtain ⟨x, hx, h⟩ := bind_eq_ok.mp h
    obtain ⟨difference, hd, h⟩ := bind_eq_ok.mp h
    obtain rfl := pure_eq_ok.mp hd
    obtain rfl := pure_eq_ok.mp h
    obtain rfl := imm_emit hpass hx
    exact .cons ⟨_, rfl⟩ (.cons ⟨_, rfl⟩ (.cons ⟨_, rfl⟩ .nil))

/-- The code of a condition is that of the reference, in both senses. -/
theorem skip_emits {cond : Cond} {w : Bool} (h : run.skip d cond w = .ok d') :
    run.Emits d (cond.code d.labels (run.pc d) w) d' := by
  obtain ⟨ops, hops, h⟩ := bind_eq_ok.mp h
  refine ops_emits h ?_
  cases cond with
  | key reg pressed =>
    obtain rfl := Except.ok.inj hops
    exact .cons ⟨_, rfl⟩ .nil
  | compare reg op rhs temp =>
    cases op with
    | eq | ne => exact equalCode_emit hpass hops
    | lt | gt | le | ge => exact orderCode_emit hpass hops

end Leaves

/-! ## Blocks -/

-- In every case the segments are appended one after the other, a hole first standing in for each
-- jump forward; what a block sees of the draft is its labels, which never change, and its own
-- address.
mutual

/-- The second pass appends the code of an item. -/
theorem item_emits (hpass : run.pass = .emit) : ∀ (i : Item) {d d' : Draft},
    run.item d i = .ok d' → run.Emits d (i.code d.labels (run.pc d)) d'
  | .leaf site l, d, d', h => leaf_emits hpass (Site.blame_eq_ok.mp h)
  | .ifThen site cond body, d, d', h => by
    obtain ⟨d₁, h₁, h₂, -⟩ := item_ifThen h
    have htest := skip_emits hpass h₁
    have hbody := block_emits hpass body h₂
    rw [htest.labels, htest.pc] at hbody
    exact htest.append hbody
  | .ifBegin site cond body, d, d', h => by
    obtain ⟨d₁, d₂, d₃, h₁, h₂, h₃, h₄⟩ := item_ifBegin h
    have htest := skip_emits hpass h₁
    have hhole := htest.append (hole_emits h₂)
    have hbody := block_emits hpass body h₃
    rw [hhole.labels, hhole.pc] at hbody
    have hall := hhole.append hbody
    have hpatched := Emits.patched (by simpa using hall) h₄ htest.size
    rw [hall.pc] at hpatched
    simpa [Item.code, holeSegment, Nat.add_assoc] using hpatched
  | .ifElse site cond body otherwise, d, d', h => by
    obtain ⟨d₁, d₂, d₃, d₄, d₅, d₆, h₁, h₂, h₃, h₄, h₅, h₆, h₇⟩ := item_ifElse h
    have htest := skip_emits hpass h₁
    have hhole := htest.append (hole_emits h₂)
    have hbody := block_emits hpass body h₃
    rw [hhole.labels, hhole.pc] at hbody
    have hfirst := hhole.append hbody
    have hholes := hfirst.append (hole_emits h₄)
    have hpatched := Emits.patched (by simpa using hholes) h₅ htest.size
    have hother := block_emits hpass otherwise h₆
    rw [hpatched.labels, hpatched.pc] at hother
    have hall := hpatched.append hother
    -- the second hole lies where the first part ends, whatever the first one was filled with
    let test := cond.code d.labels (run.pc d) true
    let inner := codeOf d.labels (run.pc d + codeSize test + 2) body
    have htoEnd : d₃.bytes.size = d.bytes.size + codeSize (test ++ .jump (run.pc d₄) :: inner) := by
      simpa [test, inner, holeSegment, Nat.add_assoc] using hfirst.size
    have hend :=
      Emits.patched (by simpa [test, inner, holeSegment, Nat.add_assoc] using hall) h₇ htoEnd
    rw [hall.pc, hholes.pc] at hend
    simpa [Item.code, test, inner, holeSegment, Nat.add_assoc] using hend
  | .loop site body, d, d', h => by
    obtain ⟨d₁, h₁, h₂⟩ := item_loop h
    exact (block_emits hpass body h₁).append (jump_emits h₂)
  | .loopUntil site body cond, d, d', h => by
    obtain ⟨d₁, d₂, d₃, d₄, h₁, h₂, h₃, h₄, h₅⟩ := item_loopUntil h
    have hbody := block_emits hpass body h₁
    have htest := skip_emits hpass h₂
    rw [hbody.labels, hbody.pc] at htest
    have hfront := hbody.append htest
    have hall := (hfront.append (hole_emits h₃)).append (jump_emits h₄)
    have hpatched := Emits.patched (by simpa using hall) h₅ hfront.size
    rw [hall.pc] at hpatched
    simpa [Item.code, holeSegment, Nat.add_assoc] using hpatched
  | .whileDo site cond body, d, d', h => by
    obtain ⟨d₁, d₂, d₃, d₄, h₁, h₂, h₃, h₄, h₅⟩ := item_whileDo h
    have htest := skip_emits hpass h₁
    have hhole := htest.append (hole_emits h₂)
    have hbody := block_emits hpass body h₃
    rw [hhole.labels, hhole.pc] at hbody
    have hall := (hhole.append hbody).append (jump_emits h₄)
    have hpatched := Emits.patched (by simpa using hall) h₅ htest.size
    rw [hall.pc] at hpatched
    simpa [Item.code, holeSegment, Nat.add_assoc] using hpatched

/-- **The second pass appends the code of a block.** -/
theorem block_emits (hpass : run.pass = .emit) : ∀ (items : List Item) {d d' : Draft},
    run.block d items = .ok d' → run.Emits d (codeOf d.labels (run.pc d) items) d'
  | [], d, d', h => by
    obtain rfl := Except.ok.inj h
    exact emits_nil rfl rfl
  | i :: rest, d, d', h => by
    obtain ⟨d₁, h₁, h₂⟩ := bind_eq_ok.mp h
    have hfirst := item_emits hpass i h₁
    have hrest := block_emits hpass rest h₂
    rw [hfirst.labels, hfirst.pc] at hrest
    exact hfirst.append hrest

end

end Run

/-! ## Targets -/

section Targets

variable {labels : LabelTable} {t : Nat}

/-- Conditions are tested without jumps of control flow. -/
theorem jump_not_mem_cond (cond : Cond) (pc : Nat) (w : Bool) :
    .jump t ∉ cond.code labels pc w := by
  cases cond with
  | key reg pressed => simp [Cond.code]
  | compare reg op rhs temp =>
    cases op <;> cases rhs <;>
      simp [Cond.code, CondRhs.equalSegment, CondRhs.differenceCode]

/-- The jumps of a leaf are those the program asks for, and told apart from jumps of
    control flow. -/
theorem jump_not_mem_leaf (l : Leaf) (pc : Nat) : .jump t ∉ l.code labels pc := by
  cases l <;> simp [Leaf.code]

mutual

/-- Control flow of an item leads into it or right behind it; by recursion on the item. -/
theorem target_item : ∀ (i : Item) {pc : Nat}, .jump t ∈ i.code labels pc →
    pc ≤ t ∧ t ≤ pc + codeSize (i.code labels pc)
  | .leaf _ l, pc, h => absurd h (jump_not_mem_leaf l pc)
  -- tests hold no jumps, so the jump is one of the body
  | .ifThen _ cond body, pc, h => by
    simp only [Item.code, List.mem_append, jump_not_mem_cond, false_or, codeSize_append] at h ⊢
    have hbody := target_block body h
    omega
  | .ifBegin _ cond body, pc, h => by
    simp only [Item.code, List.mem_append, List.mem_cons, jump_not_mem_cond, false_or,
      Segment.jump.injEq, codeSize_append, codeSize_cons, Segment.length_bytes_jump] at h ⊢
    -- the jump behind the body's end, or one of the body
    rcases h with rfl | h
    · omega
    · have hbody := target_block body h
      omega
  | .ifElse _ cond body otherwise, pc, h => by
    simp only [Item.code, List.mem_append, List.mem_cons, jump_not_mem_cond, false_or,
      Segment.jump.injEq, codeSize_append, codeSize_cons, Segment.length_bytes_jump] at h ⊢
    rcases h with (rfl | h) | rfl | h
    · omega
    · have hbody := target_block body h
      omega
    · omega
    · have hother := target_block otherwise h
      omega
  | .loop _ body, pc, h => by
    simp only [Item.code, List.mem_append, List.mem_singleton, Segment.jump.injEq,
      codeSize_append] at h ⊢
    rcases h with h | rfl
    · have hbody := target_block body h
      omega
    · omega
  | .loopUntil _ body cond, pc, h => by
    simp only [Item.code, List.mem_append, List.mem_cons, jump_not_mem_cond, or_false,
      Segment.jump.injEq, codeSize_append, codeSize_cons, codeSize_nil, Segment.length_bytes_jump,
      List.not_mem_nil] at h ⊢
    -- a jump of the body, the jump out of the loop, or the jump back to its start
    rcases h with h | rfl | rfl
    · have hbody := target_block body h
      omega
    · omega
    · omega
  | .whileDo _ cond body, pc, h => by
    simp only [Item.code, List.mem_append, List.mem_cons, jump_not_mem_cond, false_or, or_false,
      Segment.jump.injEq, codeSize_append, codeSize_cons, codeSize_nil, Segment.length_bytes_jump,
      List.not_mem_nil] at h ⊢
    rcases h with (rfl | h) | rfl
    · omega
    · have hbody := target_block body h
      omega
    · omega

/-- Control flow stays within the block: its jumps lead to addresses of the block or to its end. -/
theorem target_block : ∀ (items : List Item) {pc : Nat}, .jump t ∈ codeOf labels pc items →
    pc ≤ t ∧ t ≤ pc + codeSize (codeOf labels pc items)
  | [], pc, h => absurd h (by simp [codeOf])
  | i :: rest, pc, h => by
    simp only [codeOf, List.mem_append, codeSize_append] at h ⊢
    rcases h with h | h
    · have hfirst := target_item i h
      omega
    · have hrest := target_block rest h
      omega

end

end Targets

/-! ## Images -/

section Images

variable {settings : Options} {items : List Item} {laid emitted : Draft} {image : Image}
  {before after : List Segment} {s : Segment} {t : Nat}

/-- The bytes of an image are those of the code of the program, whose instructions all encode. -/
theorem emit_code (h : emit settings laid items = .ok emitted) :
    (emitted.finish settings.origin).bytes.toList =
        codeBytes (codeOf laid.labels settings.origin items) ∧
      ∀ s ∈ codeOf laid.labels settings.origin items, s.Encodes := by
  have hemits := Run.block_emits rfl items h
  have hstart : Run.pc ⟨settings, .emit⟩ { laid with bytes := #[] } = settings.origin := rfl
  rw [hstart] at hemits
  refine ⟨?_, hemits.encodes⟩
  show emitted.bytes.toList = _
  simpa using hemits.bytes

/-- The bytes of a segment stand behind the code before it. -/
theorem getElem?_of_code (hbytes : image.bytes.toList = codeBytes (before ++ s :: after)) {j : Nat}
    (hj : j < s.bytes.length) : image.bytes[codeSize before + j]? = s.bytes[j]? := by
  rw [← Array.getElem?_toList, hbytes, codeBytes_append, codeBytes_cons, codeSize,
    List.getElem?_append_right (Nat.le_add_right _ _), Nat.add_sub_cancel_left,
    List.getElem?_append_left hj]

/-- The instruction of a segment is read where the segment stands. -/
theorem instruction?_of_code (hbytes : image.bytes.toList = codeBytes (before ++ s :: after))
    {i : Instruction} (hs : s.instruction? = some i) (hencodes : s.Encodes) :
    image.instruction? (codeSize before) = some i := by
  obtain ⟨w, hw⟩ := hencodes i hs
  have hword : s.bytes = [Run.highByte w, Run.lowByte w] := by
    cases s with
    | data bs mentions => cases hs
    | op j mentions =>
      obtain rfl := Option.some.inj hs
      exact j.bytes_of_encode hw
    | jump target =>
      obtain rfl := Option.some.inj hs
      exact (jumpTo target).bytes_of_encode hw
  have hhigh : image.bytes[codeSize before]? = some (Run.highByte w) := by
    simpa [hword] using getElem?_of_code hbytes (j := 0) (by simp [hword])
  have hlow : image.bytes[codeSize before + 1]? = some (Run.lowByte w) := by
    simpa [hword] using getElem?_of_code hbytes (j := 1) (by simp [hword])
  refine instruction?_of_word? ?_ hw
  simp only [Image.word?, hhigh, hlow]
  exact congrArg some (joined_bytes w)

/-- No target of control flow lies beyond the memory. -/
theorem target_le_memory (h : emit settings laid items = .ok emitted)
    (ht : .jump t ∈ codeOf laid.labels settings.origin items) :
    t ≤ max settings.origin settings.memoryEnd := by
  have hend : Run.pc ⟨settings, .emit⟩ emitted ≤ max settings.origin settings.memoryEnd :=
    Run.pc_le_max_of_follow (emit_eq_ok.mp h)
  have hsize : emitted.bytes.size = codeSize (codeOf laid.labels settings.origin items) :=
    congrArg List.length (emit_code h).1
  have htarget := (target_block items ht).2
  simp only [Run.pc] at hend
  omega

/-- Where an emission jumps: to the target of the segment, of which sixteen bits are kept. -/
theorem jump_of_code (hbytes : image.bytes.toList = codeBytes (before ++ .jump t :: after))
    (hencodes : (Segment.jump t).Encodes) :
    image.instruction? (codeSize before) = some (jumpTo t) ∧ t % 0x10000 < 0x1000 := by
  refine ⟨instruction?_of_code hbytes rfl hencodes, ?_⟩
  obtain ⟨w, hw⟩ := hencodes _ rfl
  have hfits := (Machine.encode_jmpi_eq_ok hw).2
  rwa [UInt16.toNat_ofNat'] at hfits

end Images

end OctoAsm
