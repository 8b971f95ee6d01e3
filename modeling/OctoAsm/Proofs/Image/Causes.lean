/-
  Why an emission fails.

  Operands are checked twice: a value when it is put into its field, and a word when it is packed
  into an instruction.  Whatever has gone through a field is below the field's capacity, and so is a
  register, so for instructions of the right shape the second check never fails
  (`op_error`).  The first one passes every number that was found to fit when the program was
  resolved, with one exception: `unpack` with a tag, whose fields are narrower than what was checked
  then (`leaf_error`).
-/
import OctoAsm.Proofs.Image.Growth
import OctoAsm.Proofs.Resolve.Values

namespace OctoAsm

open Machine (Mnemonic Word FitsField encode)

/-- `unpack` with a tag: the tag may not be negative, and twelve bits are left for the value. -/
def Leaf.isTagged : Leaf → Bool
  | .unpack _ _ (some _) _ => true
  | _ => false

/-- A cause that is no encoding error, and that is an overflow only of one of the given values: of
    one that is too large for its field and was not known to be a number, unless `tagged`. -/
def Excused (run : Run) (d : Draft) (values : List (Imm × Option Nat)) (tagged : Bool) :
    EmitCause → Prop
  | .encode _ => False
  | .overflow n bits => ∃ v ∈ values, run.eval d v.1 = .ok n ∧
      ((v.2 = some bits ∧ Calc.fits n bits = false ∧ ∀ m, v.1 ≠ .number m) ∨ tagged = true)
  | _ => True

namespace Run

variable {run : Run} {d : Draft} {cause : EmitCause}

/-! ## Fields -/

/-- The low bits of any number fit into as many bits. -/
theorem lowBits_lt (value : Int) (bits : Nat) : lowBits value bits < 2 ^ bits := by
  have hpos : (0 : Int) < (2 ^ bits : Nat) := by exact_mod_cast Nat.two_pow_pos bits
  have hlt := Int.emod_lt_of_pos value hpos
  have hge := Int.emod_nonneg value (Int.ne_of_gt hpos)
  show (value % ((2 ^ bits : Nat) : Int)).toNat < 2 ^ bits
  omega

/-- A number below the capacity stays itself as a word, and fits. -/
theorem fitsField_ofNat {n bits : Nat} (h : n < 2 ^ bits) : FitsField bits (UInt16.ofNat n) := by
  have hle : (UInt16.ofNat n).toNat ≤ n := by
    rw [UInt16.toNat_ofNat']
    exact Nat.mod_le n _
  exact Nat.lt_of_le_of_lt hle h

/-- A register fits into a nibble, as there are sixteen. -/
theorem fitsField_regWord (r : Fin 16) : FitsField 4 (regWord r) := fitsField_ofNat r.isLt

/-- What has gone through a field fits into it: the number was checked, and then cut to its low
    bits. -/
theorem field_eq_ok {value : Int} {bits : Nat} {w : Word} (h : run.field value bits = .ok w) :
    FitsField bits w := by
  unfold field at h
  split at h
  · cases h
  · obtain rfl := Except.ok.inj h
    exact fitsField_ofNat (lowBits_lt value bits)

/-- The same of a value, evaluated first. -/
theorem imm_eq_ok {v : Imm} {bits : Nat} {w : Word} (h : run.imm d v bits = .ok w) :
    FitsField bits w := by
  obtain ⟨value, -, h⟩ := bind_eq_ok.mp h
  exact field_eq_ok h

/-- A number that passes as unsigned is below the capacity. -/
theorem unsigned_eq_ok {value : Int} {bits n : Nat} (h : run.unsigned value bits = .ok n) :
    n < 2 ^ bits := by
  unfold unsigned at h
  split at h
  · cases h
  · obtain rfl := Except.ok.inj h
    exact lowBits_lt value bits

/-! ## Bytes and words -/

/-- A byte is refused only where memory ends. -/
theorem byte_error {b : UInt8} (h : run.byte d b = .error cause) :
    cause = .programTooLarge run.options.memoryEnd := by
  unfold byte at h
  split at h
  · cases h
  · exact (Except.error.inj h).symm

/-- A word is two bytes, refused for the same reason. -/
theorem word_error {w : Word} (h : run.word d w = .error cause) :
    cause = .programTooLarge run.options.memoryEnd := by
  rcases bind_eq_error.mp h with h | ⟨d', -, h⟩
  · exact byte_error h
  · exact byte_error h

/-- A row of zeros, by induction on its length. -/
theorem zeros_error {n : Nat} (h : run.zeros d n = .error cause) :
    cause = .programTooLarge run.options.memoryEnd := by
  induction n generalizing d with
  | zero => cases h
  | succ n ih =>
    rcases bind_eq_error.mp h with h | ⟨d', -, h⟩
    · exact byte_error h
    · exact ih h

/-- An instruction that is not encoded says why. -/
theorem encoded_eq_error {m : Mnemonic} {operands : List Word}
    (h : encoded m operands = .error cause) :
    ∃ e, encode m operands = .error e ∧ cause = .encode e := by
  unfold encoded at h
  cases he : encode m operands with
  | error e =>
    rw [he] at h
    exact ⟨e, rfl, (Except.error.inj h).symm⟩
  | ok w => rw [he] at h; cases h

/-- An instruction whose operands fit their fields fails only for want of room. -/
theorem op_error {m : Mnemonic} {operands : List Word}
    (hfit : List.Forall₂ FitsField m.widths operands) (h : run.op d m operands = .error cause) :
    cause = .programTooLarge run.options.memoryEnd := by
  rcases bind_eq_error.mp h with h | ⟨w, -, h⟩
  · -- operands that fit make a word
    obtain ⟨e, he, -⟩ := encoded_eq_error h
    obtain ⟨w, hw⟩ := Machine.encode_eq_ok hfit
    rw [hw] at he
    cases he
  · exact word_error h

/-- Instructions in a row whose operands fit, by induction on the row: only the memory is left to
    refuse them. -/
theorem ops_error {code : List (Mnemonic × List Word)}
    (hfit : ∀ c ∈ code, List.Forall₂ FitsField c.1.widths c.2)
    (h : run.ops d code = .error cause) : cause = .programTooLarge run.options.memoryEnd := by
  induction code generalizing d with
  | nil => cases h
  | cons c rest ih =>
    rcases bind_eq_error.mp h with h | ⟨d', -, h⟩
    · exact op_error (hfit c List.mem_cons_self) h
    · exact ih (fun c hc => hfit c (List.mem_cons_of_mem _ hc)) h

/-! ## Values -/

/-- A value has no number only where arithmetic left the finite ones. -/
theorem eval_error {v : Imm} (h : run.eval d v = .error cause) : cause = .notFinite := by
  cases v with
  | number n => cases h
  | label name => cases h
  | expr e =>
    simp only [eval] at h
    split at h
    · cases h
    · cases h
    · exact (Except.error.inj h).symm

/-- What a field refuses is out of its range. -/
theorem field_error {value : Int} {bits : Nat} (h : run.field value bits = .error cause) :
    cause = .overflow value bits ∧ Calc.fits value bits = false := by
  unfold field at h
  split at h
  · rename_i hfits
    exact ⟨(Except.error.inj h).symm, hfits.2⟩
  · cases h

/-- What is refused as unsigned is negative, or beyond the capacity. -/
theorem unsigned_error {value : Int} {bits : Nat} (h : run.unsigned value bits = .error cause) :
    cause = .overflow value bits ∧ ¬ (0 ≤ value ∧ value < Nat.pow 2 bits) := by
  unfold unsigned at h
  split at h
  · rename_i hfits
    exact ⟨(Except.error.inj h).symm, hfits.2⟩
  · cases h

/-- A sound value that does not fit its field was not known to be a number. -/
theorem excused_of_overflow {names : NameTable} {values : List (Imm × Option Nat)} {v : Imm}
    {bits : Nat} {n : Int} {tagged : Bool} (hv : SoundValue names (v, some bits))
    (hmem : (v, some bits) ∈ values) (heval : run.eval d v = .ok n)
    (hfits : Calc.fits n bits = false) : Excused run d values tagged (.overflow n bits) := by
  refine ⟨(v, some bits), hmem, heval, .inl ⟨rfl, hfits, ?_⟩⟩
  rintro m rfl
  obtain rfl := Except.ok.inj heval
  have hsound := hv.fits m bits rfl
  rw [hfits] at hsound
  cases hsound

/-- A value of the statement, with the bits it was checked for, is refused for arithmetic or for a
    range that was not known before. -/
theorem imm_error {names : NameTable} {values : List (Imm × Option Nat)} {v : Imm} {bits : Nat}
    {tagged : Bool} (hv : SoundValue names (v, some bits)) (hmem : (v, some bits) ∈ values)
    (h : run.imm d v bits = .error cause) : Excused run d values tagged cause := by
  rcases bind_eq_error.mp h with h | ⟨value, heval, h⟩
  · obtain rfl := eval_error h
    trivial
  · obtain ⟨rfl, hfits⟩ := field_error h
    exact excused_of_overflow hv hmem heval hfits

/-! ## Instructions -/

/-- The operands of a well-shaped instruction fit their fields. -/
theorem instrCode_fits {i : Instr} {c : Mnemonic × List Word} (hshape : i.Shaped)
    (h : run.instrCode d i = .ok c) : List.Forall₂ FitsField c.1.widths c.2 := by
  have hreg := fitsField_regWord
  cases i with
  | bare m =>
    obtain rfl := Except.ok.inj h
    rw [show m.widths = [] from hshape]
    exact .nil
  | addr m target =>
    obtain ⟨w, hw, h⟩ := bind_eq_ok.mp h
    obtain rfl := pure_eq_ok.mp h
    rw [show m.widths = [12] from hshape]
    exact .cons (imm_eq_ok hw) .nil
  | regImm m x value =>
    obtain ⟨w, hw, h⟩ := bind_eq_ok.mp h
    obtain rfl := pure_eq_ok.mp h
    rw [show m.widths = [4, 8] from hshape]
    exact .cons (hreg x) (.cons (imm_eq_ok hw) .nil)
  | regReg m x y =>
    obtain rfl := Except.ok.inj h
    rw [show m.widths = [4, 4] from hshape]
    exact .cons (hreg x) (.cons (hreg y) .nil)
  | reg m x =>
    obtain rfl := Except.ok.inj h
    rw [show m.widths = [4] from hshape]
    exact .cons (hreg x) .nil
  | draw x y height =>
    obtain ⟨w, hw, h⟩ := bind_eq_ok.mp h
    obtain rfl := pure_eq_ok.mp h
    exact .cons (hreg x) (.cons (hreg y) (.cons (imm_eq_ok hw) .nil))

/-- An instruction is refused for its one value, if it has one; its registers are words already. -/
theorem instrCode_error {names : NameTable} {i : Instr} (hi : SoundLeaf names (.instr i))
    (h : run.instrCode d i = .error cause) : Excused run d (Leaf.instr i).values false cause := by
  cases i with
  | bare _ | regReg _ _ _ | reg _ _ => cases h
  | addr _ _ | regImm _ _ _ | draw _ _ _ =>
    rcases bind_eq_error.mp h with h | ⟨w, -, h⟩
    · exact imm_error (hi.values _ List.mem_cons_self) List.mem_cons_self h
    · cases h

/-! ## Conditions -/

/-- The code of a test for equality holds registers and a byte that went through its field. -/
theorem equalCode_fits {reg : Fin 16} {rhs : CondRhs} {w : Bool}
    {code : List (Mnemonic × List Word)} (h : run.equalCode d reg rhs w = .ok code) :
    ∀ c ∈ code, List.Forall₂ FitsField c.1.widths c.2 := by
  intro c hc
  have hreg := fitsField_regWord
  cases rhs with
  | reg r =>
    obtain rfl := Except.ok.inj h
    obtain rfl := List.mem_singleton.mp hc
    cases w <;> exact .cons (hreg reg) (.cons (hreg r) .nil)
  | imm value =>
    obtain ⟨v, hv, h⟩ := bind_eq_ok.mp h
    obtain rfl := pure_eq_ok.mp h
    obtain rfl := List.mem_singleton.mp hc
    cases w <;> exact .cons (hreg reg) (.cons (imm_eq_ok hv) .nil)

/-- The code of a comparison by order holds registers and a byte that went through its field. -/
theorem orderCode_fits {reg temp : Fin 16} {op : Comparison} {rhs : CondRhs} {w : Bool}
    {code : List (Mnemonic × List Word)} (h : run.orderCode d reg op rhs temp w = .ok code) :
    ∀ c ∈ code, List.Forall₂ FitsField c.1.widths c.2 := by
  have hreg := fitsField_regWord
  -- the last instruction tests the flag register against 0 or 1
  have hflag : ∀ expected : Bool, List.Forall₂ FitsField (if w then Mnemonic.seqi else .snei).widths
      [0xF, if expected then (1 : Word) else 0] := by
    cases w <;> intro expected <;> cases expected <;>
      exact .cons (show _ < _ by decide) (.cons (show _ < _ by decide) .nil)
  unfold orderCode at h
  cases rhs with
  | reg r =>
    simp only at h
    split at h <;>
    · obtain ⟨difference, hd, h⟩ := bind_eq_ok.mp h
      obtain rfl := pure_eq_ok.mp hd
      obtain rfl := pure_eq_ok.mp h
      simp only [List.cons_append, List.nil_append, List.forall_mem_cons]
      exact ⟨.cons (hreg _) (.cons (hreg _) .nil), .cons (hreg _) (.cons (hreg _) .nil), hflag _,
        by simp⟩
  | imm value =>
    obtain ⟨v, hv, h⟩ := bind_eq_ok.mp h
    obtain ⟨difference, hd, h⟩ := bind_eq_ok.mp h
    obtain rfl := pure_eq_ok.mp hd
    obtain rfl := pure_eq_ok.mp h
    simp only [List.cons_append, List.nil_append, List.forall_mem_cons]
    refine ⟨.cons (hreg _) (.cons (imm_eq_ok hv) .nil), ?_, hflag _, by simp⟩
    split <;> exact .cons (hreg _) (.cons (hreg _) .nil)

/-- The code that tests a condition consists of instructions whose operands fit. -/
theorem skipCode_fits {cond : Cond} {w : Bool} {code : List (Mnemonic × List Word)}
    (h : run.skipCode d cond w = .ok code) :
    ∀ c ∈ code, List.Forall₂ FitsField c.1.widths c.2 := by
  cases cond with
  | key reg pressed =>
    obtain rfl := Except.ok.inj h
    intro c hc
    obtain rfl := List.mem_singleton.mp hc
    have hreg := fitsField_regWord reg
    cases pressed <;> cases w <;> exact .cons hreg .nil
  | compare reg op rhs temp =>
    cases op with
    | eq => exact equalCode_fits h
    | ne => exact equalCode_fits h
    | lt => exact orderCode_fits h
    | gt => exact orderCode_fits h
    | le => exact orderCode_fits h
    | ge => exact orderCode_fits h

/-- A test for equality fails at its right side only. -/
theorem equalCode_error {reg : Fin 16} {rhs : CondRhs} {w : Bool}
    (h : run.equalCode d reg rhs w = .error cause) :
    ∃ v, rhs = .imm v ∧ run.imm d v 8 = .error cause := by
  cases rhs with
  | reg r => cases h
  | imm v =>
    rcases bind_eq_error.mp h with h | ⟨x, -, h⟩
    · exact ⟨v, rfl, h⟩
    · cases h

/-- A comparison by order fails at its right side only: flags and scratch registers are
    registers. -/
theorem orderCode_error {reg temp : Fin 16} {op : Comparison} {rhs : CondRhs} {w : Bool}
    (h : run.orderCode d reg op rhs temp w = .error cause) :
    ∃ v, rhs = .imm v ∧ run.imm d v 8 = .error cause := by
  unfold orderCode at h
  cases rhs with
  | reg r =>
    simp only at h
    split at h <;>
    · rcases bind_eq_error.mp h with h | ⟨x, -, h⟩
      · cases h
      · cases h
  | imm v =>
    rcases bind_eq_error.mp h with h | ⟨x, -, h⟩
    · exact ⟨v, rfl, h⟩
    · rcases bind_eq_error.mp h with h | ⟨y, -, h⟩
      · cases h
      · cases h

/-- A condition fails at its right side only, which is a value then; keys have none. -/
theorem skipCode_error {cond : Cond} {w : Bool} (h : run.skipCode d cond w = .error cause) :
    ∃ reg op v temp, cond = .compare reg op (.imm v) temp ∧ run.imm d v 8 = .error cause := by
  cases cond with
  | key reg pressed => cases h
  | compare reg op rhs temp =>
    obtain ⟨v, rfl, hv⟩ : ∃ v, rhs = .imm v ∧ run.imm d v 8 = .error cause := by
      cases op with
      | eq => exact equalCode_error h
      | ne => exact equalCode_error h
      | lt => exact orderCode_error h
      | gt => exact orderCode_error h
      | le => exact orderCode_error h
      | ge => exact orderCode_error h
    exact ⟨reg, op, v, temp, rfl, hv⟩

/-- The right side of a condition was checked for a byte when it was resolved. -/
theorem skip_error {names : NameTable} {cond : Cond} {w : Bool} (hcond : SoundCond names cond)
    (h : run.skip d cond w = .error cause) : Excused run d cond.values false cause := by
  rcases bind_eq_error.mp h with h | ⟨code, hcode, h⟩
  · obtain ⟨reg, op, v, temp, rfl, hv⟩ := skipCode_error h
    have hmem : (v, some 8) ∈ (Cond.compare reg op (.imm v) temp).values := List.mem_cons_self
    exact imm_error (hcond _ hmem) hmem hv
  · obtain rfl := ops_error (skipCode_fits hcode) h
    trivial

/-! ## Items that hold no items -/

/-- The first byte of an unpacked address is a byte, with a tag in its high half or without one. -/
theorem unpackHigh_eq_ok {tag : Option Imm} {value : Int} {high : Nat}
    (h : run.unpackHigh d tag value = .ok high) : high < 2 ^ 8 := by
  cases tag with
  | some tag =>
    obtain ⟨n, -, h⟩ := bind_eq_ok.mp h
    obtain ⟨t, ht, h⟩ := bind_eq_ok.mp h
    obtain ⟨v, hv, h⟩ := bind_eq_ok.mp h
    obtain rfl := pure_eq_ok.mp h
    have htag := unsigned_eq_ok ht
    have hvalue := unsigned_eq_ok hv
    omega
  | none =>
    obtain ⟨v, hv, h⟩ := bind_eq_ok.mp h
    obtain rfl := pure_eq_ok.mp h
    have hvalue := unsigned_eq_ok hv
    omega

/-- The high part of a tagged address has twelve bits only, while the address was checked for
    sixteen: the exception that `Excused` names. -/
theorem unpackHigh_error {names : NameTable} {hi lo : Fin 16} {tag : Option Imm} {value : Imm}
    {v : Int} (hl : SoundLeaf names (.unpack hi lo tag value)) (heval : run.eval d value = .ok v)
    (h : run.unpackHigh d tag v = .error cause) :
    Excused run d (Leaf.unpack hi lo tag value).values (Leaf.unpack hi lo tag value).isTagged
      cause := by
  cases tag with
  | some tag =>
    rcases bind_eq_error.mp h with h | ⟨n, htag, h⟩
    · obtain rfl := eval_error h
      trivial
    · rcases bind_eq_error.mp h with h | ⟨t, -, h⟩
      · obtain ⟨rfl, -⟩ := unsigned_error h
        exact ⟨(tag, some 4), by simp [Leaf.values], htag, .inr rfl⟩
      · rcases bind_eq_error.mp h with h | ⟨w, -, h⟩
        · obtain ⟨rfl, -⟩ := unsigned_error h
          exact ⟨(value, some 16), by simp [Leaf.values], heval, .inr rfl⟩
        · cases h
  | none =>
    rcases bind_eq_error.mp h with h | ⟨w, -, h⟩
    · obtain ⟨rfl, hrange⟩ := unsigned_error h
      -- sixteen bits are unsigned, so both checks are the same
      have hfits : Calc.fits v 16 = false := by
        simp only [Calc.fits, Bool.and_eq_false_iff, decide_eq_false_iff_not]
        by_cases hneg : 0 ≤ v
        · exact .inr fun hlt => hrange ⟨hneg, hlt⟩
        · exact .inl hneg
      have hmem : (value, some 16) ∈ (Leaf.unpack hi lo none value).values := by simp [Leaf.values]
      exact excused_of_overflow (hl.values _ hmem) hmem heval hfits
    · cases h

/-- An unpacked address fails at its value, at its tag or at the high part; the two loads fit. -/
theorem unpack_error {names : NameTable} {hi lo : Fin 16} {tag : Option Imm} {value : Imm}
    (hl : SoundLeaf names (.unpack hi lo tag value))
    (h : run.unpack d hi lo tag value = .error cause) :
    Excused run d (Leaf.unpack hi lo tag value).values (Leaf.unpack hi lo tag value).isTagged
      cause := by
  rcases bind_eq_error.mp h with h | ⟨v, heval, h⟩
  · obtain rfl := eval_error h
    trivial
  · rcases bind_eq_error.mp h with h | ⟨high, hhigh, h⟩
    · exact unpackHigh_error hl heval h
    · have hfit : ∀ c ∈ [(Mnemonic.seti, [regWord hi, UInt16.ofNat high]),
          (.seti, [regWord lo, UInt16.ofNat (lowBits v 8)])],
          List.Forall₂ FitsField c.1.widths c.2 := by
        simp only [List.forall_mem_cons]
        exact ⟨.cons (fitsField_regWord hi) (.cons (fitsField_ofNat (unpackHigh_eq_ok hhigh)) .nil),
          .cons (fitsField_regWord lo) (.cons (fitsField_ofNat (lowBits_lt v 8)) .nil), by simp⟩
      obtain rfl := ops_error hfit h
      trivial

/-- Moving the place of emission fails for arithmetic, for a place that cannot be reached, or where
    memory ends. -/
theorem org_error {values : List (Imm × Option Nat)} {tagged : Bool} {target : Imm}
    (h : run.org d target = .error cause) : Excused run d values tagged cause := by
  unfold org at h
  split at h
  · rcases bind_eq_error.mp h with h | ⟨goal, -, h⟩
    · obtain rfl := eval_error h
      trivial
    · split at h
      · obtain rfl := throw_eq_error.mp h
        trivial
      · split at h
        · obtain rfl := throw_eq_error.mp h
          trivial
        · obtain rfl := zeros_error h
          trivial
  · obtain rfl := Except.error.inj h
    trivial

/-- An assertion fails for arithmetic or because it does not hold. -/
theorem check_error {values : List (Imm × Option Nat)} {tagged : Bool} {message : Option String}
    {expr : Imm} (h : run.check d message expr = .error cause) :
    Excused run d values tagged cause := by
  unfold check at h
  split at h
  · cases h
  · rcases bind_eq_error.mp h with h | ⟨n, -, h⟩
    · obtain rfl := eval_error h
      trivial
    · split at h
      · obtain rfl := throw_eq_error.mp h
        trivial
      · cases h

/-- **Why a sound leaf fails**: never for an operand of its instruction, and for a value only if it
    was not known to be a number, or if it is the tag or the value of a tagged `unpack`. -/
theorem leaf_error {names : NameTable} {l : Leaf} (hl : SoundLeaf names l)
    (h : run.leaf d l = .error cause) : Excused run d l.values l.isTagged cause := by
  cases l with
  | instr i =>
    rcases bind_eq_error.mp h with h | ⟨c, hc, h⟩
    -- what has been put together fits its fields, so the encoder cannot refuse it
    · exact instrCode_error hl h
    · obtain rfl := op_error (instrCode_fits (hl.shape i rfl) hc) h
      trivial
  | label name => cases h
  | nextLabel name => cases h
  | org target => exact org_error h
  | unpack hi lo tag value => exact unpack_error hl h
  | byte value =>
    rcases bind_eq_error.mp h with h | ⟨w, -, h⟩
    · exact imm_error (hl.values _ List.mem_cons_self) List.mem_cons_self h
    · obtain rfl := byte_error h
      trivial
  | pointer value =>
    rcases bind_eq_error.mp h with h | ⟨w, -, h⟩
    · exact imm_error (hl.values _ List.mem_cons_self) List.mem_cons_self h
    · obtain rfl := word_error h
      trivial
  | assertion message expr => exact check_error h
  | breakpoint name =>
    simp only [leaf] at h
    split at h <;> cases h
  | monitor target format =>
    simp only [leaf] at h
    split at h
    · cases h
    · rcases bind_eq_error.mp h with h | ⟨base, -, h⟩
      · cases target with
        | register r => cases h
        | address v =>
          rcases bind_eq_error.mp h with h | ⟨w, -, h⟩
          · exact imm_error (hl.values _ List.mem_cons_self) List.mem_cons_self h
          · cases h
      · cases h

end Run

end OctoAsm
