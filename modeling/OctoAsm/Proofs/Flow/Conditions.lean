/-
  What the code of a condition does.

  Of the machine it is assumed that it does what the instructions mean (`effect`), and of a subtraction
  that it first writes the difference and then sets the flag register, to 1 exactly when nothing was
  borrowed.

  Keys and equality are tested by one instruction.  The other comparisons take three: the first two
  subtract one side from the other into the scratch register (`orderCode_eq_ok`), and the third one
  tests the flag.  The sides are read after the first instruction has written the scratch register, so
  it must be neither of them, and the resolution sees to that (`Cond.Separate`).  The flag register
  may be any of the three, because it is set last.
-/
import OctoAsm.Proofs.Flow.Emission
import OctoAsm.Proofs.Machine.Decode
import OctoAsm.Proofs.Resolve.Provenance

namespace OctoAsm

open Machine (Mnemonic Word encode decode)

/-! ## What instructions mean -/

/-- The contents of the registers. -/
abbrev Registers := Fin 16 → UInt8

/-- The register that an operand stands for. -/
def operandReg (w : Word) : Fin 16 := vReg w.toNat

/-- The register that arithmetic sets as a flag. -/
def flagReg : Fin 16 := vReg 15

@[simp] theorem operandReg_regWord (r : Fin 16) : operandReg (regWord r) = r := by
  apply Fin.ext
  have hlt := r.isLt
  simp only [operandReg, vReg, regWord, UInt16.toNat_ofNat']
  omega

/-- Puts a difference into a register; then the flag register gets 1 if nothing was borrowed, and 0
    otherwise. -/
def Registers.subtract (v : Registers) (x : Fin 16) (a b : UInt8) : Registers :=
  Function.update (Function.update v x (a - b)) flagReg (if b ≤ a then 1 else 0)

/-- What an instruction does to the registers, and whether it skips the next instruction; given for
    the instructions that conditions are made of. -/
def effect (held : UInt8 → Bool) (v : Registers) : Mnemonic → List Word → Option (Registers × Bool)
  | .set, [x, y] => some (Function.update v (operandReg x) (v (operandReg y)), false)
  | .seti, [x, n] => some (Function.update v (operandReg x) n.toUInt8, false)
  | .sub, [x, y] => some (v.subtract (operandReg x) (v (operandReg x)) (v (operandReg y)), false)
  | .rsub, [x, y] => some (v.subtract (operandReg x) (v (operandReg y)) (v (operandReg x)), false)
  | .seq, [x, y] => some (v, v (operandReg x) == v (operandReg y))
  | .sne, [x, y] => some (v, v (operandReg x) != v (operandReg y))
  | .seqi, [x, n] => some (v, v (operandReg x) == n.toUInt8)
  | .snei, [x, n] => some (v, v (operandReg x) != n.toUInt8)
  | .skeq, [x] => some (v, held (v (operandReg x)))
  | .skne, [x] => some (v, !held (v (operandReg x)))
  | _, _ => none

/-- What instructions in a row do, of which only the last one may skip. -/
def effectOf (held : UInt8 → Bool) : Registers → List (Mnemonic × List Word) →
    Option (Registers × Bool)
  | v, [] => some (v, false)
  | v, [(m, operands)] => effect held v m operands
  | v, (m, operands) :: rest =>
    match effect held v m operands with
    | some (v', false) => effectOf held v' rest
    | _ => none

section Execution

variable {σ : Type} {cpu : Processor σ} {regs : σ → Registers} {held : σ → UInt8 → Bool}

/-- A machine with registers and keys executes instructions as they are meant, and leaves the keys
    alone. -/
def Conforms (cpu : Processor σ) (regs : σ → Registers) (held : σ → UInt8 → Bool) : Prop :=
  ∀ w i, decode w = .ok i → ∀ a s v skips,
    effect (held s) (regs s) i.mnemonic i.operands = some (v, skips) →
      (cpu.exec w a s).1 = a + (if skips then 4 else 2) ∧ regs (cpu.exec w a s).2 = v ∧
        held (cpu.exec w a s).2 = held s

/-- An encoded instruction in memory is executed as it is meant. -/
theorem Conforms.step (hcpu : Conforms cpu regs held) {mem : CodeMemory} {a : Nat} {w : Word}
    {ws : List Word} {m : Mnemonic} {operands : List Word} (hw : encode m operands = .ok w)
    (hmem : Stored mem a (w :: ws)) {s : σ} {v : Registers} {skips : Bool}
    (h : effect (held s) (regs s) m operands = some (v, skips)) :
    ∃ s', cpu.step mem (a, s) = some (a + (if skips then 4 else 2), s') ∧ regs s' = v ∧
      held s' = held s := by
  obtain ⟨hhigh, hlow, -⟩ := hmem
  obtain ⟨haddress, hregs, hheld⟩ :=
    hcpu w ⟨m, operands⟩ (Machine.encode_eq_ok_iff_decode.mp hw) a s v skips h
  refine ⟨(cpu.exec w a s).2, ?_, hregs, hheld⟩
  rw [step_of_word hhigh hlow, ← haddress]

/-- Instructions in a row in memory are executed as they are meant. -/
theorem Conforms.steps (hcpu : Conforms cpu regs held) {mem : CodeMemory}
    {code : List (Mnemonic × List Word)} {ws : List Word} {a : Nat}
    (hws : code.map (fun c => encode c.1 c.2) = ws.map .ok) (hmem : Stored mem a ws) {s : σ}
    {v : Registers} {skips : Bool} (h : effectOf (held s) (regs s) code = some (v, skips)) :
    ∃ s', cpu.steps mem code.length (a, s) =
        some (a + 2 * code.length + (if skips then 2 else 0), s') ∧ regs s' = v := by
  induction code generalizing ws a s with
  | nil =>
    obtain ⟨rfl, rfl⟩ := Prod.mk.inj (Option.some.inj h)
    exact ⟨s, rfl, rfl⟩
  | cons c rest ih =>
    obtain ⟨m, operands⟩ := c
    obtain ⟨w, ws, rfl⟩ : ∃ w ws', ws = w :: ws' := by
      cases ws with
      | nil => simp at hws
      | cons w ws => exact ⟨w, ws, rfl⟩
    obtain ⟨hw, hws⟩ := List.cons.inj hws
    cases rest with
    | nil =>
      obtain ⟨s', hstep, hregs, -⟩ := hcpu.step hw hmem h
      refine ⟨s', ?_, hregs⟩
      rw [List.length_singleton, Processor.steps_one, hstep]
      cases skips <;> rfl
    | cons c' rest =>
      -- only the last instruction skips
      rw [effectOf] at h
      split at h
      · rename_i v₁ hfirst
        obtain ⟨s₁, hstep, rfl, hheld⟩ := hcpu.step hw hmem hfirst
        rw [← hheld] at h
        obtain ⟨s', hsteps, hregs⟩ := ih hws hmem.2.2 h
        refine ⟨s', ?_, hregs⟩
        rw [List.length_cons, Processor.steps, hstep, Option.bind_some]
        simp only [Bool.false_eq_true, if_false]
        rw [hsteps]
        congr 2
        omega
      · cases h
      · simp

end Execution

/-! ## What conditions mean -/

/-- What a comparison says of two unsigned bytes. -/
def Comparison.holds : Comparison → UInt8 → UInt8 → Bool
  | .eq, a, b => a == b
  | .ne, a, b => a != b
  | .lt, a, b => decide (a < b)
  | .gt, a, b => decide (b < a)
  | .le, a, b => decide (a ≤ b)
  | .ge, a, b => decide (b ≤ a)

/-- The byte on the right-hand side of a comparison; a negative number means its two's complement. -/
def CondRhs.byte (eval : Imm → Except EmitCause Int) (v : Registers) : CondRhs → Except EmitCause UInt8
  | .reg r => .ok (v r)
  | .imm value => (eval value).map UInt8.ofInt

/-- The truth of a condition, given the values of immediates, the registers and the keys. -/
def Cond.truth (eval : Imm → Except EmitCause Int) (v : Registers) (held : UInt8 → Bool) :
    Cond → Except EmitCause Bool
  | .key reg pressed => .ok (held (v reg) == pressed)
  | .compare reg op rhs _ => (rhs.byte eval v).map (op.holds (v reg))

/-- The registers that testing a condition may change. -/
def Cond.scratch : Cond → List (Fin 16)
  | .key _ _ => []
  | .compare _ op _ temp => if op.isRelational then [temp, flagReg] else []

/-- A relational condition compares no scratch register. -/
def Cond.Separate : Cond → Prop
  | .key _ _ => True
  | .compare reg op rhs temp => op.isRelational = true → reg ≠ temp ∧ rhs.isReg temp = false

theorem Env.condition_separate {env : Env} {condition : Condition} {cond : Cond}
    (h : env.condition condition = .ok cond) : cond.Separate := by
  cases condition with
  | key reg pressed =>
    obtain ⟨r, -, h⟩ := bind_eq_ok.mp h
    obtain rfl := pure_eq_ok.mp h
    trivial
  | compare reg op rhs =>
    obtain ⟨x, right, temp, rfl, -, hapart⟩ := Env.condition_eq_ok h
    exact hapart

/-! ## What code of conditions does -/

section Code

variable {run : Run} {d : Draft} (v : Registers) (held : UInt8 → Bool) {reg temp : Fin 16}
  {rhs : CondRhs} {op : Comparison} {w : Bool} {code : List (Mnemonic × List Word)}

/-- The low eight bits of a value are its byte. -/
theorem toUInt8_lowBits (value : Int) :
    (UInt16.ofNat (Run.lowBits value 8)).toUInt8 = UInt8.ofInt value := by
  apply UInt8.toNat_inj.mp
  have hnonneg := Int.emod_nonneg value (by decide : (256 : Int) ≠ 0)
  have hlt := Int.emod_lt_of_pos value (by decide : (0 : Int) < 256)
  simp only [UInt16.toNat_toUInt8, UInt16.toNat_ofNat', UInt8.ofInt, UInt8.toNat_ofNat', Run.lowBits]
  show (value % 256).toNat % 65536 % 256 = (value % 256).toNat % 256
  omega

/-- An immediate is emitted as its byte. -/
theorem Run.byte_of_imm {value : Imm} {n : Word} (h : run.imm d value 8 = .ok n) :
    (CondRhs.imm value).byte (run.eval d) v = .ok n.toUInt8 := by
  obtain ⟨value', heval, h⟩ := bind_eq_ok.mp h
  have hn : n = UInt16.ofNat (Run.lowBits value' 8) := by
    unfold Run.field at h
    split at h
    · cases h
    · exact (Except.ok.inj h).symm
  rw [CondRhs.byte, heval, hn, toUInt8_lowBits]
  rfl

/-- The test of a key. -/
theorem keyCode_effect (pressed : Bool) :
    effectOf held v (Run.keyCode reg (pressed == w)) =
      some (v, (held (v reg) == pressed) == w) := by
  cases hheld : held (v reg) <;> cases pressed <;> cases w <;>
    simp [Run.keyCode, effectOf, effect, hheld]

/-- The test for equality. -/
theorem equalCode_effect (h : run.equalCode d reg rhs w = .ok code) :
    ∃ y, rhs.byte (run.eval d) v = .ok y ∧
      effectOf held v code = some (v, (v reg == y) == w) := by
  cases rhs with
  | reg r =>
    obtain rfl := Except.ok.inj h
    refine ⟨v r, rfl, ?_⟩
    cases w <;> simp [effectOf, effect, bne]
  | imm value =>
    obtain ⟨n, hn, h⟩ := bind_eq_ok.mp h
    obtain rfl := pure_eq_ok.mp h
    refine ⟨n.toUInt8, Run.byte_of_imm v hn, ?_⟩
    cases w <;> simp [effectOf, effect, bne]

/-- The first two instructions of an order comparison put the difference of the two sides into the
    scratch register, the left side minus the right one for `<` and `>=`, else the right side minus
    the left one; the third tests the flag. -/
theorem orderCode_eq_ok (hreg : reg ≠ temp) (hrhs : rhs.isReg temp = false)
    (h : run.orderCode d reg op rhs temp w = .ok code) :
    ∃ y difference, rhs.byte (run.eval d) v = .ok y ∧
      code = difference ++ [(if w then Mnemonic.seqi else .snei,
        [0xF, if op == .ge || op == .le then 1 else 0])] ∧
      ∀ last, effectOf held v (difference ++ [last]) =
        effectOf held (if op == .lt || op == .ge then v.subtract temp (v reg) y
          else v.subtract temp y (v reg)) [last] := by
  unfold Run.orderCode at h
  cases rhs with
  | reg r =>
    have hr : r ≠ temp := by simpa [CondRhs.isReg] using hrhs
    cases hop : (op == .lt || op == .ge) <;> simp only [hop] at h
    · obtain ⟨difference, hd, h⟩ := bind_eq_ok.mp h
      obtain rfl := pure_eq_ok.mp hd
      obtain rfl := pure_eq_ok.mp h
      refine ⟨v r, _, rfl, rfl, fun last => ?_⟩
      simp [effectOf, effect, Registers.subtract, Function.update_of_ne hreg]
    · obtain ⟨difference, hd, h⟩ := bind_eq_ok.mp h
      obtain rfl := pure_eq_ok.mp hd
      obtain rfl := pure_eq_ok.mp h
      refine ⟨v r, _, rfl, rfl, fun last => ?_⟩
      simp [effectOf, effect, Registers.subtract, Function.update_of_ne hr]
  | imm value =>
    obtain ⟨n, hn, h⟩ := bind_eq_ok.mp h
    obtain ⟨difference, hd, h⟩ := bind_eq_ok.mp h
    obtain rfl := pure_eq_ok.mp hd
    obtain rfl := pure_eq_ok.mp h
    refine ⟨n.toUInt8, _, Run.byte_of_imm v hn, rfl, fun last => ?_⟩
    cases hop : (op == .lt || op == .ge) <;>
      simp [effectOf, effect, Registers.subtract, Function.update_of_ne hreg]

/-- The order comparisons. -/
theorem orderCode_effect (hop : op.isRelational = true) (hreg : reg ≠ temp)
    (hrhs : rhs.isReg temp = false) (h : run.orderCode d reg op rhs temp w = .ok code) :
    ∃ y v', rhs.byte (run.eval d) v = .ok y ∧
      effectOf held v code = some (v', op.holds (v reg) y == w) ∧
      ∀ r, r ≠ temp → r ≠ flagReg → v' r = v r := by
  obtain ⟨y, difference, hy, rfl, heff⟩ := orderCode_eq_ok v held hreg hrhs h
  refine ⟨y, if op == .lt || op == .ge then v.subtract temp (v reg) y else v.subtract temp y (v reg),
    hy, (heff _).trans ?_, ?_⟩
  · -- what is left is the test of the flag
    have hflag : operandReg 0xF = flagReg := rfl
    have hsub : ∀ a b : UInt8, v.subtract temp a b flagReg = if b ≤ a then 1 else 0 :=
      fun a b => Function.update_self _ _ _
    have hlt : ∀ a b : UInt8, a < b ↔ ¬ b ≤ a := fun a b => UInt8.not_le.symm
    cases op with
    | eq => cases hop
    | ne => cases hop
    | lt => by_cases hle : y ≤ v reg <;> cases w <;>
        simp [effectOf, effect, hflag, hsub, Comparison.holds, hle, hlt]
    | gt => by_cases hle : v reg ≤ y <;> cases w <;>
        simp [effectOf, effect, hflag, hsub, Comparison.holds, hle, hlt]
    | le => by_cases hle : v reg ≤ y <;> cases w <;>
        simp [effectOf, effect, hflag, hsub, Comparison.holds, hle]
    | ge => by_cases hle : y ≤ v reg <;> cases w <;>
        simp [effectOf, effect, hflag, hsub, Comparison.holds, hle]
  · intro r hr hr'
    have hsub : ∀ a b, v.subtract temp a b r = v r := fun a b => by
      rw [Registers.subtract, Function.update_of_ne hr', Function.update_of_ne hr]
    split <;> exact hsub _ _

/-- **The code of a condition decides it**: its last instruction skips exactly when the condition
    has the expected truth, and only scratch registers change. -/
theorem skipCode_effect {cond : Cond} (hcond : cond.Separate)
    (h : run.skipCode d cond w = .ok code) :
    ∃ truth v', cond.truth (run.eval d) v held = .ok truth ∧
      effectOf held v code = some (v', truth == w) ∧ ∀ r ∉ cond.scratch, v' r = v r := by
  cases cond with
  | key reg pressed =>
    obtain rfl := Except.ok.inj h
    exact ⟨_, v, rfl, keyCode_effect v held pressed, fun _ _ => rfl⟩
  | compare reg op rhs temp =>
    cases hop : op.isRelational with
    | false =>
      have hequal : run.equalCode d reg rhs (if op = .eq then w else !w) = .ok code := by
        cases op <;> first | exact h | cases hop
      obtain ⟨y, hy, heff⟩ := equalCode_effect v held hequal
      refine ⟨op.holds (v reg) y, v, by rw [Cond.truth, hy]; rfl, ?_, fun _ _ => rfl⟩
      rw [heff]
      cases op <;> first | rfl | cases hop
      cases w <;> simp [Comparison.holds, bne]
    | true =>
      have horder : run.orderCode d reg op rhs temp w = .ok code := by
        cases op <;> first | exact h | cases hop
      obtain ⟨hreg, hrhs⟩ := hcond hop
      obtain ⟨y, v', hy, heff, hkept⟩ := orderCode_effect v held hop hreg hrhs horder
      refine ⟨op.holds (v reg) y, v', by rw [Cond.truth, hy]; rfl, heff, fun r hr => ?_⟩
      simp only [Cond.scratch, hop, if_true, List.mem_cons, List.not_mem_nil, or_false, not_or] at hr
      exact hkept r hr.1 hr.2

end Code

/-! ## Programs -/

/-- **Conditions are lowered rightly.**  A machine that executes the code of a program's condition
    passes over the next instruction exactly when the truth of the condition on unsigned bytes is the
    expected one, and changes only the scratch registers of the condition. -/
theorem skip_decides {options : Options} {program : List Statement} {items : List Item}
    (hresolved : resolve options program = .ok items) {cond : Cond} (hcond : cond ∈ condsOf items)
    {run : Run} {d d' : Draft} {skipWhen : Bool} (hskip : run.skip d cond skipWhen = .ok d')
    {σ : Type} {cpu : Processor σ} {regs : σ → Registers} {held : σ → UInt8 → Bool}
    (hcpu : Conforms cpu regs held) {mem : CodeMemory}
    (hmem : HoldsOn mem run d' d.bytes.size d'.bytes.size) (s : σ) :
    ∃ truth s', cond.truth (run.eval d) (regs s) (held s) = .ok truth ∧
      cpu.steps mem cond.words (run.pc d, s) =
        some (run.pc d' + (if truth = skipWhen then 2 else 0), s') ∧
      ∀ r ∉ cond.scratch, regs s' r = regs s r := by
  obtain ⟨env, condition, -, hsource⟩ := (resolve_sourced hresolved).conds cond hcond
  obtain ⟨code, ws, hcode, hws, happ⟩ := Run.skip_eq_ok hskip
  obtain ⟨truth, v', htruth, heff, hkept⟩ :=
    skipCode_effect (regs s) (held s) (Env.condition_separate hsource) hcode
  obtain ⟨s', hsteps, hregs⟩ := hcpu.steps hws (stored_of_appends happ hmem) heff
  refine ⟨truth, s', htruth, ?_, fun r hr => by rw [hregs, hkept r hr]⟩
  have hlen : code.length = cond.words := Run.length_skipCode hcode
  rw [← hlen, hsteps, (Run.skip_grown hskip).pc, ← hlen]
  simp only [beq_iff_eq]

/-- A machine that has nothing but registers and keys, and knows nothing but the instructions of
    conditions. -/
def testingMachine : Processor (Registers × (UInt8 → Bool)) where
  exec w a s :=
    match decode w with
    | .ok i =>
      match effect s.2 s.1 i.mnemonic i.operands with
      | some (v, skips) => (a + (if skips then 4 else 2), v, s.2)
      | none => (a, s)
    | .error _ => (a, s)

theorem testingMachine_conforms : Conforms testingMachine Prod.fst Prod.snd := by
  intro w i hi a s v skips heff
  simp [testingMachine, hi, heff]

/-- `: main if v1 < -56 then return`, where the flag register is the scratch register. -/
def testingProgram : List Statement :=
  [.label ⟨1, .name, "main"⟩,
    .ifThen ⟨2, .name, "if"⟩ (.compare (.literal ⟨2, .register (.v (vReg 1)), "v1"⟩ (vReg 1)) .lt
      (.number ⟨2, .number (-56), "-56"⟩ (-56))) (.simple (.ret ⟨2, .name, "return"⟩))]

/-- The condition of `testingProgram`. -/
def testingCond : Cond := .compare (vReg 1) .lt (.imm (.number (-56))) (vReg 15)

/-- The items of `testingProgram`. -/
def testingItems : List Item :=
  [.leaf ⟨1, "main"⟩ (.label "main"),
    .ifThen ⟨2, "if"⟩ testingCond [.leaf ⟨2, "return"⟩ (.instr (.bare .ret))]]

/-- The code that skips when the condition does not hold. -/
def testingCode : Draft := ⟨#[0x6F, 0xC8, 0x8F, 0x17, 0x4F, 0x00], [], [], []⟩

/-- The memory that holds the code. -/
def testingMemory : CodeMemory := fun a => if 0x200 ≤ a then testingCode.bytes[a - 0x200]? else none

theorem skip_decides_testing : resolve {} testingProgram = .ok testingItems ∧
    Run.skip ⟨{}, .emit⟩ Draft.empty testingCond false = .ok testingCode ∧
    ∀ s : Registers × (UInt8 → Bool), ∃ s',
      testingMachine.steps testingMemory 3 (0x200, s) =
        some (0x206 + (if decide (s.1 (vReg 1) < 200) = false then 2 else 0), s') ∧
      ∀ r, r ≠ flagReg → s'.1 r = s.1 r := by
  have hresolved : resolve {} testingProgram = .ok testingItems := rfl
  have hcond : testingCond ∈ condsOf testingItems := by simp [testingItems, Item.conds]
  have hskip : Run.skip ⟨{}, .emit⟩ Draft.empty testingCond false = .ok testingCode := by
    decide +kernel
  have hmem : HoldsOn testingMemory ⟨{}, .emit⟩ testingCode 0 6 := by
    intro k _ _
    simp [testingMemory]
  refine ⟨hresolved, hskip, fun s => ?_⟩
  obtain ⟨truth, s', htruth, hsteps, hkept⟩ :=
    skip_decides hresolved hcond hskip testingMachine_conforms hmem s
  obtain rfl : decide (s.1 (vReg 1) < 200) = truth := Except.ok.inj htruth
  refine ⟨s', hsteps, fun r hr => hkept r ?_⟩
  simpa [Cond.scratch, testingCond, Comparison.isRelational, flagReg] using hr

end OctoAsm
