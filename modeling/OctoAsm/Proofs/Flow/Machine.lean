/-
  Machines that run code from memory, and what it takes for code to implement structured programs.

  `Lowered` says what the machine does at each address of a block's code: instructions and tests do
  what they mean, and jumps lead where the block needs them.  From that alone follows that the code
  does what the block does.  If the block ends, so does the code (`Exec.reaches`): one induction over
  the execution.  If the code comes to a stop, it passed the end of the block, after no more steps
  (`stops_block`): an induction over the block, and for its loops one over the number of steps.
-/
import OctoAsm.Proofs.Flow.Structured

namespace OctoAsm

open Machine (Word)

/-! ## Running code -/

/-- A machine with states `σ`: what a word does at an address.  It never changes its code. -/
structure Processor (σ : Type) where
  exec : Word → Nat → σ → Nat × σ

/-- The memory that holds code; `none` where there is none. -/
abbrev CodeMemory := Nat → Option UInt8

/-- The word of two bytes, high byte first. -/
def joined (high low : UInt8) : Word := UInt16.ofNat (high.toNat * 256 + low.toNat)

/-- An instruction is fetched from its two bytes. -/
theorem joined_bytes (w : Word) : joined (Run.highByte w) (Run.lowByte w) = w := by
  apply UInt16.toNat_inj.mp
  have hlt := w.toNat_lt
  simp only [joined, Run.highByte, Run.lowByte, UInt16.toNat_ofNat', UInt8.toNat_ofNat']
  omega

namespace Processor

variable {σ : Type} (cpu : Processor σ) (mem : CodeMemory)

/-- Executes the word at an address; without a word there the machine has stopped. -/
def step (c : Nat × σ) : Option (Nat × σ) :=
  match mem c.1, mem (c.1 + 1) with
  | some high, some low => some (cpu.exec (joined high low) c.1 c.2)
  | _, _ => none

/-- Makes `n` steps. -/
def steps : Nat → Nat × σ → Option (Nat × σ)
  | 0, c => some c
  | n + 1, c => (cpu.step mem c).bind (steps n)

/-- The machine gets from the first address and state to the second. -/
def Reaches (c c' : Nat × σ) : Prop := ∃ n, cpu.steps mem n c = some c'

/-- The machine stops after `n` steps. -/
structure Stops (n : Nat) (c c' : Nat × σ) : Prop where
  run : cpu.steps mem n c = some c'
  stopped : cpu.step mem c' = none

variable {cpu mem} {c c₁ c' : Nat × σ} {k n : Nat}

/-- One step of a run is a step of the processor. -/
@[simp] theorem steps_one : cpu.steps mem 1 c = cpu.step mem c := by simp [steps]

/-- A run may be cut at any number of steps. -/
theorem steps_add (m n : Nat) (c : Nat × σ) :
    cpu.steps mem (m + n) c = (cpu.steps mem m c).bind (cpu.steps mem n) := by
  induction m generalizing c with
  | zero => simp [steps]
  | succ m ih =>
    rw [Nat.succ_add, steps, steps]
    cases cpu.step mem c with
    | none => rfl
    | some c₁ => exact ih c₁

/-- A state reaches itself. -/
theorem Reaches.refl : cpu.Reaches mem c c := ⟨0, rfl⟩

/-- What a run comes to is reached. -/
theorem Reaches.of_steps (h : cpu.steps mem k c = some c') : cpu.Reaches mem c c' := ⟨k, h⟩

/-- The next state is reached. -/
theorem Reaches.of_step (h : cpu.step mem c = some c') : cpu.Reaches mem c c' :=
  ⟨1, by rw [steps_one, h]⟩

/-- States are reached one after the other. -/
theorem Reaches.trans (h : cpu.Reaches mem c c₁) (h' : cpu.Reaches mem c₁ c') :
    cpu.Reaches mem c c' := by
  obtain ⟨m, hm⟩ := h
  obtain ⟨n, hn⟩ := h'
  exact ⟨m + n, by rw [steps_add, hm, Option.bind_some, hn]⟩

/-- A machine that stops does so after the steps that it is known to make first. -/
theorem Stops.after (h : cpu.Stops mem n c c') (hk : cpu.steps mem k c = some c₁) :
    ∃ m, n = k + m ∧ cpu.Stops mem m c₁ c' := by
  by_cases hle : k ≤ n
  · obtain ⟨m, rfl⟩ := Nat.exists_eq_add_of_le hle
    refine ⟨m, rfl, ?_, h.stopped⟩
    have hrun := h.run
    rw [steps_add, hk, Option.bind_some] at hrun
    exact hrun
  · -- otherwise it would have made a step after it stopped
    obtain ⟨m, rfl⟩ := Nat.exists_eq_add_of_lt (Nat.lt_of_not_le hle)
    rw [Nat.add_assoc, steps_add, h.run, Option.bind_some, Nat.add_comm m 1, steps_add, steps_one,
      h.stopped] at hk
    cases hk

variable (cpu mem) (sem : Meaning σ)

/-- The instruction at an address does what it means. -/
def Performs (a : Nat) (i : Instr) : Prop :=
  ∀ s, cpu.step mem (a, s) = some (a + 2, sem.instr a i s)

/-- The code at an address tests a condition, and skips the next instruction if it is `w`. -/
def Tests (a : Nat) (cond : Cond) (w : Bool) : Prop :=
  ∀ s, cpu.steps mem cond.words (a, s) =
    some (a + 2 * cond.words + (if sem.holds a cond s = w then 2 else 0), sem.tested a cond s)

/-- The instruction at an address is a jump. -/
def Jumps (a target : Nat) : Prop := ∀ s, cpu.step mem (a, s) = some (target, s)

end Processor

/-! ## Code of structured programs -/

mutual

/-- The jumps in the code of an item that stands at an address: their places and targets. -/
def Item.jumps (a : Nat) : Item → List (Nat × Nat)
  | .leaf _ _ => []
  | .ifThen _ cond body => jumpsOf (a + 2 * cond.words) body
  | .ifBegin _ cond body =>
    let start := a + 2 * cond.words + 2
    (a + 2 * cond.words, start + totalSize body) :: jumpsOf start body
  | .ifElse _ cond body otherwise =>
    let start := a + 2 * cond.words + 2
    let middle := start + totalSize body + 2
    (a + 2 * cond.words, middle) :: (start + totalSize body, middle + totalSize otherwise) ::
      (jumpsOf start body ++ jumpsOf middle otherwise)
  | .loop _ body => (a + totalSize body, a) :: jumpsOf a body
  | .loopUntil _ body cond =>
    let test := a + totalSize body
    (test + 2 * cond.words, test + 2 * cond.words + 4) :: (test + 2 * cond.words + 2, a) ::
      jumpsOf a body
  | .whileDo _ cond body =>
    let start := a + 2 * cond.words + 2
    (a + 2 * cond.words, start + totalSize body + 2) :: (start + totalSize body, a) ::
      jumpsOf start body

/-- The jumps in the code of items in a row. -/
def jumpsOf (a : Nat) : List Item → List (Nat × Nat)
  | [] => []
  | i :: rest => i.jumps a ++ jumpsOf (a + i.size) rest

end

section Code

variable {σ : Type} (cpu : Processor σ) (mem : CodeMemory) (sem : Meaning σ)

mutual

/-- The instructions and the tests of an item stand where they belong. -/
def Item.Placed (a : Nat) : Item → Prop
  | .leaf _ (.instr i) => cpu.Performs mem sem a i
  | .leaf _ _ => False
  | .ifThen _ cond body =>
    cpu.Tests mem sem a cond false ∧ totalSize body = 2 ∧ PlacedAt (a + 2 * cond.words) body
  | .ifBegin _ cond body =>
    cpu.Tests mem sem a cond true ∧ PlacedAt (a + 2 * cond.words + 2) body
  | .ifElse _ cond body otherwise =>
    cpu.Tests mem sem a cond true ∧ PlacedAt (a + 2 * cond.words + 2) body ∧
      PlacedAt (a + 2 * cond.words + 2 + totalSize body + 2) otherwise
  | .loop _ body => PlacedAt a body
  | .loopUntil _ body cond =>
    PlacedAt a body ∧ cpu.Tests mem sem (a + totalSize body) cond false
  | .whileDo _ cond body =>
    cpu.Tests mem sem a cond true ∧ PlacedAt (a + 2 * cond.words + 2) body

/-- The instructions and the tests of items in a row stand where they belong. -/
def PlacedAt (a : Nat) : List Item → Prop
  | [] => True
  | i :: rest => i.Placed a ∧ PlacedAt (a + i.size) rest

end

/-- The code at an address is that of some items, but a jump to `t` leads to `link t`. -/
structure Lowered (link : Nat → Nat) (a : Nat) (items : List Item) : Prop where
  placed : PlacedAt cpu mem sem a items
  jumps : ∀ j ∈ jumpsOf a items, cpu.Jumps mem j.1 (link j.2)

variable {cpu mem sem} {link : Nat → Nat} {a : Nat} {site : Site} {cond : Cond}
  {i : Item} {rest body otherwise : List Item}

-- Every lemma of this section reads the list of a block's jumps by its equations.
attribute [local simp] Item.jumps jumpsOf

/-- There is no code to an empty block. -/
theorem lowered_nil : Lowered cpu mem sem link a [] := ⟨trivial, by simp⟩

/-- The code of a block is that of its first item, followed by that of the rest at the address
    behind it. -/
theorem lowered_cons : Lowered cpu mem sem link a (i :: rest) ↔
    Lowered cpu mem sem link a [i] ∧ Lowered cpu mem sem link (a + i.size) rest := by
  constructor
  · rintro ⟨⟨hi, hrest⟩, hjumps⟩
    simp only [jumpsOf, List.mem_append] at hjumps
    exact ⟨⟨⟨hi, trivial⟩, fun j hj => hjumps j (.inl (by simpa using hj))⟩,
      ⟨hrest, fun j hj => hjumps j (.inr hj)⟩⟩
  · rintro ⟨⟨⟨hi, -⟩, hjumps⟩, ⟨hrest, hjumps'⟩⟩
    simp only [jumpsOf, List.append_nil] at hjumps
    refine ⟨⟨hi, hrest⟩, ?_⟩
    intro j hj
    rcases List.mem_append.mp hj with hj | hj
    · exact hjumps j hj
    · exact hjumps' j hj

/-- The code of an instruction performs it. -/
theorem lowered_instr {i : Instr} :
    Lowered cpu mem sem link a [.leaf site (.instr i)] ↔ cpu.Performs mem sem a i := by
  constructor
  · rintro ⟨⟨h, -⟩, -⟩
    exact h
  · intro h
    exact ⟨⟨h, trivial⟩, by simp⟩

/-- `if then`: a test that skips its body when the condition does not hold, and the body of one
    instruction. -/
theorem lowered_ifThen : Lowered cpu mem sem link a [.ifThen site cond body] ↔
    cpu.Tests mem sem a cond false ∧ totalSize body = 2 ∧
      Lowered cpu mem sem link (a + 2 * cond.words) body := by
  constructor
  · rintro ⟨⟨⟨htest, hsize, hbody⟩, -⟩, hjumps⟩
    simp only [jumpsOf, Item.jumps, List.append_nil] at hjumps
    exact ⟨htest, hsize, hbody, hjumps⟩
  · rintro ⟨htest, hsize, hbody, hjumps⟩
    exact ⟨⟨⟨htest, hsize, hbody⟩, trivial⟩, by simpa using hjumps⟩

/-- `if begin`: a test in the opposite sense, a jump behind the body that the test skips, and the
    body. -/
theorem lowered_ifBegin : Lowered cpu mem sem link a [.ifBegin site cond body] ↔
    cpu.Tests mem sem a cond true ∧
      cpu.Jumps mem (a + 2 * cond.words) (link (a + 2 * cond.words + 2 + totalSize body)) ∧
      Lowered cpu mem sem link (a + 2 * cond.words + 2) body := by
  constructor
  · rintro ⟨⟨⟨htest, hbody⟩, -⟩, hjumps⟩
    simp only [jumpsOf, Item.jumps, List.append_nil, List.forall_mem_cons] at hjumps
    exact ⟨htest, hjumps.1, hbody, hjumps.2⟩
  · rintro ⟨htest, hjump, hbody, hjumps⟩
    refine ⟨⟨⟨htest, hbody⟩, trivial⟩, ?_⟩
    simp only [jumpsOf, Item.jumps, List.append_nil, List.forall_mem_cons]
    exact ⟨hjump, hjumps⟩

/-- `if begin else`: the body is followed by a jump over the other body. -/
theorem lowered_ifElse : Lowered cpu mem sem link a [.ifElse site cond body otherwise] ↔
    cpu.Tests mem sem a cond true ∧
      cpu.Jumps mem (a + 2 * cond.words) (link (a + 2 * cond.words + 2 + totalSize body + 2)) ∧
      Lowered cpu mem sem link (a + 2 * cond.words + 2) body ∧
      cpu.Jumps mem (a + 2 * cond.words + 2 + totalSize body)
        (link (a + 2 * cond.words + 2 + totalSize body + 2 + totalSize otherwise)) ∧
      Lowered cpu mem sem link (a + 2 * cond.words + 2 + totalSize body + 2) otherwise := by
  constructor
  · rintro ⟨⟨⟨htest, hbody, hother⟩, -⟩, hjumps⟩
    simp only [jumpsOf, Item.jumps, List.append_nil, List.forall_mem_cons,
      List.forall_mem_append] at hjumps
    obtain ⟨htoElse, htoEnd, hinBody, hinOther⟩ := hjumps
    exact ⟨htest, htoElse, ⟨hbody, hinBody⟩, htoEnd, hother, hinOther⟩
  · rintro ⟨htest, htoElse, ⟨hbody, hinBody⟩, htoEnd, hother, hinOther⟩
    refine ⟨⟨⟨htest, hbody, hother⟩, trivial⟩, ?_⟩
    simp only [jumpsOf, Item.jumps, List.append_nil, List.forall_mem_cons, List.forall_mem_append]
    exact ⟨htoElse, htoEnd, hinBody, hinOther⟩

/-- A loop: the body, and a jump back to its start. -/
theorem lowered_loop : Lowered cpu mem sem link a [.loop site body] ↔
    Lowered cpu mem sem link a body ∧ cpu.Jumps mem (a + totalSize body) (link a) := by
  constructor
  · rintro ⟨⟨hbody, -⟩, hjumps⟩
    simp only [jumpsOf, Item.jumps, List.append_nil, List.forall_mem_cons] at hjumps
    exact ⟨⟨hbody, hjumps.2⟩, hjumps.1⟩
  · rintro ⟨⟨hbody, hinBody⟩, hback⟩
    refine ⟨⟨hbody, trivial⟩, ?_⟩
    simp only [jumpsOf, Item.jumps, List.append_nil, List.forall_mem_cons]
    exact ⟨hback, hinBody⟩

/-- `until`: the test skips the jump out of the loop, behind which the jump back stands. -/
theorem lowered_loopUntil : Lowered cpu mem sem link a [.loopUntil site body cond] ↔
    Lowered cpu mem sem link a body ∧ cpu.Tests mem sem (a + totalSize body) cond false ∧
      cpu.Jumps mem (a + totalSize body + 2 * cond.words)
        (link (a + totalSize body + 2 * cond.words + 4)) ∧
      cpu.Jumps mem (a + totalSize body + 2 * cond.words + 2) (link a) := by
  constructor
  · rintro ⟨⟨⟨hbody, htest⟩, -⟩, hjumps⟩
    simp only [jumpsOf, Item.jumps, List.append_nil, List.forall_mem_cons] at hjumps
    exact ⟨⟨hbody, hjumps.2.2⟩, htest, hjumps.1, hjumps.2.1⟩
  · rintro ⟨⟨hbody, hinBody⟩, htest, htoEnd, hback⟩
    refine ⟨⟨⟨hbody, htest⟩, trivial⟩, ?_⟩
    simp only [jumpsOf, Item.jumps, List.append_nil, List.forall_mem_cons]
    exact ⟨htoEnd, hback, hinBody⟩

/-- `while`: the test skips the jump out of the loop, whose end lies behind the jump back. -/
theorem lowered_whileDo : Lowered cpu mem sem link a [.whileDo site cond body] ↔
    cpu.Tests mem sem a cond true ∧
      cpu.Jumps mem (a + 2 * cond.words) (link (a + 2 * cond.words + 2 + totalSize body + 2)) ∧
      Lowered cpu mem sem link (a + 2 * cond.words + 2) body ∧
      cpu.Jumps mem (a + 2 * cond.words + 2 + totalSize body) (link a) := by
  constructor
  · rintro ⟨⟨⟨htest, hbody⟩, -⟩, hjumps⟩
    simp only [jumpsOf, Item.jumps, List.append_nil, List.forall_mem_cons] at hjumps
    exact ⟨htest, hjumps.1, ⟨hbody, hjumps.2.2⟩, hjumps.2.1⟩
  · rintro ⟨htest, htoEnd, ⟨hbody, hinBody⟩, hback⟩
    refine ⟨⟨⟨htest, hbody⟩, trivial⟩, ?_⟩
    simp only [jumpsOf, Item.jumps, List.append_nil, List.forall_mem_cons]
    exact ⟨htoEnd, hback, hinBody⟩

/-- Where all targets are within reach, jumps lead to their targets. -/
theorem Lowered.relink {items : List Item} (h : Lowered cpu mem sem link a items)
    (hlink : ∀ j ∈ jumpsOf a items, link j.2 = j.2) : Lowered cpu mem sem id a items := by
  refine ⟨h.placed, fun j hj => ?_⟩
  have hjump := h.jumps j hj
  rw [hlink j hj] at hjump
  exact hjump

end Code

end OctoAsm
