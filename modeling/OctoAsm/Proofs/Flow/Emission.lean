/-
  The emission of structured programs.

  What is left to show is that the bytes of an emission are code in the sense of `Lowered`.  Every
  piece of code can be read off the draft in which it was appended, because nothing that comes later
  changes it but the patch of its own holes.  What it needs to know about the final bytes comes down
  to ranges of offsets (`HoldsOn`).

  Targets are cut to sixteen bits on their way into a jump.  A target that is cut below `0x1000` is
  encoded like any other, so code beyond `0xFFFF` may jump to the wrong place: the jump to `t` leads
  to `t % 0x10000`.
-/
import OctoAsm.Proofs.Flow.Kept
import OctoAsm.Proofs.Flow.Simulation
import OctoAsm.Proofs.Image.Labels
import OctoAsm.Proofs.Machine.Encode

namespace OctoAsm

open Machine (Mnemonic Word encode)

/-! ## Code in memory -/

/-- Words stand in memory from an address on. -/
def Stored (mem : CodeMemory) : Nat → List Word → Prop
  | _, [] => True
  | a, w :: ws =>
    mem a = some (Run.highByte w) ∧ mem (a + 1) = some (Run.lowByte w) ∧ Stored mem (a + 2) ws

/-- A machine runs the instructions and tests of a block as they are meant, wherever they are
    emitted under given labels, and a jump sets the address to its operand. -/
structure Obeys {σ : Type} (cpu : Processor σ) (sem : Meaning σ) (run : Run) (labels : LabelTable)
    (items : List Item) : Prop where
  /-- a jump changes nothing but the address -/
  jump : ∀ n w, encode .jmpi [n] = .ok w → ∀ a s, cpu.exec w a s = (n.toNat, s)
  /-- an instruction of the block transforms the state and goes on with the next one: calls, returns
      and jumps have no place in it -/
  instr : ∀ i, .instr i ∈ leavesOf items → ∀ d m operands w, d.labels = labels →
    run.instrCode d i = .ok (m, operands) → encode m operands = .ok w →
    ∀ s, cpu.exec w (run.pc d) s = (run.pc d + 2, sem.instr (run.pc d) i s)
  /-- the code of a test changes the state in a way that depends on the condition only, and skips
      the next instruction exactly when the condition evaluates to `w` -/
  test : ∀ cond ∈ condsOf items, ∀ w d code ws, d.labels = labels →
    run.skipCode d cond w = .ok code → code.map (fun c => encode c.1 c.2) = ws.map .ok →
    ∀ mem, Stored mem (run.pc d) ws → cpu.Tests mem sem (run.pc d) cond w

/-- The bytes of a draft in a range of offsets are in memory. -/
def HoldsOn (mem : CodeMemory) (run : Run) (d : Draft) (lo hi : Nat) : Prop :=
  ∀ k, lo ≤ k → k < hi → mem (run.options.origin + k) = d.bytes[k]?

section Memory

variable {σ : Type} {cpu : Processor σ} {sem : Meaning σ} {mem : CodeMemory} {run : Run}
  {labels : LabelTable} {items body : List Item} {d d₁ d' : Draft} {lo hi lo' hi' n : Nat}

/-- A machine that obeys a block obeys what it contains. -/
theorem Obeys.sub (h : Obeys cpu sem run labels items)
    (hleaves : ∀ l ∈ leavesOf body, l ∈ leavesOf items)
    (hconds : ∀ c ∈ condsOf body, c ∈ condsOf items) : Obeys cpu sem run labels body where
  jump := h.jump
  instr i hi := h.instr i (hleaves _ hi)
  test cond hc := h.test cond (hconds cond hc)

/-- What holds on a range holds on a smaller one. -/
theorem HoldsOn.mono (h : HoldsOn mem run d lo hi) (hlo : lo ≤ lo') (hhi : hi' ≤ hi) :
    HoldsOn mem run d lo' hi' :=
  fun k hk hk' => h k (Nat.le_trans hlo hk) (Nat.lt_of_lt_of_le hk' hhi)

/-- Bytes in memory that were there in an earlier draft. -/
theorem HoldsOn.of_kept (h : HoldsOn mem run d' lo hi) (hkept : KeptTo n d d') (hle : hi ≤ n) :
    HoldsOn mem run d lo hi := by
  intro k hk hk'
  rw [h k hk hk', hkept k (Nat.lt_of_lt_of_le hk' hle)]

/-- A patch outside a range leaves the range as it was before. -/
theorem HoldsOn.unpatch {start : Nat} (h : HoldsOn mem run d' lo hi)
    (hpatch : run.patch d start = .ok d') (hout : hi ≤ start ∨ start + 2 ≤ lo) :
    HoldsOn mem run d lo hi := by
  intro k hk hk'
  rw [h k hk hk', Run.patch_elsewhere hpatch (by omega) (by omega)]

/-- The machine executes the word that it finds. -/
theorem step_of_word {a : Nat} {w : Word} (hhigh : mem a = some (Run.highByte w))
    (hlow : mem (a + 1) = some (Run.lowByte w)) (s : σ) :
    cpu.step mem (a, s) = some (cpu.exec w a s) := by
  simp only [Processor.step, hhigh, hlow, joined_bytes]

/-- Words are stored where their bytes are. -/
theorem stored_of_bytes {ws : List Word} {a : Nat}
    (h : ∀ k < 2 * ws.length, mem (a + k) = (ws.flatMap wordBytes)[k]?) : Stored mem a ws := by
  induction ws generalizing a with
  | nil => trivial
  | cons w ws ih =>
    simp only [List.length_cons] at h
    refine ⟨h 0 (by omega), h 1 (by omega), ih fun k hk => ?_⟩
    have hk' := h (k + 2) (by omega)
    rw [show a + 2 + k = a + (k + 2) by omega, hk']
    simp [wordBytes]

/-- Words that were appended are in memory. -/
theorem stored_of_appends {ws : List Word} (h : run.Appends d (ws.flatMap wordBytes) d')
    (hmem : HoldsOn mem run d' d.bytes.size d'.bytes.size) : Stored mem (run.pc d) ws := by
  refine stored_of_bytes fun k hk => ?_
  have hsize := h.size
  rw [length_flatMap_wordBytes] at hsize
  have hbyte := hmem (d.bytes.size + k) (by omega) (by omega)
  rw [h.getElem?] at hbyte
  rw [← hbyte, Run.pc, Nat.add_assoc]

/-- The two bytes of a word that was appended stand in memory. -/
theorem word_of_appends {w : Word} (h : run.Appends d (wordBytes w) d')
    (hmem : HoldsOn mem run d' d.bytes.size d'.bytes.size) :
    mem (run.pc d) = some (Run.highByte w) ∧ mem (run.pc d + 1) = some (Run.lowByte w) := by
  have hsingle : run.Appends d ([w].flatMap wordBytes) d' := by simpa using h
  obtain ⟨hhigh, hlow, -⟩ := stored_of_appends hsingle hmem
  exact ⟨hhigh, hlow⟩

/-! ## Instructions, tests and jumps -/

/-- The code of an instruction performs it: its word is in memory, and the machine obeys the
    instruction. -/
theorem performs_of_leaf (hobeys : Obeys cpu sem run labels items) {i : Instr}
    (hi : .instr i ∈ leavesOf items) (hlabels : d.labels = labels)
    (h : run.leaf d (.instr i) = .ok d')
    (hmem : HoldsOn mem run d' d.bytes.size d'.bytes.size) :
    cpu.Performs mem sem (run.pc d) i := by
  intro s
  obtain ⟨⟨m, operands⟩, hcode, h⟩ := bind_eq_ok.mp h
  obtain ⟨w, hw, happ⟩ := Run.op_eq_ok h
  obtain ⟨hhigh, hlow⟩ := word_of_appends happ hmem
  rw [step_of_word hhigh hlow, hobeys.instr i hi d m operands w hlabels hcode hw]

/-- The code of a condition tests it: its words are in memory, in a row. -/
theorem tests_of_skip (hobeys : Obeys cpu sem run labels items) {cond : Cond}
    (hcond : cond ∈ condsOf items) (hlabels : d.labels = labels) {w : Bool}
    (h : run.skip d cond w = .ok d') (hmem : HoldsOn mem run d' d.bytes.size d'.bytes.size) :
    cpu.Tests mem sem (run.pc d) cond w := by
  obtain ⟨code, ws, hcode, hws, happ⟩ := Run.skip_eq_ok h
  exact hobeys.test cond hcond w d code ws hlabels hcode hws mem (stored_of_appends happ hmem)

/-- An encoded jump leads to its target, cut to sixteen bits. -/
theorem jumps_of_word (hobeys : Obeys cpu sem run labels items) {a target : Nat} {w : Word}
    (hw : encode .jmpi [UInt16.ofNat target] = .ok w) (hhigh : mem a = some (Run.highByte w))
    (hlow : mem (a + 1) = some (Run.lowByte w)) : cpu.Jumps mem a (target % 0x10000) := by
  intro s
  rw [step_of_word hhigh hlow, hobeys.jump _ w hw, UInt16.toNat_ofNat']

/-- A jump leads to the low sixteen bits of its target. -/
theorem jumps_of_jump (hobeys : Obeys cpu sem run labels items) {target : Nat}
    (h : run.jump d target = .ok d') (hmem : HoldsOn mem run d' d.bytes.size d'.bytes.size) :
    cpu.Jumps mem (run.pc d) (target % 0x10000) := by
  obtain ⟨w, hw, happ⟩ := Run.op_eq_ok h
  obtain ⟨hhigh, hlow⟩ := word_of_appends happ hmem
  exact jumps_of_word hobeys hw hhigh hlow

/-- A hole, once it is patched, jumps to the low sixteen bits of the place it was patched for. -/
theorem jumps_of_patch (hobeys : Obeys cpu sem run labels items)
    (h : run.patch d d₁.bytes.size = .ok d') (hroom : d₁.bytes.size + 1 < d.bytes.size)
    (hmem : HoldsOn mem run d' d₁.bytes.size (d₁.bytes.size + 2)) :
    cpu.Jumps mem (run.pc d₁) (run.pc d % 0x10000) := by
  obtain ⟨w, hw, hhigh, hlow⟩ := Run.patch_hole h hroom
  refine jumps_of_word hobeys hw ?_ ?_
  · rw [Run.pc, hmem _ (by omega) (by omega), hhigh]
  · rw [Run.pc, Nat.add_assoc, hmem _ (by omega) (by omega), hlow]

end Memory

/-! ## Blocks -/

/-- The place of emission moves by what was appended. -/
theorem Grown.pc {run : Run} {d d' : Draft} {n : Nat} (h : Grown n d d') :
    run.pc d' = run.pc d + n := by
  rw [Run.pc, Run.pc, h.size, Nat.add_assoc]

/-- The second pass leaves the labels alone. -/
theorem Run.labels_of_block {run : Run} {d d' : Draft} {items : List Item}
    (hpass : run.pass = .emit) (h : run.block d items = .ok d') : d'.labels = d.labels :=
  (labels_follow_emit hpass).2 _ (run.block_eq_ok.mp h)

section Blocks

variable {σ : Type} {cpu : Processor σ} {sem : Meaning σ} {mem : CodeMemory} {run : Run}

/-- Targets are kept in sixteen bits. -/
def cut (target : Nat) : Nat := target % 0x10000

theorem Run.labels_of_skip {d d' : Draft} {cond : Cond} {w : Bool}
    (h : run.skip d cond w = .ok d') : d'.labels = d.labels := by
  obtain ⟨bs, happ, -⟩ := skip_appends h
  exact happ.labels

theorem Run.labels_of_hole {d d' : Draft} (h : run.hole d = .ok d') : d'.labels = d.labels :=
  (word_eq_ok h).labels

/-- A block of instructions and control flow that a machine runs as it is meant. -/
structure Runnable (cpu : Processor σ) (sem : Meaning σ) (run : Run) (labels : LabelTable)
    (items : List Item) : Prop where
  instrs : InstrsOnly items
  obeys : Obeys cpu sem run labels items

/-- What a block contains can be run as well. -/
theorem Runnable.sub {labels : LabelTable} {items body : List Item}
    (h : Runnable cpu sem run labels items) (hleaves : ∀ l ∈ leavesOf body, l ∈ leavesOf items)
    (hconds : ∀ c ∈ condsOf body, c ∈ condsOf items) : Runnable cpu sem run labels body :=
  ⟨h.instrs.sub hleaves, h.obeys.sub hleaves hconds⟩

-- In every case the ranges of offsets that hold code are cut out of the final bytes, from the back:
-- first what a patch changed, then what stood before the last piece was appended.
mutual

/-- By recursion on the item, with the walk over blocks: each piece of code is read off the draft in
    which it was appended, and later patches are outside of it. -/
theorem item_lowered (hpass : run.pass = .emit) {labels : LabelTable} :
    ∀ (i : Item) {d d' : Draft}, Runnable cpu sem run labels [i] → d.labels = labels →
      run.item d i = .ok d' → HoldsOn mem run d' d.bytes.size d'.bytes.size →
      Lowered cpu mem sem cut (run.pc d) [i]
  | .leaf site l, d, d', hrun, hlabels, h, hmem => by
    obtain ⟨i, rfl⟩ := hrun.instrs l (by simp [Item.leaves])
    have hleaf := Site.blame_eq_ok.mp h
    exact lowered_instr.mpr
      (performs_of_leaf hrun.obeys (by simp [Item.leaves]) hlabels hleaf hmem)
  | .ifThen site cond body, d, d', hrun, hlabels, h, hmem => by
    obtain ⟨d₁, h₁, h₂, hsize⟩ := Run.item_ifThen h
    have hinner : Runnable cpu sem run labels body :=
      hrun.sub (by simp [Item.leaves]) (by simp +contextual [Item.conds])
    have hskip := Run.skip_grown h₁
    have hbody := Run.block_grown hinner.instrs h₂
    have hs₁ := hskip.size
    have hs₂ := hbody.size
    have htest := tests_of_skip hrun.obeys (by simp [Item.conds]) hlabels h₁
      ((hmem.mono (by omega) (by omega)).of_kept hbody.kept (by omega))
    have hlow := block_lowered hpass body hinner ((Run.labels_of_skip h₁).trans hlabels) h₂
      (hmem.mono (by omega) (by omega))
    rw [hskip.pc] at hlow
    exact lowered_ifThen.mpr ⟨htest, by omega, hlow⟩
  | .ifBegin site cond body, d, d', hrun, hlabels, h, hmem => by
    obtain ⟨d₁, d₂, d₃, h₁, h₂, h₃, h₄⟩ := Run.item_ifBegin h
    have hinner : Runnable cpu sem run labels body :=
      hrun.sub (by simp [Item.leaves]) (by simp +contextual [Item.conds])
    have hskip := Run.skip_grown h₁
    have hhole := Run.hole_grown h₂
    have hbody := Run.block_grown hinner.instrs h₃
    have hs₁ := hskip.size
    have hs₂ := hhole.size
    have hs₃ := hbody.size
    have hs₄ := Run.size_of_patch h₄
    have hlabels₂ : d₂.labels = labels :=
      ((Run.labels_of_hole h₂).trans (Run.labels_of_skip h₁)).trans hlabels
    have hfront : HoldsOn mem run d₂ d.bytes.size d₁.bytes.size :=
      ((hmem.mono (Nat.le_refl _) (by omega)).unpatch h₄ (by omega)).of_kept hbody.kept (by omega)
    have htest := tests_of_skip hrun.obeys (by simp [Item.conds]) hlabels h₁
      (hfront.of_kept hhole.kept (by omega))
    have hjump := jumps_of_patch hrun.obeys h₄ (by omega) (hmem.mono (by omega) (by omega))
    have hlow := block_lowered hpass body hinner hlabels₂ h₃
      ((hmem.mono (by omega) (by omega)).unpatch h₄ (by omega))
    rw [hbody.pc, hhole.pc, hskip.pc] at hjump
    rw [hhole.pc, hskip.pc] at hlow
    exact lowered_ifBegin.mpr ⟨htest, hjump, hlow⟩
  | .ifElse site cond body otherwise, d, d', hrun, hlabels, h, hmem => by
    obtain ⟨d₁, d₂, d₃, d₄, d₅, d₆, h₁, h₂, h₃, h₄, h₅, h₆, h₇⟩ := Run.item_ifElse h
    have hinner : Runnable cpu sem run labels body :=
      hrun.sub (by simp +contextual [Item.leaves]) (by simp +contextual [Item.conds])
    have hinner' : Runnable cpu sem run labels otherwise :=
      hrun.sub (by simp +contextual [Item.leaves]) (by simp +contextual [Item.conds])
    have hskip := Run.skip_grown h₁
    have hhole := Run.hole_grown h₂
    have hbody := Run.block_grown hinner.instrs h₃
    have hhole' := Run.hole_grown h₄
    have hother := Run.block_grown hinner'.instrs h₆
    have hs₁ := hskip.size
    have hs₂ := hhole.size
    have hs₃ := hbody.size
    have hs₄ := hhole'.size
    have hs₅ := Run.size_of_patch h₅
    have hs₆ := hother.size
    have hs₇ := Run.size_of_patch h₇
    have hlabels₂ : d₂.labels = labels :=
      ((Run.labels_of_hole h₂).trans (Run.labels_of_skip h₁)).trans hlabels
    have hlabels₅ : d₅.labels = labels :=
      (((Run.labels_of_patch h₅).trans (Run.labels_of_hole h₄)).trans
        (Run.labels_of_block hpass h₃)).trans hlabels₂
    -- before the second part, only the first hole has been patched
    have hfront : HoldsOn mem run d₅ d.bytes.size d₃.bytes.size :=
      ((hmem.mono (Nat.le_refl _) (by omega)).unpatch h₇ (by omega)).of_kept hother.kept (by omega)
    have htests : HoldsOn mem run d₃ d.bytes.size d₁.bytes.size :=
      ((hfront.mono (Nat.le_refl _) (by omega)).unpatch h₅ (by omega)).of_kept hhole'.kept
        (by omega)
    have htest := tests_of_skip hrun.obeys (by simp [Item.conds]) hlabels h₁
      ((htests.of_kept hbody.kept (by omega)).of_kept hhole.kept (by omega))
    have htoElse := jumps_of_patch hrun.obeys h₅ (by omega) (hfront.mono (by omega) (by omega))
    have hlow := block_lowered hpass body hinner hlabels₂ h₃
      (((hfront.mono (by omega) (Nat.le_refl _)).unpatch h₅ (by omega)).of_kept hhole'.kept
        (by omega))
    have htoEnd := jumps_of_patch hrun.obeys h₇ (by omega) (hmem.mono (by omega) (by omega))
    have hlow' := block_lowered hpass otherwise hinner' hlabels₅ h₆
      ((hmem.mono (by omega) (by omega)).unpatch h₇ (by omega))
    have hpc₅ : run.pc d₅ = run.pc d₄ := by rw [Run.pc, Run.pc, hs₅]
    rw [hhole'.pc, hbody.pc, hhole.pc, hskip.pc] at htoElse
    rw [hhole.pc, hskip.pc] at hlow
    rw [hother.pc, hpc₅, hhole'.pc, hbody.pc, hhole.pc, hskip.pc] at htoEnd
    rw [hpc₅, hhole'.pc, hbody.pc, hhole.pc, hskip.pc] at hlow'
    exact lowered_ifElse.mpr ⟨htest, htoElse, hlow, htoEnd, hlow'⟩
  | .loop site body, d, d', hrun, hlabels, h, hmem => by
    obtain ⟨d₁, h₁, h₂⟩ := Run.item_loop h
    have hinner : Runnable cpu sem run labels body :=
      hrun.sub (by simp [Item.leaves]) (by simp +contextual [Item.conds])
    have hbody := Run.block_grown hinner.instrs h₁
    have hback := Run.jump_grown h₂
    have hs₁ := hbody.size
    have hs₂ := hback.size
    have hlow := block_lowered hpass body hinner hlabels h₁
      ((hmem.mono (Nat.le_refl _) (by omega)).of_kept hback.kept (Nat.le_refl _))
    have hjump := jumps_of_jump hrun.obeys h₂ (hmem.mono (by omega) (Nat.le_refl _))
    rw [hbody.pc] at hjump
    exact lowered_loop.mpr ⟨hlow, hjump⟩
  | .loopUntil site body cond, d, d', hrun, hlabels, h, hmem => by
    obtain ⟨d₁, d₂, d₃, d₄, h₁, h₂, h₃, h₄, h₅⟩ := Run.item_loopUntil h
    have hinner : Runnable cpu sem run labels body :=
      hrun.sub (by simp [Item.leaves]) (by simp +contextual [Item.conds])
    have hbody := Run.block_grown hinner.instrs h₁
    have hskip := Run.skip_grown h₂
    have hhole := Run.hole_grown h₃
    have hback := Run.jump_grown h₄
    have hs₁ := hbody.size
    have hs₂ := hskip.size
    have hs₃ := hhole.size
    have hs₄ := hback.size
    have hs₅ := Run.size_of_patch h₅
    have hlabels₁ : d₁.labels = labels := (Run.labels_of_block hpass h₁).trans hlabels
    have hfront : HoldsOn mem run d₂ d.bytes.size d₂.bytes.size :=
      (((hmem.mono (Nat.le_refl _) (by omega)).unpatch h₅ (by omega)).of_kept hback.kept
        (by omega)).of_kept hhole.kept (by omega)
    have hlow := block_lowered hpass body hinner hlabels h₁
      ((hfront.mono (Nat.le_refl _) (by omega)).of_kept hskip.kept (Nat.le_refl _))
    have htest := tests_of_skip hrun.obeys (by simp [Item.conds]) hlabels₁ h₂
      (hfront.mono (by omega) (Nat.le_refl _))
    have htoEnd := jumps_of_patch hrun.obeys h₅ (by omega) (hmem.mono (by omega) (by omega))
    have hjump := jumps_of_jump hrun.obeys h₄
      ((hmem.mono (by omega) (by omega)).unpatch h₅ (by omega))
    rw [hbody.pc] at htest
    rw [hback.pc, hhole.pc, hskip.pc, hbody.pc] at htoEnd
    rw [hhole.pc, hskip.pc, hbody.pc] at hjump
    exact lowered_loopUntil.mpr ⟨hlow, htest, htoEnd, hjump⟩
  | .whileDo site cond body, d, d', hrun, hlabels, h, hmem => by
    obtain ⟨d₁, d₂, d₃, d₄, h₁, h₂, h₃, h₄, h₅⟩ := Run.item_whileDo h
    have hinner : Runnable cpu sem run labels body :=
      hrun.sub (by simp [Item.leaves]) (by simp +contextual [Item.conds])
    have hskip := Run.skip_grown h₁
    have hhole := Run.hole_grown h₂
    have hbody := Run.block_grown hinner.instrs h₃
    have hback := Run.jump_grown h₄
    have hs₁ := hskip.size
    have hs₂ := hhole.size
    have hs₃ := hbody.size
    have hs₄ := hback.size
    have hs₅ := Run.size_of_patch h₅
    have hlabels₂ : d₂.labels = labels :=
      ((Run.labels_of_hole h₂).trans (Run.labels_of_skip h₁)).trans hlabels
    have hfront : HoldsOn mem run d₃ d.bytes.size d₁.bytes.size :=
      ((hmem.mono (Nat.le_refl _) (by omega)).unpatch h₅ (by omega)).of_kept hback.kept (by omega)
    have hrest : HoldsOn mem run d₄ d₂.bytes.size d₄.bytes.size :=
      (hmem.mono (by omega) (by omega)).unpatch h₅ (by omega)
    have htest := tests_of_skip hrun.obeys (by simp [Item.conds]) hlabels h₁
      ((hfront.of_kept hbody.kept (by omega)).of_kept hhole.kept (by omega))
    have htoEnd := jumps_of_patch hrun.obeys h₅ (by omega) (hmem.mono (by omega) (by omega))
    have hlow := block_lowered hpass body hinner hlabels₂ h₃
      ((hrest.mono (Nat.le_refl _) (by omega)).of_kept hback.kept (Nat.le_refl _))
    have hjump := jumps_of_jump hrun.obeys h₄ (hrest.mono (by omega) (Nat.le_refl _))
    rw [hback.pc, hbody.pc, hhole.pc, hskip.pc] at htoEnd
    rw [hhole.pc, hskip.pc] at hlow
    rw [hbody.pc, hhole.pc, hskip.pc] at hjump
    exact lowered_whileDo.mpr ⟨htest, htoEnd, hlow, hjump⟩

/-- **The bytes of a block are its code**, but for targets of more than sixteen bits. -/
theorem block_lowered (hpass : run.pass = .emit) {labels : LabelTable} :
    ∀ (items : List Item) {d d' : Draft}, Runnable cpu sem run labels items →
      d.labels = labels → run.block d items = .ok d' →
      HoldsOn mem run d' d.bytes.size d'.bytes.size → Lowered cpu mem sem cut (run.pc d) items
  | [], d, d', _, _, _, _ => lowered_nil
  | i :: rest, d, d', hrun, hlabels, h, hmem => by
    obtain ⟨d₁, h₁, h₂⟩ := bind_eq_ok.mp h
    have hone : Runnable cpu sem run labels [i] :=
      hrun.sub (by simp +contextual) (by simp +contextual)
    have hmore : Runnable cpu sem run labels rest :=
      hrun.sub (by simp +contextual) (by simp +contextual)
    have hfirst := Run.item_grown hone.instrs h₁
    have hrest := Run.block_grown hmore.instrs h₂
    have hs₁ := hfirst.size
    have hs₂ := hrest.size
    have hlow := item_lowered hpass i hone hlabels h₁
      ((hmem.mono (Nat.le_refl _) (by omega)).of_kept hrest.kept (Nat.le_refl _))
    have hsingle : run.block d [i] = .ok d₁ := bind_eq_ok.mpr ⟨d₁, h₁, rfl⟩
    have hlows := block_lowered hpass rest hmore
      ((Run.labels_of_block hpass hsingle).trans hlabels) h₂ (hmem.mono (by omega) (Nat.le_refl _))
    rw [hfirst.pc] at hlows
    exact lowered_cons.mpr ⟨hlow, hlows⟩

end

/-- **The emission of a block implements it.**  The block ends right behind its last byte; its jumps
    lead to their targets cut to sixteen bits, so to their targets exactly when these are below
    `0x10000`; and when all are, the code gets to the end of the block in a state exactly when the
    block, executed as it is structured, ends in that state. -/
theorem emission_implements {items : List Item} {d d' : Draft} (hpass : run.pass = .emit)
    (hinstrs : InstrsOnly items) (hobeys : Obeys cpu sem run d.labels items)
    (h : run.block d items = .ok d') (hmem : HoldsOn mem run d' d.bytes.size d'.bytes.size)
    (hend : mem (run.pc d') = none) :
    run.pc d' = run.pc d + totalSize items ∧
      (∀ j ∈ jumpsOf (run.pc d) items, ∀ s, cpu.step mem (j.1, s) = some (j.2 % 0x10000, s) ∧
        (cpu.step mem (j.1, s) = some (j.2, s) ↔ j.2 < 0x10000)) ∧
      ((∀ j ∈ jumpsOf (run.pc d) items, j.2 < 0x10000) →
        ∀ s t, cpu.Reaches mem (run.pc d, s) (run.pc d', t) ↔ Exec sem (run.pc d) items s t) := by
  have hpc : run.pc d' = run.pc d + totalSize items := (Run.block_grown hinstrs h).pc
  have hlow : Lowered cpu mem sem cut (run.pc d) items :=
    block_lowered hpass items ⟨hinstrs, hobeys⟩ rfl h hmem
  refine ⟨hpc, fun j hj s => ?_, fun htargets s t => ?_⟩
  · have hjump : cpu.step mem (j.1, s) = some (j.2 % 0x10000, s) := hlow.jumps j hj s
    refine ⟨hjump, ?_⟩
    rw [hjump]
    simp only [Option.some.injEq, Prod.mk.injEq, and_true]
    omega
  · have hexact : Lowered cpu mem sem id (run.pc d) items :=
      hlow.relink fun j hj => Nat.mod_eq_of_lt (htargets j hj)
    rw [hpc] at hend ⊢
    exact reaches_end_iff hexact hend

-- The `if` ends at `0x10006`, and the jump to its end leads to `0x0006`.
example : (Run.block ⟨{ origin := 0xFFFE, memoryEnd := 0x11000 }, .emit⟩ ⟨#[0x60, 1], [], [], []⟩
    [.ifBegin ⟨2, "if"⟩ (.compare 0 .eq (.imm (.number 1)) 15)
      [.leaf ⟨3, "v1"⟩ (.instr (.regImm .seti 1 (.number 2)))]]).map Draft.bytes =
    .ok #[0x60, 1, 0x30, 1, 0x10, 0x06, 0x61, 2] := by decide +kernel

end Blocks

/-! ## A counting loop -/

/-- `v0 != 3` -/
def countingCond : Cond := .compare (vReg 0) .ne (.imm (.number 3)) (vReg 15)

/-- `while v0 != 3 v0 += 1 again` -/
def countingItems : List Item :=
  [.whileDo ⟨1, "while"⟩ countingCond
    [.leaf ⟨2, "v0"⟩ (.instr (.regImm .addi (vReg 0) (.number 1)))]]

/-- The register counts up to three. -/
def countingMeaning : Meaning Nat where
  instr _ _ v := v + 1
  holds _ _ v := v != 3
  tested _ _ v := v

/-- A machine with one register and the instructions of the loop. -/
def countingMachine : Processor Nat where
  exec w a v :=
    if w = 0x7001 then (a + 2, v + 1)
    else if w = 0x4003 then (if v ≠ 3 then a + 4 else a + 2, v)
    else if w = 0x3003 then (if v = 3 then a + 4 else a + 2, v)
    else (w.toNat - 0x1000, v)

/-- The code of the loop. -/
def countingCode : Draft := ⟨#[0x40, 0x03, 0x12, 0x08, 0x70, 0x01, 0x12, 0x00], [], [], []⟩

/-- The memory that holds the code of the loop. -/
def countingMemory : CodeMemory := fun a =>
  if 0x200 ≤ a then countingCode.bytes[a - 0x200]? else none

/-- The counting machine obeys the two instructions of the example. -/
theorem counting_obeys : Obeys countingMachine countingMeaning ⟨{}, .emit⟩ [] countingItems where
  jump n w hw a v := by
    obtain ⟨hword, hn⟩ := Machine.encode_jmpi_eq_ok hw
    have h₁ : w ≠ 0x7001 := by rintro rfl; simp at hword; omega
    have h₂ : w ≠ 0x4003 := by rintro rfl; simp at hword; omega
    have h₃ : w ≠ 0x3003 := by rintro rfl; simp at hword; omega
    simp only [countingMachine, h₁, h₂, h₃, if_false, hword, Nat.add_sub_cancel_left]
  instr i hi d m operands w _ hcode hw v := by
    obtain rfl : i = .regImm .addi (vReg 0) (.number 1) := by
      simpa [countingItems, Item.leaves] using hi
    obtain ⟨rfl, rfl⟩ := Prod.mk.inj (Except.ok.inj hcode)
    obtain rfl : 0x7001 = w := Except.ok.inj hw
    rfl
  test cond hc w d code ws _ hcode hws mem hmem := by
    obtain rfl : cond = countingCond := by simpa [countingItems, Item.conds] using hc
    have hwords : countingCond.words = 1 := rfl
    obtain rfl := Except.ok.inj hcode
    obtain ⟨word, rfl⟩ := List.length_eq_one_iff.mp (by simpa using (congrArg List.length hws).symm)
    obtain ⟨hhigh, hlow, -⟩ := hmem
    intro v
    rw [hwords, Processor.steps_one, step_of_word hhigh hlow]
    cases w
    · obtain rfl : 0x3003 = word := Except.ok.inj (List.cons.inj hws).1
      by_cases hv : v = 3 <;> simp [countingMachine, countingMeaning, hv]
    · obtain rfl : 0x4003 = word := Except.ok.inj (List.cons.inj hws).1
      by_cases hv : v = 3 <;> simp [countingMachine, countingMeaning, hv]

/-- A loop that counts to three ends for the machine where it ends for the block. -/
theorem emission_implements_counting :
    Run.block ⟨{}, .emit⟩ Draft.empty countingItems = .ok countingCode ∧
      ∀ v v', countingMachine.Reaches countingMemory (0x200, v) (0x208, v') ↔
        Exec countingMeaning 0x200 countingItems v v' := by
  have hblock : Run.block ⟨{}, .emit⟩ Draft.empty countingItems = .ok countingCode := by
    decide +kernel
  have hinstrs : InstrsOnly countingItems := by
    intro l hl
    exact ⟨.regImm .addi (vReg 0) (.number 1), by simpa [countingItems, Item.leaves] using hl⟩
  refine ⟨hblock, (emission_implements rfl hinstrs counting_obeys hblock ?_ ?_).2.2 ?_⟩
  · intro k _ _
    simp [countingMemory]
  · decide
  · decide

end OctoAsm
