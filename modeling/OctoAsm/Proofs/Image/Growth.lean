/-
  How a draft grows: what each operation of an emission appends, and what it leaves alone.

  Everything that appends goes through `Run.byte`, so one notion covers it all: `Appends run d bs d'`
  says that `d'` is `d` with the bytes `bs` behind it, all of them below the end of memory.  The size
  of what an item appends is fixed by the item, with the one exception of `org`.
-/
import OctoAsm.Proofs.Image.Plan
import OctoAsm.Proofs.Program
import OctoAsm.Resolve.Statements

namespace OctoAsm

open Machine (Mnemonic Word encode)

/-- The bytes of a word in the image. -/
def wordBytes (w : Word) : List UInt8 := [Run.highByte w, Run.lowByte w]

/-- A word is two bytes. -/
@[simp] theorem length_wordBytes (w : Word) : (wordBytes w).length = 2 := rfl

/-- Words in a row take two bytes each. -/
theorem length_flatMap_wordBytes (ws : List Word) :
    (ws.flatMap wordBytes).length = 2 * ws.length := by
  induction ws with
  | nil => rfl
  | cons w ws ih => simp only [List.flatMap_cons, List.length_append, length_wordBytes, ih,
      List.length_cons]; omega

namespace Run

variable {run : Run} {d d₁ d' : Draft}

/-! ## Appending bytes -/

/-- `d'` is `d` with some bytes behind it, and there was room for them. -/
structure Appends (run : Run) (d : Draft) (bs : List UInt8) (d' : Draft) : Prop where
  eq : d' = { d with bytes := d.bytes ++ bs.toArray }
  room : bs ≠ [] → run.pc d' ≤ run.options.memoryEnd

namespace Appends

variable {as bs : List UInt8}

/-- Nothing was appended to the draft itself. -/
theorem nil : run.Appends d [] d := ⟨by simp, by simp⟩

/-- The draft is longer by what was appended. -/
theorem size (h : run.Appends d bs d') : d'.bytes.size = d.bytes.size + bs.length := by
  rw [h.eq]; simp

/-- The place of emission has moved by what was appended. -/
theorem pc (h : run.Appends d bs d') : run.pc d' = run.pc d + bs.length := by
  have hsize := h.size
  unfold Run.pc
  omega

/-- Appending leaves the labels alone. -/
theorem labels (h : run.Appends d bs d') : d'.labels = d.labels := by rw [h.eq]

/-- Appending twice is appending both, one behind the other. -/
theorem append (h₁ : run.Appends d as d₁) (h₂ : run.Appends d₁ bs d') :
    run.Appends d (as ++ bs) d' := by
  refine ⟨?_, fun hne => ?_⟩
  · rw [h₂.eq, h₁.eq]; simp
  · cases bs with
    | nil =>
      have hd : d' = d₁ := by rw [h₂.eq]; simp
      rw [hd]
      exact h₁.room (by simpa using hne)
    | cons b rest => exact h₂.room (by simp)

end Appends

/-- The one place where bytes are appended: a byte goes behind the others, below the end
    of memory. -/
theorem byte_eq_ok {b : UInt8} (h : run.byte d b = .ok d') : run.Appends d [b] d' := by
  unfold byte at h
  split at h
  · rename_i hroom
    obtain rfl := Except.ok.inj h
    exact ⟨by simp, fun _ => by simp only [pc, Array.size_push] at hroom ⊢; omega⟩
  · cases h

/-- A word is appended high byte first. -/
theorem word_eq_ok {w : Word} (h : run.word d w = .ok d') : run.Appends d (wordBytes w) d' := by
  obtain ⟨d₁, h₁, h₂⟩ := bind_eq_ok.mp h
  exact (byte_eq_ok h₁).append (byte_eq_ok h₂)

/-- An instruction has the word that the encoder gives it. -/
theorem encoded_eq_ok {m : Mnemonic} {operands : List Word} {w : Word} :
    encoded m operands = .ok w ↔ encode m operands = .ok w :=
  mapError_eq_ok

/-- An instruction that is emitted has a word, which is appended. -/
theorem op_eq_ok {m : Mnemonic} {operands : List Word} (h : run.op d m operands = .ok d') :
    ∃ w, encode m operands = .ok w ∧ run.Appends d (wordBytes w) d' := by
  obtain ⟨w, hw, h⟩ := bind_eq_ok.mp h
  exact ⟨w, encoded_eq_ok.mp hw, word_eq_ok h⟩

/-- Instructions in a row become their words in a row. -/
theorem ops_eq_ok {code : List (Mnemonic × List Word)} (h : run.ops d code = .ok d') :
    ∃ ws : List Word, code.map (fun c => encode c.1 c.2) = ws.map .ok ∧
      run.Appends d (ws.flatMap wordBytes) d' := by
  induction code generalizing d with
  | nil =>
    obtain rfl := Except.ok.inj h
    exact ⟨[], rfl, .nil⟩
  | cons c rest ih =>
    obtain ⟨d₁, h₁, h₂⟩ := bind_eq_ok.mp h
    obtain ⟨w, hw, hd₁⟩ := op_eq_ok h₁
    obtain ⟨ws, hws, hd'⟩ := ih h₂
    exact ⟨w :: ws, by simp [hw, hws], hd₁.append hd'⟩

/-- By induction on the number of zeros. -/
theorem zeros_eq_ok {n : Nat} (h : run.zeros d n = .ok d') :
    run.Appends d (List.replicate n 0) d' := by
  induction n generalizing d with
  | zero =>
    obtain rfl := Except.ok.inj h
    exact .nil
  | succ n ih =>
    obtain ⟨d₁, h₁, h₂⟩ := bind_eq_ok.mp h
    exact (byte_eq_ok h₁).append (ih h₂)

/-- A patch overwrites two bytes and keeps the size. -/
theorem patch_eq_ok {start : Nat} (h : run.patch d start = .ok d') :
    ∃ w, encode .jmpi [UInt16.ofNat (run.pc d)] = .ok w ∧ d' = { d with
      bytes := (d.bytes.setIfInBounds start (highByte w)).setIfInBounds (start + 1) (lowByte w) } := by
  obtain ⟨w, hw, h⟩ := bind_eq_ok.mp h
  exact ⟨w, encoded_eq_ok.mp hw, (pure_eq_ok.mp h).symm⟩

/-- A patch leaves the size alone, as it replaces bytes. -/
theorem size_of_patch {start : Nat} (h : run.patch d start = .ok d') :
    d'.bytes.size = d.bytes.size := by
  obtain ⟨w, -, rfl⟩ := patch_eq_ok h
  simp

/-- A patch leaves the labels alone. -/
theorem labels_of_patch {start : Nat} (h : run.patch d start = .ok d') : d'.labels = d.labels := by
  obtain ⟨w, -, rfl⟩ := patch_eq_ok h
  rfl

end Run

/-! ## Sizes -/

/-- The number of instructions that test a condition. -/
def Cond.words : Cond → Nat
  | .key _ _ => 1
  | .compare _ op _ _ => if op.isRelational then 3 else 1

/-- The number of bytes of an item that holds no items; `org` fills up to an address. -/
def Leaf.size? : Leaf → Option Nat
  | .instr _ | .pointer _ => some 2
  | .unpack .. => some 4
  | .byte _ => some 1
  | .org _ => none
  | .label _ | .nextLabel _ | .assertion .. | .breakpoint _ | .monitor .. => some 0

namespace Run

variable {run : Run} {d d' : Draft}

/-- A test for equality is one instruction. -/
theorem length_equalCode {reg : Fin 16} {rhs : CondRhs} {w : Bool}
    {code : List (Mnemonic × List Word)} (h : run.equalCode d reg rhs w = .ok code) :
    code.length = 1 := by
  cases rhs with
  | reg r => obtain rfl := Except.ok.inj h; rfl
  | imm value =>
    obtain ⟨v, -, h⟩ := bind_eq_ok.mp h
    obtain rfl := pure_eq_ok.mp h
    rfl

/-- A comparison by order is three instructions, whatever its operands. -/
theorem length_orderCode {reg temp : Fin 16} {op : Comparison} {rhs : CondRhs} {w : Bool}
    {code : List (Mnemonic × List Word)} (h : run.orderCode d reg op rhs temp w = .ok code) :
    code.length = 3 := by
  unfold orderCode at h
  cases rhs with
  | reg r =>
    simp only at h
    split at h <;>
    · obtain ⟨difference, hd, h⟩ := bind_eq_ok.mp h
      obtain rfl := pure_eq_ok.mp hd
      obtain rfl := pure_eq_ok.mp h
      rfl
  | imm value =>
    obtain ⟨v, -, h⟩ := bind_eq_ok.mp h
    obtain ⟨difference, hd, h⟩ := bind_eq_ok.mp h
    obtain rfl := pure_eq_ok.mp hd
    obtain rfl := pure_eq_ok.mp h
    rfl

/-- The number of instructions of a condition is fixed by the condition. -/
theorem length_skipCode {cond : Cond} {w : Bool} {code : List (Mnemonic × List Word)}
    (h : run.skipCode d cond w = .ok code) : code.length = cond.words := by
  cases cond with
  | key reg pressed => obtain rfl := Except.ok.inj h; rfl
  | compare reg op rhs temp =>
    cases op with
    | eq => exact length_equalCode h
    | ne => exact length_equalCode h
    | lt => exact length_orderCode h
    | gt => exact length_orderCode h
    | le => exact length_orderCode h
    | ge => exact length_orderCode h

/-- The test of a condition is the words of its code. -/
theorem skip_eq_ok {cond : Cond} {w : Bool} (h : run.skip d cond w = .ok d') :
    ∃ code, ∃ ws : List Word, run.skipCode d cond w = .ok code ∧
      code.map (fun c => encode c.1 c.2) = ws.map .ok ∧ run.Appends d (ws.flatMap wordBytes) d' := by
  obtain ⟨code, hcode, h⟩ := bind_eq_ok.mp h
  obtain ⟨ws, hws, hd'⟩ := ops_eq_ok h
  exact ⟨code, ws, hcode, hws, hd'⟩

/-- As many words as instructions. -/
theorem length_words {code : List (Mnemonic × List Word)} {ws : List Word}
    (h : code.map (fun c => encode c.1 c.2) = ws.map .ok) : ws.length = code.length := by
  simpa using (congrArg List.length h).symm

/-- A condition appends two bytes for each of its instructions. -/
theorem skip_appends {cond : Cond} {w : Bool} (h : run.skip d cond w = .ok d') :
    ∃ bs, run.Appends d bs d' ∧ bs.length = 2 * cond.words := by
  obtain ⟨code, ws, hcode, hws, hd'⟩ := skip_eq_ok h
  refine ⟨_, hd', ?_⟩
  rw [length_flatMap_wordBytes, length_words hws, length_skipCode hcode]

/-! ## Items that hold no items -/

/-- The labels once an item has been appended: the first pass records the one it declares. -/
def labelsAfter (run : Run) (d : Draft) (declared : Option (String × Bool)) : LabelTable :=
  match run.pass, declared with
  | .layout, some (name, next) => d.labels.add name ((run.pc d + next.toNat) % 0x10000)
  | _, _ => d.labels

/-- A leaf without a label leaves the labels alone. -/
theorem labelsAfter_none : run.labelsAfter d none = d.labels := by
  unfold labelsAfter
  split <;> simp_all

/-- A label takes no room. -/
theorem bytes_mark {name : String} {address : Nat} : (run.mark d name address).bytes = d.bytes := by
  unfold mark
  split <;> rfl

/-- A mark at the next byte, or at the one after it, is what the declaration of a label leaves. -/
theorem labels_mark (name : String) (next : Bool) :
    (run.mark d name (run.pc d + next.toNat)).labels = run.labelsAfter d (some (name, next)) := by
  cases hpass : run.pass <;> simp [mark, labelsAfter, hpass]

/-- Moving the place of emission goes forward only, and fills up with zeros. -/
theorem org_eq_ok {target : Imm} (h : run.org d target = .ok d') :
    laidOut d target = true ∧ ∃ goal, run.eval d target = .ok goal ∧ run.pc d ≤ goal ∧
      run.Appends d (List.replicate (goal - run.pc d).toNat 0) d' := by
  unfold org at h
  split at h
  · rename_i hlaid
    obtain ⟨goal, hgoal, h⟩ := bind_eq_ok.mp h
    split at h
    · cases h
    · split at h
      · cases h
      · rename_i hback
        exact ⟨hlaid, goal, hgoal, by omega, zeros_eq_ok h⟩
  · cases h

/-- What a leaf does to a draft: it appends bytes, as many as its kind says, and records the label
    it declares. -/
structure LeafEffect (run : Run) (l : Leaf) (d d' : Draft) : Prop where
  appends : ∃ bs : List UInt8, d'.bytes = d.bytes ++ bs.toArray ∧
    (bs ≠ [] → run.pc d' ≤ run.options.memoryEnd) ∧ ∀ n, l.size? = some n → bs.length = n
  labels : d'.labels = run.labelsAfter d l.declares

/-- A leaf that only appends bytes. -/
theorem LeafEffect.of_appends {l : Leaf} {bs : List UInt8} (h : run.Appends d bs d')
    (hdecl : l.declares = none) (hsize : ∀ n, l.size? = some n → bs.length = n) :
    LeafEffect run l d d' := by
  refine ⟨⟨bs, by rw [h.eq], h.room, hsize⟩, ?_⟩
  rw [hdecl, labelsAfter_none, h.labels]

/-- A leaf that appends nothing. -/
theorem LeafEffect.of_bytes_eq {l : Leaf} (hbytes : d'.bytes = d.bytes) (hsize : l.size? = some 0)
    (hlabels : d'.labels = run.labelsAfter d l.declares) : LeafEffect run l d d' :=
  ⟨⟨[], by simp [hbytes], by simp, by simp [hsize]⟩, hlabels⟩

/-- One case to a leaf: what it appends is fixed by the leaf, except for `org`. -/
theorem leaf_effect {l : Leaf} (h : run.leaf d l = .ok d') : LeafEffect run l d d' := by
  cases l with
  | instr i =>
    obtain ⟨c, -, h⟩ := bind_eq_ok.mp h
    obtain ⟨w, -, happ⟩ := op_eq_ok h
    exact .of_appends happ rfl (by simp [Leaf.size?])
  | label name =>
    obtain rfl := Except.ok.inj h
    exact .of_bytes_eq bytes_mark rfl (labels_mark name false)
  | nextLabel name =>
    obtain rfl := Except.ok.inj h
    exact .of_bytes_eq bytes_mark rfl (labels_mark name true)
  -- the size of `org` is not known beforehand, so there is nothing to show about it
  | org target =>
    obtain ⟨-, goal, -, -, happ⟩ := org_eq_ok h
    exact .of_appends happ rfl (by simp [Leaf.size?])
  | unpack hi lo tag value =>
    obtain ⟨v, -, h⟩ := bind_eq_ok.mp h
    obtain ⟨high, -, h⟩ := bind_eq_ok.mp h
    obtain ⟨ws, hws, happ⟩ := ops_eq_ok h
    refine .of_appends happ rfl ?_
    rw [length_flatMap_wordBytes, length_words hws]
    simp [Leaf.size?]
  | byte value =>
    obtain ⟨v, -, h⟩ := bind_eq_ok.mp h
    exact .of_appends (byte_eq_ok h) rfl (by simp [Leaf.size?])
  | pointer value =>
    obtain ⟨v, -, h⟩ := bind_eq_ok.mp h
    exact .of_appends (word_eq_ok h) rfl (by simp [Leaf.size?])
  | assertion message expr =>
    -- an assertion appends nothing, whichever pass it is in and whether it is looked at or not
    have hd : d' = d := by
      simp only [leaf, check] at h
      split at h
      · exact (Except.ok.inj h).symm
      · obtain ⟨v, -, h⟩ := bind_eq_ok.mp h
        split at h
        · cases h
        · exact (pure_eq_ok.mp h).symm
    subst hd
    exact .of_bytes_eq rfl rfl labelsAfter_none.symm
  | breakpoint name =>
    simp only [leaf] at h
    split at h <;> (obtain rfl := Except.ok.inj h; exact .of_bytes_eq rfl rfl labelsAfter_none.symm)
  | monitor target format =>
    simp only [leaf] at h
    split at h
    · obtain rfl := Except.ok.inj h
      exact .of_bytes_eq rfl rfl labelsAfter_none.symm
    · obtain ⟨base, -, h⟩ := bind_eq_ok.mp h
      obtain rfl := pure_eq_ok.mp h
      exact .of_bytes_eq rfl rfl labelsAfter_none.symm

end Run

/-! ## Acts -/

namespace Act

/-- The label that an act declares. -/
def declares : Act → Option (String × Bool)
  | .leaf l => l.declares
  | _ => none

/-- The number of bytes that an act appends; `none` for `org`. -/
def size? : Act → Option Nat
  | .leaf l => l.size?
  | .skip cond _ => some (2 * cond.words)
  | .hole | .jump => some 2
  | .enter _ | .here | .swap | .patch | .single => some 0

/-- Only `org` has no size of its own. -/
theorem size?_eq_none {a : Act} (h : a.size? = none) : ∃ target, a = .leaf (.org target) := by
  cases a with
  | leaf l => cases l <;> simp [size?, Leaf.size?] at h ⊢
  | _ => simp [size?] at h

/-- The address that an act of control flow makes a jump lead to. -/
def target? (run : Run) (p : Progress) : Act → Option Nat
  | .jump => some (run.options.origin + p.offsets.headD 0)
  | .patch => some (run.pc p.draft)
  | _ => none

/-- The remembered offsets after an act that starts at the offset `size`. -/
def offsetsAfter (size : Nat) (offsets : List Nat) : Act → List Nat
  | .here | .hole => size :: offsets
  | .swap => swapTop offsets
  | .jump | .patch | .single => offsets.tail
  | .enter _ | .leaf _ | .skip _ _ => offsets

end Act

namespace Run

variable {run : Run} {p q : Progress}

/-- Everything that an act does to the progress, the bytes themselves apart. -/
structure ActEffect (run : Run) (a : Act) (p q : Progress) : Prop where
  labels : q.draft.labels = run.labelsAfter p.draft a.declares
  offsets : q.offsets = a.offsetsAfter p.draft.bytes.size p.offsets
  size : ∀ n, a.size? = some n → q.draft.bytes.size = p.draft.bytes.size + n
  grows : p.draft.bytes.size ≤ q.draft.bytes.size
  room : run.pc q.draft ≤ max (run.pc p.draft) run.options.memoryEnd

/-- An act that only appends bytes to the draft. -/
theorem ActEffect.of_appends {a : Act} {bs : List UInt8} (h : run.Appends p.draft bs q.draft)
    (hdecl : a.declares = none) (hsize : a.size? = some bs.length)
    (hoff : q.offsets = a.offsetsAfter p.draft.bytes.size p.offsets) : ActEffect run a p q where
  labels := by rw [hdecl, labelsAfter_none, h.labels]
  offsets := hoff
  size := by
    intro n hn
    obtain rfl : bs.length = n := Option.some.inj (hsize.symm.trans hn)
    exact h.size
  grows := by have := h.size; omega
  room := by
    have hpc := h.pc
    cases bs with
    | nil => simp only [List.length_nil] at hpc; omega
    | cons b rest => have := h.room (by simp); omega

/-- An act that keeps the size of the draft and its labels. -/
theorem ActEffect.of_size_eq {a : Act} (hbytes : q.draft.bytes.size = p.draft.bytes.size)
    (hlabels : q.draft.labels = p.draft.labels) (hdecl : a.declares = none)
    (hsize : a.size? = some 0) (hoff : q.offsets = a.offsetsAfter p.draft.bytes.size p.offsets) :
    ActEffect run a p q where
  labels := by rw [hdecl, labelsAfter_none, hlabels]
  offsets := hoff
  size := by
    intro n hn
    obtain rfl : 0 = n := Option.some.inj (hsize.symm.trans hn)
    exact hbytes
  grows := by omega
  room := by unfold pc; omega

/-- One case to an act: what it appends, and what it does to the stack of places. -/
theorem act_effect {a : Act} (h : run.act p a = .ok q) : ActEffect run a p q := by
  cases a with
  | enter item =>
    obtain rfl := Except.ok.inj h
    exact .of_size_eq rfl rfl rfl rfl rfl
  | leaf l =>
    obtain ⟨d', hd', h⟩ := bind_eq_ok.mp h
    obtain rfl := pure_eq_ok.mp h
    obtain ⟨⟨bs, hbytes, hroom, hsize⟩, hlabels⟩ := leaf_effect hd'
    have hlen : d'.bytes.size = p.draft.bytes.size + bs.length := by rw [hbytes]; simp
    refine ⟨hlabels, rfl, ?_, by show p.draft.bytes.size ≤ d'.bytes.size; omega, ?_⟩
    · intro n hn
      have := hsize n hn
      show d'.bytes.size = p.draft.bytes.size + n
      omega
    -- a leaf without bytes leaves the room as it was; any other has made sure of it
    · show run.pc d' ≤ _
      by_cases hbs : bs = []
      · subst hbs; unfold pc; simp only [List.length_nil] at hlen; omega
      · have := hroom hbs; omega
  | skip cond w =>
    obtain ⟨d', hd', h⟩ := bind_eq_ok.mp h
    obtain rfl := pure_eq_ok.mp h
    obtain ⟨bs, happ, hlen⟩ := skip_appends hd'
    exact .of_appends happ rfl (by rw [hlen]; rfl) rfl
  | here =>
    obtain rfl := Except.ok.inj h
    exact .of_size_eq rfl rfl rfl rfl rfl
  | hole =>
    obtain ⟨d', hd', h⟩ := bind_eq_ok.mp h
    obtain rfl := pure_eq_ok.mp h
    exact .of_appends (word_eq_ok hd') rfl rfl rfl
  | swap =>
    obtain rfl := Except.ok.inj h
    exact .of_size_eq rfl rfl rfl rfl rfl
  | jump =>
    obtain ⟨d', hd', h⟩ := bind_eq_ok.mp h
    obtain rfl := pure_eq_ok.mp h
    obtain ⟨w, -, happ⟩ := op_eq_ok hd'
    exact .of_appends happ rfl rfl rfl
  | patch =>
    obtain ⟨d', hd', h⟩ := bind_eq_ok.mp h
    obtain rfl := pure_eq_ok.mp h
    exact .of_size_eq (size_of_patch hd') (labels_of_patch hd') rfl rfl rfl
  | single =>
    simp only [act] at h
    split at h
    · obtain rfl := Except.ok.inj h
      exact .of_size_eq rfl rfl rfl rfl rfl
    · cases h

/-- The second pass changes no label. -/
theorem labels_of_act_emit {a : Act} (hpass : run.pass = .emit) (h : run.act p a = .ok q) :
    q.draft.labels = p.draft.labels := by
  rw [(act_effect h).labels]
  simp [labelsAfter, hpass]

end Run

end OctoAsm
