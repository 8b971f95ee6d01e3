/-
  Words and instructions determine each other.

  A pattern cuts the sixteen bits of a word into parts, each of them a digit or a field, one right
  below the other (`Tiles`).  A word of the pattern is therefore a numeral in mixed radix, whose
  places are the digits of the pattern and the operands (`Spells`).  Packing operands writes that
  numeral down, extracting the fields reads it off, and both inductions run along the parts from the
  left: what is below a part is the remainder modulo the weight of the part.

  That a word belongs to one instruction only is read off the table: two patterns always differ in a
  digit that stands at the same place in both.
-/
import OctoAsm.Proofs.Machine.Encode
import OctoAsm.Proofs.Outcome

namespace OctoAsm.Machine

/-! ## The parts of a word -/

/-- A part of a word: a digit that is always there, or a field. -/
inductive Part where
  | digit (shift value : Nat)
  | field (f : Field)
deriving DecidableEq

/-- The digit of a part, with its position. -/
def Part.fixed? : Part → Option (Nat × Nat)
  | digit shift value => some (shift, value)
  | field _ => none

/-- The field of a part. -/
def Part.field? : Part → Option Field
  | digit _ _ => none
  | field f => some f

/-- The parts of a pattern, from the left. -/
def patternParts : List Char → List Part
  | [] => []
  | c :: cs =>
    match fieldKind? c, patternParts cs with
    | none, parts => .digit (4 * cs.length) (patternDigit c) :: parts
    | some .immediate, .field ⟨.immediate, shift, bits⟩ :: parts =>
      .field ⟨.immediate, shift, bits + 4⟩ :: parts
    | some kind, parts => .field ⟨kind, 4 * cs.length, 4⟩ :: parts

/-- The parts of an instruction's word. -/
def Mnemonic.parts (m : Mnemonic) : List Part := patternParts m.pattern.toList

/-- `Tiles n parts`: the parts take up `n` bits, one right below the other down to the lowest bit,
    and each digit is one. -/
def Tiles : Nat → List Part → Prop
  | n, [] => n = 0
  | n, .digit shift value :: parts => n = shift + 4 ∧ value < 16 ∧ Tiles shift parts
  | n, .field f :: parts => n = f.shift + f.bits ∧ Tiles f.shift parts

instance : ∀ n parts, Decidable (Tiles n parts)
  | n, [] => inferInstanceAs (Decidable (n = 0))
  | n, .digit shift value :: parts =>
    have := instDecidableTiles shift parts
    inferInstanceAs (Decidable (n = shift + 4 ∧ value < 16 ∧ Tiles shift parts))
  | n, .field f :: parts =>
    have := instDecidableTiles f.shift parts
    inferInstanceAs (Decidable (n = f.shift + f.bits ∧ Tiles f.shift parts))

/-- The digits among the parts. -/
abbrev fixedOf (parts : List Part) : List (Nat × Nat) := parts.filterMap Part.fixed?

/-- The fields among the parts. -/
abbrev fieldsOf (parts : List Part) : List Field := parts.filterMap Part.field?

theorem Mnemonic.tiles_parts (m : Mnemonic) : Tiles 16 m.parts := by cases m <;> decide

theorem Mnemonic.fixedOf_parts (m : Mnemonic) : fixedOf m.parts = m.template.fixed := by
  cases m <;> decide

theorem Mnemonic.fieldsOf_parts (m : Mnemonic) : fieldsOf m.parts = m.template.fields := by
  cases m <;> decide

/-! ## Words as numerals -/

/-- `Spells n parts values`: the number whose places are the digits of the parts and, in their
    fields, the values. -/
inductive Spells : Nat → List Part → List Word → Prop
  | nil : Spells 0 [] []
  | digit {n parts values} (shift value : Nat) : Spells n parts values →
      Spells (value * 2 ^ shift + n) (.digit shift value :: parts) values
  | field {n parts values} (f : Field) (v : Word) : v.toNat < 2 ^ f.bits → Spells n parts values →
      Spells (v.toNat * 2 ^ f.shift + n) (.field f :: parts) (v :: values)

/-- A place below the weight of the next one leaves room for the numeral. -/
theorem place_lt {v r s b : Nat} (hv : v < 2 ^ b) (hr : r < 2 ^ s) : v * 2 ^ s + r < 2 ^ (s + b) := by
  have hstep : (v + 1) * 2 ^ s ≤ 2 ^ b * 2 ^ s := Nat.mul_le_mul_right _ hv
  rw [Nat.add_mul, Nat.one_mul] at hstep
  rw [Nat.pow_add, Nat.mul_comm (2 ^ s)]
  omega

theorem Spells.lt {n w : Nat} {parts : List Part} {values : List Word} (hw : Spells w parts values)
    (htiles : Tiles n parts) : w < 2 ^ n := by
  induction hw generalizing n with
  | nil => obtain rfl : n = 0 := htiles; decide
  | digit shift value _ ih =>
    obtain ⟨rfl, hvalue, htail⟩ := htiles
    exact place_lt hvalue (ih htail)
  | field f v hv _ ih =>
    obtain ⟨rfl, htail⟩ := htiles
    exact place_lt hv (ih htail)

/-- There is a numeral exactly for values that fit the fields. -/
theorem exists_spells_iff {parts : List Part} {values : List Word} :
    (∃ w, Spells w parts values) ↔
      List.Forall₂ (fun f v => v.toNat < 2 ^ f.bits) (fieldsOf parts) values := by
  induction parts generalizing values with
  | nil =>
    constructor
    · rintro ⟨_, ⟨⟩⟩; exact .nil
    · rintro ⟨⟩; exact ⟨0, .nil⟩
  | cons part parts ih =>
    cases part with
    | digit shift value =>
      show _ ↔ List.Forall₂ _ (fieldsOf parts) values
      rw [← ih]
      constructor
      · rintro ⟨_, _ | ⟨_, _, htail⟩⟩; exact ⟨_, htail⟩
      · rintro ⟨_, htail⟩; exact ⟨_, .digit shift value htail⟩
    | field f =>
      show _ ↔ List.Forall₂ _ (f :: fieldsOf parts) values
      rw [List.forall₂_cons_left_iff]
      constructor
      · rintro ⟨_, _ | _ | ⟨_, v, hv, htail⟩⟩
        exact ⟨v, _, hv, ih.mp ⟨_, htail⟩, rfl⟩
      · rintro ⟨v, values, hv, hvalues, rfl⟩
        obtain ⟨_, htail⟩ := ih.mpr hvalues
        exact ⟨_, .field f v hv htail⟩

/-! ## Encoding writes the numeral -/

/-- Packing adds to a start value the numeral without its digits. -/
theorem packFields_eq_ok_iff {m : Mnemonic} {parts : List Part} {values : List Word}
    {base packed : Nat} :
    ((fieldsOf parts).length = values.length ∧
      packFields m (fieldsOf parts) values
        (base + (fixedOf parts).foldr (fun n bits => n.2 * Nat.pow 2 n.1 + bits) 0) = .ok packed) ↔
      ∃ w, Spells w parts values ∧ packed = base + w := by
  induction parts generalizing values base with
  | nil =>
    constructor
    · rintro ⟨hlen, hpack⟩
      obtain rfl : values = [] := List.length_eq_zero_iff.mp hlen.symm
      exact ⟨0, .nil, (Except.ok.inj hpack).symm⟩
    · rintro ⟨_, ⟨⟩, rfl⟩; exact ⟨rfl, rfl⟩
  | cons part parts ih =>
    cases part with
    | digit shift value =>
      show ((fieldsOf parts).length = values.length ∧ packFields m (fieldsOf parts) values
        (base + (value * 2 ^ shift + _)) = .ok packed) ↔ _
      rw [← Nat.add_assoc, ih]
      constructor
      · rintro ⟨w, hw, rfl⟩; exact ⟨_, .digit shift value hw, Nat.add_assoc _ _ _⟩
      · rintro ⟨_, _ | ⟨_, _, hw⟩, rfl⟩; exact ⟨_, hw, (Nat.add_assoc _ _ _).symm⟩
    | field f =>
      cases values with
      | nil =>
        constructor
        · rintro ⟨hlen, -⟩; cases hlen
        · rintro ⟨_, ⟨⟩, -⟩
      | cons v values =>
        -- the fixed digits come before the value in the sum, the parts above it after them
        have hsum : ∀ k, base + k + v.toNat * f.weight = base + v.toNat * 2 ^ f.shift + k :=
          fun k => Nat.add_right_comm _ _ _
        show ((fieldsOf parts).length + 1 = values.length + 1 ∧
          packFields m (f :: fieldsOf parts) (v :: values) (base + _) = .ok packed) ↔ _
        by_cases hv : v.toNat < f.capacity
        · simp only [packFields, hv, if_true, hsum, Nat.add_right_cancel_iff]
          refine ih.trans ?_
          constructor
          · rintro ⟨w, hw, rfl⟩; exact ⟨_, .field f v hv hw, Nat.add_assoc _ _ _⟩
          · rintro ⟨_, _ | _ | ⟨_, _, _, hw⟩, rfl⟩; exact ⟨_, hw, (Nat.add_assoc _ _ _).symm⟩
        · simp only [packFields, hv, if_false, reduceCtorEq, and_false, false_iff]
          rintro ⟨_, _ | _ | ⟨_, _, hfits, _⟩, -⟩
          exact hv hfits

/-- The word of an instruction is the numeral of its parts. -/
theorem encode_eq_ok_iff {m : Mnemonic} {operands : List Word} {w : Word} :
    encode m operands = .ok w ↔ Spells w.toNat m.parts operands := by
  have hpack (packed : Nat) := @packFields_eq_ok_iff m m.parts operands 0 packed
  simp only [Nat.zero_add, m.fixedOf_parts, m.fieldsOf_parts] at hpack
  constructor
  · intro hencode
    simp only [encode] at hencode
    split at hencode
    · rename_i hlen
      obtain ⟨packed, hpacked, rfl⟩ := map_eq_ok.mp hencode
      obtain ⟨_, hspells, rfl⟩ := (hpack packed).mp ⟨hlen, hpacked⟩
      rwa [UInt16.toNat_ofNat_of_lt' (hspells.lt m.tiles_parts)]
    · cases hencode
  · intro hspells
    obtain ⟨hlen, hpacked⟩ := (hpack w.toNat).mpr ⟨_, hspells, rfl⟩
    have hpacked : packFields m m.template.fields operands m.template.fixedBits = .ok w.toNat := hpacked
    simp only [encode, hlen, if_true, hpacked, Except.map, UInt16.ofNat_toNat]

/-! ## Decoding reads it off -/

/-- `Shows w parts values`: the number has the digits at their places and the values in their
    fields. -/
def Shows (w : Nat) : List Part → List Word → Prop
  | [], values => values = []
  | .digit shift value :: parts, values => w / 2 ^ shift % 16 = value ∧ Shows w parts values
  | .field _ :: _, [] => False
  | .field f :: parts, v :: values =>
    w / 2 ^ f.shift % 2 ^ f.bits = v.toNat ∧ Shows w parts values

theorem Field.extract_eq_iff {f : Field} {w v : Word} :
    f.extract w = v ↔ w.toNat / 2 ^ f.shift % 2 ^ f.bits = v.toNat := by
  have hlt : w.toNat / 2 ^ f.shift % 2 ^ f.bits < 2 ^ 16 := by
    have := Nat.mod_le (w.toNat / 2 ^ f.shift) (2 ^ f.bits)
    have := Nat.div_le_self w.toNat (2 ^ f.shift)
    have := w.toNat_lt
    omega
  have hcontent : (f.extract w).toNat = w.toNat / 2 ^ f.shift % 2 ^ f.bits :=
    UInt16.toNat_ofNat_of_lt' hlt
  rw [← UInt16.toNat_inj, hcontent]

/-- Admitting a word and extracting its operands are what `Shows` says. -/
theorem shows_iff {w : Word} {parts : List Part} {values : List Word} :
    Shows w.toNat parts values ↔
      (∀ n ∈ fixedOf parts, w.toNat / 2 ^ n.1 % 16 = n.2) ∧
        (fieldsOf parts).map (·.extract w) = values := by
  induction parts generalizing values with
  | nil => simp [Shows, eq_comm]
  | cons part parts ih =>
    cases part with
    | digit shift value =>
      show _ ∧ Shows _ _ _ ↔ (∀ n ∈ (shift, value) :: fixedOf parts, _) ∧
        (fieldsOf parts).map _ = values
      rw [ih, List.forall_mem_cons, and_assoc]
    | field f =>
      show _ ↔ (∀ n ∈ fixedOf parts, _) ∧ f.extract w :: (fieldsOf parts).map _ = values
      cases values with
      | nil => simp [Shows]
      | cons v values =>
        rw [List.cons.injEq, Field.extract_eq_iff, and_left_comm, ← ih]
        rfl

/-- Below a part only the remainder counts. -/
theorem Shows.mod {w n s : Nat} {parts : List Part} {values : List Word} (htiles : Tiles n parts)
    (hn : n ≤ s) : Shows (w % 2 ^ s) parts values ↔ Shows w parts values := by
  have hplace : ∀ {shift bits : Nat}, shift + bits ≤ s →
      w % 2 ^ s / 2 ^ shift % 2 ^ bits = w / 2 ^ shift % 2 ^ bits := by
    intro shift bits hle
    obtain ⟨k, rfl⟩ := Nat.exists_eq_add_of_le (Nat.le_trans (Nat.le_add_right _ _) hle)
    rw [Nat.pow_add, Nat.mod_mul_right_div_self,
      Nat.mod_mod_of_dvd _ (Nat.pow_dvd_pow 2 (by omega : bits ≤ k))]
  induction parts generalizing n values with
  | nil => rfl
  | cons part parts ih =>
    cases part with
    | digit shift value =>
      obtain ⟨rfl, -, htail⟩ := htiles
      have hdigit : w % 2 ^ s / 2 ^ shift % 16 = w / 2 ^ shift % 16 := hplace hn
      exact and_congr (by rw [hdigit]) (ih htail (by omega))
    | field f =>
      obtain ⟨rfl, htail⟩ := htiles
      cases values with
      | nil => rfl
      | cons v values =>
        exact and_congr (by rw [hplace hn]) (ih htail (by omega))

/-- The place at the top of a number and what is below it. -/
theorem div_mod_place {v r s b : Nat} (hv : v < 2 ^ b) (hr : r < 2 ^ s) :
    (v * 2 ^ s + r) / 2 ^ s % 2 ^ b = v ∧ (v * 2 ^ s + r) % 2 ^ s = r := by
  have hpos : 0 < 2 ^ s := Nat.two_pow_pos s
  rw [Nat.mul_comm, Nat.mul_add_div hpos, Nat.div_eq_of_lt hr, Nat.add_zero, Nat.mod_eq_of_lt hv,
    Nat.mul_add_mod, Nat.mod_eq_of_lt hr]
  exact ⟨rfl, rfl⟩

/-- A number below the weight of its places is spelled by the places it shows. -/
theorem shows_iff_spells {n w : Nat} {parts : List Part} {values : List Word}
    (htiles : Tiles n parts) (hw : w < 2 ^ n) : Shows w parts values ↔ Spells w parts values := by
  induction parts generalizing n w values with
  | nil =>
    obtain rfl : n = 0 := htiles
    have hzero : w = 0 := by omega
    constructor
    · rintro rfl; exact hzero ▸ .nil
    · rintro ⟨⟩; rfl
  | cons part parts ih =>
    -- the top place of `w` and its remainder, for a part of `b` bits at `s`
    have hsplit : ∀ {s b : Nat}, w < 2 ^ (s + b) →
        w / 2 ^ s % 2 ^ b * 2 ^ s + w % 2 ^ s = w := by
      intro s b hlt
      have htop : w / 2 ^ s < 2 ^ b := Nat.div_lt_of_lt_mul (by rwa [← Nat.pow_add])
      rw [Nat.mod_eq_of_lt htop, Nat.mul_comm]
      exact Nat.div_add_mod w (2 ^ s)
    cases part with
    | digit shift value =>
      obtain ⟨rfl, hvalue, htail⟩ := htiles
      have hrest : w % 2 ^ shift < 2 ^ shift := Nat.mod_lt _ (Nat.two_pow_pos shift)
      show _ ∧ Shows w parts values ↔ _
      rw [← Shows.mod htail (Nat.le_refl shift), ih htail hrest]
      constructor
      · rintro ⟨rfl, hspells⟩
        have htop := hsplit (s := shift) (b := 4) hw
        have hw' := Spells.digit shift (w / 2 ^ shift % 16) hspells
        rwa [show w / 2 ^ shift % 16 * 2 ^ shift + w % 2 ^ shift = w from htop] at hw'
      · rintro (_ | ⟨_, _, hspells⟩)
        obtain ⟨hdiv, hmod⟩ := div_mod_place (b := 4) hvalue (hspells.lt htail)
        exact ⟨hdiv, by rwa [hmod]⟩
    | field f =>
      obtain ⟨rfl, htail⟩ := htiles
      have hrest : w % 2 ^ f.shift < 2 ^ f.shift := Nat.mod_lt _ (Nat.two_pow_pos f.shift)
      cases values with
      | nil =>
        constructor
        · rintro ⟨⟩
        · rintro ⟨⟩
      | cons v values =>
        show _ ∧ Shows w parts values ↔ _
        rw [← Shows.mod htail (Nat.le_refl f.shift), ih htail hrest]
        constructor
        · rintro ⟨hv, hspells⟩
          have hfits : v.toNat < 2 ^ f.bits := hv ▸ Nat.mod_lt _ (Nat.two_pow_pos f.bits)
          have hw' := Spells.field f v hfits hspells
          rwa [← hv, hsplit hw] at hw'
        · rintro (_ | _ | ⟨_, _, hv, hspells⟩)
          obtain ⟨hdiv, hmod⟩ := div_mod_place hv (hspells.lt htail)
          exact ⟨hdiv, by rwa [hmod]⟩

theorem Template.admits_iff {t : Template} {w : Word} :
    t.admits w ↔ ∀ n ∈ t.fixed, w.toNat / 2 ^ n.1 % 16 = n.2 := by
  simp [Template.admits]

/-- The words of an instruction are those that its template admits, with what they hold in the
    fields as operands. -/
theorem encode_eq_ok_iff_admits {m : Mnemonic} {operands : List Word} {w : Word} :
    encode m operands = .ok w ↔
      m.template.admits w ∧ m.template.fields.map (·.extract w) = operands := by
  have hw : w.toNat < 2 ^ 16 := w.toNat_lt
  rw [encode_eq_ok_iff, ← shows_iff_spells m.tiles_parts hw, shows_iff, m.fixedOf_parts,
    m.fieldsOf_parts, Template.admits_iff]

/-! ## One instruction to a word -/

/-- Two patterns have different digits at one place. -/
theorem Mnemonic.apart : ∀ m ∈ all, ∀ m' ∈ all, m ≠ m' →
    ∃ p ∈ m.template.fixed, ∃ q ∈ m'.template.fixed, p.1 = q.1 ∧ p.2 ≠ q.2 := by decide +kernel

/-- A word is admitted by the template of one instruction at most. -/
theorem Mnemonic.eq_of_admits {m m' : Mnemonic} {w : Word} (h : m.template.admits w)
    (h' : m'.template.admits w) : m = m' := by
  by_contra hne
  obtain ⟨p, hp, q, hq, hplace, hdigit⟩ := apart m m.mem_all m' m'.mem_all hne
  apply hdigit
  calc p.2 = w.toNat / 2 ^ p.1 % 16 := (Template.admits_iff.mp h p hp).symm
    _ = w.toNat / 2 ^ q.1 % 16 := by rw [hplace]
    _ = q.2 := Template.admits_iff.mp h' q hq

/-- The choice among templates is one of them. -/
theorem foldl_moreSpecific {ts : List Template} {best : Option Template} {t : Template}
    (h : ts.foldl moreSpecific best = some t) : t ∈ ts ∨ best = some t := by
  induction ts generalizing best with
  | nil => exact .inr h
  | cons t' ts ih =>
    rcases ih h with hmem | hbest
    · exact .inl (List.mem_cons_of_mem _ hmem)
    · unfold moreSpecific at hbest
      split at hbest
      · split at hbest
        · exact .inl (Option.some.inj hbest ▸ List.mem_cons_self)
        · exact .inr hbest
      · exact .inl (Option.some.inj hbest ▸ List.mem_cons_self)

/-- Something is chosen as soon as there is something to choose from. -/
theorem foldl_moreSpecific_isSome {ts : List Template} {best : Option Template}
    (h : ts ≠ [] ∨ best.isSome) : (ts.foldl moreSpecific best).isSome := by
  induction ts generalizing best with
  | nil => simpa using h
  | cons t' ts ih =>
    apply ih
    right
    unfold moreSpecific
    split
    · split <;> rfl
    · rfl

/-- The template of a word is the one that admits it. -/
theorem templateOf?_eq_some_iff {w : Word} {t : Template} :
    templateOf? w = some t ↔ t ∈ templates ∧ t.admits w := by
  have hsound : ∀ {t}, templateOf? w = some t → t ∈ templates ∧ t.admits w := by
    intro t h
    rcases foldl_moreSpecific h with hmem | hnone
    · exact List.mem_filter.mp hmem
    · cases hnone
  refine ⟨hsound, ?_⟩
  rintro ⟨hmem, hadmits⟩
  have hne : templates.filter (·.admits w) ≠ [] :=
    List.ne_nil_of_mem (List.mem_filter.mpr ⟨hmem, hadmits⟩)
  obtain ⟨t', ht'⟩ := Option.isSome_iff_exists.mp (foldl_moreSpecific_isSome (.inl hne))
  obtain ⟨hmem', hadmits'⟩ := hsound ht'
  obtain ⟨m, -, rfl⟩ := List.mem_map.mp hmem
  obtain ⟨m', -, rfl⟩ := List.mem_map.mp hmem'
  rw [Mnemonic.eq_of_admits hadmits hadmits']
  exact ht'

theorem Mnemonic.template_mem (m : Mnemonic) : m.template ∈ templates :=
  List.mem_map_of_mem m.mem_all

theorem Mnemonic.templateOf?_eq_some_iff {m : Mnemonic} {w : Word} :
    templateOf? w = some m.template ↔ m.template.admits w := by
  rw [Machine.templateOf?_eq_some_iff, and_iff_right m.template_mem]

/-- A word decodes to an instruction if its template admits the word and the fields hold the
    operands. -/
theorem decode_eq_ok_iff {w : Word} {m : Mnemonic} {operands : List Word} :
    decode w = .ok ⟨m, operands⟩ ↔
      m.template.admits w ∧ m.template.fields.map (·.extract w) = operands := by
  constructor
  · intro hdecode
    unfold decode at hdecode
    split at hdecode
    · rename_i t ht
      obtain ⟨hmem, hadmits⟩ := Machine.templateOf?_eq_some_iff.mp ht
      obtain ⟨m', -, rfl⟩ := List.mem_map.mp hmem
      injection hdecode with hinstr
      injection hinstr with hname hoperands
      obtain rfl : m' = m := hname
      exact ⟨hadmits, hoperands⟩
    · cases hdecode
  · rintro ⟨hadmits, rfl⟩
    simp only [decode, Mnemonic.templateOf?_eq_some_iff.mpr hadmits]
    rfl

/-- Encoding and decoding are inverse to each other. -/
theorem encode_eq_ok_iff_decode {m : Mnemonic} {operands : List Word} {w : Word} :
    encode m operands = .ok w ↔ decode w = .ok ⟨m, operands⟩ := by
  rw [encode_eq_ok_iff_admits, decode_eq_ok_iff]

/-! ## The codec -/

/-- What the codec guarantees for an instruction and its operands, and for a word. -/
structure CodecExact : Prop where
  /-- operands make a word if there is one for each field, and it fits -/
  accepts : ∀ m operands, (∃ w, encode m operands = .ok w) ↔
    List.Forall₂ (fun f v => v.toNat < 2 ^ f.bits) m.template.fields operands
  /-- the word has the template of its instruction -/
  pattern : ∀ m operands w, encode m operands = .ok w → templateOf? w = some m.template
  /-- the word decodes to the instruction and exactly its operands -/
  decodes : ∀ m operands w, encode m operands = .ok w → decode w = .ok ⟨m, operands⟩
  /-- no word is admitted by two templates -/
  single : ∀ w, ∀ t ∈ templates, ∀ t' ∈ templates, t.admits w → t'.admits w → t = t'
  /-- an instruction that a word decodes to has that word -/
  encodes : ∀ w m operands, decode w = .ok ⟨m, operands⟩ → encode m operands = .ok w

/-- **The codec is exact.**  Encoding succeeds on exactly the operands that fit the fields of the
    instruction, no word belongs to two instructions, and each of encoding and decoding undoes the
    other. -/
theorem codec_exact : CodecExact where
  accepts m operands := by
    have hword : (∃ w, encode m operands = .ok w) ↔ ∃ n, Spells n m.parts operands := by
      constructor
      · rintro ⟨w, hw⟩; exact ⟨_, encode_eq_ok_iff.mp hw⟩
      · rintro ⟨n, hn⟩
        refine ⟨UInt16.ofNat n, encode_eq_ok_iff.mpr ?_⟩
        rwa [UInt16.toNat_ofNat_of_lt' (hn.lt m.tiles_parts)]
    rw [hword, exists_spells_iff, m.fieldsOf_parts]
  pattern m operands w hencode :=
    Mnemonic.templateOf?_eq_some_iff.mpr (encode_eq_ok_iff_admits.mp hencode).1
  decodes m operands w := encode_eq_ok_iff_decode.mp
  single w t ht t' ht' hadmits hadmits' := by
    obtain ⟨m, -, rfl⟩ := List.mem_map.mp ht
    obtain ⟨m', -, rfl⟩ := List.mem_map.mp ht'
    rw [Mnemonic.eq_of_admits hadmits hadmits']
  encodes w m operands := encode_eq_ok_iff_decode.mpr

example : decode 0xD12F = .ok ⟨.draw, [1, 2, 15]⟩ := rfl

end OctoAsm.Machine
