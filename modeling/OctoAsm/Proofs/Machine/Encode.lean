/-
  When operands make a word.

  An instruction takes as many operands as its pattern has fields, and each must be below the
  capacity of its field; these are the only two ways in which an encoding fails.
-/
import OctoAsm.Machine.Codec
import Mathlib

namespace OctoAsm.Machine

/-- The widths of an instruction's operands. -/
def Mnemonic.widths : Mnemonic → List Nat
  | .clr | .ret => []
  | .jmpi | .call | .sto | .jmpa => [12]
  | .seqi | .snei | .seti | .addi | .rand => [4, 8]
  | .seq | .set | .or | .and | .xor | .add | .sub | .rsh | .rsub | .lsh | .sne => [4, 4]
  | .draw => [4, 4, 4]
  | .skeq | .skne | .dcpy | .inp | .dly | .snd | .addm | .spr | .bcd | .save | .ld => [4]

/-- The widths are those of the fields of the pattern. -/
theorem Mnemonic.map_bits_fields (m : Mnemonic) : m.template.fields.map (·.bits) = m.widths := by
  cases m <;> decide

/-- An operand is below the capacity of a field of the given width. -/
def FitsField (bits : Nat) (v : Word) : Prop := v.toNat < 2 ^ bits

theorem packFields_eq_ok {m : Mnemonic} {fields : List Field} {values : List Word}
    (h : List.Forall₂ FitsField (fields.map (·.bits)) values) (word : Nat) :
    ∃ packed, packFields m fields values word = .ok packed := by
  induction fields generalizing values word with
  | nil => exact ⟨word, by cases values <;> rfl⟩
  | cons f fields ih =>
    obtain ⟨v, vs, hv, hvs, rfl⟩ := List.forall₂_cons_left_iff.mp h
    obtain ⟨packed, hpacked⟩ := ih hvs (word + v.toNat * f.weight)
    refine ⟨packed, ?_⟩
    have hcap : v.toNat < f.capacity := hv
    simp only [packFields, hcap, if_true, hpacked]

/-- Operands that fit their fields make a word. -/
theorem encode_eq_ok {m : Mnemonic} {operands : List Word}
    (h : List.Forall₂ FitsField m.widths operands) : ∃ w, encode m operands = .ok w := by
  rw [← m.map_bits_fields] at h
  have hlen : m.template.fields.length = operands.length := by simpa using h.length_eq
  obtain ⟨packed, hpacked⟩ := packFields_eq_ok (m := m) h m.template.fixedBits
  exact ⟨UInt16.ofNat packed, by simp [encode, hlen, hpacked, Except.map]⟩

/-! ## Jumps -/

/-- A jump has one field of twelve bits, behind the digit `1`. -/
theorem encode_jmpi (v : Word) : encode .jmpi [v] =
    if v.toNat < 0x1000 then .ok (UInt16.ofNat (0x1000 + v.toNat))
    else .error (.overflow .jmpi v 12) := by
  have hfields : Mnemonic.jmpi.template.fields = [⟨.immediate, 0, 12⟩] := by decide
  have hfixed : Mnemonic.jmpi.template.fixedBits = 0x1000 := by decide
  have hcap : (Field.mk .immediate 0 12).capacity = 0x1000 := rfl
  have hweight : (Field.mk .immediate 0 12).weight = 1 := rfl
  simp only [encode, hfields, hfixed, List.length_singleton, if_true, packFields, hcap, hweight,
    Nat.mul_one]
  split <;> rfl

/-- A jump fails to encode exactly when its target has more than twelve bits. -/
theorem encode_jmpi_eq_error {v : Word} {e : EncodeError} :
    encode .jmpi [v] = .error e ↔ e = .overflow .jmpi v 12 ∧ 0x1000 ≤ v.toNat := by
  rw [encode_jmpi]
  split
  · rename_i hv
    have hlt : ¬ 0x1000 ≤ v.toNat := by omega
    simp [hlt]
  · rename_i hv
    have hle : 0x1000 ≤ v.toNat := by omega
    simp [hle, eq_comm]

theorem encode_jmpi_eq_ok {v w : Word} (h : encode .jmpi [v] = .ok w) :
    w.toNat = 0x1000 + v.toNat ∧ v.toNat < 0x1000 := by
  rw [encode_jmpi] at h
  split at h
  · rename_i hv
    obtain rfl := Except.ok.inj h
    rw [UInt16.toNat_ofNat']
    omega
  · cases h

/-! ## Adding to a register -/

/-- The register and the byte stand side by side, behind the digit `7`. -/
theorem encode_addi {x k : Word} (hx : FitsField 4 x) (hk : FitsField 8 k) :
    encode .addi [x, k] = .ok (UInt16.ofNat (0x7000 + x.toNat * 0x100 + k.toNat)) := by
  have hfields : Mnemonic.addi.template.fields = [⟨.register, 8, 4⟩, ⟨.immediate, 0, 8⟩] := by
    decide
  have hfixed : Mnemonic.addi.template.fixedBits = 0x7000 := by decide
  have hlength : [Field.mk .register 8 4, Field.mk .immediate 0 8].length = [x, k].length := rfl
  have hregister : (Field.mk .register 8 4).weight = 0x100 := rfl
  have hbyte : (Field.mk .immediate 0 8).weight = 1 := rfl
  have hx' : x.toNat < (Field.mk .register 8 4).capacity := hx
  have hk' : k.toNat < (Field.mk .immediate 0 8).capacity := hk
  simp only [encode, hfields, hfixed, hlength, if_true, packFields, hx', hk', hregister, hbyte,
    Nat.mul_one, Except.map]

end OctoAsm.Machine
