/-
  The instructions of the target machine: 34 of them, each with the name it is listed under and the
  pattern of its word.  In a pattern a hexadecimal digit stands for itself, `X` and `Y` for a
  register, and a run of `N` for an immediate.
-/

namespace OctoAsm.Machine

/-- The instructions of the machine, in table order. -/
inductive Mnemonic where
  /-- clear the display -/
  | clr
  /-- return from a subroutine -/
  | ret
  /-- jump to an address -/
  | jmpi
  /-- call a subroutine -/
  | call
  /-- skip the next instruction if `vX == NN` -/
  | seqi
  /-- skip the next instruction if `vX != NN` -/
  | snei
  /-- skip the next instruction if `vX == vY` -/
  | seq
  /-- `vX := NN` -/
  | seti
  /-- `vX += NN` -/
  | addi
  /-- `vX := vY` -/
  | set
  /-- `vX |= vY` -/
  | or
  /-- `vX &= vY` -/
  | and
  /-- `vX ^= vY` -/
  | xor
  /-- `vX += vY` -/
  | add
  /-- `vX -= vY` -/
  | sub
  /-- `vX >>= vY` -/
  | rsh
  /-- `vX := vY - vX` -/
  | rsub
  /-- `vX <<= vY` -/
  | lsh
  /-- skip the next instruction if `vX != vY` -/
  | sne
  /-- `i := NNN` -/
  | sto
  /-- jump to `NNN + v0` -/
  | jmpa
  /-- `vX := random & NN` -/
  | rand
  /-- draw a sprite of `N` rows at `vX`, `vY` -/
  | draw
  /-- skip the next instruction if the key in `vX` is held -/
  | skeq
  /-- skip the next instruction if the key in `vX` is not held -/
  | skne
  /-- `vX := delay` -/
  | dcpy
  /-- wait for a key and put it into `vX` -/
  | inp
  /-- `delay := vX` -/
  | dly
  /-- `buzzer := vX` -/
  | snd
  /-- `i += vX` -/
  | addm
  /-- `i := ` the sprite of the hexadecimal digit in `vX` -/
  | spr
  /-- store the decimal digits of `vX` at `i` -/
  | bcd
  /-- store `v0` to `vX` at `i` -/
  | save
  /-- load `v0` to `vX` from `i` -/
  | ld
deriving DecidableEq, Repr

namespace Mnemonic

/-- Every instruction, in table order. -/
def all : List Mnemonic :=
  [clr, ret, jmpi, call, seqi, snei, seq, seti, addi, set, or, and, xor, add, sub, rsh, rsub, lsh,
   sne, sto, jmpa, rand, draw, skeq, skne, dcpy, inp, dly, snd, addm, spr, bcd, save, ld]

/-- The listed name. -/
def name : Mnemonic → String
  | clr => "CLR" | ret => "RET" | jmpi => "JMPI" | call => "CALL" | seqi => "SEQI" | snei => "SNEI"
  | seq => "SEQ" | seti => "SETI" | addi => "ADDI" | set => "SET" | or => "OR" | and => "AND"
  | xor => "XOR" | add => "ADD" | sub => "SUB" | rsh => "RSH" | rsub => "RSUB" | lsh => "LSH"
  | sne => "SNE" | sto => "STO" | jmpa => "JMPA" | rand => "RAND" | draw => "DRAW"
  | skeq => "SKEQ" | skne => "SKNE" | dcpy => "DCPY" | inp => "INP" | dly => "DLY" | snd => "SND"
  | addm => "ADDM" | spr => "SPR" | bcd => "BCD" | save => "SAVE" | ld => "LD"

/-- The pattern of the instruction's word, four characters from the high nibble down. -/
def pattern : Mnemonic → String
  | clr => "00E0" | ret => "00EE" | jmpi => "1NNN" | call => "2NNN" | seqi => "3XNN"
  | snei => "4XNN" | seq => "5XY0" | seti => "6XNN" | addi => "7XNN" | set => "8XY0"
  | or => "8XY1" | and => "8XY2" | xor => "8XY3" | add => "8XY4" | sub => "8XY5" | rsh => "8XY6"
  | rsub => "8XY7" | lsh => "8XYE" | sne => "9XY0" | sto => "ANNN" | jmpa => "BNNN"
  | rand => "CXNN" | draw => "DXYN" | skeq => "EX9E" | skne => "EXA1" | dcpy => "FX07"
  | inp => "FX0A" | dly => "FX15" | snd => "FX18" | addm => "FX1E" | spr => "FX29" | bcd => "FX33"
  | save => "FX55" | ld => "FX65"

/-- The instruction of a name, whatever the case of its letters. -/
def ofName? (s : String) : Option Mnemonic :=
  all.find? fun m => m.name.toList.map Char.toLower == s.toList.map Char.toLower

theorem mem_all (m : Mnemonic) : m ∈ all := by cases m <;> decide

example : all.length = 34 := rfl
example : ofName? "jmpI" = some jmpi := by decide

end Mnemonic

end OctoAsm.Machine
