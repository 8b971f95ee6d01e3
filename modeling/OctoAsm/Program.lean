/-
  Resolved programs: every register is a number, every name is gone except those of labels, and
  macros have been expanded in place.

  An item remembers the source line and the first token it came from.  Items that hold no other
  items are `Leaf`s; the rest are the four shapes of control flow.
-/
import OctoAsm.Calc.Arithmetic
import OctoAsm.Machine.Mnemonic
import OctoAsm.Statement

namespace OctoAsm

open Machine (Mnemonic)

/-! ## Values -/

/-- An expression over label addresses. -/
inductive Expr where
  | number (x : Float)
  | address (label : String)
  | unary (op : Calc.UnaryOp) (operand : Expr)
  | binary (op : Calc.BinaryOp) (left right : Expr)

namespace Expr

/-- The value of an expression, given the addresses of labels. -/
def eval (address : String → Float) : Expr → Float
  | .number x => x
  | .address label => address label
  | .unary op e => op.apply (e.eval address)
  | .binary op a b => op.apply (a.eval address) (b.eval address)

/-- The labels whose addresses an expression needs. -/
def labels : Expr → List String
  | .number _ => []
  | .address label => [label]
  | .unary _ e => e.labels
  | .binary _ a b => a.labels ++ b.labels

/-- Every label of an expression passes a test; the first that does not ends the search. -/
def allLabels (p : String → Bool) : Expr → Bool
  | .number _ => true
  | .address label => p label
  | .unary _ e => e.allLabels p
  | .binary _ a b => a.allLabels p && b.allLabels p

theorem allLabels_eq (p : String → Bool) (e : Expr) : e.allLabels p = e.labels.all p := by
  induction e with
  | number _ => rfl
  | address _ => simp [allLabels, labels]
  | unary _ _ ih => simpa [allLabels, labels] using ih
  | binary _ _ _ iha ihb => simp [allLabels, labels, iha, ihb]

/-- How many operators lie on the longest path to a number or an address. -/
def depth : Expr → Nat
  | .number _ | .address _ => 0
  | .unary _ e => e.depth + 1
  | .binary _ a b => max a.depth b.depth + 1

end Expr

/-- A value that goes into the image. -/
inductive Imm where
  | number (n : Int)
  | label (name : String)
  /-- depends on labels, so it waits until they have addresses -/
  | expr (e : Expr)

/-- The labels whose addresses a value needs. -/
def Imm.labels : Imm → List String
  | .number _ => []
  | .label name => [name]
  | .expr e => e.labels

/-- Every label of a value passes a test. -/
def Imm.allLabels (p : String → Bool) : Imm → Bool
  | .number _ => true
  | .label name => p name
  | .expr e => e.allLabels p

theorem Imm.allLabels_eq (p : String → Bool) (v : Imm) : v.allLabels p = v.labels.all p := by
  cases v with
  | number _ => rfl
  | label _ => simp [allLabels, labels]
  | expr e => exact e.allLabels_eq p

/-! ## Instructions and conditions -/

/-- A machine instruction, by the shape of its operands. -/
inductive Instr where
  | bare (m : Mnemonic)
  /-- a 12-bit address -/
  | addr (m : Mnemonic) (target : Imm)
  /-- a register and an 8-bit immediate -/
  | regImm (m : Mnemonic) (x : Fin 16) (imm : Imm)
  | regReg (m : Mnemonic) (x y : Fin 16)
  | reg (m : Mnemonic) (x : Fin 16)
  /-- two registers and a 4-bit height -/
  | draw (x y : Fin 16) (height : Imm)

/-- The right-hand side of a comparison. -/
inductive CondRhs where
  | reg (r : Fin 16)
  | imm (value : Imm)

/-- A condition. -/
inductive Cond where
  | key (reg : Fin 16) (pressed : Bool)
  /-- `temp` is the scratch register of `<`, `>`, `<=` and `>=` -/
  | compare (reg : Fin 16) (op : Comparison) (rhs : CondRhs) (temp : Fin 16)

/-! ## Items -/

/-- What a monitor watches. -/
inductive MonitorTarget where
  | register (r : Fin 16)
  | address (value : Imm)

/-- How a monitor shows what it watches. -/
inductive MonitorFormat where
  | length (count : Int)
  | format (text : String)
deriving DecidableEq, Repr

/-- Items that hold no other items. -/
inductive Leaf where
  | instr (i : Instr)
  | label (name : String)
  /-- labels the second byte of what follows -/
  | nextLabel (name : String)
  | org (target : Imm)
  | unpack (hi lo : Fin 16) (tag : Option Imm) (value : Imm)
  | byte (value : Imm)
  | pointer (value : Imm)
  | assertion (message : Option String) (expr : Imm)
  | breakpoint (name : String)
  | monitor (target : MonitorTarget) (format : MonitorFormat)

/-- Where an item came from. -/
structure Site where
  line : Nat
  /-- the first token of the statement -/
  text : String
deriving DecidableEq, Repr

/-- The site of a token. -/
def Token.site (t : Token) : Site := ⟨t.line, t.text⟩

/-- An item of a program. -/
inductive Item where
  | leaf (site : Site) (leaf : Leaf)
  | ifThen (site : Site) (cond : Cond) (body : List Item)
  | ifBegin (site : Site) (cond : Cond) (body : List Item)
  | ifElse (site : Site) (cond : Cond) (body otherwise : List Item)
  /-- repeats for ever -/
  | loop (site : Site) (body : List Item)
  /-- repeats until the condition holds after the body -/
  | loopUntil (site : Site) (body : List Item) (cond : Cond)
  | whileDo (site : Site) (cond : Cond) (body : List Item)

/-- The site of an item. -/
def Item.site : Item → Site
  | .leaf s _ | .ifThen s _ _ | .ifBegin s _ _ | .ifElse s _ _ _ | .loop s _ | .loopUntil s _ _
  | .whileDo s _ _ => s

end OctoAsm
