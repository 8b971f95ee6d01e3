/-
  Structured programs: what blocks of instructions and control flow mean, without any jump.

  A repeated label stands for the address nearest to the place where it is used, so what an
  instruction does may depend on its place.  The meaning of instructions and conditions is therefore
  given place by place, and a block is executed at the address where its code begins; that is all
  that addresses are for here.

  Testing a condition may leave traces in scratch registers, the same ones however the test ends.
-/
import OctoAsm.Proofs.Image.Growth

namespace OctoAsm

/-! ## Sizes -/

mutual

/-- The number of bytes of an item; an `org` and what it pads is left out. -/
def Item.size : Item → Nat
  | .leaf _ l => l.size?.getD 0
  | .ifThen _ cond body => 2 * cond.words + totalSize body
  | .ifBegin _ cond body => 2 * cond.words + 2 + totalSize body
  | .ifElse _ cond body otherwise => 2 * cond.words + 2 + totalSize body + 2 + totalSize otherwise
  | .loop _ body => totalSize body + 2
  | .loopUntil _ body cond => totalSize body + 2 * cond.words + 4
  | .whileDo _ cond body => 2 * cond.words + 2 + totalSize body + 2

/-- The number of bytes of items in a row. -/
def totalSize : List Item → Nat
  | [] => 0
  | i :: rest => i.size + totalSize rest

end

/-! ## Execution -/

/-- What instructions and conditions do to a state, at every address where they may stand. -/
structure Meaning (σ : Type) where
  instr : Nat → Instr → σ → σ
  holds : Nat → Cond → σ → Bool
  /-- the state after a test -/
  tested : Nat → Cond → σ → σ

section Execution

variable {σ : Type}

/-- `Exec sem a items s t`: the items, standing at the address `a`, end in the state `t` when they
    are started in `s`. -/
inductive Exec (sem : Meaning σ) : Nat → List Item → σ → σ → Prop where
  | nil {a s} : Exec sem a [] s s
  | cons {a i rest s t u} (hi : Exec sem a [i] s t) (hrest : Exec sem (a + i.size) rest t u) :
      Exec sem a (i :: rest) s u
  | instr {a site i s} : Exec sem a [.leaf site (.instr i)] s (sem.instr a i s)
  | thenTrue {a site cond body s t} (h : sem.holds a cond s = true)
      (hb : Exec sem (a + 2 * cond.words) body (sem.tested a cond s) t) :
      Exec sem a [.ifThen site cond body] s t
  | thenFalse {a site cond body s} (h : sem.holds a cond s = false) :
      Exec sem a [.ifThen site cond body] s (sem.tested a cond s)
  | beginTrue {a site cond body s t} (h : sem.holds a cond s = true)
      (hb : Exec sem (a + 2 * cond.words + 2) body (sem.tested a cond s) t) :
      Exec sem a [.ifBegin site cond body] s t
  | beginFalse {a site cond body s} (h : sem.holds a cond s = false) :
      Exec sem a [.ifBegin site cond body] s (sem.tested a cond s)
  | elseTrue {a site cond body otherwise s t} (h : sem.holds a cond s = true)
      (hb : Exec sem (a + 2 * cond.words + 2) body (sem.tested a cond s) t) :
      Exec sem a [.ifElse site cond body otherwise] s t
  | elseFalse {a site cond body otherwise s t} (h : sem.holds a cond s = false)
      (ho : Exec sem (a + 2 * cond.words + 2 + totalSize body + 2) otherwise
        (sem.tested a cond s) t) :
      Exec sem a [.ifElse site cond body otherwise] s t
  /-- a loop that nothing leaves: there is no last round -/
  | loop {a site body s t u} (hb : Exec sem a body s t) (hagain : Exec sem a [.loop site body] t u) :
      Exec sem a [.loop site body] s u
  | untilTrue {a site body cond s t} (hb : Exec sem a body s t)
      (h : sem.holds (a + totalSize body) cond t = true) :
      Exec sem a [.loopUntil site body cond] s (sem.tested (a + totalSize body) cond t)
  | untilFalse {a site body cond s t u} (hb : Exec sem a body s t)
      (h : sem.holds (a + totalSize body) cond t = false)
      (hagain : Exec sem a [.loopUntil site body cond] (sem.tested (a + totalSize body) cond t) u) :
      Exec sem a [.loopUntil site body cond] s u
  | whileTrue {a site cond body s t u} (h : sem.holds a cond s = true)
      (hb : Exec sem (a + 2 * cond.words + 2) body (sem.tested a cond s) t)
      (hagain : Exec sem a [.whileDo site cond body] t u) : Exec sem a [.whileDo site cond body] s u
  | whileFalse {a site cond body s} (h : sem.holds a cond s = false) :
      Exec sem a [.whileDo site cond body] s (sem.tested a cond s)

end Execution

end OctoAsm
