/-
  Diagnostics: the source line, the piece of source they are about, and a cause.  Each stage of the
  assembler has its own type of causes and its own wording.
-/

namespace OctoAsm

/-- A cause tied to a source line and to the text found there. -/
structure Diagnostic (κ : Type) where
  line : Nat
  text : String
  cause : κ
deriving DecidableEq, Repr

/-- The wording that puts the text before the cause. -/
def Diagnostic.textFirst {κ : Type} (describe : κ → String) (d : Diagnostic κ) : String :=
  s!"line {d.line}: `{d.text}`: {describe d.cause}"

end OctoAsm
