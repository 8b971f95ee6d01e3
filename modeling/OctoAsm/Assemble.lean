/-
  The whole way from source text to image: tokens, statements, resolved items, bytes.  The first
  stage that fails decides the diagnostic.
-/
import OctoAsm.Image.Emit
import OctoAsm.Resolve.Expansion
import OctoAsm.Statement.Parser
import OctoAsm.Token.Lexer

namespace OctoAsm

/-- A diagnostic of any stage. -/
inductive AssembleError where
  | lex (e : LexError)
  | parse (e : ParseError)
  | resolve (e : ResolveError)
  | emit (e : EmitError)
deriving DecidableEq, Repr

namespace AssembleError

/-- The source line that is blamed. -/
def line : AssembleError → Nat
  | .lex e => e.line
  | .parse e => e.line
  | .resolve e => e.line
  | .emit e => e.line

/-- The piece of source that is blamed. -/
def text : AssembleError → String
  | .lex e => e.text
  | .parse e => e.text
  | .resolve e => e.text
  | .emit e => e.text

/-- The wording. -/
def message : AssembleError → String
  | .lex e => LexError.message e
  | .parse e => ParseError.message e
  | .resolve e => ResolveError.message e
  | .emit e => EmitError.message e

end AssembleError

/-- The statements of a source text. -/
def readSource (source : String) : Except AssembleError (List Statement) := do
  let tokens ← (tokenize source).mapError .lex
  (parse tokens).mapError .parse

/-- The resolved items of a source text. -/
def resolveSource (source : String) (options : Options) : Except AssembleError (List Item) := do
  let program ← readSource source
  (resolve options program).mapError .resolve

/-- Assembles a source text. -/
def assemble (source : String) (options : Options) : Except AssembleError Image := do
  let items ← resolveSource source options
  (Image.ofItems options items).mapError .emit

end OctoAsm
