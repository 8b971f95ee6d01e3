/-
  Control flow, and images of whole programs.

  Jumps forward are emitted as holes of two bytes and patched once their target is reached.  A
  failure is blamed on the innermost item that it happened in.
-/
import OctoAsm.Image.Code

namespace OctoAsm

/-- A diagnostic of the emission. -/
abbrev EmitError := Diagnostic EmitCause

/-- The wording of an emission diagnostic. -/
def EmitError.message (e : EmitError) : String := e.textFirst EmitCause.describe

/-- Blames a failure on an item. -/
def Site.blame {α : Type} (site : Site) : Except EmitCause α → Except EmitError α
  | .ok a => .ok a
  | .error cause => .error ⟨site.line, site.text, cause⟩

namespace Run

mutual

/-- Appends an item. -/
def item (run : Run) (d : Draft) : Item → Except EmitError Draft
  | .leaf site l => site.blame (run.leaf d l)
  | .ifThen site cond body => do
    let start ← site.blame (run.skip d cond false)
    let d ← block run start body
    let size := d.bytes.size - start.bytes.size
    if size = 2 then return d else site.blame (.error (.thenNotSingle size))
  | .ifBegin site cond body => do
    let d ← site.blame (run.skip d cond true)
    let toEnd := d.bytes.size
    let d ← site.blame (run.hole d)
    let d ← block run d body
    site.blame (run.patch d toEnd)
  | .ifElse site cond body otherwise => do
    let d ← site.blame (run.skip d cond true)
    let toElse := d.bytes.size
    let d ← site.blame (run.hole d)
    let d ← block run d body
    let toEnd := d.bytes.size
    let d ← site.blame (run.hole d)
    let d ← site.blame (run.patch d toElse)
    let d ← block run d otherwise
    site.blame (run.patch d toEnd)
  | .loop site body => do
    let start := run.pc d
    let d ← block run d body
    site.blame (run.jump d start)
  | .loopUntil site body cond => do
    let start := run.pc d
    let d ← block run d body
    let d ← site.blame (run.skip d cond false)
    let toEnd := d.bytes.size
    let d ← site.blame (run.hole d)
    let d ← site.blame (run.jump d start)
    site.blame (run.patch d toEnd)
  | .whileDo site cond body => do
    let start := run.pc d
    let d ← site.blame (run.skip d cond true)
    let toEnd := d.bytes.size
    let d ← site.blame (run.hole d)
    let d ← block run d body
    let d ← site.blame (run.jump d start)
    site.blame (run.patch d toEnd)

/-- Appends items in a row. -/
def block (run : Run) (d : Draft) : List Item → Except EmitError Draft
  | [] => .ok d
  | i :: rest => do block run (← item run d i) rest

end

end Run

/-- The addresses of all labels: the result of the first pass. -/
def layOut (options : Options) (items : List Item) : Except EmitError Draft :=
  Run.block ⟨options, .layout⟩ .empty items

/-- The second pass: the labels are known, the bytes start anew. -/
def emit (options : Options) (laid : Draft) (items : List Item) : Except EmitError Draft :=
  Run.block ⟨options, .emit⟩ { laid with bytes := #[] } items

/-- A finished draft: each label keeps its first address. -/
def Draft.finish (d : Draft) (origin : Nat) : Image where
  origin
  bytes := d.bytes
  labels := d.labels.filterMap fun entry => entry.2.head?.map fun a => (entry.1, a)
  breakpoints := d.breakpoints.reverse
  monitors := d.monitors.reverse

/-- The image of a resolved program. -/
def Image.ofItems (options : Options) (items : List Item) : Except EmitError Image := do
  let laid ← layOut options items
  let emitted ← emit options laid items
  return emitted.finish options.origin

end OctoAsm
