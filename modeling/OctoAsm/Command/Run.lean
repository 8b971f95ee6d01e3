/-
  The command: reads a source, assembles it, and writes the image and the listing.

  All decisions are made before anything is written.  The input and its assembly give a plan, a list
  of writes, or an error without any write; then the writes are made in order, up to the first that
  fails.
-/
import OctoAsm.Assemble
import OctoAsm.Command.Files
import OctoAsm.Command.Words

namespace OctoAsm.Command

/-- Why a command fails. -/
inductive CommandError where
  | cannotRead (source : String) (fault : FileFault)
  | assemble (e : AssembleError)
  | wouldOverwrite (path : String)
  | cannotWrite (path : String) (fault : FileFault)
deriving DecidableEq, Repr

/-- The wording of a failure. -/
def CommandError.message : CommandError → String
  | .cannotRead source fault => s!"error: cannot read {source}: {fault.message}"
  | .assemble e => s!"error: {e.message}"
  | .wouldOverwrite path => s!"error: output would overwrite the input {path}"
  | .cannotWrite path fault => s!"error: cannot write {path}: {fault.message}"

/-- Where something is written. -/
inductive Sink where
  | stdout
  | file (path : String)
deriving DecidableEq, Repr

/-- Something to be written. -/
structure Write where
  sink : Sink
  content : ByteArray

/-! ## The plan -/

namespace Arguments

variable (a : Arguments)

/-- The options of the assembly. -/
def options : Options := { origin := a.origin.getD 0x200, defines := a.defines }

/-- The name of the source in diagnostics. -/
def sourceName : String := a.input.getD "stdin"

/-- The path of the image: as given, else the input with another extension; none is standard
    output. -/
def outputPath : Option String := a.output.or (a.input.map (withExtension · "ch8"))

/-- The image would go where the source is. -/
def overwrites (path : String) : Bool :=
  match a.input with
  | some input => Path.ofString input == Path.ofString path
  | none => false

/-- Content as text. -/
def decode (content : ByteArray) : Except FileFault String :=
  match String.fromUTF8? content with
  | some text => .ok text
  | none => .error .invalidText

/-- Where the image goes. -/
def imageSink : Except CommandError Sink :=
  match a.outputPath with
  | none => .ok .stdout
  | some path => if a.overwrites path then .error (.wouldOverwrite path) else .ok (.file path)

/-- The writes for an image: its bytes, then the listing if it is asked for. -/
def writes (sink : Sink) (image : Image) : List Write :=
  ⟨sink, ⟨image.bytes⟩⟩ ::
    (a.symbols.map fun path => Write.mk (.file path) image.symbols.toUTF8).toList

/-- What is to be written for the given content of the source. -/
def plan (content : Except FileFault ByteArray) : Except CommandError (List Write) := do
  let source ← (content >>= decode).mapError (.cannotRead a.sourceName)
  let image ← (OctoAsm.assemble source a.options).mapError .assemble
  let sink ← a.imageSink
  return a.writes sink image

end Arguments

/-! ## The run -/

/-- What a command leaves behind. -/
structure Outcome where
  exit : Nat
  stdout : ByteArray
  message : Option String
  files : Files

/-- Makes writes in order, up to the first that fails. -/
def perform : Files → ByteArray → List Write → Outcome
  | files, out, [] => ⟨0, out, none, files⟩
  | files, out, w :: rest =>
    match w.sink with
    | .stdout => perform files (out ++ w.content) rest
    | .file path =>
      match files.write path w.content with
      | .ok files => perform files out rest
      | .error fault => ⟨1, out, some (CommandError.cannotWrite path fault).message, files⟩

/-- Runs the command with accepted arguments. -/
def Arguments.run (a : Arguments) (files : Files) (stdin : ByteArray) : Outcome :=
  let content := match a.input with
    | some path => files.read path
    | none => .ok stdin
  match a.plan content with
  | .ok writes => perform files .empty writes
  | .error e => ⟨1, .empty, some e.message, files⟩

/-- Runs the command with the words of a command line.  Refused ones exit with 2, and nothing is read
    or written. -/
def run (args : List String) (files : Files) (stdin : ByteArray) : Outcome :=
  match Arguments.ofList? args with
  | some a => a.run files stdin
  | none => ⟨2, .empty, none, files⟩

end OctoAsm.Command
