/-
  The command line: reads the source, asks for the plan, and makes the writes.
-/
import OctoAsm.Command.Run

namespace OctoAsm.Command

/-- The fault behind a failed operation on a file. -/
def faultOf : IO.Error → FileFault
  | .inappropriateType _ code _ => if code = 20 then .notDirectory else .isDirectory
  | .invalidArgument _ code _ => if code = 36 then .nameTooLong else .notFound
  | _ => .notFound

/-- All that is left on a stream. -/
partial def readRest (stream : IO.FS.Stream) (content : ByteArray) : IO ByteArray := do
  let chunk ← stream.read 65536
  if chunk.isEmpty then return content else readRest stream (content ++ chunk)

/-- The content of the source. -/
def readInput (input : Option String) : IO (Except FileFault ByteArray) := do
  try
    match input with
    | some path => return .ok (← IO.FS.readBinFile path)
    | none => return .ok (← readRest (← IO.getStdin) .empty)
  catch e => return .error (faultOf e)

/-- Makes one write. -/
def Write.perform (w : Write) : IO (Except CommandError Unit) :=
  match w.sink with
  | .stdout => do
    (← IO.getStdout).write w.content
    return .ok ()
  | .file path => do
    try
      IO.FS.writeBinFile path w.content
      return .ok ()
    catch e => return .error (.cannotWrite path (faultOf e))

/-- Reports a failure. -/
def report (e : CommandError) : IO UInt32 := do
  IO.eprintln e.message
  return 1

/-- Makes writes in order, up to the first that fails. -/
def writeAll : List Write → IO UInt32
  | [] => return 0
  | w :: rest => do
    match ← w.perform with
    | .ok () => writeAll rest
    | .error e => report e

end OctoAsm.Command

open OctoAsm.Command in
/-- The command. -/
def main (args : List String) : IO UInt32 := do
  match Arguments.ofList? args with
  | none =>
    IO.eprintln "error: invalid arguments"
    return 2
  | some a =>
    match a.plan (← readInput a.input) with
    | .ok writes => writeAll writes
    | .error e => report e
