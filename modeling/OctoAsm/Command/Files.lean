/-
  A directory of files, as a command finds and leaves it.

  Files are kept by the components of their paths from that directory.  A file in a directory above
  begins with two dots for every step up, a file of the root with a slash.  The directories are those
  that lead to a file, those above, and the root.
-/
import OctoAsm.Command.Path

namespace OctoAsm.Command

/-- Why a file cannot be read or written. -/
inductive FileFault where
  | notFound
  | isDirectory
  | notDirectory
  | nameTooLong
  | invalidText
deriving DecidableEq, Repr

/-- The fault as a diagnostic words it. -/
def FileFault.message : FileFault → String
  | .notFound => "No such file or directory (os error 2)"
  | .isDirectory => "Is a directory (os error 21)"
  | .notDirectory => "Not a directory (os error 20)"
  | .nameTooLong => "File name too long (os error 36)"
  | .invalidText => "stream did not contain valid UTF-8"

/-- The contents of files, by the components of their paths. -/
abbrev Files := List (List String × ByteArray)

namespace Files

/-- The content of a file. -/
def get? (files : Files) (parts : List String) : Option ByteArray := files.lookup parts

/-- Gives a file new content, or adds it. -/
def set (parts : List String) (content : ByteArray) : Files → Files
  | [] => [(parts, content)]
  | (p, old) :: rest => if p = parts then (p, content) :: rest else (p, old) :: set parts content rest

/-- A path that leads to a file without being one, or that leads upwards only. -/
def isDirectory (files : Files) (parts : List String) : Bool :=
  parts.all (· == "..") || parts == ["/"] ||
    files.any fun f => parts.isPrefixOf f.1 && parts != f.1

/-- The files in the directory itself and in those below. -/
def inside (files : Files) : Files :=
  files.filter fun f => f.1.head? != some ".." && f.1.head? != some "/"

/-- One step up, from a place given back to front.  Above the root lies the root. -/
def parent : List String → List String
  | [] => [".."]
  | ".." :: outer => ".." :: ".." :: outer
  | "/" :: outer => "/" :: outer
  | _ :: outer => outer

/-- The bytes that the name of a file may have. -/
def maxNameSize : Nat := 255

/-- The last name of a place is short enough for a file. -/
def nameFits (parts : List String) : Bool :=
  match parts.getLast? with
  | some name => name.utf8ByteSize ≤ maxNameSize
  | none => true

/-- The fault of a place where nothing is. -/
def missing (parts : List String) : FileFault :=
  if nameFits parts then .notFound else .nameTooLong

/-- Walks along components from a place, given back to front.  Two dots lead up. -/
def walk (files : Files) : List String → List String → Except FileFault (List String)
  | reached, [] => .ok reached.reverse
  | reached, part :: rest =>
    if files.isDirectory reached.reverse then
      walk files (if part = ".." then parent reached else part :: reached) rest
    else if (files.get? reached.reverse).isSome then .error .notDirectory
    else .error (missing reached.reverse)

/-- The bytes that a path must stay below. -/
def maxPathSize : Nat := 4096

/-- Where a path leads. -/
def locate (files : Files) (path : String) : Except FileFault (List String) :=
  let p := Path.ofString path
  if path.utf8ByteSize < maxPathSize then files.walk (if p.absolute then ["/"] else []) p.parts
  else .error .nameTooLong

/-- Reads a file.  A path that ends in a slash or a dot asks for a directory. -/
def read (files : Files) (path : String) : Except FileFault ByteArray := do
  let parts ← files.locate path
  match files.get? parts with
  | some content => if Ending.ofPath path = .name then return content else throw .notDirectory
  | none => if files.isDirectory parts then throw .isDirectory else throw (missing parts)

/-- Writes a file whose directory exists.  A slash at the end names a directory to be, a dot a
    directory that is. -/
def write (files : Files) (path : String) (content : ByteArray) : Except FileFault Files := do
  let parts ← files.locate path
  if files.isDirectory parts then throw .isDirectory
  else
    match Ending.ofPath path, files.get? parts with
    | .name, _ => if nameFits parts then return files.set parts content else throw .nameTooLong
    | .slash, _ => throw .isDirectory
    | .dot, some _ => throw .notDirectory
    | .dot, none => throw (missing parts)

/-! ## What is read after a write -/

theorem get?_set_self (files : Files) (parts : List String) (content : ByteArray) :
    (files.set parts content).get? parts = some content := by
  induction files with
  | nil => simp [set, get?]
  | cons f rest ih =>
    obtain ⟨p, old⟩ := f
    by_cases h : p = parts
    · simp [set, get?, h]
    · have hne : (parts == p) = false := by simpa using fun e => h e.symm
      simpa [set, get?, h, List.lookup_cons, hne] using ih

theorem get?_set_of_ne (files : Files) {parts other : List String} (content : ByteArray)
    (h : other ≠ parts) : (files.set parts content).get? other = files.get? other := by
  have hne : (other == parts) = false := by simpa using h
  induction files with
  | nil => simp [set, get?, List.lookup_cons, hne]
  | cons f rest ih =>
    obtain ⟨p, old⟩ := f
    simp only [get?] at ih
    by_cases hp : p = parts
    · simp [set, get?, hp, List.lookup_cons, hne]
    · simp [set, get?, hp, List.lookup_cons, ih]

end Files

end OctoAsm.Command
