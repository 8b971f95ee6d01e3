/-
  Paths of files.  Two paths are the same when they have the same components: repeated slashes, a
  slash at the end and single dots do not count, except for a dot that begins a path.
-/

namespace OctoAsm.Command

/-- The pieces of a text between slashes. -/
def pieces : List Char → List (List Char)
  | [] => [[]]
  | c :: cs =>
    match c, pieces cs with
    | '/', rest => [] :: rest
    | c, piece :: rest => (c :: piece) :: rest
    | c, [] => [[c]]

/-- A path by its components. -/
structure Path where
  /-- begins with a slash -/
  absolute : Bool
  /-- begins with a single dot -/
  here : Bool
  /-- the components, without single dots -/
  parts : List String
deriving DecidableEq, Repr

/-- The components of a path as written. -/
def Path.ofString (text : String) : Path :=
  let all := pieces text.toList
  { absolute := text.toList.head? = some '/'
    here := all.head? = some ['.']
    parts := (all.filter fun p => !p.isEmpty && p != ['.']).map String.ofList }

/-- A name without its extension: up to the last dot, unless the name begins with that dot. -/
def stem (name : List Char) : List Char :=
  if name = ['.', '.'] then name
  else
    let before := ((name.reverse.dropWhile (· != '.')).drop 1).reverse
    if before.isEmpty then name else before

/-- A path given back to front, without the slashes and single dots at its end. -/
def dropEnding : List Char → List Char
  | '/' :: rest => dropEnding rest
  | '.' :: '/' :: rest => dropEnding rest
  | rest => rest

/-- How a path ends.  After a slash nothing but a directory may stand. -/
inductive Ending where
  | name
  | slash
  /-- a single dot -/
  | dot
deriving DecidableEq, Repr

/-- The ending of a path. -/
def Ending.ofPath (text : String) : Ending :=
  let back := text.toList.reverse
  match back.dropWhile (· == '/') with
  | ['.'] => .dot
  | '.' :: '/' :: _ => .dot
  | _ => if back.head? = some '/' then .slash else .name

/-- The path with the extension of its last name replaced, or added if it has none. -/
def withExtension (text extension : String) : String :=
  let kept := dropEnding text.toList.reverse
  let name := (kept.takeWhile (· != '/')).reverse
  let folder := (kept.dropWhile (· != '/')).reverse
  if name.isEmpty || name = ['.'] || name = ['.', '.'] then text
  else String.ofList (folder ++ stem name) ++ "." ++ extension

example : withExtension "d.e/x" "ch8" = "d.e/x.ch8" := by decide
example : withExtension ".x.y" "ch8" = ".x.ch8" ∧ withExtension ".x" "ch8" = ".x.ch8" := by decide
example : Ending.ofPath "d/a//" = .slash ∧ Ending.ofPath "d/./" = .dot := by decide
example : Ending.ofPath "d/.." = .name := by decide
example : Path.ofString "d//./a/" = Path.ofString "d/a" ∧ Path.ofString "./a" ≠ Path.ofString "a" := by
  decide

end OctoAsm.Command
