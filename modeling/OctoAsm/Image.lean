/-
  Images: the bytes of an assembled program with what a debugger needs to know about them, and the
  plain-text listing of the latter.
-/
import OctoAsm.Program
import OctoAsm.Text.Numeral

namespace OctoAsm

/-- What a monitor watches. -/
inductive MonitorBase where
  | register (r : Fin 16)
  | address (a : Nat)
deriving DecidableEq, Repr

/-- A monitor of an assembled program. -/
structure Monitor where
  base : MonitorBase
  format : MonitorFormat
deriving DecidableEq, Repr

/-- An assembled program. -/
structure Image where
  /-- address of the first byte -/
  origin : Nat
  bytes : Array UInt8
  /-- the first address of every label, in the order of their first declarations -/
  labels : List (String × Nat)
  breakpoints : List (String × Nat)
  monitors : List Monitor
deriving DecidableEq, Repr

/-- The address of a label. -/
def Image.label? (image : Image) (name : String) : Option Nat := image.labels.lookup name

/-! ## The listing -/

/-- An address as the listing shows it: at least three digits. -/
def addressText (a : Nat) : String := Text.hex 3 a

/-- The line of a label. -/
def labelLine (entry : String × Nat) : String := s!"{addressText entry.2} {entry.1}\n"

/-- The line of a breakpoint. -/
def breakpointLine (entry : String × Nat) : String :=
  s!"{addressText entry.2} breakpoint {entry.1}\n"

/-- What a monitor watches, as the listing shows it. -/
def MonitorBase.render : MonitorBase → String
  | .register r => "v" ++ Text.upperHexDigits 1 r.val
  | .address a => addressText a

/-- The line of a monitor. -/
def monitorLine (m : Monitor) : String :=
  match m.format with
  | .length n => s!"monitor {m.base.render} {n}\n"
  | .format text => s!"monitor {m.base.render} \"{text}\"\n"

/-- The listing of labels, breakpoints and monitors. -/
def Image.symbols (image : Image) : String :=
  String.join (image.labels.map labelLine ++ image.breakpoints.map breakpointLine ++
    image.monitors.map monitorLine)

end OctoAsm
