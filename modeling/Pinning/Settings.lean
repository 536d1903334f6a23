import Pinning.Config
import Pinning.Scalar.Double
import Pinning.Toml.Reader

/-!
Settings files. A file has at most one table, `layout`, with at most three entries; what it leaves
out stays as in the standard configuration. The table can also be written as an array of all three
values in order.
-/

namespace Pinning

inductive SettingsError where
  /-- The text is no TOML, or holds something else than settings of the right types. -/
  | malformed
  | badDirection (name : String)
  | badTolerance (tolerance : Float)
deriving DecidableEq

namespace SettingsError

def message : SettingsError → String
  | malformed => "Failed to parse config TOML"
  | badDirection name => "Unknown layout direction '" ++ name ++ "' (expected 'ltr' or 'rtl')"
  | badTolerance t => "Tolerance must be a non-negative number, got " ++ Scalar.text t

end SettingsError

/-- The settings of a file as they are written. -/
structure Settings where
  tolerance : Option Float := none
  direction : Option String := none
  logsWarnings : Option Bool := none

namespace Settings

open Toml

def float? : Value → Option Float
  | .float x => some x
  | .integer n =>
    let x := Decimal.toFloat ⟨n.natAbs, 0⟩
    some (if n < 0 then -x else x)
  | _ => none

def entry? (s : Settings) (key : String) (v : Value) : Option Settings :=
  match key, v with
  | "tolerance", v => (float? v).map fun x => { s with tolerance := some x }
  | "direction", .string d => some { s with direction := some d }
  | "log_warnings", .boolean b => some { s with logsWarnings := some b }
  | _, _ => none

def ofLayout? : Value → Option Settings
  | .table _ entries => entries.foldlM (fun s (key, v) => s.entry? key v) {}
  | .array (tolerance :: direction :: logsWarnings :: _) =>
    [("tolerance", tolerance), ("direction", direction), ("log_warnings", logsWarnings)].foldlM
      (fun s (key, v) => s.entry? key v) {}
  | _ => none

def ofEntries? : Entries → Option Settings
  | [] => some {}
  | [("layout", layout)] => ofLayout? layout
  | _ => none

/-- The configuration, if the settings make sense. -/
def config (s : Settings) : Except SettingsError (Config Float) := do
  let base : Config Float := .standard
  let tolerance ← match s.tolerance with
    | some t => if 0 ≤ t then pure t else throw (.badTolerance t)
    | none => pure base.tolerance
  let direction ← match s.direction with
    | some name =>
      match Direction.ofName? name with
      | some d => pure (some d)
      | none => throw (.badDirection name)
    | none => pure base.direction
  return ⟨tolerance, direction, s.logsWarnings.getD base.logsWarnings⟩

end Settings

/-- The configuration that a settings file describes. -/
def Config.read (text : String) : Except SettingsError (Config Float) :=
  match (Toml.read? text).bind Settings.ofEntries? with
  | some settings => settings.config
  | none => .error .malformed

end Pinning
