import Pinning.Scene.Report
import Pinning.Toml.Writer

/-!
The report as a TOML document: an array of nodes and an array of warnings.
-/

namespace Pinning.Report

open Toml

def rectSection (f : Rect Float) : Section :=
  { key := "frame", repeated := false, values := []
    sections :=
      [⟨"origin", false, [("x", .float f.origin.x), ("y", .float f.origin.y)], []⟩,
        ⟨"size", false, [("width", .float f.size.width), ("height", .float f.size.height)], []⟩] }

def nodeSection (n : NodeReport Float) : Section :=
  { key := "nodes", repeated := true
    values := ("name", .string n.name) :: (n.parent.map fun p => ("parent", .string p)).toList
    sections := [rectSection n.frame] }

def warningSection (w : WarningReport Float) : Section :=
  { key := "warnings", repeated := true
    values :=
      [("node", .string w.node), ("category", .string w.warning.category.name),
        ("message", .string w.warning.message)]
    sections := [] }

/-- The whole report; an array without elements is written as a value. -/
def document (r : Report Float) : Document where
  values :=
    (if r.nodes.isEmpty then [("nodes", .emptyArray)] else []) ++
      if r.warnings.isEmpty then [("warnings", .emptyArray)] else []
  sections := r.nodes.map nodeSection ++ r.warnings.map warningSection

def toToml (r : Report Float) : String := r.document.text

end Pinning.Report
