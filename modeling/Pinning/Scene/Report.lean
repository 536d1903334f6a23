import Pinning.Scene.Views
import Pinning.Session

/-!
What a run reports: every view with its frame, in the order of declaration, and every warning with
the view it concerns.
-/

namespace Pinning

variable {α : Type}

structure NodeReport (α : Type) where
  name : String
  parent : Option String
  /-- How many views it lies in. -/
  depth : Nat
  /-- The frame in the coordinates of the parent. -/
  frame : Rect α
deriving DecidableEq

structure WarningReport (α : Type) where
  node : String
  warning : Warning α
deriving DecidableEq

structure Report (α : Type) where
  nodes : List (NodeReport α)
  warnings : List (WarningReport α)
deriving DecidableEq

namespace Report

/-- The frame of the first view of this name. -/
def frame? (r : Report α) (name : String) : Option (Rect α) :=
  (r.nodes.find? (·.name = name)).map (·.frame)

variable [Scalar α]

open Scalar (text)

/-- The views of a scene with their frames as they are. -/
def nodesOf (s : Scene α) : List (NodeReport α) :=
  s.order.map fun (id, depth) =>
    { name := s.tree.name id
      parent := (s.tree.parent? id).map s.tree.name
      depth
      frame := s.tree.frame id }

def nodeLine (n : NodeReport α) : String :=
  let f := n.frame
  String.join (List.replicate n.depth "  ") ++ n.name ++ ": x=" ++ text f.origin.x ++ " y="
    ++ text f.origin.y ++ " w=" ++ text f.size.width ++ " h=" ++ text f.size.height ++ "\n"

def warningLine (w : WarningReport α) : String :=
  "  " ++ w.node ++ ": " ++ w.warning.describe ++ "\n"

/-- The report for reading: a line for each view, indented by depth, and then the warnings. -/
def toText (r : Report α) : String :=
  String.join (r.nodes.map nodeLine) ++
    if r.warnings.isEmpty then ""
    else "warnings:\n" ++ String.join (r.warnings.map warningLine)

end Report

end Pinning
