import Pinning.Geometry

/-!
Anchors: the nine points where the lines of a frame cross, and their names by reading direction.
-/

namespace Pinning

variable {α : Type} [Scalar α]

structure Anchor where
  vertical : Line
  horizontal : Side
deriving DecidableEq, Repr

namespace Anchor

def all : List Anchor :=
  [.low, .mid, .high].flatMap fun v =>
    [.fixed .low, .fixed .mid, .fixed .high, .start, .finish].map fun h => ⟨v, h⟩

def name (a : Anchor) : String :=
  match a with
  | ⟨.mid, .fixed .mid⟩ => "center"
  | ⟨v, h⟩ => verticalName v ++ "_" ++ horizontalName h
where
  verticalName : Line → String
    | .low => "top"
    | .mid => "center"
    | .high => "bottom"
  horizontalName : Side → String
    | .fixed .low => "left"
    | .fixed .mid => "center"
    | .fixed .high => "right"
    | .start => "start"
    | .finish => "end"

def ofName? (name : String) : Option Anchor := all.find? (·.name = name)

/-- The point of the anchor on a frame. -/
def point (a : Anchor) (d : Direction) (frame : Rect α) : Point α :=
  ⟨frame.line .horizontal (a.horizontal.line d), frame.line .vertical a.vertical⟩

end Anchor

end Pinning
