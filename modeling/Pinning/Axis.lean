/-!
Directions on the plane: the two axes, the lines a frame has across each of them, and the reading
direction, which decides what `start` and `end` mean.
-/

namespace Pinning

inductive Axis where
  | horizontal
  | vertical
deriving DecidableEq, Repr

/-- One of the three lines of a frame across an axis: left, center and right, or top, center and
bottom. -/
inductive Line where
  | low
  | mid
  | high
deriving DecidableEq, Repr

inductive Direction where
  | ltr
  | rtl
deriving DecidableEq, Repr

namespace Direction

/-- The side where reading starts. -/
def leading : Direction → Line
  | ltr => .low
  | rtl => .high

/-- The side where reading ends. -/
def trailing : Direction → Line
  | ltr => .high
  | rtl => .low

def name : Direction → String
  | ltr => "ltr"
  | rtl => "rtl"

def ofName? : String → Option Direction
  | "ltr" => some ltr
  | "rtl" => some rtl
  | _ => none

end Direction

/-- A line across the horizontal axis as scripts name it: by its place or by the reading
direction. -/
inductive Side where
  | fixed (line : Line)
  | start
  | finish
deriving DecidableEq, Repr

namespace Side

def line (d : Direction) : Side → Line
  | fixed l => l
  | start => d.leading
  | finish => d.trailing

/-- The side an edge name stands for. -/
def ofEdgeName? : String → Option Side
  | "left" => some (fixed .low)
  | "h_center" | "hcenter" => some (fixed .mid)
  | "right" => some (fixed .high)
  | "start" => some start
  | "end" => some finish
  | _ => none

/-- The side an alignment word stands for. -/
def ofAlignName? : String → Option Side
  | "left" => some (fixed .low)
  | "center" => some (fixed .mid)
  | "right" => some (fixed .high)
  | "start" => some start
  | "end" => some finish
  | _ => none

end Side

namespace Line

/-- The line across the vertical axis that an edge name stands for. -/
def ofEdgeName? : String → Option Line
  | "top" => some low
  | "v_center" | "vcenter" => some mid
  | "bottom" => some high
  | _ => none

/-- The line across the vertical axis that an alignment word stands for. -/
def ofAlignName? : String → Option Line
  | "top" => some low
  | "center" => some mid
  | "bottom" => some high
  | _ => none

end Line

end Pinning
