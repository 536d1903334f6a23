import Pinning.Axis

/-!
Slots: the quantities of a frame that directives fix.
-/

namespace Pinning

inductive Slot where
  | line (axis : Axis) (line : Line)
  | size (axis : Axis)
  | minSize (axis : Axis)
  | maxSize (axis : Axis)
  | marginLow (axis : Axis)
  | marginHigh (axis : Axis)
  | aspectRatio
deriving DecidableEq, Repr

namespace Axis

def lineName : Axis → Line → String
  | horizontal, .low => "left"
  | horizontal, .mid => "h_center"
  | horizontal, .high => "right"
  | vertical, .low => "top"
  | vertical, .mid => "v_center"
  | vertical, .high => "bottom"

def sizeName : Axis → String
  | horizontal => "width"
  | vertical => "height"

/-- The directive that places a frame between the two edges of this axis. -/
def spanAlignName : Axis → String
  | horizontal => "justify"
  | vertical => "align"

end Axis

namespace Slot

def all : List Slot :=
  aspectRatio :: [Axis.horizontal, .vertical].flatMap fun a =>
    [line a .low, line a .mid, line a .high, size a, minSize a, maxSize a, marginLow a,
      marginHigh a]

def name : Slot → String
  | line a l => a.lineName l
  | size a => a.sizeName
  | minSize a => "min_" ++ a.sizeName
  | maxSize a => "max_" ++ a.sizeName
  | marginLow a => "margin_" ++ a.lineName .low
  | marginHigh a => "margin_" ++ a.lineName .high
  | aspectRatio => "aspect_ratio"

def ofName? (name : String) : Option Slot := all.find? (·.name = name)

end Slot

end Pinning
