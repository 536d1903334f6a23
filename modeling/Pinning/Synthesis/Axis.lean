import Pinning.Constraints
import Pinning.Geometry
import Pinning.Warning

/-!
One axis of a frame, worked out on its own: the size first, then the origin.

A size is determined by the first of these that is there: a size set by a directive, the content's
size where that is asked for, both edges, an edge and the center. Otherwise the caller supplies
one. Then the limits apply, the lower one last. The low edge wins over the high edge, an edge over
the center, and without any of the three the origin stays where it is.
-/

namespace Pinning

variable {α : Type}

/-- What the frame is worked out from, besides the constraints. -/
structure Subject (α : Type) where
  current : Rect α
  content : Option (Size α)
  /-- Coordinates no further apart than this count as equal when warnings are considered. -/
  tolerance : α

/-- The part of the constraints and of the node that concerns one axis. -/
structure AxisProblem (α : Type) where
  axis : Axis
  low : Option α
  mid : Option α
  high : Option α
  size : Option α
  minSize : Option α
  maxSize : Option α
  marginLow : Option α
  marginHigh : Option α
  spanAlign : Option Line
  content : Option α
  current : Extent α

namespace AxisProblem

def of (c : Constraints α) (s : Subject α) (a : Axis) : AxisProblem α where
  axis := a
  low := c.value (.line a .low)
  mid := c.value (.line a .mid)
  high := c.value (.line a .high)
  size := c.value (.size a)
  minSize := c.value (.minSize a)
  maxSize := c.value (.maxSize a)
  marginLow := c.value (.marginLow a)
  marginHigh := c.value (.marginHigh a)
  spanAlign := c.spanAlign a
  content := if c.fitsContent then s.content.map (·.along a) else none
  current := s.current.extent a

variable [Scalar α] (p : AxisProblem α)

/-- The margin at the low edge. -/
def lowInset : α := p.marginLow.getD 0

/-- The margin at the high edge. -/
def highInset : α := p.marginHigh.getD 0

/-- The size that the lines of this axis imply, negative or not. -/
def impliedSize? : Option (SizeRule × α) :=
  match p.low, p.mid, p.high with
  | some low, _, some high => some (.edges, high - low - p.lowInset - p.highInset)
  | some low, some mid, none => some (.edgeAndCenter, 2 * (mid - (low + p.lowInset)))
  | none, some mid, some high => some (.edgeAndCenter, 2 * ((high - p.highInset) - mid))
  | _, _, _ => none

/-- The size that this axis determines by itself. -/
def determinedSize? : Option (SizeRule × α) :=
  match p.size, p.content with
  | some size, _ => some (.explicit, size)
  | none, some size => some (.content, size)
  | none, none => p.impliedSize?.map fun (rule, size) => (rule, if size < 0 then 0 else size)

/-- The size within the limits; the lower limit wins over the upper. -/
def clamp (size : α) : α :=
  let size := p.maxSize.elim size (Scalar.min size)
  p.minSize.elim size (Scalar.max size)

def origin (size : α) : α :=
  match p.low, p.mid, p.high with
  | some low, _, some high =>
    let low := low + p.lowInset
    let high := high - p.highInset
    match p.spanAlign with
    | none | some .low => low
    | some .mid => low + (high - low - size) / 2
    | some .high => high - size
  | some low, _, none => low + p.lowInset
  | none, _, some high => high - size - p.highInset
  | none, some mid, none => mid - size / 2
  | none, none, none => p.current.origin

/-- The extent for a wanted size, the current size if there is none. -/
def settle (size : Option α) : Extent α :=
  let size := p.clamp (size.getD p.current.length)
  ⟨p.origin size, size⟩

/-! What is reported of an axis: first about its size, and once the extent stands, about that. -/

def sizeWarnings : List (Warning α) :=
  match p.size, p.content, p.impliedSize? with
  | none, none, some (rule, size) => if size < 0 then [.negativeImplied p.axis rule size] else []
  | _, _, _ => []

/-- A size that was asked for leaves no room for the high edge, unless an alignment says how the
frame stands between its edges. -/
def edgeWarnings (tolerance : α) : List (Warning α) :=
  match p.low, p.high, p.determinedSize? with
  | some low, some high, some (rule, size) =>
    let implied := high - low - p.lowInset - p.highInset
    if (rule = .explicit ∨ rule = .content) ∧ p.spanAlign = none
        ∧ tolerance < Scalar.abs (implied - size) then
      [.edgesDisagree p.axis size implied]
    else []
  | _, _, _ => []

def centerWarnings (tolerance : α) (e : Extent α) : List (Warning α) :=
  match p.mid with
  | none => []
  | some mid =>
    if (p.low.isSome ∨ p.high.isSome) ∧ tolerance < Scalar.abs (e.line .mid - mid) then
      [.centerOverridden p.axis mid (e.line .mid)]
    else []

def marginWarnings : List (Warning α) :=
  unused p.marginLow p.low .low ++ unused p.marginHigh p.high .high
where
  unused (margin edge : Option α) (l : Line) : List (Warning α) :=
    if margin.any (fun m => !Scalar.agrees m 0) ∧ edge = none then [.marginUnused p.axis l] else []

def spanAlignWarnings : List (Warning α) :=
  if p.spanAlign.isSome ∧ (p.low = none ∨ p.high = none) then [.spanAlignUnused p.axis] else []

def limitWarnings : List (Warning α) :=
  match p.minSize, p.maxSize with
  | some min, some max => if max < min then [.limitsCross p.axis min max] else []
  | _, _ => []

/-- All there is to say about a settled axis; whether an alignment has edges to work between is
left out where that is not yet known. -/
def warnings (tolerance : α) (judgesSpanAlign : Bool) (e : Extent α) : List (Warning α) :=
  p.edgeWarnings tolerance ++ p.centerWarnings tolerance e ++ p.marginWarnings
    ++ (if judgesSpanAlign then p.spanAlignWarnings else []) ++ p.limitWarnings

end AxisProblem

end Pinning
