import Pinning.Synthesis.Axis

/-!
From constraints to a frame. The axes are worked out side by side; only an aspect ratio carries
the size of one over to the other. With pinned edges the frame is worked out twice: without
margins, and then between the edges of that, where the margins shrink it.
-/

namespace Pinning

variable {α : Type} [Scalar α]

structure Synthesis (α : Type) where
  frame : Rect α
  warnings : List (Warning α)
deriving DecidableEq

namespace Constraints

/-- Width and height where the aspect ratio supplies the one that is missing. -/
def scaledSizes (c : Constraints α) : Option α → Option α → Option α × Option α
  | some w, none => (some w, (c.value .aspectRatio).map (w / ·))
  | none, some h => ((c.value .aspectRatio).map (h * ·), some h)
  | w, h => (w, h)

def ratioWarnings (c : Constraints α) (w h : Option α) : List (Warning α) :=
  match c.value .aspectRatio, w, h with
  | some r, some _, some _ => [.ratioOverridden r]
  | some r, none, none => [.ratioWithoutSize r]
  | _, _, _ => []

/-- One pass over both axes. -/
def solve (c : Constraints α) (s : Subject α) (judgesSpanAlign : Bool) : Synthesis α :=
  let h := AxisProblem.of c s .horizontal
  let v := AxisProblem.of c s .vertical
  let width := h.determinedSize?.map (·.2)
  let height := v.determinedSize?.map (·.2)
  let x := h.settle (c.scaledSizes width height).1
  let y := v.settle (c.scaledSizes width height).2
  { frame := .ofExtents x y
    warnings := h.sizeWarnings ++ v.sizeWarnings ++ c.ratioWarnings width height
      ++ h.warnings s.tolerance judgesSpanAlign x ++ v.warnings s.tolerance judgesSpanAlign y }

/-- The edges of a frame as constraints, with the margins, limits and alignments of `c`. -/
def pinnedTo (c : Constraints α) (frame : Rect α) : Constraints α where
  value
    | .line a .low => some (frame.line a .low)
    | .line a .high => some (frame.line a .high)
    | .minSize a => c.value (.minSize a)
    | .maxSize a => c.value (.maxSize a)
    | .marginLow a => c.value (.marginLow a)
    | .marginHigh a => c.value (.marginHigh a)
    | .line _ .mid | .size _ | .aspectRatio => none
  spanAlign := c.spanAlign

def fitWarnings (c : Constraints α) (s : Subject α) : List (Warning α) :=
  if c.fitsContent then
    if s.content = none then [.noContentSize]
    else if (c.value (.size .horizontal)).isSome ∧ (c.value (.size .vertical)).isSome then
      [.fitOverridden]
    else []
  else []

end Constraints

/-- Adds the warnings that are not there yet. -/
def Warning.merge (ws : List (Warning α)) (more : List (Warning α)) : List (Warning α) :=
  more.foldl (fun ws w => if w ∈ ws then ws else ws ++ [w]) ws

/-- The frame that the constraints give the node. -/
def Constraints.synthesize (c : Constraints α) (s : Subject α) : Synthesis α :=
  if c.pinsEdges then
    let span := c.withoutMargins.solve s false
    let pinned := (c.pinnedTo span.frame).solve s true
    ⟨pinned.frame, Warning.merge (c.fitWarnings s ++ span.warnings) pinned.warnings⟩
  else
    let direct := c.solve s true
    ⟨direct.frame, c.fitWarnings s ++ direct.warnings⟩

end Pinning
