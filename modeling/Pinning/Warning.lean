import Pinning.Scalar
import Pinning.Slot

/-!
Warnings. Directives never fail: those that contradict each other, that lack something or that
have no effect are reported, and resolution goes on by fixed rules of precedence.
-/

namespace Pinning

variable {α : Type}

/-- Where a size came from. -/
inductive SizeRule where
  | explicit
  | content
  | edges
  | edgeAndCenter
deriving DecidableEq, Repr

inductive Warning (α : Type) where
  -- raised while directives are taken in
  | notFinite (slot : Slot) (value : α)
  | negativeSize (slot : Slot) (value : α)
  | negativePercent (directive : String) (percent : α)
  | noContainer (directive node : String)
  | notSibling (directive other node : String)
  | noReference (directive : String)
  | ratioNotPositive (ratio : α)
  | ratioOfFlatNode (node : String)
  | ratioOfNoContent
  -- raised while the frame is worked out
  | noContentSize
  | fitOverridden
  | negativeImplied (axis : Axis) (rule : SizeRule) (size : α)
  | ratioOverridden (ratio : α)
  | ratioWithoutSize (ratio : α)
  | edgesDisagree (axis : Axis) (size implied : α)
  | centerOverridden (axis : Axis) (center resolved : α)
  | marginUnused (axis : Axis) (edge : Line)
  | spanAlignUnused (axis : Axis)
  | limitsCross (axis : Axis) (min max : α)
deriving DecidableEq

namespace Warning

inductive Category where
  | conflict
  | underconstrained
  | ineffective
deriving DecidableEq, Repr

def Category.name : Category → String
  | conflict => "conflict"
  | underconstrained => "underconstrained"
  | ineffective => "ineffective"

def category : Warning α → Category
  | negativeSize .. | negativeImplied .. | edgesDisagree .. | centerOverridden ..
  | limitsCross .. => .conflict
  | noContainer .. | ratioOfFlatNode .. | ratioOfNoContent | noContentSize | ratioWithoutSize .. =>
    .underconstrained
  | notFinite .. | negativePercent .. | notSibling .. | noReference .. | ratioNotPositive ..
  | fitOverridden | ratioOverridden .. | marginUnused .. | spanAlignUnused .. => .ineffective

variable [Scalar α]

open Scalar (text)

def message : Warning α → String
  | notFinite slot v => slot.name ++ " ignored: " ++ text v ++ " is not a finite number"
  | negativeSize slot v => slot.name ++ " " ++ text v ++ " is negative; using 0"
  | negativePercent directive p =>
    directive ++ ": negative percentage " ++ text p ++ "% clamped to 0"
  | noContainer directive node =>
    directive ++ ": '" ++ node ++ "' has no parent container; resolving against an empty one"
  | notSibling directive other node =>
    directive ++ ": '" ++ other ++ "' is not a sibling of '" ++ node ++ "'; reference ignored"
  | noReference directive => directive ++ " has no sibling to place against"
  | ratioNotPositive r => "aspect_ratio " ++ text r ++ " ignored: the ratio must be positive"
  | ratioOfFlatNode node => "aspect_ratio_of('" ++ node ++ "') ignored: its height is zero"
  | ratioOfNoContent => "aspect_ratio_from_content ignored: no measurable content size"
  | noContentSize => "fit_size requested but the node has no intrinsic size"
  | fitOverridden => "fit_size ignored: width and height are both set explicitly"
  | negativeImplied a rule size =>
    a.sizeName ++ " implied by " ++ source a rule ++ " is negative (" ++ text size ++ "); using 0"
  | ratioOverridden r =>
    "aspect_ratio " ++ text r ++ " ignored: width and height are both determined"
  | ratioWithoutSize r =>
    "aspect_ratio " ++ text r ++ " needs a width or a height to scale from"
  | edgesDisagree a size implied =>
    a.sizeName ++ " " ++ text size ++ " conflicts with the " ++ a.sizeName ++ " implied by "
      ++ edges a ++ " (" ++ text implied ++ "); " ++ a.lineName .high ++ " ignored"
  | centerOverridden a center resolved =>
    a.lineName .mid ++ " " ++ text center ++ " ignored: " ++ a.lineName .low ++ "/"
      ++ a.lineName .high ++ " take precedence (resolved center is " ++ text resolved ++ ")"
  | marginUnused a edge =>
    "margin_" ++ a.lineName edge ++ " has no effect: " ++ a.lineName edge
      ++ " was never positioned"
  | spanAlignUnused a =>
    a.spanAlignName ++ " has no effect unless both " ++ edges a ++ " are set"
  | limitsCross a min max =>
    "min_" ++ a.sizeName ++ " " ++ text min ++ " is greater than max_" ++ a.sizeName ++ " "
      ++ text max ++ "; min_" ++ a.sizeName ++ " wins"
where
  edges (a : Axis) : String := a.lineName .low ++ " and " ++ a.lineName .high
  source (a : Axis) : SizeRule → String
    | .edges => edges a
    | _ => "an edge and " ++ a.lineName .mid

/-- The warning in one line. -/
def describe (w : Warning α) : String := w.category.name ++ ": " ++ w.message

end Warning

end Pinning
