import Pinning.Proofs.Settling

/-!
# Where a frame stands

The line that a directive sets is moved inwards by the margin on its side (`Constraints.inward`), and
the extent of the axis meets it there. The low edge always does unless an alignment says otherwise,
the high edge where the low one is not set, and the center where neither is. Between two edges an
extent that is aligned meets its own line of the span between them (`line_settled_aligned`), and
between pinned edges it is that span (`settled_pinnedTo_eq_span`).
-/

namespace Pinning

namespace Constraints

/-- A line across the axis, moved inwards by the margin on that side. -/
def inward (c : Constraints Rat) (a : Axis) : Line → Rat → Rat
  | .low, v => v + (c.value (.marginLow a)).getD 0
  | .mid, v => v
  | .high, v => v - (c.value (.marginHigh a)).getD 0

/-- The span that two edges and their margins leave. -/
def span (c : Constraints Rat) (a : Axis) (low high : Rat) : Extent Rat :=
  ⟨c.inward a .low low, c.inward a .high high - c.inward a .low low⟩

variable {c : Constraints Rat} {s : Subject Rat} {a : Axis} {low mid high : Rat}

theorem span_eq (low high : Rat) : high - low - (AxisProblem.of c s a).lowInset
    - (AxisProblem.of c s a).highInset = c.inward a .high high - c.inward a .low low := by
  simp only [inward, AxisProblem.lowInset, AxisProblem.highInset, AxisProblem.of]
  ring

theorem impliedSize?_of_edges (hlow : c.value (.line a .low) = some low)
    (hhigh : c.value (.line a .high) = some high) : (AxisProblem.of c s a).impliedSize?
      = some (.edges, c.inward a .high high - c.inward a .low low) := by
  rw [← span_eq (s := s)]
  simp only [AxisProblem.impliedSize?, AxisProblem.of, hlow, hhigh]

theorem impliedSize?_of_low_mid (hlow : c.value (.line a .low) = some low)
    (hmid : c.value (.line a .mid) = some mid) (hhigh : c.value (.line a .high) = none) :
    (AxisProblem.of c s a).impliedSize?
      = some (.edgeAndCenter, 2 * (mid - c.inward a .low low)) := by
  simp only [AxisProblem.impliedSize?, AxisProblem.of, hlow, hmid, hhigh]
  rfl

theorem impliedSize?_of_mid_high (hlow : c.value (.line a .low) = none)
    (hmid : c.value (.line a .mid) = some mid) (hhigh : c.value (.line a .high) = some high) :
    (AxisProblem.of c s a).impliedSize?
      = some (.edgeAndCenter, 2 * (c.inward a .high high - mid)) := by
  simp only [AxisProblem.impliedSize?, AxisProblem.of, hlow, hmid, hhigh]
  rfl

theorem line_settled_low (hlow : c.value (.line a .low) = some low)
    (hfree : c.value (.line a .high) = none ∨ c.spanAlign a = none) :
    (c.settled s a).line .low = c.inward a .low low := by
  have horigin : ∀ size, (AxisProblem.of c s a).origin size = c.inward a .low low := by
    intro size
    simp only [AxisProblem.origin, AxisProblem.of, hlow]
    rcases hfree with h | h
    · rw [h]
      rfl
    · cases c.value (.line a .high) <;> simp only [h] <;> rfl
  exact horigin _

theorem line_settled_high (hlow : c.value (.line a .low) = none)
    (hhigh : c.value (.line a .high) = some high) :
    (c.settled s a).line .high = c.inward a .high high := by
  have horigin : ∀ size, (AxisProblem.of c s a).origin size + size = c.inward a .high high := by
    intro size
    simp only [AxisProblem.origin, AxisProblem.of, hlow, hhigh, inward, AxisProblem.highInset]
    ring
  exact horigin _

theorem line_settled_mid (hlow : c.value (.line a .low) = none)
    (hhigh : c.value (.line a .high) = none) (hmid : c.value (.line a .mid) = some mid) :
    (c.settled s a).line .mid = mid := by
  have horigin : ∀ size, (AxisProblem.of c s a).origin size + size / 2 = mid := by
    intro size
    simp only [AxisProblem.origin, AxisProblem.of, hlow, hhigh, hmid]
    ring
  exact horigin _

/-- A line that is set alone is met. -/
theorem line_settled_of_alone {l : Line} {v : Rat} (h : c.value (.line a l) = some v)
    (halone : ∀ l' ≠ l, c.value (.line a l') = none) :
    (c.settled s a).line l = c.inward a l v := by
  cases l with
  | low => exact line_settled_low h (.inl (halone .high (by decide)))
  | mid => exact line_settled_mid (halone .low (by decide)) (halone .high (by decide)) h
  | high => exact line_settled_high (halone .low (by decide)) h

/-- An alignment lays a line of the extent onto the same line of the span. -/
theorem line_settled_aligned {l : Line} (hlow : c.value (.line a .low) = some low)
    (hhigh : c.value (.line a .high) = some high) (halign : c.spanAlign a = some l) :
    (c.settled s a).line l = (c.span a low high).line l := by
  have horigin : ∀ size, (⟨(AxisProblem.of c s a).origin size, size⟩ : Extent Rat).line l
      = (c.span a low high).line l := by
    intro size
    simp only [AxisProblem.origin, AxisProblem.of, hlow, hhigh, halign]
    cases l <;> simp only [Extent.line, span, inward, AxisProblem.lowInset, AxisProblem.highInset]
    · ring
    · ring
  exact horigin _

/-- Between pinned edges the extent is what their margins leave, as long as that is a size within the
limits. It fits exactly, so its alignment does not matter. -/
theorem settled_pinnedTo_eq_span {frame : Rect Rat}
    (hlength : 0 ≤ (c.span a (frame.line a .low) (frame.line a .high)).length)
    (hclamp : (AxisProblem.of c s a).clamp (c.span a (frame.line a .low) (frame.line a .high)).length
      = (c.span a (frame.line a .low) (frame.line a .high)).length) :
    (c.pinnedTo frame).settled s a = c.span a (frame.line a .low) (frame.line a .high) := by
  have hwanted : (c.pinnedTo frame).wanted s a
      = some (c.span a (frame.line a .low) (frame.line a .high)).length := by
    have hnonneg : (c.pinnedTo frame).wanted s a
        = some (if (c.span a (frame.line a .low) (frame.line a .high)).length < 0 then 0
          else (c.span a (frame.line a .low) (frame.line a .high)).length) := by
      have hspan : (c.span a (frame.line a .low) (frame.line a .high)).length = _ :=
        (span_eq (s := s) _ _).symm
      rw [hspan]
      cases a <;> rfl
    rw [hnonneg, if_neg hlength.not_gt]
  have horigin : (AxisProblem.of (c.pinnedTo frame) s a).origin
      (c.span a (frame.line a .low) (frame.line a .high)).length
        = c.inward a .low (frame.line a .low) := by
    refine AxisProblem.origin_of_fits _ rfl rfl ?_
    change c.inward a .low (frame.line a .low) + (c.inward a .high (frame.line a .high)
      - c.inward a .low (frame.line a .low)) = c.inward a .high (frame.line a .high)
    ring
  have hclamp' : (AxisProblem.of (c.pinnedTo frame) s a).clamp
      (c.span a (frame.line a .low) (frame.line a .high)).length
        = (c.span a (frame.line a .low) (frame.line a .high)).length := hclamp
  rw [settled, hwanted, AxisProblem.settle, Option.getD_some, hclamp', horigin]
  rfl

/-- Without pinned edges the frame is made of the extents that settle in one pass. -/
theorem line_synthesize (hp : c.pinsEdges = false) (l : Line) :
    (c.synthesize s).frame.line a l = (c.settled s a).line l := by
  have hframe : (c.synthesize s).frame = (c.solve s true).frame := by simp [synthesize, hp]
  rw [hframe, Rect.line, extent_solve]

end Constraints

end Pinning
