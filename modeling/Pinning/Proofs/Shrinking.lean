import Pinning.Proofs.Idempotence
import Pinning.Proofs.Redundancy

/-!
# Margins shrink a frame between its pinned edges

With pinned edges a frame is worked out as if there were neither margins nor pins
(`Constraints.plain`), and each margin then moves its own edge inwards. Where that leaves a size that
the limits allow (`Constraints.Shrinks`), the frame of the second pass is the span that is left, and
there is nothing more to warn of: what the second pass reports is limits that cross, and the first
has reported them already (`mem_span_of_mem_pinned`). Only alignments without two edges to work
between are not judged in the first pass (`filter_warnings`).
-/

namespace Pinning

namespace Warning

variable {α : Type}

/-- The warning is about an alignment. -/
def isSpanAlign : Warning α → Bool
  | spanAlignUnused _ => true
  | _ => false

theorem merge_eq_self [Scalar α] : ∀ {more ws : List (Warning α)}, (∀ w ∈ more, w ∈ ws) →
    merge ws more = ws
  | [], _, _ => rfl
  | w :: more, ws, h => by
    rw [merge, List.foldl_cons, if_pos (h w List.mem_cons_self), ← merge]
    exact merge_eq_self fun x hx => h x (List.mem_cons_of_mem w hx)

end Warning

namespace AxisProblem

variable {α : Type} [Scalar α] {p : AxisProblem α} {tolerance : α} {e : Extent α} {w : Warning α}

theorem Raises.isSpanAlign (h : p.Raises tolerance false e w) : w.isSpanAlign = false := by
  cases h with
  | spanAlignUnused hjudges => cases hjudges
  | _ => rfl

theorem filter_warnings : (p.warnings tolerance true e).filter (!·.isSpanAlign)
    = p.warnings tolerance false e := by
  have hkeep : ∀ ws : List (Warning α), (∀ w ∈ ws, p.Raises tolerance false e w) →
      ws.filter (!·.isSpanAlign) = ws := fun ws h =>
    List.filter_eq_self.2 fun w hw => by rw [(h w hw).isSpanAlign]; rfl
  have hdrop : p.spanAlignWarnings.filter (!·.isSpanAlign) = [] := by
    unfold spanAlignWarnings
    split_ifs <;> rfl
  simp only [warnings, List.filter_append, hkeep _ fun _ => raises_of_mem_edgeWarnings,
    hkeep _ fun _ => raises_of_mem_centerWarnings, hkeep _ fun _ => raises_of_mem_marginWarnings,
    hkeep _ fun _ => raises_of_mem_limitWarnings, if_true, hdrop, Bool.false_eq_true, if_false]

end AxisProblem

namespace Constraints

section Passes

variable {α : Type} [Scalar α] {c : Constraints α} {s : Subject α}

/-- The constraints with neither margins nor pinned edges. -/
def plain (c : Constraints α) : Constraints α := { c.withoutMargins with pinsEdges := false }

theorem filter_warnings_solve : (c.solve s true).warnings.filter (!·.isSpanAlign)
    = (c.solve s false).warnings := by
  have hsize : ∀ a, (AxisProblem.of c s a).sizeWarnings.filter (!·.isSpanAlign)
      = (AxisProblem.of c s a).sizeWarnings := fun a => List.filter_eq_self.2 fun w hw => by
    have hraises : (AxisProblem.of c s a).Raises s.tolerance false (c.settled s a) w :=
      AxisProblem.raises_of_mem_sizeWarnings hw
    rw [hraises.isSpanAlign]
    rfl
  have hratio : ∀ w h, (c.ratioWarnings w h).filter (!·.isSpanAlign) = c.ratioWarnings w h :=
    fun _ _ => List.filter_eq_self.2 fun w hw => by
      obtain ⟨r, -, ⟨-, -, rfl⟩ | ⟨-, -, rfl⟩⟩ := mem_ratioWarnings_iff.1 hw <;> rfl
  simp only [solve_eq, List.filter_append, hsize, hratio, AxisProblem.filter_warnings]

omit [Scalar α] in
theorem filter_fitWarnings : (c.fitWarnings s).filter (!·.isSpanAlign) = c.fitWarnings s :=
  List.filter_eq_self.2 fun w hw => by
    rcases mem_fitWarnings_iff.1 hw with ⟨-, ⟨-, rfl⟩ | ⟨-, -, rfl⟩⟩ <;> rfl

/-- What a plain synthesis warns of, but for alignments, is what the first of two passes does. -/
theorem filter_warnings_plain : (c.plain.synthesize s).warnings.filter (!·.isSpanAlign)
    = c.fitWarnings s ++ (c.withoutMargins.solve s false).warnings := by
  have hplain : (c.plain.synthesize s).warnings
      = c.plain.fitWarnings s ++ (c.plain.solve s true).warnings := rfl
  rw [hplain, List.filter_append, filter_fitWarnings, filter_warnings_solve]
  rfl

end Passes

variable {c : Constraints Rat} {s : Subject Rat}

/-- The margins leave a size along the axis of the frame, and the limits leave that as it is. -/
structure Shrinks (c : Constraints Rat) (s : Subject Rat) (frame : Rect Rat) (a : Axis) : Prop where
  zero_le_size : 0 ≤ frame.size.along a
  zero_le_shrunk : 0 ≤ frame.size.along a - (c.value (.marginLow a)).getD 0
    - (c.value (.marginHigh a)).getD 0
  clamp : (AxisProblem.of c s a).clamp (frame.size.along a - (c.value (.marginLow a)).getD 0
      - (c.value (.marginHigh a)).getD 0)
    = frame.size.along a - (c.value (.marginLow a)).getD 0 - (c.value (.marginHigh a)).getD 0

section Pinned

variable {frame : Rect Rat} {a : Axis}

theorem length_span_line : (c.span a (frame.line a .low) (frame.line a .high)).length
    = frame.size.along a - (c.value (.marginLow a)).getD 0 - (c.value (.marginHigh a)).getD 0 := by
  simp only [span, inward, Rect.line, Extent.line, Rect.extent]
  ring

theorem Shrinks.settled (h : c.Shrinks s frame a) :
    (c.pinnedTo frame).settled s a = c.span a (frame.line a .low) (frame.line a .high) :=
  settled_pinnedTo_eq_span (length_span_line ▸ h.zero_le_shrunk) (length_span_line ▸ h.clamp)

/-- Each margin moves its own edge. -/
theorem Shrinks.line (h : c.Shrinks s frame a) (judgesSpanAlign : Bool) :
    ((c.pinnedTo frame).solve s judgesSpanAlign).frame.line a .low
        = c.inward a .low (frame.line a .low)
      ∧ ((c.pinnedTo frame).solve s judgesSpanAlign).frame.line a .high
        = c.inward a .high (frame.line a .high) := by
  simp only [Rect.line, extent_solve, h.settled]
  exact ⟨rfl, add_sub_cancel _ _⟩

/-- Between pinned edges that shrink, what is left to warn of is limits that cross. -/
theorem mem_span_of_mem_pinned (h : ∀ a, c.Shrinks s frame a) {w : Warning Rat}
    (hw : w ∈ ((c.pinnedTo frame).solve s true).warnings) :
    w ∈ (c.withoutMargins.solve s false).warnings := by
  rcases mem_solve_pinnedTo hw with ⟨a, ⟨_, _, himplied, hneg, rfl⟩ | ⟨_, _, hmin, hmax, hlt, rfl⟩⟩
  · rw [impliedSize?_of_edges rfl rfl] at himplied
    cases himplied
    exact absurd hneg (length_span_line ▸ (h a).zero_le_shrunk).not_gt
  · exact mem_solve_iff.2 (.inr ⟨a, .limitsCross hmin hmax hlt⟩)

theorem frame_synthesize_pinned (hp : c.pinsEdges = true) : (c.synthesize s).frame
    = ((c.pinnedTo (c.plain.synthesize s).frame).solve s true).frame := by
  simp only [synthesize, if_pos hp]
  rfl

theorem warnings_synthesize_pinned (hp : c.pinsEdges = true)
    (h : ∀ a, c.Shrinks s (c.plain.synthesize s).frame a) :
    (c.synthesize s).warnings = (c.plain.synthesize s).warnings.filter (!·.isSpanAlign) := by
  rw [filter_warnings_plain]
  simp only [synthesize, if_pos hp]
  exact Warning.merge_eq_self fun w hw => List.mem_append_right _ (mem_span_of_mem_pinned h hw)

theorem readAlike_withoutMargins (h : ∀ a, c.Unmargined a) (a : Axis) :
    (AxisProblem.of c s a).ReadAlike (AxisProblem.of c.withoutMargins s a) :=
  { lowInset := fun _ => (h a).1.symm, highInset := fun _ => (h a).2.symm }

/-- Without margins the second pass comes to the extents of the first. -/
theorem settled_pinnedTo_unmargined (h : ∀ a, c.Unmargined a)
    (hsize : ∀ a, 0 ≤ (c.plain.synthesize s).frame.size.along a) (a : Axis) :
    (c.pinnedTo (c.plain.synthesize s).frame).settled s a = c.settled s a := by
  have hextent : (c.plain.synthesize s).frame.extent a = c.withoutMargins.settled s a :=
    extent_solve _ _ true a
  have hclamp : (AxisProblem.of c s a).clamp ((c.plain.synthesize s).frame.extent a).length
      = ((c.plain.synthesize s).frame.extent a).length := by
    rw [hextent]
    exact AxisProblem.clamp_clamp _ _
  rw [settled_pinnedTo (h a) (hsize a) hclamp, hextent]
  exact settled_congr (readAlike_withoutMargins h) rfl a

theorem frame_synthesize_unmargined (hp : c.pinsEdges = true) (h : ∀ a, c.Unmargined a)
    (hsize : ∀ a, 0 ≤ (c.plain.synthesize s).frame.size.along a) : (c.synthesize s).frame
      = (({ c with pinsEdges := false } : Constraints Rat).synthesize s).frame := by
  have hunpinned : (({ c with pinsEdges := false } : Constraints Rat).synthesize s).frame
      = (c.solve s true).frame := rfl
  rw [frame_synthesize_pinned hp, hunpinned]
  simp only [solve_eq, settled_pinnedTo_unmargined h hsize]

end Pinned

/-- With pinned edges each margin moves its own edge of the plain frame inwards, however the frame is
aligned, along every axis where the margins leave a size within the limits. Where they do along both,
there is nothing to warn of but what is warned of the plain frame, alignments aside. Without margins
the edges need not be pinned. -/
theorem margins_shrink_pinned_frame (c : Constraints Rat) (s : Subject Rat)
    (hp : c.pinsEdges = true) :
    let plain := c.plain.synthesize s
    let r := c.synthesize s
    (∀ a, c.Shrinks s plain.frame a →
        r.frame.line a .low = plain.frame.line a .low + (c.value (.marginLow a)).getD 0
          ∧ r.frame.line a .high = plain.frame.line a .high - (c.value (.marginHigh a)).getD 0)
      ∧ ((∀ a, c.Shrinks s plain.frame a) →
        r.warnings = plain.warnings.filter fun w => !w.isSpanAlign)
      ∧ ((∀ a, c.Unmargined a) → (∀ a, 0 ≤ plain.frame.size.along a) →
        r.frame = (({ c with pinsEdges := false } : Constraints Rat).synthesize s).frame) := by
  intro plain r
  refine ⟨fun a h => ?_, warnings_synthesize_pinned hp, frame_synthesize_unmargined hp⟩
  have hframe : r.frame = ((c.pinnedTo plain.frame).solve s true).frame :=
    frame_synthesize_pinned hp
  rw [hframe]
  exact h.line true

/-- A badge on its left edge and its center, justified, with margins on three sides and a limit that
the margins do not reach. Without the margins the pins make no difference. -/
theorem badge_shrinks_on_three_sides :
    let c : Constraints Rat := (((((∅ : Constraints Rat).set (.line .horizontal .low) 10).set
      (.line .horizontal .mid) 40).set (.marginLow .horizontal) 4).set
      (.marginHigh .horizontal) 6).set (.maxSize .horizontal) 60
    let c := ((c.set (.marginLow .vertical) 5).setSpanAlign .horizontal .high).setSpanAlign
      .vertical .mid
    let c : Constraints Rat := { c with pinsEdges := true }
    let c' := c.withoutMargins
    let s : Subject Rat := ⟨⟨⟨5, 5⟩, ⟨40, 30⟩⟩, none, 1 / 1000⟩
    c.pinsEdges = true ∧ (∀ a, c.Shrinks s (c.plain.synthesize s).frame a)
      ∧ (c.synthesize s).frame = ⟨⟨14, 10⟩, ⟨50, 25⟩⟩
      ∧ (∀ a, (c.synthesize s).frame.line a .low
          = (c.plain.synthesize s).frame.line a .low + (c.value (.marginLow a)).getD 0)
      ∧ (c.synthesize s).warnings
        = (c.plain.synthesize s).warnings.filter (fun w => !w.isSpanAlign)
      ∧ (∀ a, c'.Unmargined a) ∧ (∀ a, 0 ≤ (c'.plain.synthesize s).frame.size.along a)
      ∧ (c'.synthesize s).frame
        = (({ c' with pinsEdges := false } : Constraints Rat).synthesize s).frame := by
  intro c₀ c₁ c c' s
  have hshrinks : ∀ a, c.Shrinks s (c.plain.synthesize s).frame a := fun a => by
    cases a <;> exact ⟨by decide +kernel, by decide +kernel, by decide +kernel⟩
  have hframe : (c.synthesize s).frame = ⟨⟨14, 10⟩, ⟨50, 25⟩⟩ := by decide +kernel
  have hmargins : ∀ a, c'.Unmargined a := fun a => by cases a <;> decide +kernel
  have hsizes : ∀ a, 0 ≤ (c'.plain.synthesize s).frame.size.along a := fun a => by
    cases a <;> decide +kernel
  obtain ⟨hline, hwarnings, -⟩ := margins_shrink_pinned_frame c s rfl
  obtain ⟨-, -, hsame⟩ := margins_shrink_pinned_frame c' s rfl
  exact ⟨rfl, hshrinks, hframe, fun a => (hline a (hshrinks a)).1, hwarnings hshrinks, hmargins,
    hsizes, hsame hmargins hsizes⟩

end Constraints

end Pinning
