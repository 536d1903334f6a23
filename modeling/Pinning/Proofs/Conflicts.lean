import Mathlib.Algebra.Order.Group.Abs
import Pinning.Proofs.Causes
import Pinning.Proofs.Standing

/-!
# Every conflict is reported, and nothing else

An axis is in conflict (`Constraints.Conflict`) where a set line is missed by more than the
tolerance, where lines leave a size below zero or where the limits cross. The size an axis ends up
with is the one its warnings were considered for, as long as its limits leave it alone, and so the
causes of conflict warnings are the conflicts (`Conflict.exists_raises`, `Conflict.of_raises`).

A high edge is missed by as much as the size that was asked for differs from the span
(`WithinLimits.line_high_sub`). So a frame of which no conflict is reported meets what is set
(`Meets.of_not_conflict`).
-/

namespace Pinning

theorem Scalar.abs_eq (x : Rat) : Scalar.abs x = |x| := by
  unfold Scalar.abs
  split_ifs with h
  · exact (abs_of_neg h).symm
  · exact (abs_of_nonneg (not_lt.1 h)).symm

namespace Constraints

section Conflict

variable (c : Constraints Rat) (s : Subject Rat) (a : Axis)

/-- The size of an axis before its limits apply. -/
def unlimited : Rat := (c.wanted s a).getD (s.current.extent a).length

/-- The limits of the axis leave its size as it is. -/
def WithinLimits : Prop := (AxisProblem.of c s a).clamp (c.unlimited s a) = c.unlimited s a

instance : Decidable (c.WithinLimits s a) := inferInstanceAs (Decidable (_ = _))

/-- No size is set along the axis, and the content's is not asked for or not known. -/
def Unsized : Prop := c.value (.size a) = none ∧ ¬ (c.fitsContent = true ∧ s.content.isSome)

/-- What cannot all be had along an axis, where `line` are the lines it has come out with. -/
inductive Conflict (line : Line → Rat) : Prop
  | farEdge {low high : Rat} (hlow : c.value (.line a .low) = some low)
    (hhigh : c.value (.line a .high) = some high) (halign : c.spanAlign a = none)
    (hfar : s.tolerance < |line .high - c.inward a .high high|)
  | center {mid : Rat} (hmid : c.value (.line a .mid) = some mid)
    (hedge : (c.value (.line a .low)).isSome ∨ (c.value (.line a .high)).isSome)
    (hfar : s.tolerance < |line .mid - mid|)
  | edgesCross {low high : Rat} (hunsized : c.Unsized s a)
    (hlow : c.value (.line a .low) = some low) (hhigh : c.value (.line a .high) = some high)
    (hneg : c.inward a .high high - c.inward a .low low < 0)
  | centerBelowLow {low mid : Rat} (hunsized : c.Unsized s a)
    (hlow : c.value (.line a .low) = some low) (hhigh : c.value (.line a .high) = none)
    (hmid : c.value (.line a .mid) = some mid) (hneg : 2 * (mid - c.inward a .low low) < 0)
  | centerAboveHigh {mid high : Rat} (hunsized : c.Unsized s a)
    (hlow : c.value (.line a .low) = none) (hhigh : c.value (.line a .high) = some high)
    (hmid : c.value (.line a .mid) = some mid) (hneg : 2 * (c.inward a .high high - mid) < 0)
  | limits {min max : Rat} (hmin : c.value (.minSize a) = some min)
    (hmax : c.value (.maxSize a) = some max) (hlt : max < min)

end Conflict

variable {c : Constraints Rat} {s : Subject Rat} {a : Axis}

theorem content_of_eq_none_iff : (AxisProblem.of c s a).content = none
    ↔ ¬ (c.fitsContent = true ∧ s.content.isSome) := by
  simp only [AxisProblem.of]
  split_ifs with h <;> simp [h]

theorem WithinLimits.length_settled (h : c.WithinLimits s a) :
    (c.settled s a).length = c.unlimited s a := h

/-- The size that an axis has of its own is the one before its limits. -/
theorem unlimited_of_determined {v : Rat} (h : c.determined s a = some v) :
    c.unlimited s a = v := by
  have hwanted : c.wanted s a = some v := by
    cases a <;> simp only [wanted, scaledSizes, h] <;> split <;> simp_all
  rw [unlimited, hwanted, Option.getD_some]

theorem Unsized.determinedSize? (h : c.Unsized s a) : (AxisProblem.of c s a).determinedSize?
    = (AxisProblem.of c s a).impliedSize?.map fun (rule, size) =>
      (rule, if size < 0 then 0 else size) := by
  have hsize : (AxisProblem.of c s a).size = none := h.1
  have hcontent : (AxisProblem.of c s a).content = none := content_of_eq_none_iff.2 h.2
  simp only [AxisProblem.determinedSize?, hsize, hcontent]

theorem exists_determinedSize?_of_not_unsized (h : ¬ c.Unsized s a) : ∃ rule size,
    (AxisProblem.of c s a).determinedSize? = some (rule, size)
      ∧ (rule = .explicit ∨ rule = .content) := by
  cases hsize : (AxisProblem.of c s a).size with
  | some v => exact ⟨.explicit, v, by simp only [AxisProblem.determinedSize?, hsize], .inl rfl⟩
  | none =>
    cases hcontent : (AxisProblem.of c s a).content with
    | some v =>
      exact ⟨.content, v, by simp only [AxisProblem.determinedSize?, hsize, hcontent], .inr rfl⟩
    | none => exact absurd ⟨hsize, content_of_eq_none_iff.1 hcontent⟩ h

/-- How far the high edge ends up from its place is how much the size differs from the span. -/
theorem WithinLimits.line_high_sub (h : c.WithinLimits s a) {low high size : Rat}
    (hlow : c.value (.line a .low) = some low) (halign : c.spanAlign a = none)
    (hsize : c.determined s a = some size) : (c.settled s a).line .high - c.inward a .high high
      = size - (c.inward a .high high - c.inward a .low low) := by
  have hedge : (c.settled s a).origin = c.inward a .low low := line_settled_low hlow (.inr halign)
  simp only [Extent.line, hedge, h.length_settled, unlimited_of_determined hsize]
  ring

theorem Unsized.exists_raises (h : c.Unsized s a) {rule : SizeRule} {size : Rat}
    (himplied : (AxisProblem.of c s a).impliedSize? = some (rule, size)) (hneg : size < 0)
    (e : Extent Rat) : ∃ w : Warning Rat, (AxisProblem.of c s a).Raises s.tolerance true e w
      ∧ w.category = .conflict :=
  ⟨_, .negativeImplied h.1 (content_of_eq_none_iff.2 h.2) himplied hneg, rfl⟩

theorem Conflict.exists_raises (ht : 0 ≤ s.tolerance) (hin : c.WithinLimits s a)
    (h : c.Conflict s a (c.settled s a).line) :
    ∃ w : Warning Rat, (AxisProblem.of c s a).Raises s.tolerance true (c.settled s a) w
      ∧ w.category = .conflict := by
  cases h with
  | farEdge hlow hhigh halign hfar =>
    rename_i low high
    have himplied := impliedSize?_of_edges (s := s) hlow hhigh
    by_cases hunsized : c.Unsized s a
    · by_cases hneg : c.inward a .high high - c.inward a .low low < 0
      · exact hunsized.exists_raises himplied hneg _
      · -- A size that is taken from the edges reaches from one to the other.
        have hsize : c.determined s a = some (c.inward a .high high - c.inward a .low low) := by
          simp only [determined, hunsized.determinedSize?, himplied, Option.map_some, if_neg hneg]
        rw [hin.line_high_sub hlow halign hsize, sub_self, abs_zero] at hfar
        exact absurd hfar ht.not_gt
    · obtain ⟨rule, size, hdet, hrule⟩ := exists_determinedSize?_of_not_unsized hunsized
      have hsize : c.determined s a = some size := by rw [determined, hdet, Option.map_some]
      refine ⟨_, .edgesDisagree hlow hhigh hdet hrule halign ?_, rfl⟩
      rwa [Scalar.abs_eq, span_eq, abs_sub_comm, ← hin.line_high_sub hlow halign hsize]
  | center hmid hedge hfar =>
    refine ⟨_, .centerOverridden hmid hedge ?_, rfl⟩
    rwa [Scalar.abs_eq]
  | edgesCross hunsized hlow hhigh hneg =>
    exact hunsized.exists_raises (impliedSize?_of_edges hlow hhigh) hneg _
  | centerBelowLow hunsized hlow hhigh hmid hneg =>
    exact hunsized.exists_raises (impliedSize?_of_low_mid hlow hmid hhigh) hneg _
  | centerAboveHigh hunsized hlow hhigh hmid hneg =>
    exact hunsized.exists_raises (impliedSize?_of_mid_high hlow hmid hhigh) hneg _
  | limits hmin hmax hlt => exact ⟨_, .limitsCross hmin hmax hlt, rfl⟩

theorem Conflict.of_raises (hin : c.WithinLimits s a) {w : Warning Rat}
    (h : (AxisProblem.of c s a).Raises s.tolerance true (c.settled s a) w)
    (hw : w.category = .conflict) : c.Conflict s a (c.settled s a).line := by
  cases h with
  | negativeImplied hsize hcontent himplied hneg =>
    have hunsized : c.Unsized s a := ⟨hsize, content_of_eq_none_iff.1 hcontent⟩
    unfold AxisProblem.impliedSize? at himplied
    split at himplied
    · rename_i hlow hhigh
      cases himplied
      rw [span_eq] at hneg
      exact .edgesCross hunsized hlow hhigh hneg
    · rename_i hlow hmid hhigh
      cases himplied
      exact .centerBelowLow hunsized hlow hhigh hmid hneg
    · rename_i hlow hmid hhigh
      cases himplied
      exact .centerAboveHigh hunsized hlow hhigh hmid hneg
    · cases himplied
  | edgesDisagree hlow hhigh hdet hrule halign hfar =>
    have hsize := congrArg (Option.map Prod.snd) hdet
    refine .farEdge hlow hhigh halign ?_
    rwa [hin.line_high_sub hlow halign hsize, abs_sub_comm, ← span_eq, ← Scalar.abs_eq]
  | centerOverridden hmid hedge hfar =>
    refine .center hmid hedge ?_
    rwa [← Scalar.abs_eq]
  | lowMarginUnused | highMarginUnused | spanAlignUnused => cases hw
  | limitsCross hmin hmax hlt => exact .limits hmin hmax hlt

theorem not_conflict_of_mem_fitWarnings {w : Warning Rat} (h : w ∈ c.fitWarnings s) :
    w.category ≠ .conflict := by
  rcases mem_fitWarnings_iff.1 h with ⟨-, ⟨-, rfl⟩ | ⟨-, -, rfl⟩⟩ <;> exact nofun

theorem not_conflict_of_mem_ratioWarnings {w : Warning Rat} {width height : Option Rat}
    (h : w ∈ c.ratioWarnings width height) : w.category ≠ .conflict := by
  obtain ⟨r, -, ⟨-, -, rfl⟩ | ⟨-, -, rfl⟩⟩ := mem_ratioWarnings_iff.1 h <;> exact nofun

/-- What a frame meets where no conflict is reported. Its edges and its center are in their places,
or between two edges one of its lines is on that of the span, as it is aligned there. -/
structure Meets (c : Constraints Rat) (tolerance : Rat) (a : Axis) (line : Line → Rat) : Prop where
  low : ∀ v ∈ c.value (.line a .low), c.value (.line a .high) = none ∨ c.spanAlign a = none →
    line .low = c.inward a .low v
  high : ∀ v ∈ c.value (.line a .high), c.value (.line a .low) = none ∨ c.spanAlign a = none →
    |line .high - c.inward a .high v| ≤ tolerance
  center : ∀ v ∈ c.value (.line a .mid), |line .mid - v| ≤ tolerance
  aligned : ∀ l ∈ c.spanAlign a, ∀ low ∈ c.value (.line a .low),
    ∀ high ∈ c.value (.line a .high), line l = (c.span a low high).line l

theorem Meets.of_not_conflict (ht : 0 ≤ s.tolerance)
    (h : ¬ c.Conflict s a (c.settled s a).line) :
    c.Meets s.tolerance a (c.settled s a).line where
  low v hv hfree := line_settled_low hv hfree
  high v hv hfree := by
    rcases hlow : c.value (.line a .low) with _ | low
    · rwa [line_settled_high hlow hv, sub_self, abs_zero]
    · have halign : c.spanAlign a = none := hfree.resolve_left (by simp [hlow])
      exact not_lt.1 fun hfar => h (.farEdge hlow hv halign hfar)
  center v hv := by
    by_cases hedge : (c.value (.line a .low)).isSome ∨ (c.value (.line a .high)).isSome
    · exact not_lt.1 fun hfar => h (.center hv hedge hfar)
    · simp only [not_or, Option.not_isSome_iff_eq_none] at hedge
      rwa [line_settled_mid hedge.1 hedge.2 hv, sub_self, abs_zero]
  aligned l hl low hlow high hhigh := line_settled_aligned hlow hhigh hl

/-- Where the limits leave the sizes alone, a conflict is reported if and only if there is one along
an axis: an edge or a center that is missed by more than the tolerance, a size below zero between
lines, or limits that cross. Where none is reported, the frame meets what is set. -/
theorem conflict_reported_iff (c : Constraints Rat) (s : Subject Rat) (hp : c.pinsEdges = false)
    (ht : 0 ≤ s.tolerance) (hin : ∀ a, c.WithinLimits s a) :
    let r := c.synthesize s
    ((∃ w ∈ r.warnings, w.category = .conflict) ↔ ∃ a, c.Conflict s a (r.frame.line a))
      ∧ ((∀ w ∈ r.warnings, w.category ≠ .conflict) →
        ∀ a, c.Meets s.tolerance a (r.frame.line a)) := by
  intro r
  have hline : ∀ a, r.frame.line a = (c.settled s a).line := fun a => funext (line_synthesize hp)
  have hiff : (∃ w ∈ r.warnings, w.category = .conflict)
      ↔ ∃ a, c.Conflict s a (r.frame.line a) := by
    simp only [r, mem_synthesize_iff hp, mem_solve_iff]
    constructor
    · rintro ⟨w, hfit | hratio | ⟨a, ha⟩, hw⟩
      · exact absurd hw (not_conflict_of_mem_fitWarnings hfit)
      · exact absurd hw (not_conflict_of_mem_ratioWarnings hratio)
      · exact ⟨a, hline a ▸ .of_raises (hin a) ha hw⟩
    · rintro ⟨a, ha⟩
      obtain ⟨w, hraises, hw⟩ := (hline a ▸ ha).exists_raises ht (hin a)
      exact ⟨w, .inr (.inr ⟨a, hraises⟩), hw⟩
  refine ⟨hiff, fun hnone a => ?_⟩
  rw [hline]
  refine .of_not_conflict ht fun ha => ?_
  obtain ⟨w, hmem, hw⟩ := hiff.2 ⟨a, hline a ▸ ha⟩
  exact hnone w hmem hw

/-- A width that leaves the right edge out of reach, and the same width aligned to that edge. -/
theorem card_misses_right_edge :
    let c : Constraints Rat := ((((∅ : Constraints Rat).set (.line .horizontal .low) 10).set
      (.line .horizontal .high) 100).set (.marginHigh .horizontal) 4).set (.size .horizontal) 50
    let c := ((c.set (.line .vertical .low) 5).set (.line .vertical .mid) 20).set
      (.maxSize .vertical) 30
    let c' := c.setSpanAlign .horizontal .high
    let s : Subject Rat := ⟨⟨⟨5, 5⟩, ⟨40, 30⟩⟩, none, 1 / 1000⟩
    (c.pinsEdges = false ∧ 0 ≤ s.tolerance ∧ ∀ a, c.WithinLimits s a)
      ∧ (∃ w ∈ (c.synthesize s).warnings, w.category = .conflict)
      ∧ (∃ a, c.Conflict s a ((c.synthesize s).frame.line a))
      ∧ (c'.pinsEdges = false ∧ ∀ a, c'.WithinLimits s a)
      ∧ (∀ w ∈ (c'.synthesize s).warnings, w.category ≠ .conflict)
      ∧ ∀ a, c'.Meets s.tolerance a ((c'.synthesize s).frame.line a) := by
  intro c₀ c c' s
  have ht : 0 ≤ s.tolerance := by decide +kernel
  have hin : ∀ a, c.WithinLimits s a := fun a => by cases a <;> decide +kernel
  have hin' : ∀ a, c'.WithinLimits s a := fun a => by cases a <;> decide +kernel
  have hwarned : ∃ w ∈ (c.synthesize s).warnings, w.category = .conflict := by decide +kernel
  have hquiet : ∀ w ∈ (c'.synthesize s).warnings, w.category ≠ .conflict := by decide +kernel
  obtain ⟨hiff, -⟩ := conflict_reported_iff c s rfl ht hin
  obtain ⟨-, hmeets⟩ := conflict_reported_iff c' s rfl ht hin'
  exact ⟨⟨rfl, ht, hin⟩, hwarned, hiff.1 hwarned, ⟨rfl, hin'⟩, hquiet, hmeets hquiet⟩

end Constraints

end Pinning
