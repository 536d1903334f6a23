import Mathlib.Algebra.Order.Field.Rat
import Mathlib.Tactic.Ring
import Mathlib.Tactic.SplitIfs
import Pinning.Proofs.Admission
import Pinning.Scalar.Rational

/-!
# Settling an axis

The size that is wanted along an axis (`Constraints.wanted`) comes from the constraints and the
content alone, and it is there exactly where the constraints determine it (`isSome_wanted`). Where
the node stands only fills what is left open, so an extent that has settled settles again as it is
(`settled_after_settled`), and one that leaves nothing open comes out the same from anywhere
(`settled_after`).

With rational coordinates, admissible constraints and no negative sizes to begin with, no settled
size is negative (`zero_le_length_settled`).
-/

namespace Pinning

variable {α : Type}

def Axis.other : Axis → Axis
  | horizontal => vertical
  | vertical => horizontal

/-- The subject of a later pass, which finds the node with another frame. -/
def Subject.after (s : Subject α) (frame : Rect α) : Subject α := { s with current := frame }

def AxisProblem.after (p : AxisProblem α) (e : Extent α) : AxisProblem α := { p with current := e }

namespace Constraints

/-- A line across the axis is set. -/
def Positions (c : Constraints α) (a : Axis) : Prop :=
  (c.value (.line a .low)).isSome ∨ (c.value (.line a .mid)).isSome
    ∨ (c.value (.line a .high)).isSome

/-- The axis has a size of its own: one that is set, or the content's, or what two lines span. -/
def Sizes (c : Constraints α) (content : Option (Size α)) (a : Axis) : Prop :=
  (c.value (.size a)).isSome ∨ (c.fitsContent ∧ content.isSome)
    ∨ ((c.value (.line a .low)).isSome ∧ (c.value (.line a .high)).isSome)
    ∨ ((c.value (.line a .low)).isSome ∨ (c.value (.line a .high)).isSome)
      ∧ (c.value (.line a .mid)).isSome

/-- The axis has a size of its own, or the aspect ratio carries over that of the other axis. -/
def Determines (c : Constraints α) (content : Option (Size α)) (a : Axis) : Prop :=
  c.Sizes content a ∨ (c.value .aspectRatio).isSome ∧ c.Sizes content a.other

instance (c : Constraints α) (a : Axis) : Decidable (c.Positions a) :=
  inferInstanceAs (Decidable (_ ∨ _))

instance (c : Constraints α) (content : Option (Size α)) (a : Axis) :
    Decidable (c.Sizes content a) :=
  inferInstanceAs (Decidable (_ ∨ _))

instance (c : Constraints α) (content : Option (Size α)) (a : Axis) :
    Decidable (c.Determines content a) :=
  inferInstanceAs (Decidable (_ ∨ _))

variable [Scalar α] (c : Constraints α) (s : Subject α)

/-- The size that an axis determines by itself. -/
def determined (a : Axis) : Option α := (AxisProblem.of c s a).determinedSize?.map (·.2)

/-- The size that is wanted along an axis, if there is one. -/
def wanted : Axis → Option α
  | .horizontal => (c.scaledSizes (c.determined s .horizontal) (c.determined s .vertical)).1
  | .vertical => (c.scaledSizes (c.determined s .horizontal) (c.determined s .vertical)).2

def settled (a : Axis) : Extent α := (AxisProblem.of c s a).settle (c.wanted s a)

theorem solve_eq (judgesSpanAlign : Bool) : c.solve s judgesSpanAlign =
    let h := AxisProblem.of c s .horizontal
    let v := AxisProblem.of c s .vertical
    { frame := .ofExtents (c.settled s .horizontal) (c.settled s .vertical)
      warnings := h.sizeWarnings ++ v.sizeWarnings
        ++ c.ratioWarnings (c.determined s .horizontal) (c.determined s .vertical)
        ++ h.warnings s.tolerance judgesSpanAlign (c.settled s .horizontal)
        ++ v.warnings s.tolerance judgesSpanAlign (c.settled s .vertical) } := rfl

theorem extent_solve (judgesSpanAlign : Bool) (a : Axis) :
    (c.solve s judgesSpanAlign).frame.extent a = c.settled s a := by cases a <;> rfl

theorem isSome_determined (a : Axis) : (c.determined s a).isSome ↔ c.Sizes s.content a := by
  have himplied : ∀ p : AxisProblem α, p.impliedSize?.isSome ↔ (p.low.isSome ∧ p.high.isSome)
      ∨ (p.low.isSome ∨ p.high.isSome) ∧ p.mid.isSome := by
    intro p
    unfold AxisProblem.impliedSize?
    rcases p.low with _ | low <;> rcases p.mid with _ | mid <;> rcases p.high with _ | high <;>
      simp
  have hcontent : (AxisProblem.of c s a).content.isSome ↔ c.fitsContent ∧ s.content.isSome := by
    simp only [AxisProblem.of]
    split_ifs with h <;> simp [h]
  rw [determined, Option.isSome_map, Sizes, ← hcontent]
  unfold AxisProblem.determinedSize?
  have h := himplied (AxisProblem.of c s a)
  split
  · simp_all [AxisProblem.of]
  · simp_all
  · simp_all [AxisProblem.of]

theorem isSome_wanted (a : Axis) : (c.wanted s a).isSome ↔ c.Determines s.content a := by
  rw [Determines, ← isSome_determined, ← isSome_determined]
  cases a <;> simp only [wanted, Axis.other, scaledSizes] <;>
    rcases c.determined s .horizontal with _ | w <;> rcases c.determined s .vertical with _ | h <;>
    simp

theorem wanted_after (frame : Rect α) (a : Axis) :
    c.wanted (s.after frame) a = c.wanted s a := by cases a <;> rfl

theorem settled_eq_after (frame : Rect α) (a : Axis) : c.settled (s.after frame) a
    = ((AxisProblem.of c s a).after (frame.extent a)).settle (c.wanted s a) := by
  rw [settled, wanted_after]
  rfl

theorem solve_after {frame : Rect α} (h : ∀ a, c.settled (s.after frame) a = c.settled s a)
    (judgesSpanAlign : Bool) :
    c.solve (s.after frame) judgesSpanAlign = c.solve s judgesSpanAlign := by
  rw [solve_eq, solve_eq, h, h]
  rfl

end Constraints

namespace AxisProblem

variable [Scalar α] (p : AxisProblem α)

theorem origin_after (e : Extent α) (h : p.low.isSome ∨ p.mid.isSome ∨ p.high.isSome) (size : α) :
    (p.after e).origin size = p.origin size := by
  obtain ⟨_, low, mid, high, _⟩ := p
  rcases low with _ | low <;> rcases mid with _ | mid <;> rcases high with _ | high
  · simp at h
  all_goals rfl

end AxisProblem

namespace Constraints

variable [Scalar α] (c : Constraints α) (s : Subject α)

/-- An axis with a line and a size takes nothing from where the node stands. -/
theorem settled_after {a : Axis} (hp : c.Positions a) (hd : c.Determines s.content a)
    (frame : Rect α) : c.settled (s.after frame) a = c.settled s a := by
  obtain ⟨v, hv⟩ := Option.isSome_iff_exists.1 ((c.isSome_wanted s a).2 hd)
  rw [settled_eq_after, settled, hv]
  exact congrArg (Extent.mk · _) ((AxisProblem.of c s a).origin_after _ hp _)

end Constraints

namespace Scalar

theorem min_eq (x y : Rat) : Scalar.min x y = Min.min x y := by
  have hx : isNumber x = true := by simp [isNumber]
  rw [Scalar.min, hx, if_pos rfl]
  split_ifs with h
  · exact (min_eq_right h.le).symm
  · exact (min_eq_left (not_lt.1 h)).symm

theorem max_eq (x y : Rat) : Scalar.max x y = Max.max x y := by
  have hx : isNumber x = true := by simp [isNumber]
  rw [Scalar.max, hx, if_pos rfl]
  split_ifs with h
  · exact (max_eq_right h.le).symm
  · exact (max_eq_left (not_lt.1 h)).symm

end Scalar

namespace AxisProblem

variable (p : AxisProblem Rat)

theorem clamp_eq (x : Rat) : p.clamp x
    = p.minSize.elim (p.maxSize.elim x (min x)) (max (p.maxSize.elim x (min x))) := by
  unfold clamp
  rcases p.minSize with _ | lower <;> rcases p.maxSize with _ | upper <;>
    simp [Scalar.min_eq, Scalar.max_eq]

theorem clamp_clamp (x : Rat) : p.clamp (p.clamp x) = p.clamp x := by
  simp only [clamp_eq]
  rcases p.minSize with _ | lower <;> rcases p.maxSize with _ | upper <;>
    simp only [Option.elim_none, Option.elim_some]
  · exact min_eq_left (min_le_right _ _)
  · exact max_eq_left (le_max_right _ _)
  · rcases le_total lower upper with h | h
    · rw [min_eq_left (max_le (min_le_right _ _) h), max_eq_left (le_max_right _ _)]
    · rw [max_eq_right ((min_le_right x upper).trans h), max_eq_right (min_le_left _ _)]

theorem zero_le_clamp (h : ∀ m ∈ p.maxSize, 0 ≤ m) {x : Rat} (hx : 0 ≤ x) : 0 ≤ p.clamp x := by
  have hupper : 0 ≤ p.maxSize.elim x (min x) := by
    cases hm : p.maxSize with
    | none => exact hx
    | some m => exact le_min hx (h m hm)
  rw [clamp_eq]
  cases p.minSize with
  | none => exact hupper
  | some m => exact hupper.trans (le_max_left _ _)

/-- A size that just fits between the edges begins at the low one, whatever the alignment. -/
theorem origin_of_fits {low high size : Rat} (hlow : p.low = some low) (hhigh : p.high = some high)
    (hfits : low + p.lowInset + size = high - p.highInset) : p.origin size = low + p.lowInset := by
  simp only [origin, hlow, hhigh, ← hfits]
  split <;> ring

/-- A settled extent stays where it is. -/
theorem settle_after_settle (size : Option Rat) :
    (p.after (p.settle size)).settle size = p.settle size := by
  have hlength : (p.after (p.settle size)).clamp (size.getD (p.settle size).length)
      = p.clamp (size.getD p.current.length) := by
    cases size with
    | some v => rfl
    | none => exact p.clamp_clamp _
  -- The origin is either fixed by a line or the one that has been handed down.
  have horigin : (p.after (p.settle size)).origin (p.settle size).length
      = (p.settle size).origin := by
    by_cases h : p.low.isSome ∨ p.mid.isSome ∨ p.high.isSome
    · exact p.origin_after _ h _
    · simp only [not_or, Option.not_isSome_iff_eq_none] at h
      simp only [origin, after, h]
  change Extent.mk _ _ = _
  rw [show (p.after (p.settle size)).current = p.settle size from rfl, hlength]
  exact congrArg (Extent.mk · _) horigin

end AxisProblem

namespace Constraints

variable {c : Constraints Rat} {s : Subject Rat}

theorem settled_after_settled {frame : Rect Rat} {a : Axis} (h : frame.extent a = c.settled s a) :
    c.settled (s.after frame) a = c.settled s a := by
  rw [settled_eq_after, h]
  exact AxisProblem.settle_after_settle _ _

theorem Admissible.withoutMargins (h : c.Admissible) : c.withoutMargins.Admissible := by
  intro slot v hv
  cases slot with
  | marginLow | marginHigh => cases hv
  | _ => exact h _ v hv

section Sign

variable (hc : c.Admissible) (hcontent : ∀ size ∈ s.content, ∀ a, 0 ≤ size.along a)

include hc hcontent

theorem zero_le_determined (a : Axis) : ∀ v ∈ c.determined s a, 0 ≤ v := by
  intro v hv
  unfold determined AxisProblem.determinedSize? at hv
  split at hv
  · rename_i size hsize
    cases hv
    exact not_lt.1 (hc (.size a) _ hsize).2
  · rename_i size hsize
    cases hv
    simp only [AxisProblem.of] at hsize
    split_ifs at hsize
    obtain ⟨content, hcontent', rfl⟩ := Option.map_eq_some_iff.1 hsize
    exact hcontent content hcontent' a
  · simp only [Option.map_map, Option.mem_def, Option.map_eq_some_iff, Function.comp_apply] at hv
    obtain ⟨⟨rule, size⟩, -, rfl⟩ := hv
    simp only []
    split_ifs with h
    · exact le_rfl
    · exact not_lt.1 h

theorem zero_le_wanted (a : Axis) : ∀ v ∈ c.wanted s a, 0 ≤ v := by
  have hw := zero_le_determined hc hcontent .horizontal
  have hh := zero_le_determined hc hcontent .vertical
  have hr : ∀ r ∈ c.value .aspectRatio, 0 < r := fun r hr => (hc _ r hr).2
  intro v hv
  cases a <;> simp only [wanted, scaledSizes] at hv <;> split at hv <;>
    simp_all only [Option.mem_def, Option.map_eq_some_iff, Option.some.injEq, forall_eq',
      reduceCtorEq, false_implies, implies_true]
  · obtain ⟨r, hr', rfl⟩ := hv
    exact mul_nonneg hh (hr r hr').le
  · obtain ⟨r, hr', rfl⟩ := hv
    exact div_nonneg hw (hr r hr').le

theorem zero_le_length_settled {a : Axis} (h : 0 ≤ (s.current.extent a).length) :
    0 ≤ (c.settled s a).length := by
  refine AxisProblem.zero_le_clamp _ (fun m hm => not_lt.1 (hc (.maxSize a) m hm).2) ?_
  cases hv : c.wanted s a with
  | none => exact h
  | some v => exact zero_le_wanted hc hcontent a v hv

end Sign

end Constraints

end Pinning
