import Mathlib.Algebra.Order.Group.MinMax
import Mathlib.Tactic.Ring
import Pinning.Proofs.Settling

/-!
# Frames and constraints in the mirror

A container of width `w` seen in a mirror: what lies at `x` lies at `w - x`, left and right trade
places (`Rect.mirrored`, `Constraints.mirrored`). The synthesis is not even-handed, for without an
alignment a frame between two edges keeps to the left one, and without a line it stays where it is.
Constraints that leave neither case open (`Constraints.Impartial`) come to the mirrored frame in the
mirror (`frame_synthesize_mirrored`).
-/

namespace Pinning

def Line.opposite : Line → Line
  | low => high
  | mid => mid
  | high => low

theorem Line.opposite_opposite (l : Line) : l.opposite.opposite = l := by cases l <;> rfl

namespace Extent

def mirrored (w : Rat) (e : Extent Rat) : Extent Rat := ⟨w - e.origin - e.length, e.length⟩

variable (w : Rat) (e f : Extent Rat)

theorem line_mirrored (l : Line) : (e.mirrored w).line l = w - e.line l.opposite := by
  cases l <;> simp only [mirrored, line, Line.opposite] <;> ring

theorem union_mirrored : (e.mirrored w).union (f.mirrored w) = (e.union f).mirrored w := by
  simp only [union, line_mirrored, Line.opposite, Scalar.min_eq, Scalar.max_eq, min_sub_sub_left,
    max_sub_sub_left]
  simp only [mirrored, Extent.mk.injEq]
  exact ⟨by ring, by ring⟩

end Extent

namespace Rect

/-- A frame as it stands in the mirror of a container of width `w`. -/
def mirrored (w : Rat) (r : Rect Rat) : Rect Rat :=
  ⟨⟨w - r.origin.x - r.size.width, r.origin.y⟩, r.size⟩

variable (w : Rat) (r s : Rect Rat)

theorem extent_mirrored_horizontal :
    (r.mirrored w).extent .horizontal = (r.extent .horizontal).mirrored w := rfl

theorem line_mirrored_horizontal (l : Line) :
    (r.mirrored w).line .horizontal l = w - r.line .horizontal l.opposite :=
  Extent.line_mirrored w (r.extent .horizontal) l

theorem line_mirrored_vertical (l : Line) : (r.mirrored w).line .vertical l = r.line .vertical l :=
  rfl

theorem union_mirrored : (r.mirrored w).union (s.mirrored w) = (r.union s).mirrored w := by
  rw [union, extent_mirrored_horizontal, extent_mirrored_horizontal, Extent.union_mirrored]
  rfl

end Rect

def Subject.mirrored (w : Rat) (s : Subject Rat) : Subject Rat :=
  { s with current := s.current.mirrored w }

namespace Constraints

variable (w : Rat) (c : Constraints Rat)

def mirrored : Constraints Rat where
  value
    | .line .horizontal l => (c.value (.line .horizontal l.opposite)).map (w - ·)
    | .marginLow .horizontal => c.value (.marginHigh .horizontal)
    | .marginHigh .horizontal => c.value (.marginLow .horizontal)
    | slot => c.value slot
  fitsContent := c.fitsContent
  pinsEdges := c.pinsEdges
  spanAlign
    | .horizontal => (c.spanAlign .horizontal).map Line.opposite
    | .vertical => c.spanAlign .vertical

/-- The frame takes to neither side by itself: a line is set, and an alignment says where it stands
between two edges. Pinned edges are two edges. -/
def Impartial : Prop :=
  c.Positions .horizontal ∧ ((c.spanAlign .horizontal).isSome ∨ c.pinsEdges = false
    ∧ ¬ ((c.value (.line .horizontal .low)).isSome ∧ (c.value (.line .horizontal .high)).isSome))

instance : Decidable c.Impartial := inferInstanceAs (Decidable (_ ∧ _))

end Constraints

namespace AxisProblem

/-- A horizontal axis in the mirror. -/
def mirrored (w : Rat) (p : AxisProblem Rat) : AxisProblem Rat where
  axis := p.axis
  low := p.high.map (w - ·)
  mid := p.mid.map (w - ·)
  high := p.low.map (w - ·)
  size := p.size
  minSize := p.minSize
  maxSize := p.maxSize
  marginLow := p.marginHigh
  marginHigh := p.marginLow
  spanAlign := p.spanAlign.map Line.opposite
  content := p.content
  current := p.current.mirrored w

variable (w : Rat) (p : AxisProblem Rat)

theorem impliedSize?_mirrored : (p.mirrored w).impliedSize? = p.impliedSize? := by
  obtain ⟨_, low, mid, high, _⟩ := p
  rcases low with _ | low <;> rcases mid with _ | mid <;> rcases high with _ | high <;>
    simp only [mirrored, impliedSize?, lowInset, highInset, Option.map_none, Option.map_some,
      Option.some.injEq, Prod.mk.injEq, true_and] <;> ring

theorem determinedSize?_mirrored : (p.mirrored w).determinedSize? = p.determinedSize? := by
  unfold determinedSize?
  rw [impliedSize?_mirrored]
  rfl

theorem origin_mirrored (hline : p.low.isSome ∨ p.mid.isSome ∨ p.high.isSome)
    (hspan : p.spanAlign.isSome ∨ ¬ (p.low.isSome ∧ p.high.isSome)) (size : Rat) :
    (p.mirrored w).origin size = w - p.origin size - size := by
  obtain ⟨_, low, mid, high, _, _, _, _, _, align, _⟩ := p
  rcases low with _ | low <;> rcases high with _ | high
  · obtain ⟨mid, rfl⟩ : ∃ m, mid = some m := Option.isSome_iff_exists.1 (by simpa using hline)
    simp only [mirrored, origin, Option.map_none, Option.map_some]
    ring
  · simp only [mirrored, origin, lowInset, highInset, Option.map_none, Option.map_some]
    ring
  · simp only [mirrored, origin, lowInset, highInset, Option.map_none, Option.map_some]
    ring
  · obtain ⟨align, rfl⟩ : ∃ l, align = some l := Option.isSome_iff_exists.1 (by simpa using hspan)
    cases align <;> simp only [mirrored, origin, lowInset, highInset, Option.map_some,
      Line.opposite] <;> ring

theorem settle_mirrored (hline : p.low.isSome ∨ p.mid.isSome ∨ p.high.isSome)
    (hspan : p.spanAlign.isSome ∨ ¬ (p.low.isSome ∧ p.high.isSome)) (size : Option Rat) :
    (p.mirrored w).settle size = (p.settle size).mirrored w := by
  have hclamp : (p.mirrored w).clamp (size.getD (p.mirrored w).current.length)
      = p.clamp (size.getD p.current.length) := rfl
  simp only [settle, hclamp, origin_mirrored w p hline hspan]
  rfl

end AxisProblem

namespace Constraints

variable (w : Rat) {c : Constraints Rat} (s : Subject Rat)

theorem of_mirrored_horizontal (c : Constraints Rat) :
    AxisProblem.of (c.mirrored w) (s.mirrored w) .horizontal
      = (AxisProblem.of c s .horizontal).mirrored w := rfl

theorem of_mirrored_vertical (c : Constraints Rat) :
    AxisProblem.of (c.mirrored w) (s.mirrored w) .vertical = AxisProblem.of c s .vertical := rfl

theorem determined_mirrored (c : Constraints Rat) (a : Axis) :
    (c.mirrored w).determined (s.mirrored w) a = c.determined s a := by
  cases a
  · rw [determined, of_mirrored_horizontal, AxisProblem.determinedSize?_mirrored, determined]
  · rfl

theorem wanted_mirrored (c : Constraints Rat) (a : Axis) :
    (c.mirrored w).wanted (s.mirrored w) a = c.wanted s a := by
  cases a <;> simp only [wanted, determined_mirrored] <;> rfl

/-- A pass in the mirror comes to the frame in the mirror. -/
theorem frame_solve_mirrored (hline : c.Positions .horizontal)
    (hspan : (c.spanAlign .horizontal).isSome ∨ ¬ ((c.value (.line .horizontal .low)).isSome
      ∧ (c.value (.line .horizontal .high)).isSome)) (judges judges' : Bool) :
    ((c.mirrored w).solve (s.mirrored w) judges').frame = (c.solve s judges).frame.mirrored w := by
  have hh : (c.mirrored w).settled (s.mirrored w) .horizontal
      = (c.settled s .horizontal).mirrored w := by
    rw [settled, wanted_mirrored, of_mirrored_horizontal]
    exact (AxisProblem.of c s .horizontal).settle_mirrored w hline hspan _
  have hv : (c.mirrored w).settled (s.mirrored w) .vertical = c.settled s .vertical := by
    rw [settled, wanted_mirrored, of_mirrored_vertical, settled]
  rw [solve_eq, solve_eq]
  simp only [hh, hv]
  rfl

theorem withoutMargins_mirrored (c : Constraints Rat) :
    (c.mirrored w).withoutMargins = c.withoutMargins.mirrored w := by
  refine Constraints.ext (funext fun slot => ?_) rfl rfl (funext fun a => ?_)
  · cases slot with
    | line a l => cases a <;> rfl
    | marginLow a => cases a <;> rfl
    | marginHigh a => cases a <;> rfl
    | _ => rfl
  · cases a <;> rfl

theorem pinnedTo_mirrored (c : Constraints Rat) (frame : Rect Rat) :
    (c.mirrored w).pinnedTo (frame.mirrored w) = (c.pinnedTo frame).mirrored w := by
  refine Constraints.ext (funext fun slot => ?_) rfl rfl (funext fun a => ?_)
  · cases slot with
    | line a l =>
      cases a <;> cases l <;> simp [pinnedTo, mirrored, Rect.line_mirrored_horizontal,
        Rect.line_mirrored_vertical, Line.opposite]
    | marginLow a => cases a <;> rfl
    | marginHigh a => cases a <;> rfl
    | _ => rfl
  · cases a <;> rfl

theorem frame_synthesize_mirrored (h : c.Impartial) :
    ((c.mirrored w).synthesize (s.mirrored w)).frame = (c.synthesize s).frame.mirrored w := by
  obtain ⟨hline, hspan⟩ := h
  by_cases hp : c.pinsEdges = true
  · -- Pinned edges are two edges, so there is an alignment, and neither pass keeps to a side.
    have halign : (c.spanAlign .horizontal).isSome := by
      rcases hspan with h | ⟨h, -⟩
      · exact h
      · rw [hp] at h
        cases h
    have hfirst := frame_solve_mirrored w s (c := c.withoutMargins) hline (.inl halign) false false
    have hpinned := frame_solve_mirrored w s
      (c := c.pinnedTo (c.withoutMargins.solve s false).frame) (.inl rfl) (.inl halign) true true
    rw [← pinnedTo_mirrored, ← hfirst, ← withoutMargins_mirrored] at hpinned
    simp only [synthesize, if_pos hp, ← hpinned]
    rw [if_pos (show (c.mirrored w).pinsEdges = true from hp)]
  · have hdirect := frame_solve_mirrored w s hline (hspan.imp_right And.right) true true
    simp only [synthesize, if_neg hp, ← hdirect]
    rw [if_neg (show ¬ (c.mirrored w).pinsEdges = true from hp)]

end Constraints

namespace Slot

/-- The slot for the same quantity in the mirror. -/
def mirrored : Slot → Slot
  | line .horizontal l => line .horizontal l.opposite
  | marginLow .horizontal => marginHigh .horizontal
  | marginHigh .horizontal => marginLow .horizontal
  | s => s

/-- The value of the slot in the mirror. -/
def reflect (w : Rat) : Slot → Rat → Rat
  | line .horizontal _, v => w - v
  | _, v => v

theorem mirrored_mirrored : ∀ s : Slot, s.mirrored.mirrored = s
  | line .horizontal .low | line .horizontal .mid | line .horizontal .high
  | line .vertical _ | marginLow .horizontal | marginLow .vertical
  | marginHigh .horizontal | marginHigh .vertical | size _ | minSize _ | maxSize _
  | aspectRatio => rfl

theorem reflect_mirrored (w : Rat) : ∀ s : Slot, s.mirrored.reflect w = s.reflect w
  | line .horizontal _ | line .vertical _ | marginLow .horizontal | marginLow .vertical
  | marginHigh .horizontal | marginHigh .vertical | size _ | minSize _ | maxSize _
  | aspectRatio => rfl

end Slot

namespace Constraints

variable (w : Rat) (c c' : Constraints Rat)

theorem value_mirrored (slot : Slot) :
    (c.mirrored w).value slot = (c.value slot.mirrored).map (slot.reflect w) := by
  have hid : ∀ o : Option Rat, o = o.map fun v => v := fun _ => Option.map_id'.symm
  cases slot with
  | line a l =>
    cases a
    · rfl
    · exact hid _
  | marginLow a => cases a <;> exact hid _
  | marginHigh a => cases a <;> exact hid _
  | _ => exact hid _

/-- A mirror does not touch the flags. -/
theorem mirrored_flags (fitsContent pinsEdges : Bool) :
    ({ fitsContent, pinsEdges } : Constraints Rat).mirrored w = { fitsContent, pinsEdges } := by
  refine Constraints.ext (funext fun slot => ?_) rfl rfl (funext fun a => ?_)
  · rw [value_mirrored]
    rfl
  · cases a <;> rfl

@[simp] theorem mirrored_empty : (∅ : Constraints Rat).mirrored w = ∅ :=
  mirrored_flags w false false

@[simp] theorem mirrored_overlay :
    (c.overlay c').mirrored w = (c.mirrored w).overlay (c'.mirrored w) := by
  refine Constraints.ext (funext fun slot => ?_) rfl rfl (funext fun a => ?_)
  · simp only [value_mirrored, overlay, Option.map_or]
  · cases a
    · simp only [mirrored, overlay, Option.map_or]
    · rfl

theorem mirrored_set (slot : Slot) (v : Rat) :
    (c.set slot v).mirrored w = (c.mirrored w).set slot.mirrored (slot.reflect w v) := by
  refine Constraints.ext (funext fun t => ?_) rfl rfl rfl
  simp only [value_mirrored, set]
  by_cases h : t.mirrored = slot
  · subst h
    simp [Slot.mirrored_mirrored, Slot.reflect_mirrored]
  · have h' : t ≠ slot.mirrored := fun ht => h (by rw [ht, Slot.mirrored_mirrored])
    simp [h, h']

theorem mirrored_setSpanAlign_horizontal (l : Line) : (c.setSpanAlign .horizontal l).mirrored w
    = (c.mirrored w).setSpanAlign .horizontal l.opposite := by
  refine Constraints.ext rfl rfl rfl (funext fun a => ?_)
  cases a <;> rfl

theorem mirrored_setSpanAlign_vertical (l : Line) :
    (c.setSpanAlign .vertical l).mirrored w = (c.mirrored w).setSpanAlign .vertical l := by
  refine Constraints.ext rfl rfl rfl (funext fun a => ?_)
  cases a <;> rfl

theorem mirrored_overlayAll : ∀ cs : List (Constraints Rat),
    (overlayAll cs).mirrored w = overlayAll (cs.map (mirrored w))
  | [] => mirrored_empty w
  | c :: cs => by rw [overlayAll_cons, mirrored_overlay, mirrored_overlayAll cs]; rfl

theorem apart_set {slot slot' : Slot} (h : slot ≠ slot') (v v' : Rat) :
    (set ∅ slot v).Apart (set ∅ slot' v') := by
  refine ⟨fun s => ?_, fun _ => .inl rfl⟩
  by_cases hs : s = slot
  · exact .inr (value_set_of_ne (hs ▸ h))
  · exact .inl (value_set_of_ne hs)

end Constraints

end Pinning
