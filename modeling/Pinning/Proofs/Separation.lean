import Pinning.Proofs.Settling

/-!
# Axes are worked out apart

An axis settles by the problem that it poses and by the size that is wanted along it. The other axis
has a part in that size only through the aspect ratio, and none where the axis has a size of its own
(`wanted_eq_determined`). So two syntheses that pose the same problem along an axis come to the same
extent there (`settled_of_problem`), whatever they differ in across it.

Pinned edges change nothing about this: the problem of either pass is made from the one problem of the
axis and from the extent of the first pass along it.
-/

namespace Pinning

variable {α : Type}

namespace AxisProblem

/-- The problem as the first pass with pinned edges takes it. -/
def withoutMargins (p : AxisProblem α) : AxisProblem α :=
  { p with marginLow := none, marginHigh := none }

variable [Scalar α]

/-- The problem as the second pass takes it, between the edges of an extent. -/
def pinnedTo (p : AxisProblem α) (e : Extent α) : AxisProblem α :=
  { p with low := some (e.line .low), mid := none, high := some (e.line .high), size := none,
           content := none }

end AxisProblem

namespace Constraints

/-- The two agree on all that concerns an axis: on its slots and its alignment, on the flags, and
along the axis on the frame and the content of the node. -/
structure AgreeAlong (a : Axis) (c c' : Constraints α) (s s' : Subject α) : Prop where
  line (l : Line) : c'.value (.line a l) = c.value (.line a l)
  size : c'.value (.size a) = c.value (.size a)
  minSize : c'.value (.minSize a) = c.value (.minSize a)
  maxSize : c'.value (.maxSize a) = c.value (.maxSize a)
  marginLow : c'.value (.marginLow a) = c.value (.marginLow a)
  marginHigh : c'.value (.marginHigh a) = c.value (.marginHigh a)
  spanAlign : c'.spanAlign a = c.spanAlign a
  fitsContent : c'.fitsContent = c.fitsContent
  pinsEdges : c'.pinsEdges = c.pinsEdges
  current : s'.current.extent a = s.current.extent a
  content : s'.content.map (·.along a) = s.content.map (·.along a)

variable {c c' : Constraints α} {s s' : Subject α} {a : Axis}

theorem AgreeAlong.problem (h : AgreeAlong a c c' s s') :
    AxisProblem.of c' s' a = AxisProblem.of c s a := by
  simp only [AxisProblem.of, h.line, h.size, h.minSize, h.maxSize, h.marginLow, h.marginHigh,
    h.spanAlign, h.fitsContent, h.current, h.content]

theorem problem_withoutMargins :
    AxisProblem.of c.withoutMargins s a = (AxisProblem.of c s a).withoutMargins := rfl

variable [Scalar α]

theorem problem_pinnedTo (frame : Rect α) : AxisProblem.of (c.pinnedTo frame) s a
    = (AxisProblem.of c s a).pinnedTo (frame.extent a) := rfl

theorem extent_synthesize (hp : c.pinsEdges = false) :
    (c.synthesize s).frame.extent a = c.settled s a := by
  simp only [synthesize, hp, Bool.false_eq_true, if_false, extent_solve]

theorem extent_synthesize_pinned (hp : c.pinsEdges = true) : (c.synthesize s).frame.extent a
    = (c.pinnedTo (c.withoutMargins.solve s false).frame).settled s a := by
  simp only [synthesize, hp, if_true, extent_solve]

/-- Without a ratio, or beside a size of its own, an axis wants nothing else. -/
theorem wanted_eq_determined (h : c.value .aspectRatio = none ∨ (c.determined s a).isSome) :
    c.wanted s a = c.determined s a := by
  cases a <;> simp only [wanted, scaledSizes] <;> split <;> simp_all

/-- The same problem settles alike, unless a ratio brings in the size of the other axis. -/
theorem settled_of_problem (h : AxisProblem.of c' s' a = AxisProblem.of c s a)
    (hratio : c.value .aspectRatio = none ∧ c'.value .aspectRatio = none
      ∨ c.Sizes s.content a) : c'.settled s' a = c.settled s a := by
  have hdetermined : c'.determined s' a = c.determined s a := by rw [determined, h, determined]
  have hwanted : c'.wanted s' a = c.wanted s a := by
    rw [← isSome_determined] at hratio
    rw [wanted_eq_determined (hratio.imp_left And.left), ← hdetermined]
    refine wanted_eq_determined (hratio.imp And.right fun hsome => ?_)
    rwa [hdetermined]
  rw [settled, h, hwanted, settled]

/-- Between pinned edges an axis looks at the frame along itself. -/
theorem settled_pinnedTo_congr (h : AxisProblem.of c' s' a = AxisProblem.of c s a)
    {frame frame' : Rect α} (hframe : frame'.extent a = frame.extent a) :
    (c'.pinnedTo frame').settled s' a = (c.pinnedTo frame).settled s a := by
  refine settled_of_problem ?_ (.inl ⟨rfl, rfl⟩)
  rw [problem_pinnedTo, problem_pinnedTo, h, hframe]

/-- Constraints and nodes that agree along an axis come to the same origin and the same size there,
whatever they are like across it and however tolerant they are. Only a ratio could carry something
over, and it does not where the axis has a size of its own. -/
theorem axes_keep_apart (h : AgreeAlong a c c' s s')
    (hratio : c.value .aspectRatio = none ∧ c'.value .aspectRatio = none
      ∨ c.Sizes s.content a) :
    (c'.synthesize s').frame.extent a = (c.synthesize s).frame.extent a := by
  cases hp : c.pinsEdges with
  | false =>
    rw [extent_synthesize (h.pinsEdges.trans hp), extent_synthesize hp]
    exact settled_of_problem h.problem hratio
  | true =>
    rw [extent_synthesize_pinned (h.pinsEdges.trans hp), extent_synthesize_pinned hp]
    -- The first pass comes to the same extent, and the second asks for no more of it.
    refine settled_pinnedTo_congr h.problem ?_
    rw [extent_solve, extent_solve]
    refine settled_of_problem ?_ hratio
    rw [problem_withoutMargins, problem_withoutMargins, h.problem]

/-- A card with a left edge and a center keeps its width, whatever becomes of its height, its ratio
and its tolerance; its pinned edges and its margins are the same. -/
theorem card_keeps_width :
    let c : Constraints Rat := (((∅ : Constraints Rat).set (.line .horizontal .low) 10).set
      (.line .horizontal .mid) 40).set (.marginHigh .horizontal) 6
    let c : Constraints Rat := { c.set .aspectRatio 2 with pinsEdges := true }
    let c' := ((c.set .aspectRatio 3).set (.size .vertical) 25).set (.marginLow .vertical) 4
    let s : Subject Rat := ⟨⟨⟨5, 5⟩, ⟨40, 30⟩⟩, some ⟨12, 8⟩, 1 / 1000⟩
    let s' : Subject Rat := ⟨⟨⟨5, -7⟩, ⟨40, 0⟩⟩, some ⟨12, 9⟩, 4⟩
    AgreeAlong .horizontal c c' s s' ∧ c.Sizes s.content .horizontal
      ∧ (c'.synthesize s').frame.extent .horizontal = (c.synthesize s).frame.extent .horizontal
      ∧ (c.synthesize s).frame = ⟨⟨10, 5⟩, ⟨54, 30⟩⟩
      ∧ (c'.synthesize s').frame = ⟨⟨10, -3⟩, ⟨54, 21⟩⟩ := by
  intro c₀ c c' s s'
  have hagree : AgreeAlong .horizontal c c' s s' :=
    { line := fun l => by cases l <;> rfl
      size := rfl
      minSize := rfl
      maxSize := rfl
      marginLow := rfl
      marginHigh := rfl
      spanAlign := rfl
      fitsContent := rfl
      pinsEdges := rfl
      current := rfl
      content := rfl }
  have hsizes : c.Sizes s.content .horizontal := by decide +kernel
  exact ⟨hagree, hsizes, axes_keep_apart hagree (.inr hsizes), by decide +kernel,
    by decide +kernel⟩

/-- Where the width is open, a ratio lets the height through. -/
example :
    let c : Constraints Rat := (∅ : Constraints Rat).set .aspectRatio 2
    let s : Subject Rat := ⟨⟨⟨5, 5⟩, ⟨40, 30⟩⟩, none, 1 / 1000⟩
    (c.synthesize s).frame.size.width = 40
      ∧ ((c.set (.size .vertical) 25).synthesize s).frame.size.width = 50 := by
  decide +kernel

end Constraints

end Pinning
