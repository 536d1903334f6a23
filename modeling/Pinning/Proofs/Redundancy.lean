import Pinning.Proofs.Causes

/-!
# What a warning calls idle can be left out

Each warning of a synthesis that reports no conflict names a demand (`Warning.demand?`): a margin, the
aspect ratio, an alignment, or that the content's size counts. It is raised where the demand is idle
(`Constraints.Idle`), and an idle demand moves no extent (`Idle.settled_without`): a margin is only
looked at beside its edge, an alignment only between two edges, a ratio only where exactly one size is
there, and the content only where a size is open.

With pinned edges the first pass has no margins and judges no alignment, and the second finds nothing
idle. So what is left to be called idle there is the ratio or the content of the first pass
(`callsIdle_of_mem_synthesize_pinned`), and the second knows of neither.
-/

namespace Pinning

variable {α : Type}

/-- What constraints may hold and a warning may call idle. -/
inductive Demand where
  | value (slot : Slot)
  | fitSize
  | spanAlign (axis : Axis)
deriving DecidableEq, Repr

/-- The directive that makes the demand. -/
def Demand.name : Demand → String
  | value slot => slot.name
  | fitSize => "fit_size"
  | spanAlign a => a.spanAlignName

/-- The demand that a warning calls idle. -/
def Warning.demand? : Warning α → Option Demand
  | noContentSize | fitOverridden => some .fitSize
  | ratioOverridden _ | ratioWithoutSize _ => some (.value .aspectRatio)
  | marginUnused a .low => some (.value (.marginLow a))
  | marginUnused a .high => some (.value (.marginHigh a))
  | spanAlignUnused a => some (.spanAlign a)
  | _ => none

namespace Constraints

def Demands (c : Constraints α) : Demand → Prop
  | .value slot => (c.value slot).isSome
  | .fitSize => c.fitsContent = true
  | .spanAlign a => (c.spanAlign a).isSome

/-- The constraints with one demand taken back. -/
def without (c : Constraints α) : Demand → Constraints α
  | .value slot => { c with value := fun t => if t = slot then none else c.value t }
  | .fitSize => { c with fitsContent := false }
  | .spanAlign a => { c with spanAlign := fun b => if b = a then none else c.spanAlign b }

end Constraints

variable [Scalar α]

namespace AxisProblem

/-- Two problems that differ only where it is not looked: in the content beside a size that is set, in
the margin of an edge that is not, or in an alignment without two edges to work between. -/
structure ReadAlike (p p' : AxisProblem α) : Prop where
  low : p'.low = p.low := by rfl
  mid : p'.mid = p.mid := by rfl
  high : p'.high = p.high := by rfl
  size : p'.size = p.size := by rfl
  minSize : p'.minSize = p.minSize := by rfl
  maxSize : p'.maxSize = p.maxSize := by rfl
  current : p'.current = p.current := by rfl
  content : p.size = none → p'.content = p.content := by exact fun _ => rfl
  lowInset : p.low.isSome → p'.lowInset = p.lowInset := by exact fun _ => rfl
  highInset : p.high.isSome → p'.highInset = p.highInset := by exact fun _ => rfl
  spanAlign : p.low.isSome → p.high.isSome → p'.spanAlign = p.spanAlign := by exact fun _ _ => rfl

namespace ReadAlike

variable {p p' : AxisProblem α} (h : p.ReadAlike p')

include h

theorem impliedSize? : p'.impliedSize? = p.impliedSize? := by
  have hlow := h.lowInset
  have hhigh := h.highInset
  simp only [AxisProblem.impliedSize?, h.low, h.mid, h.high]
  split <;> simp_all

theorem determinedSize? : p'.determinedSize? = p.determinedSize? := by
  have hcontent := h.content
  simp only [AxisProblem.determinedSize?, h.impliedSize?, h.size]
  cases hsize : p.size with
  | none => rw [hcontent hsize]
  | some v => rfl

theorem origin (size : α) : p'.origin size = p.origin size := by
  have hlow := h.lowInset
  have hhigh := h.highInset
  have halign := h.spanAlign
  simp only [AxisProblem.origin, h.low, h.mid, h.high, h.current]
  split <;> simp_all

theorem settle (size : Option α) : p'.settle size = p.settle size := by
  have hclamp : ∀ v, p'.clamp v = p.clamp v := fun v => by
    simp only [clamp, h.minSize, h.maxSize]
  simp only [AxisProblem.settle, hclamp, h.origin, h.current]

end ReadAlike

end AxisProblem

namespace Constraints

variable {c c' : Constraints α} {s : Subject α}

theorem settled_congr (h : ∀ a, (AxisProblem.of c s a).ReadAlike (AxisProblem.of c' s a))
    (hratio : c'.scaledSizes (c.determined s .horizontal) (c.determined s .vertical)
      = c.scaledSizes (c.determined s .horizontal) (c.determined s .vertical)) (a : Axis) :
    c'.settled s a = c.settled s a := by
  have hdetermined : ∀ a, c'.determined s a = c.determined s a := fun a => by
    rw [determined, (h a).determinedSize?, determined]
  have hwanted : c'.wanted s a = c.wanted s a := by
    cases a <;> simp only [wanted, hdetermined, hratio]
  rw [settled, hwanted, (h a).settle, settled]

variable (c s) in
/-- A demand that has nothing to act on. -/
inductive Idle : Demand → Prop
  | noContent (h : s.content = none) : Idle .fitSize
  | sized (h : ∀ a, (c.value (.size a)).isSome) : Idle .fitSize
  | ratio (h : (c.determined s .horizontal).isSome ↔ (c.determined s .vertical).isSome) :
    Idle (.value .aspectRatio)
  | marginLow {a : Axis} (h : c.value (.line a .low) = none) : Idle (.value (.marginLow a))
  | marginHigh {a : Axis} (h : c.value (.line a .high) = none) : Idle (.value (.marginHigh a))
  | spanAlign {a : Axis} (h : c.value (.line a .low) = none ∨ c.value (.line a .high) = none) :
    Idle (.spanAlign a)

theorem Idle.readAlike {d : Demand} (h : c.Idle s d) (a : Axis) :
    (AxisProblem.of c s a).ReadAlike (AxisProblem.of (c.without d) s a) := by
  cases h with
  | noContent h => exact { content := fun _ => by simp [AxisProblem.of, h] }
  | sized h =>
    refine { content := fun hnone => ?_ }
    have hsome := h a
    rw [show c.value (.size a) = none from hnone] at hsome
    cases hsome
  | ratio => exact {}
  | @marginLow b h =>
    refine { lowInset := fun hlow => congrArg (Option.getD · 0) (if_neg ?_) }
    rintro ⟨⟩
    simp [AxisProblem.of, h] at hlow
  | @marginHigh b h =>
    refine { highInset := fun hhigh => congrArg (Option.getD · 0) (if_neg ?_) }
    rintro ⟨⟩
    simp [AxisProblem.of, h] at hhigh
  | @spanAlign b h =>
    refine { spanAlign := fun hlow hhigh => if_neg ?_ }
    rintro rfl
    rcases h with h | h
    · simp [AxisProblem.of, h] at hlow
    · simp [AxisProblem.of, h] at hhigh

/-- An idle demand moves nothing. -/
theorem Idle.settled_without {d : Demand} (h : c.Idle s d) (a : Axis) :
    (c.without d).settled s a = c.settled s a := by
  refine settled_congr h.readAlike ?_ a
  cases h with
  | ratio h =>
    cases hw : c.determined s .horizontal <;> cases hh : c.determined s .vertical <;>
      simp_all [scaledSizes]
  | _ => rfl

theorem Idle.frame_solve_without {d : Demand} (h : c.Idle s d) (judgesSpanAlign : Bool) :
    ((c.without d).solve s judgesSpanAlign).frame = (c.solve s judgesSpanAlign).frame := by
  simp only [solve_eq, h.settled_without]

variable {w : Warning α}

variable (c s w) in
/-- The warning names a demand that is made and idle, and its text begins with the directive. -/
structure CallsIdle (d : Demand) : Prop where
  named : w.demand? = some d
  made : c.Demands d
  idle : c.Idle s d
  text : ∃ rest, w.message = d.name ++ (" " ++ rest)

theorem callsIdle_of_mem_fitWarnings (h : w ∈ c.fitWarnings s) : c.CallsIdle s w .fitSize := by
  rcases mem_fitWarnings_iff.1 h with ⟨hfit, ⟨hcontent, rfl⟩ | ⟨-, hsizes, rfl⟩⟩
  · exact ⟨rfl, hfit, .noContent hcontent, "requested but the node has no intrinsic size", rfl⟩
  · exact ⟨rfl, hfit, .sized hsizes, "ignored: width and height are both set explicitly", rfl⟩

theorem callsIdle_of_mem_ratioWarnings
    (h : w ∈ c.ratioWarnings (c.determined s .horizontal) (c.determined s .vertical)) :
    c.CallsIdle s w (.value .aspectRatio) := by
  have htext : ∀ r rest : String, "aspect_ratio " ++ r ++ rest
      = Demand.name (.value .aspectRatio) ++ (" " ++ (r ++ rest)) := by
    intro r rest
    rw [← String.append_assoc, ← String.append_assoc]
    rfl
  obtain ⟨r, hr, ⟨hw, hh, rfl⟩ | ⟨hw, hh, rfl⟩⟩ := mem_ratioWarnings_iff.1 h
  · exact ⟨rfl, by simp [Demands, hr], .ratio (by simp [hw, hh]), _, htext _ _⟩
  · exact ⟨rfl, by simp [Demands, hr], .ratio (by simp [hw, hh]), _, htext _ _⟩

theorem exists_callsIdle_of_raises {a : Axis} {judgesSpanAlign : Bool} {e : Extent α}
    (h : (AxisProblem.of c s a).Raises s.tolerance judgesSpanAlign e w)
    (hw : w.category ≠ .conflict) : ∃ d, c.CallsIdle s w d := by
  cases h with
  | negativeImplied | edgesDisagree | centerOverridden | limitsCross => exact absurd rfl hw
  | lowMarginUnused hmargin _ hlow =>
    refine ⟨_, rfl, Option.isSome_of_eq_some hmargin, .marginLow hlow, ?_⟩
    exact ⟨"has no effect: " ++ a.lineName .low ++ " was never positioned", by cases a <;> rfl⟩
  | highMarginUnused hmargin _ hhigh =>
    refine ⟨_, rfl, Option.isSome_of_eq_some hmargin, .marginHigh hhigh, ?_⟩
    exact ⟨"has no effect: " ++ a.lineName .high ++ " was never positioned", by cases a <;> rfl⟩
  | spanAlignUnused _ halign hedge =>
    refine ⟨_, rfl, halign, .spanAlign hedge, ?_⟩
    exact ⟨"has no effect unless both " ++ Warning.message.edges a ++ " are set",
      by cases a <;> rfl⟩

/-- The first pass has neither margins nor an alignment to be idle, and the second warns of conflicts
only. -/
theorem callsIdle_of_mem_synthesize_pinned (hp : c.pinsEdges = true)
    (h : w ∈ (c.synthesize s).warnings) (hw : w.category ≠ .conflict) :
    c.withoutMargins.CallsIdle s w .fitSize
      ∨ c.withoutMargins.CallsIdle s w (.value .aspectRatio) := by
  rcases (mem_synthesize_pinned_iff hp).1 h with (h | h) | h
  · exact .inl (callsIdle_of_mem_fitWarnings h)
  · rcases mem_solve_iff.1 h with h | ⟨a, h⟩
    · exact .inr (callsIdle_of_mem_ratioWarnings h)
    · cases h with
      | negativeImplied | edgesDisagree | centerOverridden | limitsCross => exact absurd rfl hw
      | lowMarginUnused hmargin | highMarginUnused hmargin => cases hmargin
      | spanAlignUnused hjudges => cases hjudges
  · rcases mem_solve_pinnedTo h with ⟨a, ⟨_, _, -, -, rfl⟩ | ⟨_, _, -, -, -, rfl⟩⟩ <;>
      exact absurd rfl hw

omit [Scalar α] in
theorem withoutMargins_without (d : Demand) :
    (c.without d).withoutMargins = c.withoutMargins.without d := by
  cases d with
  | value slot =>
    refine Constraints.ext (funext fun t => ?_) rfl rfl rfl
    cases t with
    | marginLow | marginHigh => exact (ite_self none).symm
    | _ => rfl
  | fitSize | spanAlign => rfl

theorem frame_synthesize_without_pinned (hp : c.pinsEdges = true) {d : Demand}
    (h : c.withoutMargins.Idle s d)
    (hpinned : ∀ frame, (c.without d).pinnedTo frame = c.pinnedTo frame) :
    ((c.without d).synthesize s).frame = (c.synthesize s).frame := by
  have hp' : (c.without d).pinsEdges = true := by cases d <;> exact hp
  simp only [synthesize, hp, hp', if_true, withoutMargins_without, h.frame_solve_without, hpinned]

/-- A warning that is no conflict begins with the name of a directive that was given, and without
that directive the frame is the same. -/
theorem idle_demands_move_nothing (c : Constraints α) (s : Subject α) {w : Warning α}
    (h : w ∈ (c.synthesize s).warnings)
    (hw : w.category = .ineffective ∨ w.category = .underconstrained) :
    ∃ d, w.demand? = some d ∧ c.Demands d ∧ (∃ rest, w.message = d.name ++ (" " ++ rest))
      ∧ ((c.without d).synthesize s).frame = (c.synthesize s).frame := by
  have hw : w.category ≠ .conflict := by rcases hw with hw | hw <;> rw [hw] <;> decide
  by_cases hp : c.pinsEdges = true
  · rcases callsIdle_of_mem_synthesize_pinned hp h hw with hd | hd <;>
      exact ⟨_, hd.named, hd.made, hd.text,
        frame_synthesize_without_pinned hp hd.idle fun _ => rfl⟩
  · have hp : c.pinsEdges = false := by simpa using hp
    obtain ⟨d, hd⟩ : ∃ d, c.CallsIdle s w d := by
      rcases (mem_synthesize_iff hp).1 h with h | h
      · exact ⟨_, callsIdle_of_mem_fitWarnings h⟩
      · rcases mem_solve_iff.1 h with h | ⟨a, h⟩
        · exact ⟨_, callsIdle_of_mem_ratioWarnings h⟩
        · exact exists_callsIdle_of_raises h hw
    have hp' : (c.without d).pinsEdges = false := by cases d <;> exact hp
    refine ⟨d, hd.named, hd.made, hd.text, ?_⟩
    simp only [synthesize, hp, hp', Bool.false_eq_true, if_false, hd.idle.frame_solve_without]

/-- A ratio between two sizes, and the margin of an edge that is not set; with pinned edges there is
only the ratio to complain of. -/
theorem poster_without_ratio :
    let c : Constraints Rat := ((((∅ : Constraints Rat).set (.line .horizontal .low) 10).set
      (.size .horizontal) 50).set (.size .vertical) 20).set .aspectRatio 2
    let c := c.set (.marginHigh .horizontal) 4
    let c' : Constraints Rat := { c with pinsEdges := true }
    let s : Subject Rat := ⟨⟨⟨5, 5⟩, ⟨40, 30⟩⟩, none, 1 / 1000⟩
    (c.synthesize s).warnings = [.ratioOverridden 2, .marginUnused .horizontal .high]
      ∧ ((c.without (.value .aspectRatio)).synthesize s).frame = (c.synthesize s).frame
      ∧ ((c.without (.value (.marginHigh .horizontal))).synthesize s).frame
        = (c.synthesize s).frame
      ∧ (c'.synthesize s).warnings = [.ratioOverridden 2]
      ∧ ((c'.without (.value .aspectRatio)).synthesize s).frame = (c'.synthesize s).frame := by
  intro c₀ c c' s
  have hwarned : (c.synthesize s).warnings
      = [.ratioOverridden 2, .marginUnused .horizontal .high] := by decide +kernel
  have hwarned' : (c'.synthesize s).warnings = [.ratioOverridden 2] := by decide +kernel
  obtain ⟨_, ⟨⟩, -, -, hratio⟩ := idle_demands_move_nothing c s
    (w := .ratioOverridden 2) (by simp [hwarned]) (.inl rfl)
  obtain ⟨_, ⟨⟩, -, -, hmargin⟩ := idle_demands_move_nothing c s
    (w := .marginUnused .horizontal .high) (by simp [hwarned]) (.inl rfl)
  obtain ⟨_, ⟨⟩, -, -, hpinned⟩ := idle_demands_move_nothing c' s
    (w := .ratioOverridden 2) (by simp [hwarned']) (.inl rfl)
  exact ⟨hwarned, hratio, hmargin, hwarned', hpinned⟩

end Constraints

end Pinning
