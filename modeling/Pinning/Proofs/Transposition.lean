import Mathlib.Algebra.Field.Basic
import Pinning.Proofs.Similarity

/-!
# The vertical axis is the horizontal one transposed

Two axes trade places (`Constraints.transposed`): what was said of the width is said of the height,
left is top, and a width of `r` heights is a height of `1 / r` widths. Each axis poses the other's
problem under its own name (`of_transposed`), and where the ratio made a height of the width it makes
a width of the height (`wanted_transposed`).

The warnings are those of before under the other axis' name. A pass speaks of the horizontal axis
first, so they come in another order (`warnings_solve_transposed`), and what a second pass adds does
not depend on the order (`Warning.merge_perm`).
-/

namespace Pinning

namespace Warning

variable {α : Type} [Scalar α]

/-- What is merged is there as often as before, or once if it is new. -/
theorem count_merge (w : Warning α) : ∀ more ws : List (Warning α),
    (merge ws more).count w = if w ∈ ws ∨ w ∉ more then ws.count w else 1
  | [], ws => by simp [merge]
  | v :: more, ws => by
    rw [merge, List.foldl_cons, ← merge, count_merge w more]
    by_cases hv : v ∈ ws
    · by_cases hw : w = v
      · simp [hw, hv]
      · simp [hw, hv]
    · by_cases hw : w = v
      · simp [hw, hv, List.count_eq_zero_of_not_mem hv]
      · simp [hw, hv, Ne.symm hw]

theorem merge_perm {ws ws' more more' : List (Warning α)} (h : ws.Perm ws')
    (h' : more.Perm more') : (merge ws more).Perm (merge ws' more') := by
  refine List.perm_iff_count.2 fun w => ?_
  simp only [count_merge, h.count_eq, h.mem_iff, h'.mem_iff]

end Warning

theorem Axis.other_other : ∀ a : Axis, a.other.other = a
  | horizontal | vertical => rfl

def Point.transposed (p : Point Rat) : Point Rat := ⟨p.y, p.x⟩

def Size.transposed (s : Size Rat) : Size Rat := ⟨s.height, s.width⟩

def Rect.transposed (r : Rect Rat) : Rect Rat := ⟨r.origin.transposed, r.size.transposed⟩

def Subject.transposed (s : Subject Rat) : Subject Rat where
  current := s.current.transposed
  content := s.content.map Size.transposed
  tolerance := s.tolerance

/-- The constraints with the axes in each other's place. -/
def Constraints.transposed (c : Constraints Rat) : Constraints Rat where
  value
    | .line a l => c.value (.line a.other l)
    | .size a => c.value (.size a.other)
    | .minSize a => c.value (.minSize a.other)
    | .maxSize a => c.value (.maxSize a.other)
    | .marginLow a => c.value (.marginLow a.other)
    | .marginHigh a => c.value (.marginHigh a.other)
    | .aspectRatio => (c.value .aspectRatio).map (1 / ·)
  fitsContent := c.fitsContent
  pinsEdges := c.pinsEdges
  spanAlign a := c.spanAlign a.other

/-- The same problem under the other axis' name. -/
def AxisProblem.transposed (p : AxisProblem Rat) : AxisProblem Rat := { p with axis := p.axis.other }

/-- The same warning under the other axis' name. -/
def Warning.transposed : Warning Rat → Warning Rat
  | negativeImplied a rule size => negativeImplied a.other rule size
  | ratioOverridden r => ratioOverridden (1 / r)
  | ratioWithoutSize r => ratioWithoutSize (1 / r)
  | edgesDisagree a size implied => edgesDisagree a.other size implied
  | centerOverridden a mid resolved => centerOverridden a.other mid resolved
  | marginUnused a edge => marginUnused a.other edge
  | spanAlignUnused a => spanAlignUnused a.other
  | limitsCross a min max => limitsCross a.other min max
  | w => w

namespace Warning

theorem category_transposed (w : Warning Rat) : w.transposed.category = w.category := by
  cases w <;> rfl

theorem transposed_transposed (w : Warning Rat) : w.transposed.transposed = w := by
  cases w <;> simp only [transposed, Axis.other_other, one_div_one_div]

theorem transposed_injective : Function.Injective transposed :=
  Function.LeftInverse.injective transposed_transposed

end Warning

theorem Rect.extent_transposed (r : Rect Rat) (a : Axis) :
    r.transposed.extent a = r.extent a.other := by cases a <;> rfl

theorem Rect.line_transposed (r : Rect Rat) (a : Axis) (l : Line) :
    r.transposed.line a l = r.line a.other l := by
  rw [line, extent_transposed, line]

namespace AxisProblem

variable (p : AxisProblem Rat)

theorem sizeWarnings_transposed :
    p.transposed.sizeWarnings = p.sizeWarnings.map Warning.transposed := by
  have himplied : p.transposed.impliedSize? = p.impliedSize? := rfl
  unfold sizeWarnings
  rw [himplied]
  rcases hsize : p.size with _ | size <;> rcases hcontent : p.content with _ | content <;>
    rcases p.impliedSize? with _ | ⟨rule, implied⟩ <;>
    simp only [transposed, hsize, hcontent, List.map_nil]
  split_ifs <;> rfl

theorem edgeWarnings_transposed (tolerance : Rat) : p.transposed.edgeWarnings tolerance
    = (p.edgeWarnings tolerance).map Warning.transposed := by
  have hsize : p.transposed.determinedSize? = p.determinedSize? := rfl
  have hinset : p.transposed.lowInset = p.lowInset := rfl
  have hinset' : p.transposed.highInset = p.highInset := rfl
  unfold edgeWarnings
  rw [hsize, hinset, hinset']
  rcases hlow : p.low with _ | low <;> rcases hhigh : p.high with _ | high <;>
    rcases p.determinedSize? with _ | ⟨rule, size⟩ <;>
    simp only [transposed, hlow, hhigh, List.map_nil]
  split_ifs <;> rfl

theorem centerWarnings_transposed (tolerance : Rat) (e : Extent Rat) :
    p.transposed.centerWarnings tolerance e
      = (p.centerWarnings tolerance e).map Warning.transposed := by
  unfold centerWarnings
  rcases hmid : p.mid with _ | mid <;> simp only [transposed, hmid, List.map_nil]
  split_ifs <;> rfl

theorem marginWarnings_transposed :
    p.transposed.marginWarnings = p.marginWarnings.map Warning.transposed := by
  have hunused : ∀ (margin edge : Option Rat) (l : Line),
      marginWarnings.unused p.transposed margin edge l
        = (marginWarnings.unused p margin edge l).map Warning.transposed := by
    intro margin edge l
    unfold marginWarnings.unused
    split_ifs <;> rfl
  exact (congrArg₂ _ (hunused _ _ _) (hunused _ _ _)).trans (List.map_append ..).symm

theorem spanAlignWarnings_transposed :
    p.transposed.spanAlignWarnings = p.spanAlignWarnings.map Warning.transposed := by
  rw [spanAlignWarnings, spanAlignWarnings, apply_ite (List.map Warning.transposed)]
  rfl

theorem limitWarnings_transposed :
    p.transposed.limitWarnings = p.limitWarnings.map Warning.transposed := by
  unfold limitWarnings
  rcases hmin : p.minSize with _ | min <;> rcases hmax : p.maxSize with _ | max <;>
    simp only [transposed, hmin, hmax, List.map_nil]
  split_ifs <;> rfl

theorem warnings_transposed (tolerance : Rat) (judgesSpanAlign : Bool) (e : Extent Rat) :
    p.transposed.warnings tolerance judgesSpanAlign e
      = (p.warnings tolerance judgesSpanAlign e).map Warning.transposed := by
  simp only [warnings, edgeWarnings_transposed, centerWarnings_transposed,
    marginWarnings_transposed, spanAlignWarnings_transposed, limitWarnings_transposed,
    List.map_append, apply_ite, List.map_nil]

end AxisProblem

namespace Constraints

variable (c : Constraints Rat) (s : Subject Rat)

theorem of_transposed (a : Axis) : AxisProblem.of c.transposed s.transposed a
    = (AxisProblem.of c s a.other).transposed := by
  have hcontent : (AxisProblem.of c.transposed s.transposed a).content
      = (AxisProblem.of c s a.other).content := by
    have hfits : c.transposed.fitsContent = c.fitsContent := rfl
    simp only [AxisProblem.of, hfits, Subject.transposed, Option.map_map]
    cases a <;> rfl
  simp only [AxisProblem.transposed, ← hcontent]
  cases a <;> rfl

theorem determined_transposed (a : Axis) :
    c.transposed.determined s.transposed a = c.determined s a.other := by
  rw [determined, of_transposed]
  rfl

/-- To divide by a ratio is to multiply by the one of the transposed plane. -/
theorem wanted_transposed (a : Axis) :
    c.transposed.wanted s.transposed a = c.wanted s a.other := by
  have hratio : c.transposed.value .aspectRatio = (c.value .aspectRatio).map (1 / ·) := rfl
  cases a <;> simp only [wanted, determined_transposed, scaledSizes, hratio, Axis.other] <;>
    rcases c.determined s .horizontal with _ | w <;> rcases c.determined s .vertical with _ | h <;>
    simp only [Option.map_map, Function.comp_def, mul_one_div, div_div_eq_mul_div, div_one]

theorem settled_transposed (a : Axis) :
    c.transposed.settled s.transposed a = c.settled s a.other := by
  rw [settled, wanted_transposed, of_transposed]
  rfl

theorem frame_solve_transposed (judgesSpanAlign : Bool) :
    (c.transposed.solve s.transposed judgesSpanAlign).frame
      = (c.solve s judgesSpanAlign).frame.transposed := by
  simp only [solve_eq, settled_transposed]
  rfl

theorem ratioWarnings_transposed (w h : Option Rat) :
    c.transposed.ratioWarnings h w = (c.ratioWarnings w h).map Warning.transposed := by
  have hratio : c.transposed.value .aspectRatio = (c.value .aspectRatio).map (1 / ·) := rfl
  unfold ratioWarnings
  rw [hratio]
  cases c.value .aspectRatio <;> cases w <;> cases h <;> rfl

theorem warnings_solve_transposed (judgesSpanAlign : Bool) :
    (c.transposed.solve s.transposed judgesSpanAlign).warnings.Perm
      ((c.solve s judgesSpanAlign).warnings.map Warning.transposed) := by
  have htolerance : s.transposed.tolerance = s.tolerance := rfl
  simp only [solve_eq, settled_transposed, determined_transposed, of_transposed, Axis.other,
    htolerance, ratioWarnings_transposed, AxisProblem.sizeWarnings_transposed,
    AxisProblem.warnings_transposed, List.map_append]
  rw [List.append_assoc (_ ++ _ ++ _), List.append_assoc (_ ++ _ ++ _)]
  exact (List.perm_append_comm.append_right _).append List.perm_append_comm

theorem withoutMargins_transposed : c.transposed.withoutMargins = c.withoutMargins.transposed := by
  refine Constraints.ext (funext fun slot => ?_) rfl rfl rfl
  cases slot <;> rfl

theorem pinnedTo_transposed (frame : Rect Rat) :
    c.transposed.pinnedTo frame.transposed = (c.pinnedTo frame).transposed := by
  refine Constraints.ext (funext fun slot => ?_) rfl rfl rfl
  cases slot with
  | line a l => cases l <;> simp [pinnedTo, transposed, Rect.line_transposed]
  | _ => rfl

theorem fitWarnings_transposed : c.transposed.fitWarnings s.transposed
    = (c.fitWarnings s).map Warning.transposed := by
  simp only [fitWarnings, transposed, Subject.transposed, Option.map_eq_none_iff, Axis.other,
    and_comm]
  split_ifs <;> rfl

theorem synthesize_transposed_perm :
    (c.transposed.synthesize s.transposed).frame = (c.synthesize s).frame.transposed
      ∧ (c.transposed.synthesize s.transposed).warnings.Perm
        ((c.synthesize s).warnings.map Warning.transposed) := by
  have hpins : c.transposed.pinsEdges = c.pinsEdges := rfl
  simp only [synthesize, hpins, withoutMargins_transposed, frame_solve_transposed,
    pinnedTo_transposed, fitWarnings_transposed]
  split_ifs
  · refine ⟨rfl, ?_⟩
    rw [← Warning.merge_map Warning.transposed_injective, List.map_append]
    exact Warning.merge_perm ((List.Perm.refl _).append (warnings_solve_transposed _ s false))
      (warnings_solve_transposed _ s true)
  · refine ⟨rfl, ?_⟩
    rw [List.map_append]
    exact (List.Perm.refl _).append (warnings_solve_transposed c s true)

/-- With the axes in each other's place the frame is the transposed one, and of each kind there are
as many warnings as before. A ratio of zero has itself for its inverse here, so it needs no
exception. -/
theorem synthesize_transposed (c : Constraints Rat) (s : Subject Rat) :
    let out := c.transposed.synthesize s.transposed
    out.frame = (c.synthesize s).frame.transposed
      ∧ ∀ k : Warning.Category, (out.warnings.filter (·.category = k)).length
        = ((c.synthesize s).warnings.filter (·.category = k)).length := by
  intro out
  obtain ⟨hframe, hperm⟩ := synthesize_transposed_perm c s
  refine ⟨hframe, fun k => ?_⟩
  rw [(hperm.filter _).length_eq, List.filter_map, List.length_map]
  simp only [Function.comp_def, Warning.category_transposed]

/-- The edge and the center that make a width make a height, and the ratio makes a width of it. -/
example :
    let c : Constraints Rat := ((((∅ : Constraints Rat).set (.line .horizontal .low) 10).set
      (.line .horizontal .mid) 40).set (.marginLow .horizontal) 5).set .aspectRatio 2
    let s : Subject Rat := ⟨⟨⟨5, 7⟩, ⟨40, 30⟩⟩, none, 1 / 1000⟩
    (c.synthesize s).frame = ⟨⟨15, 7⟩, ⟨50, 25⟩⟩
      ∧ (c.transposed.synthesize s.transposed).frame = ⟨⟨7, 15⟩, ⟨25, 50⟩⟩ := by
  decide +kernel

end Constraints

end Pinning
