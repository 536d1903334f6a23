import Mathlib.Data.List.Basic
import Pinning.Proofs.Separation

/-!
# Layout in other coordinates

A change of coordinates that keeps directions (`Similarity`) takes coordinates along an axis to
coordinates, lengths to lengths in another unit, and leaves a ratio of two lengths as it is. All that
an axis is worked out by goes along with it: sizes, limits, origins and the causes of warnings. So a
synthesis in other coordinates is the synthesis, carried over (`synthesize_carried`), and its second
pass finds among the warnings of the first what it found there before, since different warnings stay
different (`Warning.carried_injective`).

A translation and a scaling are the changes of which the other part is left out
(`synthesize_equivariant`).
-/

namespace Pinning

/-- A change of coordinates: another unit of length and another origin. -/
structure Similarity where
  factor : Rat
  offset : Point Rat
  factor_pos : 0 < factor

namespace Similarity

def translation (d : Point Rat) : Similarity := ⟨1, d, one_pos⟩

def scaling (k : Rat) (hk : 0 < k) : Similarity := ⟨k, .zero, hk⟩

/-- The way back. -/
def inverse (f : Similarity) : Similarity where
  factor := f.factor⁻¹
  offset := ⟨-(f.factor⁻¹ * f.offset.x), -(f.factor⁻¹ * f.offset.y)⟩
  factor_pos := inv_pos.2 f.factor_pos

/-- The new coordinate of a place on an axis. -/
def coordinate (f : Similarity) (a : Axis) (v : Rat) : Rat := f.factor * v + f.offset.along a

/-- The value of a slot in the new coordinates. -/
def value (f : Similarity) : Slot → Rat → Rat
  | .line a _, v => f.coordinate a v
  | .aspectRatio, v => v
  | _, v => f.factor * v

theorem coordinate_translation (d : Point Rat) (a : Axis) (v : Rat) :
    (translation d).coordinate a v = v + d.along a :=
  congrArg (· + d.along a) (one_mul v)

theorem coordinate_scaling {k : Rat} (hk : 0 < k) (a : Axis) (v : Rat) :
    (scaling k hk).coordinate a v = k * v := by
  cases a <;> exact add_zero _

theorem coordinate_inverse (f : Similarity) (a : Axis) (v : Rat) :
    f.inverse.coordinate a (f.coordinate a v) = v := by
  have hk : f.factor ≠ 0 := f.factor_pos.ne'
  cases a <;> simp only [coordinate, inverse, Point.along, mul_add, inv_mul_cancel_left₀ hk,
    add_neg_cancel_right]

theorem length_lt (f : Similarity) {v v' : Rat} : f.factor * v < f.factor * v' ↔ v < v' :=
  mul_lt_mul_iff_of_pos_left f.factor_pos

theorem length_neg (f : Similarity) {v : Rat} : f.factor * v < 0 ↔ v < 0 := by
  have h : f.factor * v < f.factor * 0 ↔ v < 0 := f.length_lt
  rwa [mul_zero] at h

theorem abs_length (f : Similarity) (v : Rat) :
    Scalar.abs (f.factor * v) = f.factor * Scalar.abs v := by
  simp only [Scalar.abs, f.length_neg, mul_ite, mul_neg]

theorem agrees_zero (f : Similarity) (v : Rat) :
    Scalar.agrees (f.factor * v) 0 = Scalar.agrees v 0 := by
  have hpos : 0 < f.factor * v ↔ 0 < v := mul_pos_iff_of_pos_left f.factor_pos
  simp only [Scalar.agrees, ← not_lt, f.length_neg, hpos]

end Similarity

section Carried

variable (f : Similarity)

def Extent.carried (a : Axis) (e : Extent Rat) : Extent Rat :=
  ⟨f.coordinate a e.origin, f.factor * e.length⟩

def Size.carried (s : Size Rat) : Size Rat := ⟨f.factor * s.width, f.factor * s.height⟩

def Rect.carried (r : Rect Rat) : Rect Rat :=
  ⟨⟨f.coordinate .horizontal r.origin.x, f.coordinate .vertical r.origin.y⟩, r.size.carried f⟩

def Subject.carried (s : Subject Rat) : Subject Rat where
  current := s.current.carried f
  content := s.content.map (Size.carried f)
  tolerance := f.factor * s.tolerance

def Constraints.carried (c : Constraints Rat) : Constraints Rat :=
  { c with value := fun slot => (c.value slot).map (f.value slot) }

def AxisProblem.carried (p : AxisProblem Rat) : AxisProblem Rat where
  axis := p.axis
  low := p.low.map (f.coordinate p.axis)
  mid := p.mid.map (f.coordinate p.axis)
  high := p.high.map (f.coordinate p.axis)
  size := p.size.map (f.factor * ·)
  minSize := p.minSize.map (f.factor * ·)
  maxSize := p.maxSize.map (f.factor * ·)
  marginLow := p.marginLow.map (f.factor * ·)
  marginHigh := p.marginHigh.map (f.factor * ·)
  spanAlign := p.spanAlign
  content := p.content.map (f.factor * ·)
  current := p.current.carried f p.axis

/-- The same warning with the numbers it names in the new coordinates. -/
def Warning.carried : Warning Rat → Warning Rat
  | negativeImplied a rule size => negativeImplied a rule (f.factor * size)
  | edgesDisagree a size implied => edgesDisagree a (f.factor * size) (f.factor * implied)
  | centerOverridden a mid resolved =>
    centerOverridden a (f.coordinate a mid) (f.coordinate a resolved)
  | limitsCross a min max => limitsCross a (f.factor * min) (f.factor * max)
  | w => w

def Synthesis.carried (out : Synthesis Rat) : Synthesis Rat :=
  ⟨out.frame.carried f, out.warnings.map (Warning.carried f)⟩

variable {f}

theorem Extent.line_carried (a : Axis) (e : Extent Rat) (l : Line) :
    (e.carried f a).line l = f.coordinate a (e.line l) := by
  cases l <;> simp only [carried, line, Similarity.coordinate] <;> ring

theorem Rect.extent_carried (r : Rect Rat) (a : Axis) :
    (r.carried f).extent a = (r.extent a).carried f a := by cases a <;> rfl

theorem Rect.line_carried (r : Rect Rat) (a : Axis) (l : Line) :
    (r.carried f).line a l = f.coordinate a (r.line a l) := by
  rw [line, extent_carried, Extent.line_carried, line]

namespace Warning

theorem category_carried (w : Warning Rat) : (w.carried f).category = w.category := by
  cases w <;> rfl

/-- Nothing that a warning says is lost: the way back restores it. -/
theorem carried_inverse (w : Warning Rat) : (w.carried f).carried f.inverse = w := by
  have hlength : ∀ v, f.inverse.factor * (f.factor * v) = v := fun v =>
    inv_mul_cancel_left₀ f.factor_pos.ne' v
  cases w <;> simp only [carried, hlength, Similarity.coordinate_inverse]

theorem carried_injective : Function.Injective (carried f) :=
  Function.LeftInverse.injective carried_inverse

theorem merge_map {g : Warning Rat → Warning Rat} (hg : Function.Injective g) :
    ∀ more ws : List (Warning Rat), merge (ws.map g) (more.map g) = (merge ws more).map g
  | [], _ => rfl
  | w :: more, ws => by
    have hmem : g w ∈ ws.map g ↔ w ∈ ws := List.mem_map_of_injective hg
    rw [merge, List.map_cons, List.foldl_cons, ← merge]
    by_cases hw : w ∈ ws
    · rw [if_pos (hmem.2 hw), merge_map hg more ws, merge, merge, List.foldl_cons, if_pos hw]
    · rw [if_neg (mt hmem.1 hw), ← List.map_singleton, ← List.map_append, merge_map hg more, merge,
        merge, List.foldl_cons, if_neg hw]

end Warning

end Carried

namespace AxisProblem

variable (f : Similarity) (p : AxisProblem Rat)

theorem lowInset_carried : (p.carried f).lowInset = f.factor * p.lowInset := by
  cases h : p.marginLow <;> simp [lowInset, carried, h]

theorem highInset_carried : (p.carried f).highInset = f.factor * p.highInset := by
  cases h : p.marginHigh <;> simp [highInset, carried, h]

theorem impliedSize?_carried : (p.carried f).impliedSize?
    = p.impliedSize?.map fun (rule, size) => (rule, f.factor * size) := by
  unfold impliedSize?
  rw [lowInset_carried, highInset_carried]
  rcases hlow : p.low with _ | low <;> rcases hmid : p.mid with _ | mid <;>
    rcases hhigh : p.high with _ | high <;>
    simp only [carried, hlow, hmid, hhigh, Option.map_none, Option.map_some, Option.some.injEq,
      Prod.mk.injEq, true_and, Similarity.coordinate] <;> ring

theorem determinedSize?_carried : (p.carried f).determinedSize?
    = p.determinedSize?.map fun (rule, size) => (rule, f.factor * size) := by
  -- A size below zero is one in every unit.
  have hnonneg : ∀ v : Rat, (if f.factor * v < 0 then 0 else f.factor * v)
      = f.factor * if v < 0 then 0 else v := fun v => by
    simp only [f.length_neg, mul_ite, mul_zero]
  unfold determinedSize?
  rw [impliedSize?_carried]
  rcases hsize : p.size with _ | size <;> rcases hcontent : p.content with _ | content <;>
    simp only [carried, hsize, hcontent, Option.map_none, Option.map_some, Option.map_map]
  exact congrArg (p.impliedSize?.map ·) (funext fun (rule, size) => by simp [hnonneg])

theorem clamp_carried (size : Rat) :
    (p.carried f).clamp (f.factor * size) = f.factor * p.clamp size := by
  have hk := f.factor_pos.le
  rw [clamp_eq, clamp_eq]
  rcases hmin : p.minSize with _ | lower <;> rcases hmax : p.maxSize with _ | upper <;>
    simp only [carried, hmin, hmax, Option.map_none, Option.map_some, Option.elim_none,
      Option.elim_some, mul_max_of_nonneg _ _ hk, mul_min_of_nonneg _ _ hk]

theorem origin_carried (size : Rat) :
    (p.carried f).origin (f.factor * size) = f.coordinate p.axis (p.origin size) := by
  unfold origin
  rw [lowInset_carried, highInset_carried]
  rcases hlow : p.low with _ | low <;> rcases hhigh : p.high with _ | high
  · rcases hmid : p.mid with _ | mid <;>
      simp only [carried, hlow, hmid, hhigh, Option.map_none, Option.map_some, Extent.carried,
        Similarity.coordinate]
    ring
  · simp only [carried, hlow, hhigh, Option.map_none, Option.map_some, Similarity.coordinate]
    ring
  · simp only [carried, hlow, hhigh, Option.map_none, Option.map_some, Similarity.coordinate]
    ring
  · simp only [carried, hlow, hhigh, Option.map_some, Similarity.coordinate]
    rcases p.spanAlign with _ | _ | _ | _ <;> ring

theorem settle_carried (size : Option Rat) :
    (p.carried f).settle (size.map (f.factor * ·)) = (p.settle size).carried f p.axis := by
  have hwanted : (size.map (f.factor * ·)).getD (p.carried f).current.length
      = f.factor * size.getD p.current.length := by cases size <;> rfl
  simp only [settle, hwanted, clamp_carried, origin_carried]
  rfl

theorem sizeWarnings_carried : (p.carried f).sizeWarnings
    = p.sizeWarnings.map (Warning.carried f) := by
  unfold sizeWarnings
  rw [impliedSize?_carried]
  rcases hsize : p.size with _ | size <;> rcases hcontent : p.content with _ | content <;>
    rcases p.impliedSize? with _ | ⟨rule, implied⟩ <;>
    simp only [carried, hsize, hcontent, Option.map_none, Option.map_some, List.map_nil]
  simp only [f.length_neg]
  split_ifs <;> rfl

theorem edgeWarnings_carried (tolerance : Rat) : (p.carried f).edgeWarnings (f.factor * tolerance)
    = (p.edgeWarnings tolerance).map (Warning.carried f) := by
  unfold edgeWarnings
  rw [determinedSize?_carried, lowInset_carried, highInset_carried]
  rcases hlow : p.low with _ | low <;> rcases hhigh : p.high with _ | high <;>
    rcases p.determinedSize? with _ | ⟨rule, size⟩ <;>
    simp only [carried, hlow, hhigh, Option.map_none, Option.map_some, List.map_nil]
  have himplied : f.coordinate p.axis high - f.coordinate p.axis low - f.factor * p.lowInset
      - f.factor * p.highInset = f.factor * (high - low - p.lowInset - p.highInset) := by
    simp only [Similarity.coordinate]
    ring
  simp only [himplied, ← mul_sub, f.abs_length, f.length_lt]
  split_ifs <;> rfl

theorem centerWarnings_carried (tolerance : Rat) (e : Extent Rat) :
    (p.carried f).centerWarnings (f.factor * tolerance) (e.carried f p.axis)
      = (p.centerWarnings tolerance e).map (Warning.carried f) := by
  unfold centerWarnings
  rcases hmid : p.mid with _ | mid <;> simp only [carried, hmid, Option.map_none, Option.map_some,
    List.map_nil]
  have hoff : f.coordinate p.axis (e.line .mid) - f.coordinate p.axis mid
      = f.factor * (e.line .mid - mid) := by
    simp only [Similarity.coordinate]
    ring
  simp only [Extent.line_carried, hoff, f.abs_length, f.length_lt, Option.isSome_map]
  split_ifs <;> rfl

theorem marginWarnings_carried : (p.carried f).marginWarnings
    = p.marginWarnings.map (Warning.carried f) := by
  have hunused : ∀ (margin edge : Option Rat) (l : Line),
      marginWarnings.unused (p.carried f) (margin.map (f.factor * ·))
        (edge.map (f.coordinate p.axis)) l
      = (marginWarnings.unused p margin edge l).map (Warning.carried f) := by
    intro margin edge l
    unfold marginWarnings.unused
    rcases margin with _ | m <;> simp [f.agrees_zero, carried]
    split_ifs <;> rfl
  exact (congrArg₂ _ (hunused _ _ _) (hunused _ _ _)).trans (List.map_append ..).symm

theorem spanAlignWarnings_carried : (p.carried f).spanAlignWarnings
    = p.spanAlignWarnings.map (Warning.carried f) := by
  simp only [spanAlignWarnings, carried, Option.map_eq_none_iff]
  split_ifs <;> rfl

theorem limitWarnings_carried : (p.carried f).limitWarnings
    = p.limitWarnings.map (Warning.carried f) := by
  unfold limitWarnings
  rcases hmin : p.minSize with _ | min <;> rcases hmax : p.maxSize with _ | max <;>
    simp only [carried, hmin, hmax, Option.map_none, Option.map_some, List.map_nil]
  simp only [f.length_lt]
  split_ifs <;> rfl

theorem warnings_carried (tolerance : Rat) (judgesSpanAlign : Bool) (e : Extent Rat) :
    (p.carried f).warnings (f.factor * tolerance) judgesSpanAlign (e.carried f p.axis)
      = (p.warnings tolerance judgesSpanAlign e).map (Warning.carried f) := by
  simp only [warnings, edgeWarnings_carried, centerWarnings_carried, marginWarnings_carried,
    spanAlignWarnings_carried, limitWarnings_carried, List.map_append, apply_ite, List.map_nil]

end AxisProblem

namespace Constraints

variable (f : Similarity) (c : Constraints Rat) (s : Subject Rat)

theorem of_carried (a : Axis) :
    AxisProblem.of (c.carried f) (s.carried f) a = (AxisProblem.of c s a).carried f := by
  have hcontent : (AxisProblem.of (c.carried f) (s.carried f) a).content
      = (AxisProblem.of c s a).content.map (f.factor * ·) := by
    have hfits : (c.carried f).fitsContent = c.fitsContent := rfl
    simp only [AxisProblem.of, hfits, Subject.carried, apply_ite (Option.map _), Option.map_none,
      Option.map_map]
    cases a <;> rfl
  simp only [AxisProblem.carried, ← hcontent]
  cases a <;> rfl

theorem determined_carried (a : Axis) :
    (c.carried f).determined (s.carried f) a = (c.determined s a).map (f.factor * ·) := by
  rw [determined, of_carried, AxisProblem.determinedSize?_carried, determined, Option.map_map,
    Option.map_map]
  rfl

/-- A ratio makes of a size in another unit the other size in that unit. -/
theorem wanted_carried (a : Axis) :
    (c.carried f).wanted (s.carried f) a = (c.wanted s a).map (f.factor * ·) := by
  have hratio : (c.carried f).value .aspectRatio = c.value .aspectRatio := Option.map_id'
  cases a <;> simp only [wanted, determined_carried, scaledSizes, hratio] <;>
    rcases c.determined s .horizontal with _ | w <;> rcases c.determined s .vertical with _ | h <;>
    simp only [Option.map_none, Option.map_some, Option.map_map, Function.comp_def, mul_assoc,
      mul_div_assoc]

theorem settled_carried (a : Axis) :
    (c.carried f).settled (s.carried f) a = (c.settled s a).carried f a := by
  rw [settled, wanted_carried, of_carried, AxisProblem.settle_carried, settled]
  rfl

theorem ratioWarnings_carried (w h : Option Rat) :
    (c.carried f).ratioWarnings (w.map (f.factor * ·)) (h.map (f.factor * ·))
      = (c.ratioWarnings w h).map (Warning.carried f) := by
  have hratio : (c.carried f).value .aspectRatio = c.value .aspectRatio := Option.map_id'
  unfold ratioWarnings
  rw [hratio]
  cases c.value .aspectRatio <;> cases w <;> cases h <;> rfl

theorem solve_carried (judgesSpanAlign : Bool) :
    (c.carried f).solve (s.carried f) judgesSpanAlign = (c.solve s judgesSpanAlign).carried f := by
  have haxis : ∀ a, ((AxisProblem.of c s a).carried f).warnings (s.carried f).tolerance
      judgesSpanAlign ((c.settled s a).carried f a)
        = ((AxisProblem.of c s a).warnings s.tolerance judgesSpanAlign (c.settled s a)).map
          (Warning.carried f) := fun a =>
    (AxisProblem.of c s a).warnings_carried f s.tolerance judgesSpanAlign (c.settled s a)
  rw [solve_eq, solve_eq]
  simp only [settled_carried, determined_carried, ratioWarnings_carried, of_carried, haxis,
    AxisProblem.sizeWarnings_carried, Synthesis.carried, List.map_append]
  rfl

theorem withoutMargins_carried : (c.carried f).withoutMargins = c.withoutMargins.carried f := by
  refine Constraints.ext (funext fun slot => ?_) rfl rfl rfl
  cases slot <;> rfl

theorem pinnedTo_carried (frame : Rect Rat) :
    (c.carried f).pinnedTo (frame.carried f) = (c.pinnedTo frame).carried f := by
  refine Constraints.ext (funext fun slot => ?_) rfl rfl rfl
  cases slot with
  | line a l => cases l <;> simp [pinnedTo, carried, Rect.line_carried, Similarity.value]
  | _ => rfl

theorem fitWarnings_carried : (c.carried f).fitWarnings (s.carried f)
    = (c.fitWarnings s).map (Warning.carried f) := by
  simp only [fitWarnings, carried, Subject.carried, Option.isSome_map, Option.map_eq_none_iff]
  split_ifs <;> rfl

/-- A synthesis in other coordinates is the synthesis, carried over. -/
theorem synthesize_carried :
    (c.carried f).synthesize (s.carried f) = (c.synthesize s).carried f := by
  have hpins : (c.carried f).pinsEdges = c.pinsEdges := rfl
  simp only [synthesize, hpins, withoutMargins_carried, solve_carried, fitWarnings_carried]
  split_ifs
  · simp only [Synthesis.carried, pinnedTo_carried, solve_carried, ← List.map_append,
      Warning.merge_map Warning.carried_injective]
  · simp only [Synthesis.carried, List.map_append]

end Constraints

namespace Constraints

/-- The constraints with each line moved by `d`. -/
def translated (d : Point Rat) (c : Constraints Rat) : Constraints Rat :=
  { c with value := fun
      | .line a l => (c.value (.line a l)).map (· + d.along a)
      | slot => c.value slot }

/-- The constraints with all but the aspect ratio `k` times as large. -/
def scaled (k : Rat) (c : Constraints Rat) : Constraints Rat :=
  { c with value := fun
      | .aspectRatio => c.value .aspectRatio
      | slot => (c.value slot).map (k * ·) }

end Constraints

def Subject.translated (d : Point Rat) (s : Subject Rat) : Subject Rat :=
  { s with current := s.current.translate d }

def Size.scaled (k : Rat) (s : Size Rat) : Size Rat := ⟨k * s.width, k * s.height⟩

def Rect.scaled (k : Rat) (r : Rect Rat) : Rect Rat :=
  ⟨⟨k * r.origin.x, k * r.origin.y⟩, r.size.scaled k⟩

def Subject.scaled (k : Rat) (s : Subject Rat) : Subject Rat :=
  ⟨s.current.scaled k, s.content.map (Size.scaled k), k * s.tolerance⟩

section

variable (d : Point Rat) {k : Rat} (hk : 0 < k)

theorem Rect.carried_translation (r : Rect Rat) :
    r.carried (.translation d) = r.translate d := by
  simp only [carried, Size.carried, Similarity.coordinate_translation]
  simp only [Similarity.translation, one_mul]
  rfl

theorem Rect.carried_scaling (r : Rect Rat) : r.carried (.scaling k hk) = r.scaled k := by
  simp only [carried, Similarity.coordinate_scaling]
  rfl

theorem Subject.carried_translation (s : Subject Rat) :
    s.carried (.translation d) = s.translated d := by
  have hsize : Size.carried (.translation d) = id := funext fun size => by
    simp only [Size.carried, Similarity.translation, one_mul, id]
  simp only [carried, Rect.carried_translation, hsize, Option.map_id, id]
  simp only [Similarity.translation, one_mul]
  rfl

theorem Subject.carried_scaling (s : Subject Rat) : s.carried (.scaling k hk) = s.scaled k := by
  rw [carried, Rect.carried_scaling]
  rfl

namespace Constraints

theorem carried_translation (c : Constraints Rat) :
    c.carried (.translation d) = c.translated d := by
  have hone : ∀ v : Option Rat, v.map ((1 : Rat) * ·) = v := by simp
  refine Constraints.ext (funext fun slot => ?_) rfl rfl rfl
  cases slot with
  | line a l => exact congrArg (Option.map · _) (funext (Similarity.coordinate_translation d a))
  | aspectRatio => exact Option.map_id'
  | _ => exact hone _

theorem carried_scaling (c : Constraints Rat) : c.carried (.scaling k hk) = c.scaled k := by
  refine Constraints.ext (funext fun slot => ?_) rfl rfl rfl
  cases slot with
  | line a l => exact congrArg (Option.map · _) (funext (Similarity.coordinate_scaling hk a))
  | aspectRatio => exact Option.map_id'
  | _ => rfl

/-- Where everything is moved, the frame is moved, and where everything is drawn to another scale, so
is the frame. The warnings are of the same kinds in the same order. -/
theorem synthesize_equivariant (c : Constraints Rat) (s : Subject Rat) :
    (∀ d : Point Rat,
      let out := (c.translated d).synthesize (s.translated d)
      out.frame = (c.synthesize s).frame.translate d
        ∧ out.frame.size = (c.synthesize s).frame.size
        ∧ out.warnings.map Warning.category = (c.synthesize s).warnings.map Warning.category)
    ∧ ∀ k : Rat, 0 < k →
      let out := (c.scaled k).synthesize (s.scaled k)
      out.frame = (c.synthesize s).frame.scaled k
        ∧ out.warnings.map Warning.category = (c.synthesize s).warnings.map Warning.category := by
  have hcategories : ∀ f : Similarity, ((c.synthesize s).carried f).warnings.map Warning.category
      = (c.synthesize s).warnings.map Warning.category := by
    intro f
    simp only [Synthesis.carried, List.map_map, Function.comp_def, Warning.category_carried]
  constructor
  · intro d out
    have hout : out = (c.synthesize s).carried (.translation d) := by
      rw [← synthesize_carried, carried_translation, Subject.carried_translation]
    have hframe : out.frame = (c.synthesize s).frame.translate d := by
      rw [hout, ← Rect.carried_translation]
      rfl
    exact ⟨hframe, by rw [hframe]; rfl, by rw [hout, hcategories]⟩
  · intro k hk out
    have hout : out = (c.synthesize s).carried (.scaling k hk) := by
      rw [← synthesize_carried, carried_scaling, Subject.carried_scaling]
    have hframe : out.frame = (c.synthesize s).frame.scaled k := by
      rw [hout, ← Rect.carried_scaling hk]
      rfl
    exact ⟨hframe, by rw [hout, hcategories]⟩

/-- A card that is too narrow for its edges and whose limits cross. Its edges are pinned, so both
passes see the limits and one warning is left of the two; that is so wherever it lies and however
large it is drawn. -/
theorem card_is_moved_and_enlarged :
    let c : Constraints Rat := (((((∅ : Constraints Rat).set (.line .horizontal .low) 10).set
      (.line .horizontal .high) 70).set (.size .horizontal) 50).set (.marginLow .horizontal) 4)
    let c : Constraints Rat :=
      { (c.set (.minSize .vertical) 30).set (.maxSize .vertical) 20 with pinsEdges := true }
    let s : Subject Rat := ⟨⟨⟨5, 5⟩, ⟨40, 24⟩⟩, none, 1 / 1000⟩
    let said (out : Synthesis Rat) := out.warnings.map Warning.category
    (c.synthesize s).frame = ⟨⟨14, 5⟩, ⟨46, 30⟩⟩ ∧ said (c.synthesize s) = [.conflict, .conflict]
      ∧ ((c.translated ⟨7, -2⟩).synthesize (s.translated ⟨7, -2⟩)).frame
        = ⟨⟨21, 3⟩, ⟨46, 30⟩⟩
      ∧ said ((c.translated ⟨7, -2⟩).synthesize (s.translated ⟨7, -2⟩)) = [.conflict, .conflict]
      ∧ (0 : Rat) < 3
      ∧ ((c.scaled 3).synthesize (s.scaled 3)).frame = ⟨⟨42, 15⟩, ⟨138, 90⟩⟩
      ∧ said ((c.scaled 3).synthesize (s.scaled 3)) = [.conflict, .conflict] := by
  intro c₀ c s said
  have hframe : (c.synthesize s).frame = ⟨⟨14, 5⟩, ⟨46, 30⟩⟩ := by decide +kernel
  have hsaid : said (c.synthesize s) = [.conflict, .conflict] := by decide +kernel
  have hthree : (0 : Rat) < 3 := by decide +kernel
  obtain ⟨hmoved, hscaled⟩ := synthesize_equivariant c s
  obtain ⟨hmovedFrame, -, hmovedSaid⟩ := hmoved ⟨7, -2⟩
  obtain ⟨hscaledFrame, hscaledSaid⟩ := hscaled 3 hthree
  rw [hframe] at hmovedFrame hscaledFrame
  exact ⟨hframe, hsaid, hmovedFrame.trans (by decide +kernel), hmovedSaid.trans hsaid, hthree,
    hscaledFrame.trans (by decide +kernel), hscaledSaid.trans hsaid⟩

end Constraints

end

end Pinning
