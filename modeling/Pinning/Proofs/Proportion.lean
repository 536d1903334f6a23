import Pinning.Proofs.Conflicts
import Pinning.Proofs.Redundancy
import Pinning.Proofs.Separation

/-!
# What an aspect ratio does

An axis has at most one size of its own (`Constraints.OwnSize`): the one that is set, else the
content's, else what two of its lines leave, which is not below zero. The ratio makes a size of it for
the other axis where that has none (`wanted_other`), before the limits of either axis apply. So the
limits of an axis are none of the other's business (`settled_withLimits`).

Of a ratio there is something to warn of where it has nothing to act on, which is where both axes have
a size of their own or neither has. Then it is idle, and nothing else in a synthesis speaks of a ratio
(`filter_isAspect_synthesize`).
-/

namespace Pinning

/-- The size across an axis that goes with `v` along it where the width is `r` heights. -/
def Axis.scaled (r v : Rat) : Axis → Rat
  | horizontal => v / r
  | vertical => v * r

/-- A size that is scaled has the ratio. -/
theorem Size.width_of_scaled {size : Size Rat} {a : Axis} {r v : Rat} (hr : r ≠ 0)
    (h : size.along a = v) (hother : size.along a.other = a.scaled r v) :
    size.width = r * size.height := by
  cases a with
  | horizontal =>
    have hwidth : size.width = v := h
    have hheight : size.height = v / r := hother
    rw [hwidth, hheight, mul_div_cancel₀ v hr]
  | vertical =>
    have hheight : size.height = v := h
    have hwidth : size.width = v * r := hother
    rw [hwidth, hheight, mul_comm]

/-- The warning is about an aspect ratio. -/
def Warning.isAspect {α : Type} : Warning α → Bool
  | ratioNotPositive _ | ratioOfFlatNode _ | ratioOfNoContent | ratioOverridden _
  | ratioWithoutSize _ => true
  | _ => false

theorem AxisProblem.Raises.isAspect {p : AxisProblem Rat} {tolerance : Rat}
    {judgesSpanAlign : Bool} {e : Extent Rat} {w : Warning Rat}
    (h : p.Raises tolerance judgesSpanAlign e w) : w.isAspect = false := by
  cases h <;> rfl

/-- An axis says nothing of a ratio. -/
theorem AxisProblem.filter_isAspect_eq_nil {p : AxisProblem Rat} {tolerance : Rat}
    {judgesSpanAlign : Bool} {e : Extent Rat} {ws : List (Warning Rat)}
    (h : ∀ w ∈ ws, p.Raises tolerance judgesSpanAlign e w) : ws.filter Warning.isAspect = [] :=
  List.filter_eq_nil_iff.2 fun w hw => by
    rw [(h w hw).isAspect]
    exact Bool.false_ne_true

namespace Constraints

section OwnSize

variable (c : Constraints Rat) (s : Subject Rat) (a : Axis)

/-- The size that an axis has of its own, before its limits. -/
inductive OwnSize : Rat → Prop
  | explicit {v : Rat} (h : c.value (.size a) = some v) : OwnSize v
  | content {size : Size Rat} (hsize : c.value (.size a) = none) (hfits : c.fitsContent = true)
    (hcontent : s.content = some size) : OwnSize (size.along a)
  | edges {low high : Rat} (hunsized : c.Unsized s a) (hlow : c.value (.line a .low) = some low)
    (hhigh : c.value (.line a .high) = some high) :
    OwnSize (max 0 (c.inward a .high high - c.inward a .low low))
  | lowAndCenter {low mid : Rat} (hunsized : c.Unsized s a)
    (hlow : c.value (.line a .low) = some low) (hmid : c.value (.line a .mid) = some mid)
    (hhigh : c.value (.line a .high) = none) : OwnSize (max 0 (2 * (mid - c.inward a .low low)))
  | centerAndHigh {mid high : Rat} (hunsized : c.Unsized s a)
    (hlow : c.value (.line a .low) = none) (hmid : c.value (.line a .mid) = some mid)
    (hhigh : c.value (.line a .high) = some high) :
    OwnSize (max 0 (2 * (c.inward a .high high - mid)))

/-- A size brought within the limits of an axis, the lower limit last. -/
def limited (v : Rat) : Rat :=
  let upper := (c.value (.maxSize a)).elim v (min v)
  (c.value (.minSize a)).elim upper (max upper)

/-- The constraints with other limits along an axis, or none. -/
def withLimits (minSize maxSize : Option Rat) : Constraints Rat :=
  { c with value := fun slot =>
      if slot = .minSize a then minSize else if slot = .maxSize a then maxSize else c.value slot }

end OwnSize

variable {c : Constraints Rat} {s : Subject Rat} {a : Axis} {r v : Rat}

theorem clamp_eq_limited (v : Rat) : (AxisProblem.of c s a).clamp v = c.limited a v :=
  AxisProblem.clamp_eq _ _

theorem Unsized.determined_of_implied (h : c.Unsized s a) {rule : SizeRule} {size : Rat}
    (himplied : (AxisProblem.of c s a).impliedSize? = some (rule, size)) :
    c.determined s a = some (max 0 size) := by
  have hfloor : (if size < 0 then 0 else size) = max 0 size := by
    split_ifs with hneg
    · exact (max_eq_left hneg.le).symm
    · exact (max_eq_right (not_lt.1 hneg)).symm
  simp only [determined, h.determinedSize?, himplied, Option.map_some, hfloor]

theorem OwnSize.determined (h : c.OwnSize s a v) : c.determined s a = some v := by
  cases h with
  | explicit h =>
    simp only [Constraints.determined, AxisProblem.determinedSize?, AxisProblem.of, h,
      Option.map_some]
  | content hsize hfits hcontent =>
    simp only [Constraints.determined, AxisProblem.determinedSize?, AxisProblem.of, hsize, hfits,
      hcontent, if_true, Option.map_some]
  | edges hunsized hlow hhigh =>
    exact hunsized.determined_of_implied (impliedSize?_of_edges hlow hhigh)
  | lowAndCenter hunsized hlow hmid hhigh =>
    exact hunsized.determined_of_implied (impliedSize?_of_low_mid hlow hmid hhigh)
  | centerAndHigh hunsized hlow hmid hhigh =>
    exact hunsized.determined_of_implied (impliedSize?_of_mid_high hlow hmid hhigh)

/-- An axis that has a size of its own has one of these. -/
theorem Sizes.exists_ownSize (h : c.Sizes s.content a) : ∃ v, c.OwnSize s a v := by
  cases hsize : c.value (.size a) with
  | some v => exact ⟨v, .explicit hsize⟩
  | none =>
    by_cases hcontent : c.fitsContent = true ∧ s.content.isSome
    · obtain ⟨size, hsome⟩ := Option.isSome_iff_exists.1 hcontent.2
      exact ⟨_, .content hsize hcontent.1 hsome⟩
    · have hunsized : c.Unsized s a := ⟨hsize, hcontent⟩
      rcases h with h | h | h | h
      · simp [hsize] at h
      · exact absurd h hcontent
      · obtain ⟨low, hlow⟩ := Option.isSome_iff_exists.1 h.1
        obtain ⟨high, hhigh⟩ := Option.isSome_iff_exists.1 h.2
        exact ⟨_, .edges hunsized hlow hhigh⟩
      · obtain ⟨mid, hmid⟩ := Option.isSome_iff_exists.1 h.2
        cases hlow : c.value (.line a .low) <;> cases hhigh : c.value (.line a .high)
        · simp [hlow, hhigh] at h
        · exact ⟨_, .centerAndHigh hunsized hlow hmid hhigh⟩
        · exact ⟨_, .lowAndCenter hunsized hlow hmid hhigh⟩
        · exact ⟨_, .edges hunsized hlow hhigh⟩

theorem OwnSize.wanted (h : c.OwnSize s a v) : c.wanted s a = some v := by
  rw [wanted_eq_determined (.inr (Option.isSome_of_eq_some h.determined)), h.determined]

/-- The other axis is scaled to the size of this one. -/
theorem OwnSize.wanted_other (h : c.OwnSize s a v) (hr : c.value .aspectRatio = some r)
    (hother : ¬ c.Sizes s.content a.other) : c.wanted s a.other = some (a.scaled r v) := by
  have hdetermined := h.determined
  have hnone : c.determined s a.other = none := by
    rwa [← isSome_determined, Option.not_isSome_iff_eq_none] at hother
  cases a <;> simp only [Axis.other] at hnone ⊢ <;>
    simp only [Constraints.wanted, scaledSizes, hdetermined, hnone, hr, Option.map_some] <;> rfl

theorem length_settled (h : c.wanted s a = some v) : (c.settled s a).length = c.limited a v := by
  rw [settled, h]
  exact clamp_eq_limited v

theorem size_synthesize (hp : c.pinsEdges = false) (h : c.wanted s a = some v) :
    (c.synthesize s).frame.size.along a = c.limited a v :=
  (congrArg Extent.length (extent_synthesize hp)).trans (length_settled h)

/-- The limits of one axis do not show along the other. -/
theorem settled_withLimits (minSize maxSize : Option Rat) :
    (c.withLimits a minSize maxSize).settled s a.other = c.settled s a.other := by
  cases a <;> rfl

theorem filter_isAspect_sizeWarnings :
    (AxisProblem.of c s a).sizeWarnings.filter Warning.isAspect = [] := by
  have hraises : ∀ w ∈ (AxisProblem.of c s a).sizeWarnings,
      (AxisProblem.of c s a).Raises s.tolerance true (c.settled s a) w :=
    fun w hw => AxisProblem.raises_of_mem_sizeWarnings hw
  exact AxisProblem.filter_isAspect_eq_nil hraises

theorem filter_isAspect_warnings (judgesSpanAlign : Bool) (e : Extent Rat) :
    ((AxisProblem.of c s a).warnings s.tolerance judgesSpanAlign e).filter Warning.isAspect
      = [] :=
  AxisProblem.filter_isAspect_eq_nil fun _ hw =>
    AxisProblem.mem_warnings_iff.1 (List.mem_append_right _ hw)

theorem filter_isAspect_ratioWarnings (width height : Option Rat) :
    (c.ratioWarnings width height).filter Warning.isAspect = c.ratioWarnings width height :=
  List.filter_eq_self.2 fun w hw => by
    obtain ⟨r, -, ⟨-, -, rfl⟩ | ⟨-, -, rfl⟩⟩ := mem_ratioWarnings_iff.1 hw <;> rfl

theorem filter_isAspect_fitWarnings : (c.fitWarnings s).filter Warning.isAspect = [] :=
  List.filter_eq_nil_iff.2 fun w hw => by
    rcases mem_fitWarnings_iff.1 hw with ⟨-, ⟨-, rfl⟩ | ⟨-, -, rfl⟩⟩ <;> exact Bool.false_ne_true

/-- Of an aspect ratio a synthesis speaks in one place. -/
theorem filter_isAspect_synthesize (hp : c.pinsEdges = false) :
    (c.synthesize s).warnings.filter Warning.isAspect
      = c.ratioWarnings (c.determined s .horizontal) (c.determined s .vertical) := by
  have hwarnings : (c.synthesize s).warnings = c.fitWarnings s ++ (c.solve s true).warnings := by
    simp only [synthesize, hp, Bool.false_eq_true, if_false]
  simp only [hwarnings, solve_eq, List.filter_append, filter_isAspect_fitWarnings,
    filter_isAspect_sizeWarnings, filter_isAspect_warnings, filter_isAspect_ratioWarnings,
    List.nil_append, List.append_nil]

theorem ratioWarnings_of_one (h : c.Sizes s.content a) (hother : ¬ c.Sizes s.content a.other) :
    c.ratioWarnings (c.determined s .horizontal) (c.determined s .vertical) = [] := by
  rw [← isSome_determined] at h hother
  cases a <;> simp only [Axis.other, ratioWarnings] at h hother ⊢ <;> split <;> simp_all

theorem ratioWarnings_of_both (hr : c.value .aspectRatio = some r)
    (h : ∀ a, c.Sizes s.content a) :
    c.ratioWarnings (c.determined s .horizontal) (c.determined s .vertical)
      = [.ratioOverridden r] := by
  obtain ⟨w, hw⟩ := Option.isSome_iff_exists.1 ((c.isSome_determined s _).2 (h .horizontal))
  obtain ⟨v, hv⟩ := Option.isSome_iff_exists.1 ((c.isSome_determined s _).2 (h .vertical))
  simp only [ratioWarnings, hr, hw, hv]

theorem ratioWarnings_of_neither (hr : c.value .aspectRatio = some r)
    (h : ∀ a, ¬ c.Sizes s.content a) :
    c.ratioWarnings (c.determined s .horizontal) (c.determined s .vertical)
      = [.ratioWithoutSize r] := by
  have hnone : ∀ a, c.determined s a = none := fun a => by
    rw [← Option.not_isSome_iff_eq_none, isSome_determined]
    exact h a
  simp only [ratioWarnings, hr, hnone]

/-- A ratio is honored or reported. Where one axis alone has a size of its own, that size and the one
which the ratio makes of it for the other axis are brought within the limits of their axes, each by
itself, and nothing is said of the ratio; if the limits leave both alone, the width is the ratio times
the height. Where both have a size of their own or neither has, the ratio might as well not be there,
and that is said once. -/
theorem ratio_honored_or_reported (c : Constraints Rat) (s : Subject Rat)
    (hp : c.pinsEdges = false) {r : Rat} (hr : c.value .aspectRatio = some r) (hpos : 0 < r) :
    let out := c.synthesize s
    let said := (out.warnings.filter Warning.isAspect).map Warning.category
    (∀ a, c.Sizes s.content a → ¬ c.Sizes s.content a.other →
        said = [] ∧ ∃ v, c.OwnSize s a v
          ∧ out.frame.size.along a = c.limited a v
          ∧ out.frame.size.along a.other = c.limited a.other (a.scaled r v)
          ∧ (c.limited a v = v → c.limited a.other (a.scaled r v) = a.scaled r v →
            out.frame.size.width = r * out.frame.size.height))
      ∧ (∀ a minSize maxSize,
        ((c.withLimits a minSize maxSize).synthesize s).frame.extent a.other
          = out.frame.extent a.other)
      ∧ ((c.Sizes s.content .horizontal ↔ c.Sizes s.content .vertical) →
        out.frame = ((c.without (.value .aspectRatio)).synthesize s).frame)
      ∧ ((∀ a, c.Sizes s.content a) → said = [.ineffective])
      ∧ ((∀ a, ¬ c.Sizes s.content a) → said = [.underconstrained]) := by
  intro out said
  have hsaid : said = (c.ratioWarnings (c.determined s .horizontal)
      (c.determined s .vertical)).map Warning.category := by
    rw [← filter_isAspect_synthesize hp]
  refine ⟨fun a ha hother => ?_, fun a minSize maxSize => ?_, fun hiff => ?_, fun h => ?_,
    fun h => ?_⟩
  · obtain ⟨v, hv⟩ := ha.exists_ownSize
    have halong : out.frame.size.along a = c.limited a v := size_synthesize hp hv.wanted
    have hacross : out.frame.size.along a.other = c.limited a.other (a.scaled r v) :=
      size_synthesize hp (hv.wanted_other hr hother)
    refine ⟨by rw [hsaid, ratioWarnings_of_one ha hother, List.map_nil], v, hv, halong, hacross, ?_⟩
    exact fun hin hin' =>
      Size.width_of_scaled hpos.ne' (halong.trans hin) (hacross.trans hin')
  · have hp' : (c.withLimits a minSize maxSize).pinsEdges = false := hp
    rw [extent_synthesize hp', settled_withLimits, ← extent_synthesize hp]
  · have hidle : c.Idle s (.value .aspectRatio) := .ratio (by
      rw [isSome_determined, isSome_determined, hiff])
    have hp' : (c.without (.value .aspectRatio)).pinsEdges = false := hp
    simp only [out, synthesize, hp, hp', Bool.false_eq_true, if_false, hidle.frame_solve_without]
  · rw [hsaid, ratioWarnings_of_both hr h]
    rfl
  · rw [hsaid, ratioWarnings_of_neither hr h]
    rfl

/-- A poster twice as wide as it is high. From its left edge, its margin and its center it takes its
width, from that its height, and a limit on the height leaves the width alone. With a height that is
set the ratio is overridden, and without the lines there is nothing to scale. -/
theorem poster_is_scaled_then_limited :
    let ratio : Constraints Rat := (∅ : Constraints Rat).set .aspectRatio 2
    let c : Constraints Rat := ((ratio.set (.line .horizontal .low) 10).set
      (.line .horizontal .mid) 40).set (.marginLow .horizontal) 5
    let sized : Constraints Rat := c.set (.size .vertical) 30
    let s : Subject Rat := ⟨⟨⟨5, 5⟩, ⟨40, 30⟩⟩, none, 1 / 1000⟩
    let said (c : Constraints Rat) :=
      ((c.synthesize s).warnings.filter Warning.isAspect).map Warning.category
    (c.pinsEdges = false ∧ c.value .aspectRatio = some 2 ∧ (0 : Rat) < 2)
      ∧ (c.Sizes s.content .horizontal ∧ ¬ c.Sizes s.content .vertical)
      ∧ c.OwnSize s .horizontal 50 ∧ said c = []
      ∧ (c.synthesize s).frame.size.width = 2 * (c.synthesize s).frame.size.height
      ∧ ((c.withLimits .vertical none (some 20)).synthesize s).frame.extent .horizontal
        = (c.synthesize s).frame.extent .horizontal
      ∧ ((c.withLimits .vertical none (some 20)).synthesize s).frame.size = ⟨50, 20⟩
      ∧ (∀ a, sized.Sizes s.content a) ∧ said sized = [.ineffective]
      ∧ (sized.synthesize s).frame
        = ((sized.without (.value .aspectRatio)).synthesize s).frame
      ∧ (∀ a, ¬ ratio.Sizes s.content a) ∧ said ratio = [.underconstrained] := by
  intro ratio c sized s said
  have hwide : c.Sizes s.content .horizontal := by decide +kernel
  have hopen : ¬ c.Sizes s.content .vertical := by decide +kernel
  have hboth : ∀ a, sized.Sizes s.content a := fun a => by cases a <;> decide +kernel
  have hneither : ∀ a, ¬ ratio.Sizes s.content a := fun a => by cases a <;> decide +kernel
  have htwo : (0 : Rat) < 2 := by decide +kernel
  obtain ⟨hone, hlimits, -⟩ := ratio_honored_or_reported c s rfl rfl htwo
  obtain ⟨-, -, hframe, hsized, -⟩ := ratio_honored_or_reported sized s rfl rfl htwo
  obtain ⟨-, -, -, -, hratio⟩ := ratio_honored_or_reported ratio s rfl rfl htwo
  obtain ⟨hsaid, v, hv, -, -, hexact⟩ := hone .horizontal hwide hopen
  obtain rfl : v = 50 := by
    have hdetermined : c.determined s .horizontal = some 50 := by decide +kernel
    exact Option.some.inj (hv.determined.symm.trans hdetermined)
  refine ⟨⟨rfl, rfl, htwo⟩, ⟨hwide, hopen⟩, hv, hsaid, ?_, hlimits .vertical none (some 20),
    by decide +kernel, hboth, hsized hboth, hframe ?_, hneither, hratio hneither⟩
  · exact hexact (by decide +kernel) (by decide +kernel)
  · exact ⟨fun _ => hboth _, fun _ => hboth _⟩

end Constraints

end Pinning
