import Pinning.Proofs.Settling

/-!
# Why a synthesis warns

Each warning of an axis has its cause there (`AxisProblem.Raises`, `mem_warnings_iff`), and a pass
warns of what its two axes raise and of the aspect ratio (`mem_solve_iff`). With pinned edges the
warnings of the second pass join those of the first (`mem_merge_iff`), and little is left for it to
warn of (`mem_solve_pinnedTo`).
-/

namespace Pinning

variable {α : Type} [Scalar α]

namespace AxisProblem

variable (p : AxisProblem α) (tolerance : α) (judgesSpanAlign : Bool) (e : Extent α)

/-- The warnings of an axis that has settled as `e`, by their causes. -/
inductive Raises : Warning α → Prop
  | negativeImplied {rule : SizeRule} {size : α} (hsize : p.size = none)
    (hcontent : p.content = none) (himplied : p.impliedSize? = some (rule, size))
    (hneg : size < 0) : Raises (.negativeImplied p.axis rule size)
  | edgesDisagree {low high size : α} {rule : SizeRule} (hlow : p.low = some low)
    (hhigh : p.high = some high) (hsize : p.determinedSize? = some (rule, size))
    (hrule : rule = .explicit ∨ rule = .content) (halign : p.spanAlign = none)
    (hfar : tolerance < Scalar.abs (high - low - p.lowInset - p.highInset - size)) :
    Raises (.edgesDisagree p.axis size (high - low - p.lowInset - p.highInset))
  | centerOverridden {mid : α} (hmid : p.mid = some mid) (hedge : p.low.isSome ∨ p.high.isSome)
    (hfar : tolerance < Scalar.abs (e.line .mid - mid)) :
    Raises (.centerOverridden p.axis mid (e.line .mid))
  | lowMarginUnused {m : α} (hmargin : p.marginLow = some m) (hne : Scalar.agrees m 0 = false)
    (hlow : p.low = none) : Raises (.marginUnused p.axis .low)
  | highMarginUnused {m : α} (hmargin : p.marginHigh = some m) (hne : Scalar.agrees m 0 = false)
    (hhigh : p.high = none) : Raises (.marginUnused p.axis .high)
  | spanAlignUnused (hjudges : judgesSpanAlign = true) (halign : p.spanAlign.isSome)
    (hedge : p.low = none ∨ p.high = none) : Raises (.spanAlignUnused p.axis)
  | limitsCross {min max : α} (hmin : p.minSize = some min) (hmax : p.maxSize = some max)
    (hlt : max < min) : Raises (.limitsCross p.axis min max)

variable {p tolerance judgesSpanAlign e} {w : Warning α}

theorem raises_of_mem_sizeWarnings (h : w ∈ p.sizeWarnings) :
    p.Raises tolerance judgesSpanAlign e w := by
  unfold sizeWarnings at h
  split at h
  · rename_i hsize hcontent himplied
    simp only [List.mem_ite_nil_right, List.mem_singleton] at h
    obtain ⟨hneg, rfl⟩ := h
    exact .negativeImplied hsize hcontent himplied hneg
  · cases h

theorem raises_of_mem_edgeWarnings (h : w ∈ p.edgeWarnings tolerance) :
    p.Raises tolerance judgesSpanAlign e w := by
  unfold edgeWarnings at h
  split at h
  · rename_i hlow hhigh hsize
    simp only [List.mem_ite_nil_right, List.mem_singleton] at h
    obtain ⟨⟨hrule, halign, hfar⟩, rfl⟩ := h
    exact .edgesDisagree hlow hhigh hsize hrule halign hfar
  · cases h

theorem raises_of_mem_centerWarnings (h : w ∈ p.centerWarnings tolerance e) :
    p.Raises tolerance judgesSpanAlign e w := by
  unfold centerWarnings at h
  split at h
  · cases h
  · rename_i hmid
    simp only [List.mem_ite_nil_right, List.mem_singleton] at h
    obtain ⟨⟨hedge, hfar⟩, rfl⟩ := h
    exact .centerOverridden hmid hedge hfar

theorem raises_of_mem_marginWarnings (h : w ∈ p.marginWarnings) :
    p.Raises tolerance judgesSpanAlign e w := by
  simp only [marginWarnings, marginWarnings.unused, List.mem_append, List.mem_ite_nil_right,
    List.mem_singleton, Option.any_eq_true, Bool.not_eq_true'] at h
  rcases h with ⟨⟨⟨m, hm, hne⟩, hlow⟩, rfl⟩ | ⟨⟨⟨m, hm, hne⟩, hhigh⟩, rfl⟩
  · exact .lowMarginUnused hm hne hlow
  · exact .highMarginUnused hm hne hhigh

theorem raises_of_mem_spanAlignWarnings
    (h : w ∈ if judgesSpanAlign then p.spanAlignWarnings else []) :
    p.Raises tolerance judgesSpanAlign e w := by
  simp only [spanAlignWarnings, List.mem_ite_nil_right, List.mem_singleton] at h
  obtain ⟨hjudges, ⟨halign, hedge⟩, rfl⟩ := h
  exact .spanAlignUnused hjudges halign hedge

theorem raises_of_mem_limitWarnings (h : w ∈ p.limitWarnings) :
    p.Raises tolerance judgesSpanAlign e w := by
  unfold limitWarnings at h
  split at h
  · rename_i hmin hmax
    simp only [List.mem_ite_nil_right, List.mem_singleton] at h
    obtain ⟨hlt, rfl⟩ := h
    exact .limitsCross hmin hmax hlt
  · cases h

theorem Raises.mem (h : p.Raises tolerance judgesSpanAlign e w) :
    w ∈ p.sizeWarnings ++ p.warnings tolerance judgesSpanAlign e := by
  simp only [warnings, marginWarnings, List.mem_append]
  cases h with
  | negativeImplied hsize hcontent himplied hneg =>
    exact .inl (by simp [sizeWarnings, hsize, hcontent, himplied, hneg])
  | edgesDisagree hlow hhigh hsize hrule halign hfar =>
    exact .inr (.inl (.inl (.inl (.inl
      (by simp [edgeWarnings, hlow, hhigh, hsize, hrule, halign, hfar])))))
  | centerOverridden hmid hedge hfar =>
    exact .inr (.inl (.inl (.inl (.inr (by simp [centerWarnings, hmid, hedge, hfar])))))
  | lowMarginUnused hmargin hne hlow =>
    exact .inr (.inl (.inl (.inr (.inl (by simp [marginWarnings.unused, hmargin, hne, hlow])))))
  | highMarginUnused hmargin hne hhigh =>
    exact .inr (.inl (.inl (.inr (.inr (by simp [marginWarnings.unused, hmargin, hne, hhigh])))))
  | spanAlignUnused hjudges halign hedge =>
    exact .inr (.inl (.inr (by simp [hjudges, spanAlignWarnings, halign, hedge])))
  | limitsCross hmin hmax hlt => exact .inr (.inr (by simp [limitWarnings, hmin, hmax, hlt]))

/-- An axis warns for these causes and no others. -/
theorem mem_warnings_iff : w ∈ p.sizeWarnings ++ p.warnings tolerance judgesSpanAlign e
    ↔ p.Raises tolerance judgesSpanAlign e w := by
  refine ⟨fun h => ?_, Raises.mem⟩
  simp only [warnings, List.mem_append] at h
  rcases h with h | (((h | h) | h) | h) | h
  · exact raises_of_mem_sizeWarnings h
  · exact raises_of_mem_edgeWarnings h
  · exact raises_of_mem_centerWarnings h
  · exact raises_of_mem_marginWarnings h
  · exact raises_of_mem_spanAlignWarnings h
  · exact raises_of_mem_limitWarnings h

end AxisProblem

theorem Warning.mem_merge_iff {w : Warning α} : ∀ {more ws : List (Warning α)},
    w ∈ Warning.merge ws more ↔ w ∈ ws ∨ w ∈ more
  | [], ws => by simp [Warning.merge]
  | v :: more, ws => by
    rw [Warning.merge, List.foldl_cons, ← Warning.merge, mem_merge_iff, List.mem_cons]
    split_ifs with hv
    · constructor
      · exact Or.imp_right Or.inr
      · rintro (h | rfl | h)
        · exact .inl h
        · exact .inl hv
        · exact .inr h
    · rw [List.mem_append, List.mem_singleton, or_assoc]

namespace Constraints

variable {c : Constraints α} {s : Subject α} {w : Warning α}

omit [Scalar α] in
theorem mem_fitWarnings_iff : w ∈ c.fitWarnings s ↔ c.fitsContent = true
    ∧ (s.content = none ∧ w = .noContentSize
      ∨ s.content.isSome ∧ (∀ a, (c.value (.size a)).isSome) ∧ w = .fitOverridden) := by
  have hsizes : (∀ a, (c.value (.size a)).isSome) ↔ (c.value (.size .horizontal)).isSome
      ∧ (c.value (.size .vertical)).isSome :=
    ⟨fun h => ⟨h _, h _⟩, fun h a => by cases a <;> simp [h]⟩
  rw [fitWarnings, hsizes]
  cases hc : s.content <;> split_ifs <;> simp_all

omit [Scalar α] in
theorem mem_ratioWarnings_iff {width height : Option α} : w ∈ c.ratioWarnings width height
    ↔ ∃ r, c.value .aspectRatio = some r
      ∧ (width.isSome ∧ height.isSome ∧ w = .ratioOverridden r
        ∨ width = none ∧ height = none ∧ w = .ratioWithoutSize r) := by
  unfold ratioWarnings
  cases c.value .aspectRatio <;> cases width <;> cases height <;> simp

theorem mem_solve_iff {judgesSpanAlign : Bool} : w ∈ (c.solve s judgesSpanAlign).warnings
    ↔ w ∈ c.ratioWarnings (c.determined s .horizontal) (c.determined s .vertical)
      ∨ ∃ a, (AxisProblem.of c s a).Raises s.tolerance judgesSpanAlign (c.settled s a) w := by
  have haxes : ∀ P : Axis → Prop, (∃ a, P a) ↔ P .horizontal ∨ P .vertical := fun P =>
    ⟨fun ⟨a, h⟩ => by cases a <;> simp [h], fun h => h.elim (⟨_, ·⟩) (⟨_, ·⟩)⟩
  simp only [haxes, ← AxisProblem.mem_warnings_iff, solve_eq, List.mem_append]
  tauto

/-- Between pinned edges an axis has neither a center nor an open edge, and its size is the span. -/
theorem mem_solve_pinnedTo {frame : Rect α} {judgesSpanAlign : Bool}
    (h : w ∈ ((c.pinnedTo frame).solve s judgesSpanAlign).warnings) :
    ∃ a, (∃ rule size, (AxisProblem.of (c.pinnedTo frame) s a).impliedSize? = some (rule, size)
        ∧ size < 0 ∧ w = .negativeImplied a rule size)
      ∨ ∃ min max, c.value (.minSize a) = some min ∧ c.value (.maxSize a) = some max ∧ max < min
        ∧ w = .limitsCross a min max := by
  rcases mem_solve_iff.1 h with hratio | ⟨a, hraises⟩
  · obtain ⟨r, hr, -⟩ := mem_ratioWarnings_iff.1 hratio
    cases hr
  · cases hraises with
    | negativeImplied _ _ himplied hneg => exact ⟨a, .inl ⟨_, _, himplied, hneg, rfl⟩⟩
    | edgesDisagree _ _ hsize hrule =>
      cases hsize
      rcases hrule with hrule | hrule <;> cases hrule
    | centerOverridden hmid => cases hmid
    | lowMarginUnused _ _ hlow => cases hlow
    | highMarginUnused _ _ hhigh => cases hhigh
    | spanAlignUnused _ _ hedge => rcases hedge with hlow | hhigh <;> contradiction
    | limitsCross hmin hmax hlt => exact ⟨a, .inr ⟨_, _, hmin, hmax, hlt, rfl⟩⟩

/-- Without pinned edges there is one pass. -/
theorem mem_synthesize_iff (hp : c.pinsEdges = false) : w ∈ (c.synthesize s).warnings
    ↔ w ∈ c.fitWarnings s ∨ w ∈ (c.solve s true).warnings := by
  simp [synthesize, hp]

/-- With pinned edges there are two. -/
theorem mem_synthesize_pinned_iff (hp : c.pinsEdges = true) : w ∈ (c.synthesize s).warnings
    ↔ (w ∈ c.fitWarnings s ∨ w ∈ (c.withoutMargins.solve s false).warnings)
      ∨ w ∈ ((c.pinnedTo (c.withoutMargins.solve s false).frame).solve s true).warnings := by
  simp [synthesize, hp, Warning.mem_merge_iff]

end Constraints

end Pinning
