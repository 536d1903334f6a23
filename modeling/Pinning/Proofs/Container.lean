import Pinning.Proofs.NonFinite

/-!
# Usable values, and a missing container

A session holds finite values only, and what a call writes that is not finite changes nothing
(`Session.holds_usable_values`). A call measures the container for a percentage, for a distance from
its far edges or its center, and for one of its anchors, and for nothing else
(`Directive.measures_effects`). That there is none is reported the first time it is measured, which
the session keeps in mind: its one report and its mark come and stay together
(`Session.ReportsOnce`).
-/

namespace Pinning

variable {α : Type}

/-- The warning reports that there is no container. -/
def Warning.isNoContainer : Warning α → Bool
  | noContainer .. => true
  | _ => false

/-- The setter counts from the right or the bottom of the container, or from its center. One that is
about both edges of an axis does so for the second. -/
def Setter.CountsBack (d : Direction) : Setter → Prop
  | inset b => b.line d = .high
  | center _ | span _ | all => True
  | _ => False

/-- The directive cannot do without the container: it takes an anchor of it, or has a length in
percent or one that is counted back. -/
def Directive.NeedsContainer (d : Direction) (c : Directive α) : Prop :=
  (∃ own, c = anchor own) ∨ ∃ x ∈ c.settings, (∃ p, x.2 = .percent p) ∨ x.1.CountsBack d

theorem Border.line_ne_low_iff {d : Direction} {b : Border} :
    ¬b.line d = .low ↔ b.line d = .high := by
  cases b <;> cases d <;> simp [line, Direction.leading, Direction.trailing]

/-- The effects measure the container if and only if `p`, and leave it to the session to report that
there is none. -/
structure Effect.Measures (es : List (Effect α)) (p : Prop) : Prop where
  warned {w : Warning α} : warn w ∈ es → ¬w.isNoContainer
  iff : (∃ name, measure name ∈ es) ↔ p

namespace Effect.Measures

variable {es es' : List (Effect α)} {p q : Prop}

theorem congr (h : Measures es p) (hpq : p ↔ q) : Measures es q := ⟨h.warned, h.iff.trans hpq⟩

theorem append (h : Measures es p) (h' : Measures es' q) : Measures (es ++ es') (p ∨ q) := by
  constructor
  · intro w hw
    exact (List.mem_append.1 hw).elim h.warned h'.warned
  · rw [← h.iff, ← h'.iff, ← exists_or]
    simp only [List.mem_append]

theorem flatMap {β : Type} {xs : List β} {f : β → List (Effect α)} {r : β → Prop}
    (h : ∀ x ∈ xs, Measures (f x) (r x)) : Measures (xs.flatMap f) (∃ x ∈ xs, r x) := by
  constructor
  · intro w hw
    obtain ⟨x, hx, hw⟩ := List.mem_flatMap.1 hw
    exact (h x hx).warned hw
  · constructor
    · rintro ⟨name, hname⟩
      obtain ⟨x, hx, hname⟩ := List.mem_flatMap.1 hname
      exact ⟨x, hx, (h x hx).iff.1 ⟨name, hname⟩⟩
    · rintro ⟨x, hx, hr⟩
      obtain ⟨name, hname⟩ := (h x hx).iff.2 hr
      exact ⟨name, List.mem_flatMap.2 ⟨x, hx, hname⟩⟩

theorem write (slot : Slot) (v : α) : Measures [.write slot v] False := ⟨by simp, by simp⟩

theorem warn {w : Warning α} (h : ¬w.isNoContainer) : Measures [.warn w] False :=
  ⟨by simpa using h, by simp⟩

end Effect.Measures

namespace Directive

open Effect (Measures)

variable [Scalar α] (s : Site α) (d : Direction)

theorem measures_measuring (name : String) (v : Length α) :
    Measures (measuring name v) (∃ p, v = .percent p) := by
  cases v with
  | points x => exact ⟨by simp [measuring], by simp [measuring]⟩
  | percent p =>
    simp only [measuring]
    split_ifs <;> exact ⟨by simp [Warning.isNoContainer], by simp⟩

theorem measures_writeSize (slot : Slot) (v : α) : Measures (writeSize slot v) False := by
  unfold writeSize
  split_ifs <;> exact ⟨by simp [Warning.isNoContainer], by simp⟩

theorem measures_setInset (b : Border) (v : Length α) :
    Measures (setInset s d b v) ((∃ p, v = .percent p) ∨ b.line d = .high) := by
  refine (measures_measuring _ v).append ?_
  rw [← Border.line_ne_low_iff]
  split_ifs with hl
  · exact (Measures.write _ _).congr (by simp [hl])
  · exact ⟨by simp, by simp [hl]⟩

theorem measures_setMargin (b : Border) (v : Length α) :
    Measures (setMargin s d b v) (∃ p, v = .percent p) :=
  ((measures_measuring _ v).append (.write _ _)).congr (or_iff_left not_false)

theorem measures_setSize (slot : Slot) (a : Axis) (v : Length α) :
    Measures (setSize s slot a v) (∃ p, v = .percent p) :=
  ((measures_measuring _ v).append (measures_writeSize _ _)).congr (or_iff_left not_false)

theorem measures_setLength (v : Length α) (setter : Setter) :
    Measures (setLength s d v setter) ((∃ p, v = .percent p) ∨ setter.CountsBack d) := by
  cases setter with
  | inset b => exact measures_setInset s d b v
  | center a => exact (measures_measuring _ v).append ⟨by simp, by simp [Setter.CountsBack]⟩
  | span a =>
    refine ((measures_setInset s d _ v).append (measures_setInset s d _ v)).congr ?_
    simp [Setter.CountsBack, Border.line]
  | all =>
    refine (Measures.flatMap fun b _ => measures_setInset s d b v).congr ?_
    simp [Setter.CountsBack, Border.line]
  | size a | minSize a | maxSize a =>
    exact (measures_setSize s _ a v).congr (or_iff_left not_false).symm
  | square =>
    refine (((measures_measuring _ v).append (measures_writeSize _ _)).append
      (measures_writeSize _ _)).congr ?_
    simp [Setter.CountsBack]
  | margin b => exact (measures_setMargin s d b v).congr (or_iff_left not_false).symm
  | margins a =>
    refine ((measures_setMargin s d _ v).append (measures_setMargin s d _ v)).congr ?_
    simp [Setter.CountsBack]

/-- A size in points that is copied needs no container. -/
theorem measures_sizeOf (a : Axis) (v : α) :
    Measures (setLength s d (.points v) (.size a)) False :=
  (measures_setLength s d _ _).congr (by simp [Setter.CountsBack])

theorem measures_setRatio (r : α) : Measures (setRatio r) False := by
  unfold setRatio
  split_ifs
  · exact .write _ _
  · exact .warn Bool.false_ne_true

theorem measures_place (r : Relation) (nodes : List NodeId) :
    Measures (place s d r nodes) False := by
  have hstrangers (others : List NodeId) : Measures (others.map fun n =>
      (Effect.warn (.notSibling r.name (s.tree.name n) s.label) : Effect α)) False :=
    ⟨by simp +contextual [Warning.isNoContainer], by simp⟩
  refine ((hstrangers _).append ?_).congr (or_iff_left not_false)
  split_ifs
  · exact .warn Bool.false_ne_true
  · exact ⟨by simp, by simp⟩

/-- A directive measures the container if and only if it needs one. -/
theorem measures_effects (c : Directive α) : Measures (c.effects s d) (c.NeedsContainer d) := by
  by_cases hc : c.settings = []
  · have hneeds : c.NeedsContainer d ↔ ∃ own, c = anchor own := by simp [NeedsContainer, hc]
    rw [hneeds]
    cases c with
    | set | sizes | margins | directionalMargins => cases hc
    | anchor own => exact ⟨by simp [effects, setAnchor], by simp [effects]⟩
    | relative r nodes => exact (measures_place s d r nodes).congr (by simp)
    | sizeOf a node => exact (measures_sizeOf s d a _).congr (by simp)
    | sizesOf node =>
      exact (Measures.flatMap fun a _ => measures_sizeOf s d a _).congr (by simp)
    | aspectRatio r => exact (measures_setRatio r).congr (by simp)
    | aspectRatioOf node =>
      simp only [effects]
      split
      · exact (measures_setRatio _).congr (by simp)
      · exact (Measures.warn (by simp [Warning.isNoContainer])).congr (by simp)
    | aspectRatioOfContent =>
      simp only [effects]
      split
      · exact (measures_setRatio _).congr (by simp)
      · exact (Measures.warn (by simp [Warning.isNoContainer])).congr (by simp)
    | _ => exact ⟨by simp [effects, setAnchor], by simp [effects, setAnchor]⟩
  · have hanchor : ¬∃ own, c = anchor own := by
      rintro ⟨own, rfl⟩
      exact hc rfl
    rw [effects_of_settings hc]
    exact (Measures.flatMap fun x _ => measures_setLength s d x.2 x.1).congr
      (by simp [NeedsContainer, hanchor])

end Directive

namespace Session

variable [Scalar α] {s : Session α}

open Directive (inForce)

/-- The session has reported once that there is no container, or has not, and knows which. -/
def ReportsOnce (s : Session α) : Prop :=
  s.warnings.countP Warning.isNoContainer = s.reportedNoContainer.toNat

theorem reported_perform (s : Session α) (e : Effect α) :
    (s.perform e).reportedNoContainer
      ↔ s.reportedNoContainer ∨ s.site.container = none ∧ ∃ name, e = .measure name := by
  cases e with
  | write slot v =>
    simp only [perform, record, warn]
    split_ifs <;> simp
  | measure name =>
    simp only [perform, warn]
    split_ifs with h
    · simp [h.1]
    · simpa using h
  | _ => simp [perform, record, warn]

theorem ReportsOnce.perform (h : s.ReportsOnce) {e : Effect α}
    (he : ∀ w, e = .warn w → ¬w.isNoContainer) : (s.perform e).ReportsOnce := by
  cases e with
  | write slot v =>
    simp only [Session.perform]
    split_ifs
    · exact h
    · simpa [ReportsOnce, warn, Warning.isNoContainer] using h
  | warn w => simpa [ReportsOnce, Session.perform, warn, he w rfl] using h
  | measure name =>
    simp only [Session.perform]
    split_ifs with hnone
    · -- The mark is set together with the report.
      have hnot : s.reportedNoContainer = false := by simpa using hnone.2
      have hzero : s.warnings.countP Warning.isNoContainer = 0 := by
        simpa [ReportsOnce, hnot] using h
      simp [ReportsOnce, warn, Warning.isNoContainer, hzero]
    · exact h
  | _ => exact h

theorem reported_foldl_perform : ∀ (es : List (Effect α)) (s : Session α),
    (es.foldl perform s).reportedNoContainer
      ↔ s.reportedNoContainer ∨ s.site.container = none ∧ ∃ name, .measure name ∈ es
  | [], s => by simp
  | e :: es, s => by
    rw [List.foldl_cons, reported_foldl_perform es, reported_perform, perform_site]
    simp only [List.mem_cons, exists_or, eq_comm (a := e)]
    tauto

theorem ReportsOnce.foldl_perform : ∀ {es : List (Effect α)} {s : Session α}, s.ReportsOnce →
    (∀ w, .warn w ∈ es → ¬w.isNoContainer) → (es.foldl Session.perform s).ReportsOnce
  | [], _, h, _ => h
  | e :: _, _, h, hes =>
    (h.perform fun w he => hes w (he ▸ List.mem_cons_self)).foldl_perform fun w hw =>
      hes w (List.mem_cons_of_mem e hw)

theorem reported_issue (s : Session α) (c : Directive α) : (s.issue c).reportedNoContainer
    ↔ s.reportedNoContainer ∨ s.site.container = none ∧ c.NeedsContainer s.direction := by
  rw [issue, reported_foldl_perform, (Directive.measures_effects _ _ c).iff]

theorem ReportsOnce.issue (h : s.ReportsOnce) (c : Directive α) : (s.issue c).ReportsOnce :=
  h.foldl_perform fun _ hw => (Directive.measures_effects _ _ c).warned hw

theorem reported_issueAll : ∀ (cs : List (Directive α)) (s : Session α),
    (s.issueAll cs).reportedNoContainer ↔ s.reportedNoContainer
      ∨ s.site.container = none ∧ ∃ x ∈ inForce s.direction cs, x.2.NeedsContainer x.1
  | [], s => by simp [issueAll, inForce]
  | c :: cs, s => by
    rw [issueAll_cons, reported_issueAll cs, reported_issue, issue_site, issue_direction, inForce]
    simp only [List.mem_cons, exists_eq_or_imp]
    tauto

theorem ReportsOnce.issueAll : ∀ (cs : List (Directive α)) {s : Session α}, s.ReportsOnce →
    (s.issueAll cs).ReportsOnce
  | [], _, h => h
  | c :: cs, _, h => ReportsOnce.issueAll cs (h.issue c)

variable (tree : Tree α) (node : NodeId) (config : Config α) (d : Direction)

theorem reportsOnce_pass (cs : List (Directive α)) : (pass tree node config d cs).ReportsOnce := by
  have hstart : (start tree node config d).ReportsOnce := rfl
  exact hstart.issueAll cs

theorem reported_pass (cs : List (Directive α)) : (pass tree node config d cs).reportedNoContainer
    ↔ tree.parent? node = none ∧ ∃ x ∈ inForce d cs, x.2.NeedsContainer x.1 := by
  rw [pass, reported_issueAll]
  simp [start, Site.container]

/-- Whatever a tree holds and whatever a session takes in, its slots hold finite values, sizes and
their limits are not negative, and a ratio is positive. That there is no container is reported once
at most, and it is if and only if there is none and some call needed one. A slot for which a call
has nothing finite keeps its value. -/
theorem holds_usable_values (tree : Tree Float) (node : NodeId) (config : Config Float)
    (d : Direction) (cs : List (Directive Float)) :
    let s := pass tree node config d cs
    s.constraints.Admissible
    ∧ s.warnings.countP Warning.isNoContainer ≤ 1
    ∧ (s.warnings.countP Warning.isNoContainer = 1
        ↔ tree.parent? node = none ∧ ∃ x ∈ inForce d cs, x.2.NeedsContainer x.1)
    ∧ ∀ (c : Directive Float) (slot : Slot),
        (∀ v, .write slot v ∈ c.effects s.site s.direction → v.isFinite = false) →
        (s.issue c).constraints.value slot = s.constraints.value slot := by
  intro s
  have hreports : s.warnings.countP Warning.isNoContainer = s.reportedNoContainer.toNat :=
    reportsOnce_pass tree node config d cs
  refine ⟨pass_admissible Scalar.Strict.not_zero_lt tree node config d cs, ?_, ?_,
    fun c slot hrefused => ?_⟩
  · rw [hreports]
    exact Bool.toNat_le _
  · rw [hreports, Bool.toNat_eq_one, reported_pass]
  · exact s.value_issue_of_gathered <| Effect.value_gatheredAll_of_refused fun v hv =>
      Bool.eq_false_iff.1 (hrefused v hv)

/-- A root of infinite width, which it is asked to take for its own. -/
theorem root_keeps_finite_width :
    let tree : Tree Float := ((∅ : Tree Float).addRoot "root" ⟨⟨0 / 0, 0⟩, ⟨1 / 0, 5⟩⟩).1
    let width : Directive Float := .set (.size .horizontal) (.percent 50)
    let right : Directive Float := .set (.inset .start) (.points 3)
    let copied : Directive Float := .sizeOf .horizontal 0
    let cs := [width, .turn .rtl, right, .aspectRatio (-2)]
    let s := pass tree 0 .standard .ltr cs
    s.constraints.Admissible ∧ s.warnings.countP Warning.isNoContainer = 1
      ∧ (∀ v, .write (.size .horizontal) v ∈ copied.effects s.site s.direction → v.isFinite = false)
      ∧ (s.issue copied).constraints.value (.size .horizontal) = some 0
      ∧ s.constraints.value (.line .horizontal .high) = some (-3)
      ∧ s.constraints.value .aspectRatio = none := by
  intro tree width right copied cs s
  obtain ⟨hadmissible, -, hreported, hkept⟩ := holds_usable_values tree 0 .standard .ltr cs
  have hneeds : width.NeedsContainer .ltr := .inr ⟨_, List.mem_cons_self, .inl ⟨50, rfl⟩⟩
  have heffects : copied.effects s.site s.direction = [.write (.size .horizontal) (1 / 0)] := by
    decide +kernel
  have hrefused : ∀ v, .write (.size .horizontal) v ∈ copied.effects s.site s.direction →
      v.isFinite = false := by
    intro v hv
    rw [heffects, List.mem_singleton] at hv
    cases hv
    decide +kernel
  refine ⟨hadmissible, hreported.2 ⟨rfl, (.ltr, width), List.mem_cons_self, hneeds⟩, hrefused, ?_,
    by decide +kernel, by decide +kernel⟩
  rw [hkept copied _ hrefused]
  decide +kernel

end Session

end Pinning
