import Mathlib.Algebra.Order.Ring.Rat
import Pinning.Proofs.Causes
import Pinning.Proofs.Stages
import Pinning.Scalar.Rational

/-!
# What a tolerance does

A tolerance is looked at where two warnings are considered and nowhere else. A greater one therefore
leaves out some warnings of an axis and keeps the others in their order
(`AxisProblem.warnings_sublist`), and it moves no frame.

With pinned edges the second pass has no warning to add that depends on the tolerance
(`Constraints.not_tolerable_of_mem_pinned`), and so adds the same ones whatever the first pass has
left out (`Warning.merge_sublist`). A run carries frames and directions from one statement to the
next, and warnings only to the report (`Stage.Tolerant`).
-/

namespace Pinning

variable {α : Type} [Scalar α]

namespace AxisProblem

variable {p : AxisProblem α} {t t' : α}

theorem edgeWarnings_sublist (h : ∀ x, t' < x → t < x) :
    (p.edgeWarnings t').Sublist (p.edgeWarnings t) := by
  unfold edgeWarnings
  split
  · rename_i low high rule size _ _ _
    by_cases hs : (rule = .explicit ∨ rule = .content) ∧ p.spanAlign = none
        ∧ t' < Scalar.abs (high - low - p.lowInset - p.highInset - size)
    · simp only [if_pos hs, if_pos (And.intro hs.1 (And.intro hs.2.1 (h _ hs.2.2))),
        List.Sublist.refl]
    · simp only [if_neg hs, List.nil_sublist]
  · exact .refl _

theorem centerWarnings_sublist (h : ∀ x, t' < x → t < x) (e : Extent α) :
    (p.centerWarnings t' e).Sublist (p.centerWarnings t e) := by
  unfold centerWarnings
  split
  · exact .refl _
  · rename_i mid _
    by_cases hs : (p.low.isSome ∨ p.high.isSome) ∧ t' < Scalar.abs (e.line .mid - mid)
    · rw [if_pos hs, if_pos (And.intro hs.1 (h _ hs.2))]
    · rw [if_neg hs]
      exact List.nil_sublist _

theorem warnings_sublist (h : ∀ x, t' < x → t < x) (judgesSpanAlign : Bool) (e : Extent α) :
    (p.warnings t' judgesSpanAlign e).Sublist (p.warnings t judgesSpanAlign e) := by
  unfold warnings
  exact ((((edgeWarnings_sublist h).append (centerWarnings_sublist h e)).append (.refl _)).append
    (.refl _)).append (.refl _)

end AxisProblem

/-- The warnings that are raised only where something exceeds the tolerance. -/
def Warning.IsTolerable : Warning α → Prop
  | edgesDisagree .. | centerOverridden .. => True
  | _ => False

namespace AxisProblem

variable {p : AxisProblem α} {t t' : α} {w : Warning α}

/-- The other warnings of an axis are raised whatever the tolerance is. -/
theorem Raises.of_not_tolerable {judgesSpanAlign : Bool} {e : Extent α} (hw : ¬ w.IsTolerable)
    (h : p.Raises t judgesSpanAlign e w) : p.Raises t' judgesSpanAlign e w := by
  cases h with
  | edgesDisagree | centerOverridden => exact absurd trivial hw
  | negativeImplied hsize hcontent himplied hneg =>
    exact .negativeImplied hsize hcontent himplied hneg
  | lowMarginUnused hmargin hne hlow => exact .lowMarginUnused hmargin hne hlow
  | highMarginUnused hmargin hne hhigh => exact .highMarginUnused hmargin hne hhigh
  | spanAlignUnused hjudges halign hedge => exact .spanAlignUnused hjudges halign hedge
  | limitsCross hmin hmax hlt => exact .limitsCross hmin hmax hlt

end AxisProblem

namespace Warning

variable {ws ws' : List (Warning α)}

/-- Warnings are added to a part of a list as to the list, if the part is no different on them. -/
theorem merge_sublist : ∀ {more ws ws' : List (Warning α)}, ws'.Sublist ws →
    (∀ w ∈ more, w ∈ ws' ↔ w ∈ ws) → (merge ws' more).Sublist (merge ws more)
  | [], _, _, h, _ => h
  | w :: more, ws, ws', h, hmem => by
    have hw := hmem w List.mem_cons_self
    have hmore : ∀ x ∈ more, x ∈ ws' ↔ x ∈ ws := fun x hx => hmem x (List.mem_cons_of_mem w hx)
    simp only [merge, List.foldl_cons]
    by_cases hin : w ∈ ws
    · rw [if_pos hin, if_pos (hw.2 hin)]
      exact merge_sublist h hmore
    · rw [if_neg hin, if_neg (mt hw.1 hin)]
      refine merge_sublist (h.append (.refl _)) fun x hx => ?_
      rw [List.mem_append, List.mem_append, hmore x hx]

end Warning

/-- The node with another tolerance. -/
def Subject.tolerating (s : Subject α) (t : α) : Subject α := { s with tolerance := t }

namespace Constraints

variable (c : Constraints α) (s : Subject α) {t t' : α}

theorem warnings_solve_sublist (h : ∀ x, t' < x → t < x) (judgesSpanAlign : Bool) :
    (c.solve (s.tolerating t') judgesSpanAlign).warnings.Sublist
      (c.solve (s.tolerating t) judgesSpanAlign).warnings :=
  ((List.Sublist.refl _).append (AxisProblem.warnings_sublist h judgesSpanAlign _)).append
    (AxisProblem.warnings_sublist h judgesSpanAlign _)

theorem mem_warnings_solve {w : Warning α} (hw : ¬ w.IsTolerable) (judgesSpanAlign : Bool) :
    w ∈ (c.solve (s.tolerating t') judgesSpanAlign).warnings
      ↔ w ∈ (c.solve (s.tolerating t) judgesSpanAlign).warnings := by
  simp only [mem_solve_iff]
  exact or_congr Iff.rfl (exists_congr fun a => ⟨.of_not_tolerable hw, .of_not_tolerable hw⟩)

/-- Between pinned edges there is neither a center nor a size that was asked for, so the tolerance
measures nothing. -/
theorem not_tolerable_of_mem_pinned {w : Warning α} {frame : Rect α} {judgesSpanAlign : Bool}
    (h : w ∈ ((c.pinnedTo frame).solve s judgesSpanAlign).warnings) : ¬ w.IsTolerable := by
  rcases mem_solve_pinnedTo h with ⟨a, ⟨_, _, -, -, rfl⟩ | ⟨_, _, -, -, -, rfl⟩⟩ <;>
    exact not_false

/-- A tolerance moves no frame. -/
theorem frame_synthesize_tolerating :
    (c.synthesize (s.tolerating t)).frame = (c.synthesize s).frame := by
  unfold synthesize
  split_ifs <;> rfl

/-- A greater tolerance leaves warnings out and adds none. -/
theorem warnings_synthesize_sublist (h : ∀ x, t' < x → t < x) :
    (c.synthesize (s.tolerating t')).warnings.Sublist
      (c.synthesize (s.tolerating t)).warnings := by
  unfold synthesize
  split_ifs
  · refine Warning.merge_sublist ((List.Sublist.refl _).append ?_) fun w hw => ?_
    · exact warnings_solve_sublist _ s h false
    · simp only [List.mem_append]
      exact or_congr Iff.rfl (mem_warnings_solve _ s (not_tolerable_of_mem_pinned c s hw) false)
  · exact (List.Sublist.refl _).append (warnings_solve_sublist c s h true)

end Constraints

def Config.tolerating (config : Config α) (t : α) : Config α := { config with tolerance := t }

namespace Session

/-- The session with another tolerance. -/
def tolerating (t : α) (s : Session α) : Session α := { s with tolerance := t }

variable (s : Session α) (t : α)

theorem perform_tolerating (e : Effect α) :
    (s.tolerating t).perform e = (s.perform e).tolerating t := by
  cases e with
  | write | measure =>
    rw [perform, perform, apply_ite (tolerating t)]
    rfl
  | _ => rfl

theorem issue_tolerating (c : Directive α) :
    (s.tolerating t).issue c = (s.issue c).tolerating t :=
  List.foldl_hom (tolerating t) fun s e => s.perform_tolerating t e

theorem issueAll_tolerating (cs : List (Directive α)) :
    (s.tolerating t).issueAll cs = (s.issueAll cs).tolerating t :=
  List.foldl_hom (tolerating t) fun s c => s.issue_tolerating t c

theorem pass_tolerating (tree : Tree α) (node : NodeId) (config : Config α) (d : Direction)
    (cs : List (Directive α)) : pass tree node (config.tolerating t) d cs
      = (pass tree node config d cs).tolerating t :=
  issueAll_tolerating (start tree node config d) t cs

theorem frame_resolution_tolerating :
    (s.tolerating t).resolution.frame = s.resolution.frame :=
  Constraints.frame_synthesize_tolerating s.constraints s.subject

theorem warnings_resolution_sublist {t t' : α} (h : ∀ x, t' < x → t < x) :
    (s.tolerating t').resolution.warnings.Sublist (s.tolerating t).resolution.warnings :=
  (List.Sublist.refl _).append (Constraints.warnings_synthesize_sublist s.constraints s.subject h)

end Session

/-- Twice the same error, or two results that are alike. -/
inductive Agree {ε β : Type} (R : β → β → Prop) : Except ε β → Except ε β → Prop
  | error (e : ε) : Agree R (.error e) (.error e)
  | ok {x y : β} (h : R x y) : Agree R (.ok x) (.ok y)

theorem Agree.mapError {ε ε' β : Type} {R : β → β → Prop} {x y : Except ε β} (h : Agree R x y)
    (f : ε → ε') : Agree R (x.mapError f) (y.mapError f) := by
  rcases h with e | h
  · exact .error (f e)
  · exact .ok h

theorem Agree.imp {ε β : Type} {R R' : β → β → Prop} {x y : Except ε β}
    (hR : ∀ a b, R a b → R' a b) (h : Agree R x y) : Agree R' x y := by
  rcases h with e | h
  · exact .error e
  · exact .ok (hR _ _ h)

/-- Two reports of the same views. The second has only warnings of the first, in their order, where
its tolerance `t'` is greater. -/
structure Report.Tolerant (t t' : α) (r r' : Report α) : Prop where
  nodes : r'.nodes = r.nodes
  warnings : (∀ x, t' < x → t < x) → r'.warnings.Sublist r.warnings

namespace Stage

/-- The same for two runs between statements. -/
structure Tolerant (t t' : α) (s s' : Stage α) : Prop extends Alike s s' where
  warnings : (∀ x, t' < x → t < x) → s'.warnings.Sublist s.warnings

variable {config : Config α} {t t' : α} {s s' : Stage α}

theorem Tolerant.report (h : Tolerant t t' s s') : Report.Tolerant t t' s.report s'.report where
  nodes := by simp only [Stage.report, h.scene]
  warnings := h.warnings

theorem Tolerant.pinned (h : Tolerant t t' s s') (target : String) (node : NodeId)
    (ds : List (Directive α)) : Tolerant t t' (s.pinned (config.tolerating t) target node ds)
      (s'.pinned (config.tolerating t') target node ds) where
  scene := by
    simp only [Stage.pinned, h.scene, h.tree, h.direction, Session.pass_tolerating,
      Session.frame_resolution_tolerating]
  direction := h.direction
  warnings ht := by
    simp only [Stage.pinned, h.tree, h.direction, Session.pass_tolerating]
    exact (h.warnings ht).append ((Session.warnings_resolution_sublist _ ht).map _)

theorem Tolerant.statement (h : Tolerant t t' s s') (st : Statement α) :
    Agree (Tolerant t t') (s.statement (config.tolerating t) st)
      (s'.statement (config.tolerating t') st) := by
  rcases st with ⟨span, name⟩ | v | ⟨span, target, calls⟩
  · simp only [Stage.statement]
    split
    · exact .ok { scene := h.scene, direction := rfl, warnings := h.warnings }
    · exact .error _
  · exact .ok h
  · rcases hn : s.tree.find? target.value with _ | node
    · simp only [Stage.statement, Stage.session, Tree.lookUp, h.tree, hn]
      exact .error _
    · rcases hd : calls.mapM (Call.directive s.tree) with e | ds
      · simp only [Stage.statement, Stage.session, Tree.lookUp, h.tree, hn, hd]
        exact .error e
      · rw [statement_pin hn hd, statement_pin (by rwa [h.tree]) (by rwa [h.tree])]
        exact .ok (h.pinned target.value node ds)

theorem Tolerant.run : ∀ {sts : List (Statement α)} {s s' : Stage α}, Tolerant t t' s s' →
    Agree (Report.Tolerant t t') (s.run (config.tolerating t) sts).result
      (s'.run (config.tolerating t') sts).result
  | [], s, s', h => .ok h.report
  | st :: sts, s, s', h => by
    have hst : Agree (Tolerant t t') (s.statement (config.tolerating t) st)
        (s'.statement (config.tolerating t') st) := h.statement st
    generalize hx : s.statement (config.tolerating t) st = x at hst
    generalize hy : s'.statement (config.tolerating t') st = y at hst
    rcases hst with e | h₁
    · rw [Stage.run, Stage.run, hx, hy]
      exact .error e
    · rw [run_cons hx, run_cons hy]
      exact h₁.run

end Stage

theorem Script.run_tolerant (script : Script α) (config : Config α) (process : Direction)
    (t t' : α) : Agree (Report.Tolerant t t')
      (script.run (config.tolerating t) process).result
      (script.run (config.tolerating t') process).result := by
  unfold Script.run
  rcases script.scene with e | scene
  · exact .error e
  · exact Stage.Tolerant.run { scene := rfl, direction := rfl, warnings := fun _ => .refl _ }

theorem runSource_tolerant (source : String) (config : Config α) (process : Direction) (t t' : α) :
    Agree (Report.Tolerant t t') (runSource source (config.tolerating t) process).result
      (runSource source (config.tolerating t') process).result := by
  unfold runSource
  rcases (Script.parse source : Except (SyntaxError α) (Script α)) with e | script
  · exact .error _
  · exact (script.run_tolerant config process t t').mapError RunError.scene

/-- Constraints give a node one frame under all tolerances, and under a greater tolerance no warning
that is not there under a smaller one. So two configurations that differ in nothing but the tolerance
come to the same error or to the same views, and what is reported under the greater tolerance is
reported under the smaller one, in this order. -/
theorem tolerance_only_silences (hlt : ∀ x y z : α, x ≤ y → y < z → x < z) :
    (∀ (c : Constraints α) (current : Rect α) (content : Option (Size α)) (t t' : α),
      (c.synthesize ⟨current, content, t'⟩).frame = (c.synthesize ⟨current, content, t⟩).frame
        ∧ (t ≤ t' → (c.synthesize ⟨current, content, t'⟩).warnings.Sublist
          (c.synthesize ⟨current, content, t⟩).warnings))
    ∧ ∀ (config config' : Config α) (process : Direction),
      config'.direction = config.direction → config'.logsWarnings = config.logsWarnings →
        let Tolerates (r r' : Report α) : Prop := r'.nodes = r.nodes
          ∧ (config.tolerance ≤ config'.tolerance → r'.warnings.Sublist r.warnings)
        (∀ script : Script α, Agree Tolerates (script.run config process).result
          (script.run config' process).result)
        ∧ ∀ source : String, Agree Tolerates (runSource source config process).result
          (runSource source config' process).result := by
  have hle : ∀ {t t' : α}, t ≤ t' → ∀ x, t' < x → t < x := fun h x => hlt _ _ x h
  refine ⟨fun c current content t t' => ⟨?_, fun ht => ?_⟩,
    fun config config' process hdirection hlogs => ?_⟩
  · exact Constraints.frame_synthesize_tolerating c ⟨current, content, t⟩
  · exact Constraints.warnings_synthesize_sublist c ⟨current, content, t⟩ (hle ht)
  · have hconfig' : config' = config.tolerating config'.tolerance := by
      rw [Config.tolerating, ← hdirection, ← hlogs]
    have hReport : ∀ r r' : Report α, r.Tolerant config.tolerance config'.tolerance r' →
        r'.nodes = r.nodes
          ∧ (config.tolerance ≤ config'.tolerance → r'.warnings.Sublist r.warnings) :=
      fun r r' h => ⟨h.nodes, fun ht => h.warnings (hle ht)⟩
    intro Tolerates
    refine ⟨fun script => Agree.imp hReport ?_, fun source => Agree.imp hReport ?_⟩
    · rw [hconfig']
      exact script.run_tolerant config process config.tolerance config'.tolerance
    · rw [hconfig']
      exact runSource_tolerant source config process config.tolerance config'.tolerance

/-- The width of a card is off by a half. That is reported under a tolerance of a thousandth, and
not under one of a whole. -/
theorem half_off_is_within_one :
    let s : Span := ⟨0, 0⟩
    let card : Script Rat := ⟨[.view ⟨s, ⟨"panel", s⟩, [], [⟨s, ⟨"card", s⟩, [], []⟩]⟩,
      .pin s ⟨"panel", s⟩ [⟨s, ⟨"width", s⟩, [.number s 10]⟩],
      .pin s ⟨"card", s⟩ [⟨s, ⟨"left", s⟩, [.number s 1]⟩, ⟨s, ⟨"right", s⟩, [.number s 1]⟩,
        ⟨s, ⟨"width", s⟩, [.number s (15 / 2)]⟩]]⟩
    let strict : Config Rat := .standard
    let lenient : Config Rat := { strict with tolerance := 1 }
    let ws : List (WarningReport Rat) := [⟨"card", .edgesDisagree .horizontal (15 / 2) 8⟩]
    (∀ x y z : Rat, x ≤ y → y < z → x < z)
      ∧ lenient.direction = strict.direction ∧ lenient.logsWarnings = strict.logsWarnings
      ∧ strict.tolerance ≤ lenient.tolerance
      ∧ ∃ r r' : Report Rat, (card.run strict .ltr).result = .ok r
        ∧ (card.run lenient .ltr).result = .ok r' ∧ r'.nodes = r.nodes
        ∧ r'.warnings.Sublist r.warnings ∧ r.warnings = ws ∧ r'.warnings = [] := by
  intro s card strict lenient ws
  have hlt : ∀ x y z : Rat, x ≤ y → y < z → x < z := fun _ _ _ => lt_of_le_of_lt
  have hle : strict.tolerance ≤ lenient.tolerance := by decide +kernel
  have hruns := ((tolerance_only_silences hlt).2 strict lenient .ltr rfl rfl).1 card
  have hstrict : (card.run strict .ltr).result.toOption.map Report.warnings = some ws := by
    decide +kernel
  have hlenient : (card.run lenient .ltr).result.toOption.map Report.warnings = some [] := by
    decide +kernel
  generalize (card.run strict .ltr).result = x at hruns hstrict ⊢
  generalize (card.run lenient .ltr).result = y at hruns hlenient ⊢
  rcases hruns with e | ⟨hnodes, hwarnings⟩
  · cases hstrict
  · exact ⟨hlt, rfl, rfl, hle, _, _, rfl, rfl, hnodes, hwarnings hle, Option.some.inj hstrict,
      Option.some.inj hlenient⟩

end Pinning
