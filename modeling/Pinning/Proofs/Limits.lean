import Pinning.Proofs.Declarations
import Pinning.Proofs.Settling
import Pinning.Proofs.Stages

/-!
# Sizes stay within their limits

The limits of an axis apply last, the lower one after the upper, and both passes of a synthesis end
with them. So every committed size keeps them (`confines_synthesize`): where they cross, it is the
lower one.

No step makes a size negative. Views whose modifiers ask for no negative size make a tree without
any (`Script.sized_tree`), a session commits none where it finds none (`Session.zero_le_pass`), and
so no statement of a run brings one in (`Stage.sized_statement`).
-/

namespace Pinning

namespace Constraints

/-- The size keeps the limits of an axis. Where they cross, it is the lower one. -/
structure Confines (c : Constraints Rat) (a : Axis) (size : Rat) : Prop where
  lower : ∀ m ∈ c.value (.minSize a), m ≤ size
  upper : ∀ m ∈ c.value (.maxSize a), (∀ l ∈ c.value (.minSize a), l ≤ m) → size ≤ m
  crossed : ∀ l ∈ c.value (.minSize a), ∀ m ∈ c.value (.maxSize a), m < l → size = l

variable (c : Constraints Rat) (s : Subject Rat) (a : Axis)

theorem confines_clamp (size : Rat) : c.Confines a ((AxisProblem.of c s a).clamp size) := by
  rw [AxisProblem.clamp_eq]
  simp only [AxisProblem.of]
  constructor
  · intro l hl
    rw [Option.mem_def.1 hl, Option.elim_some]
    exact le_max_right _ _
  · intro m hm hcross
    rw [Option.mem_def.1 hm, Option.elim_some]
    cases hl : c.value (.minSize a) with
    | none => exact min_le_right _ _
    | some l => exact max_le (min_le_right _ _) (hcross l hl)
  · intro l hl m hm hlt
    rw [Option.mem_def.1 hl, Option.mem_def.1 hm, Option.elim_some, Option.elim_some]
    exact max_eq_right ((min_le_right _ _).trans hlt.le)

theorem size_solve (judgesSpanAlign : Bool) :
    (c.solve s judgesSpanAlign).frame.size.along a = (c.settled s a).length :=
  congrArg Extent.length (extent_solve c s judgesSpanAlign a)

theorem confines_solve (judgesSpanAlign : Bool) :
    c.Confines a ((c.solve s judgesSpanAlign).frame.size.along a) := by
  rw [size_solve]
  exact confines_clamp c s a _

/-- A synthesis ends with the limits, with pinned edges as without. -/
theorem confines_synthesize : c.Confines a ((c.synthesize s).frame.size.along a) := by
  by_cases hp : c.pinsEdges = true
  · simp only [synthesize, if_pos hp]
    -- Edges that are pinned keep the limits.
    obtain ⟨hlower, hupper, hcrossed⟩ :=
      confines_solve (c.pinnedTo (c.withoutMargins.solve s false).frame) s a true
    exact ⟨hlower, hupper, hcrossed⟩
  · simp only [synthesize, if_neg hp]
    exact confines_solve c s a true

variable {c s a}

theorem Admissible.pinnedTo (h : c.Admissible) (frame : Rect Rat) :
    (c.pinnedTo frame).Admissible := by
  intro slot v hv
  cases slot with
  | minSize | maxSize | marginLow | marginHigh => exact h _ v hv
  | line => exact ⟨rfl, trivial⟩
  | size | aspectRatio => cases hv

theorem zero_le_solve (hc : c.Admissible) (hcontent : ∀ size ∈ s.content, ∀ a, 0 ≤ size.along a)
    (hcurrent : 0 ≤ s.current.size.along a) (judgesSpanAlign : Bool) :
    0 ≤ (c.solve s judgesSpanAlign).frame.size.along a := by
  rw [size_solve]
  exact zero_le_length_settled hc hcontent hcurrent

theorem zero_le_synthesize (hc : c.Admissible)
    (hcontent : ∀ size ∈ s.content, ∀ a, 0 ≤ size.along a)
    (hcurrent : 0 ≤ s.current.size.along a) : 0 ≤ (c.synthesize s).frame.size.along a := by
  by_cases hp : c.pinsEdges = true
  · simp only [synthesize, if_pos hp]
    exact zero_le_solve (hc.pinnedTo _) hcontent hcurrent true
  · simp only [synthesize, if_neg hp]
    exact zero_le_solve hc hcontent hcurrent true

end Constraints

/-- Neither the frame nor the content of a node has a negative size. -/
structure Tree.SizedAt (t : Tree Rat) (n : NodeId) : Prop where
  frame (a : Axis) : 0 ≤ (t.frame n).size.along a
  content : ∀ size ∈ t.content n, ∀ a, 0 ≤ size.along a

/-- No size in the tree is negative. -/
def Tree.Sized (t : Tree Rat) : Prop := ∀ n, t.SizedAt n

theorem Tree.Sized.setFrame {t : Tree Rat} (h : t.Sized) {frame : Rect Rat}
    (hframe : ∀ a, 0 ≤ frame.size.along a) (id : NodeId) : (t.setFrame id frame).Sized := by
  intro n
  refine ⟨fun a => ?_, by simpa only [content_setFrame] using (h n).content⟩
  rcases eq_or_ne n id with rfl | hn
  · rcases Nat.lt_or_ge n t.size with hlt | hge
    · rw [frame_setFrame_self hlt]
      exact hframe a
    · rw [setFrame_eq_self hge]
      exact (h n).frame a
  · rw [frame_setFrame_of_ne hn]
    exact (h n).frame a

/-- A session on a node without negative sizes comes to none. -/
theorem Session.zero_le_pass {tree : Tree Rat} {node : NodeId} (h : tree.SizedAt node)
    (config : Config Rat) (d : Direction) (cs : List (Directive Rat)) (a : Axis) :
    0 ≤ (pass tree node config d cs).resolution.frame.size.along a := by
  have hc := pass_admissible (lt_irrefl (0 : Rat)) tree node config d cs
  rw [resolution, subject_pass]
  exact Constraints.zero_le_synthesize hc h.content (h.frame a)

/-- No statement brings in a negative size. -/
theorem Stage.sized_statement {config : Config Rat} {st : Statement Rat} {s s' : Stage Rat}
    (h : s.tree.Sized) (hst : s.statement config st = .ok s') : s'.tree.Sized := by
  rcases tree_of_statement hst with htree | ⟨_, _, _, node, ds, -, -, htree⟩
  · rwa [htree]
  · rw [htree]
    exact h.setFrame (Session.zero_le_pass (h node) config s.direction ds) node

namespace View

/-- The modifiers of a view give it no negative size, and none to its content. -/
def Sized (v : View Rat) : Prop :=
  ∀ frame content, measures v.modifiers .zero none = .ok (frame, content) →
    (∀ a, 0 ≤ frame.size.along a) ∧ ∀ size ∈ content, ∀ a, 0 ≤ size.along a

theorem zero_le_setAlong {size : Size Rat} {a : Axis} {v : Rat} (h : ∀ b, 0 ≤ size.along b)
    (hv : 0 ≤ v) (b : Axis) : 0 ≤ (size.setAlong a v).along b := by
  cases a <;> cases b
  · exact hv
  · exact h .vertical
  · exact h .horizontal
  · exact hv

theorem zero_le_measures : ∀ {ms : List (Modifier Rat)} {frame frame' : Rect Rat}
    {content content' : Option (Size Rat)},
    (∀ m ∈ ms, 0 ≤ m.value.value ∨ ∃ a, Modifier.Key.ofName? m.key.value = some (.origin a)) →
    (∀ a, 0 ≤ frame.size.along a) → (∀ size ∈ content, ∀ a, 0 ≤ size.along a) →
    measures ms frame content = .ok (frame', content') →
    (∀ a, 0 ≤ frame'.size.along a) ∧ ∀ size ∈ content', ∀ a, 0 ≤ size.along a
  | [], frame, _, content, _, _, hframe, hcontent, h => by
    cases h
    exact ⟨hframe, hcontent⟩
  | m :: ms, frame, _, content, _, hms, hframe, hcontent, h => by
    have hm := hms m List.mem_cons_self
    have hrest := fun m' hm' => hms m' (List.mem_cons_of_mem m hm')
    rw [measures] at h
    cases hk : Modifier.Key.ofName? m.key.value with
    | none =>
      rw [hk] at h
      cases h
    | some key =>
      rw [hk] at h
      simp only [hk, Option.some.injEq] at hm
      cases key with
      | origin a =>
        refine zero_le_measures hrest ?_ hcontent h
        exact hframe
      | size a =>
        have hv : 0 ≤ m.value.value := by simpa using hm
        refine zero_le_measures hrest ?_ hcontent h
        exact zero_le_setAlong hframe hv
      | content a =>
        have hv : 0 ≤ m.value.value := by simpa using hm
        have hold : ∀ b, 0 ≤ (content.getD .zero).along b := by
          cases content with
          | none => intro b; cases b <;> exact le_rfl
          | some size => exact hcontent size rfl
        refine zero_le_measures hrest hframe ?_ h
        intro size hsize
        cases hsize
        exact zero_le_setAlong hold hv

/-- It is enough that no modifier is negative but for those of the origin. -/
theorem sized_of_modifiers {v : View Rat} (h : ∀ m ∈ v.modifiers,
    0 ≤ m.value.value ∨ ∃ a, Modifier.Key.ofName? m.key.value = some (.origin a)) : v.Sized :=
  fun _ _ hm => zero_le_measures h (fun a => by cases a <;> exact le_rfl) (fun _ h => by cases h) hm

end View

/-- Views that ask for no negative size make a tree without any. -/
theorem Script.sized_tree {script : Script Rat} {tree : Tree Rat} (h : script.tree = .ok tree)
    (hsized : ∀ v ∈ script.allViews, v.Sized) : tree.Sized := by
  intro n
  rcases Nat.lt_or_ge n tree.size with hn | hn
  · obtain ⟨e, he⟩ := Tree.exists_entry hn
    obtain ⟨v, hv, -, hm⟩ := exists_view_of_entry h (List.mem_of_getElem? he)
    obtain ⟨hframe, hcontent⟩ := hsized v hv _ _ hm
    exact ⟨by rwa [Tree.frame_eq, he], by rwa [Tree.content_eq, he]⟩
  · -- A number that belongs to no node reads as an empty frame.
    have hnone : tree.node? n = none := Tree.node?_eq_none hn
    refine ⟨fun a => ?_, fun size hsize => ?_⟩
    · rw [Tree.frame, hnone]
      cases a <;> exact le_rfl
    · rw [Tree.content, hnone] at hsize
      cases hsize

/-- Sizes stay within their limits. Whatever a session takes in, the size that it commits keeps the
limits of the session along each axis, and is not negative if those that it starts from are not. So a
script whose views ask for no negative size comes to a report without any. -/
theorem Script.sizes_within_limits :
    (∀ (script : Script Rat) (config : Config Rat) (process : Direction) (r : Report Rat),
      (∀ v ∈ script.allViews, v.Sized) → (script.run config process).result = .ok r →
      ∀ n ∈ r.nodes, 0 ≤ n.frame.size.width ∧ 0 ≤ n.frame.size.height)
    ∧ ∀ (tree : Tree Rat) (node : NodeId) (config : Config Rat) (d : Direction)
        (cs : List (Directive Rat)), node < tree.size →
      let s := Session.pass tree node config d cs
      let size := (s.commit.tree.frame node).size
      (∀ a, s.constraints.Confines a (size.along a))
        ∧ (tree.SizedAt node → 0 ≤ size.width ∧ 0 ≤ size.height) := by
  constructor
  · intro script config process r hsized hr n hn
    obtain ⟨scene, s, hscene, rfl, -, hs⟩ := exists_of_run hr
    obtain ⟨⟨id, depth⟩, -, rfl⟩ := List.mem_map.1 hn
    have hnode := Stage.after_invariant (fun _ _ _ _ => Stage.sized_statement) hs
      (sized_tree (tree_of_scene hscene) hsized) id
    exact ⟨hnode.frame .horizontal, hnode.frame .vertical⟩
  · intro tree node config d cs hnode s size
    have hsize : size = s.resolution.frame.size := by
      simp only [size, s, Session.commit_tree_pass, Tree.frame_setFrame_self hnode]
    rw [hsize]
    refine ⟨fun a => Constraints.confines_synthesize _ _ a, fun h => ?_⟩
    have hpass := Session.zero_le_pass h config d cs
    exact ⟨hpass .horizontal, hpass .vertical⟩

/-- A card whose edges are the wrong way round and whose limits cross, and a badge sized after it. -/
theorem Script.crossed_card :
    let s : Span := ⟨0, 0⟩
    let modifier (key : String) (v : Rat) : Modifier Rat := ⟨s, ⟨key, s⟩, ⟨v, s⟩⟩
    let card : View Rat := ⟨s, ⟨"card", s⟩, [modifier "x" (-60), modifier "width" 40], []⟩
    let badge : View Rat := ⟨s, ⟨"badge", s⟩, [modifier "intrinsic_width" 12], []⟩
    let root : View Rat := ⟨s, ⟨"root", s⟩, [modifier "width" 200, modifier "height" 100],
      [card, badge]⟩
    let script : Script Rat := ⟨[.view root,
      .pin s ⟨"card", s⟩ [⟨s, ⟨"top", s⟩, [.number s 80]⟩, ⟨s, ⟨"bottom", s⟩, [.number s 50]⟩,
        ⟨s, ⟨"min_width", s⟩, [.number s 30]⟩, ⟨s, ⟨"max_width", s⟩, [.number s 20]⟩],
      .pin s ⟨"badge", s⟩ [⟨s, ⟨"height", s⟩, [.name s "card"]⟩, ⟨s, ⟨"width", s⟩, [.percent s (-5)]⟩,
        ⟨s, ⟨"pin_edges", s⟩, []⟩]]⟩
    let tree : Tree Rat := ((∅ : Tree Rat).addRoot "card" ⟨⟨0, 0⟩, ⟨40, 10⟩⟩).1
    let cs : List (Directive Rat) := [.set (.minSize .horizontal) (.points 30),
      .set (.maxSize .horizontal) (.points 20), .pinEdges]
    let session := Session.pass tree 0 .standard .ltr cs
    (∀ v ∈ script.allViews, v.Sized)
      ∧ (∃ r, (script.run .standard .ltr).result = .ok r
        ∧ ∀ n ∈ r.nodes, 0 ≤ n.frame.size.width ∧ 0 ≤ n.frame.size.height)
      ∧ tree.SizedAt 0 ∧ (session.commit.tree.frame 0).size.width = 30
      ∧ (∀ a, session.constraints.Confines a ((session.commit.tree.frame 0).size.along a))
      ∧ 0 ≤ (session.commit.tree.frame 0).size.height := by
  intro s modifier card badge root script tree cs session
  have hsized : ∀ v ∈ script.allViews, v.Sized := by
    intro v hv
    refine View.sized_of_modifiers ?_
    have hviews : script.allViews = [root, card, badge] := rfl
    simp only [hviews, List.mem_cons, List.not_mem_nil, or_false] at hv
    rcases hv with rfl | rfl | rfl
    · exact fun m hm => .inl (by revert m; decide +kernel)
    · intro m hm
      rcases List.mem_cons.1 hm with rfl | hrest
      · exact .inr ⟨.horizontal, rfl⟩
      · have hwidth : ∀ m ∈ [modifier "width" 40], 0 ≤ m.value.value := by decide +kernel
        exact .inl (hwidth m hrest)
    · exact fun m hm => .inl (by revert m; decide +kernel)
  have hok : (script.run .standard .ltr).result.toOption.isSome = true := by decide +kernel
  have htree : tree.SizedAt 0 := ⟨fun a => by cases a <;> decide +kernel, fun size hsize => by
    have hnone : tree.content 0 = none := rfl
    rw [hnone] at hsize
    cases hsize⟩
  have hwidth : (session.commit.tree.frame 0).size.width = 30 := by decide +kernel
  obtain ⟨hrun, hpass⟩ := sizes_within_limits
  obtain ⟨hconfines, hnonneg⟩ := hpass tree 0 .standard .ltr cs (by decide)
  refine ⟨hsized, ?_, htree, hwidth, hconfines, (hnonneg htree).2⟩
  cases hr : (script.run .standard .ltr).result with
  | error e => simp [hr, Except.toOption] at hok
  | ok r => exact ⟨r, rfl, hrun script .standard .ltr r hsized hr⟩

end Pinning
