import Pinning.Proofs.Reading
import Pinning.Proofs.Standing

/-!
# A second pass changes nothing

A session that follows another one on the same node gathers the same (`pass_moved`) but starts from
another frame. Without pinned edges each axis settles where it has settled. With them the frame is
first worked out without margins, and the margins would shrink it once more in every pass; that
comes to the same again where an axis has no margins (`settled_pinnedTo`) or leaves nothing open
(`settled_after`). So in both cases the frame is a fixed point (`synthesize_after`), and a second
pass leaves everything as the first one left it (`pass_idempotent`).
-/

namespace Pinning

namespace Constraints

/-- No margin shrinks anything along the axis. -/
def Unmargined (c : Constraints Rat) (a : Axis) : Prop :=
  (c.value (.marginLow a)).getD 0 = 0 ∧ (c.value (.marginHigh a)).getD 0 = 0

instance (c : Constraints Rat) (a : Axis) : Decidable (c.Unmargined a) :=
  inferInstanceAs (Decidable (_ ∧ _))

/-- What a second pass with pinned edges needs: sizes that are not negative to begin with, and
nothing left open along an axis that has a margin. -/
structure Repeatable (c : Constraints Rat) (s : Subject Rat) : Prop where
  current (a : Axis) : 0 ≤ s.current.size.along a
  content : ∀ size ∈ s.content, ∀ a, 0 ≤ size.along a
  axis (a : Axis) : c.Unmargined a ∨ c.Positions a ∧ c.Determines s.content a

variable {c : Constraints Rat} {s : Subject Rat}

/-- Edges that are pinned leave nothing open. -/
theorem settled_pinnedTo_after (frame frame' : Rect Rat) (a : Axis) :
    (c.pinnedTo frame).settled (s.after frame') a = (c.pinnedTo frame).settled s a :=
  settled_after _ _ (.inl rfl) (.inl (.inr (.inr (.inl ⟨rfl, rfl⟩)))) frame'

/-- Without margins the span between the edges of a frame is its own extent. -/
theorem span_of_unmargined {a : Axis} (h : c.Unmargined a) (frame : Rect Rat) :
    c.span a (frame.line a .low) (frame.line a .high) = frame.extent a := by
  simp only [span, inward, h.1, h.2, Rect.line, Extent.line, add_zero, sub_zero,
    add_sub_cancel_left]

/-- Without margins an extent fits between its own edges, however it is aligned there. -/
theorem settled_pinnedTo {frame : Rect Rat} {a : Axis} (hm : c.Unmargined a)
    (hlength : 0 ≤ (frame.extent a).length)
    (hclamp : (AxisProblem.of c s a).clamp (frame.extent a).length = (frame.extent a).length) :
    (c.pinnedTo frame).settled s a = frame.extent a := by
  rw [← span_of_unmargined hm frame] at hlength hclamp ⊢
  exact settled_pinnedTo_eq_span hlength hclamp

/-- The frame without margins, which the pinned edges are taken from, comes out again from the
frame that they lead to. -/
theorem settled_span_after (hc : c.Admissible) (h : c.Repeatable s) (a : Axis) :
    let span := c.withoutMargins.solve s false
    let pinned := (c.pinnedTo span.frame).solve s true
    c.withoutMargins.settled (s.after pinned.frame) a = c.withoutMargins.settled s a := by
  intro span pinned
  rcases h.axis a with hm | ⟨hpos, hd⟩
  · have hextent : span.frame.extent a = c.withoutMargins.settled s a := extent_solve _ _ _ a
    have hlength : 0 ≤ (span.frame.extent a).length := by
      rw [hextent]
      exact zero_le_length_settled hc.withoutMargins h.content (h.current a)
    have hclamp : (AxisProblem.of c s a).clamp (span.frame.extent a).length
        = (span.frame.extent a).length := by
      rw [hextent]
      exact AxisProblem.clamp_clamp _ _
    refine settled_after_settled ?_
    rw [extent_solve, settled_pinnedTo hm hlength hclamp, hextent]
  · exact settled_after c.withoutMargins s hpos hd _

/-- The frame of a pass is its own frame in the next. -/
theorem synthesize_after (hc : c.Admissible) (hpin : c.pinsEdges = true → c.Repeatable s) :
    c.synthesize (s.after (c.synthesize s).frame) = c.synthesize s := by
  by_cases hp : c.pinsEdges = true
  · -- The margin-less frame comes out as before, and its edges leave nothing open.
    let span := c.withoutMargins.solve s false
    let pinned := (c.pinnedTo span.frame).solve s true
    have hframe : (c.synthesize s).frame = pinned.frame := by simp only [synthesize, if_pos hp]; rfl
    have hspan : c.withoutMargins.solve (s.after pinned.frame) false = span :=
      solve_after _ _ (settled_span_after hc (hpin hp)) _
    have hpinned : (c.pinnedTo span.frame).solve (s.after pinned.frame) true = pinned :=
      solve_after _ _ (settled_pinnedTo_after _ _) _
    rw [hframe]
    simp only [synthesize, if_pos hp, hspan, hpinned]
    rfl
  · have hframe : (c.synthesize s).frame = (c.solve s true).frame := by
      simp only [synthesize, if_neg hp]
    have hdirect : c.solve (s.after (c.solve s true).frame) true = c.solve s true :=
      solve_after _ _ (fun a => settled_after_settled (extent_solve _ _ _ a)) _
    rw [hframe]
    simp only [synthesize, if_neg hp, hdirect]
    rfl

end Constraints

namespace Session

variable {tree : Tree Rat} (node : NodeId) (config : Config Rat) (d : Direction)
  {cs : List (Directive Rat)}

/-- A second pass gathers what the first has gathered. -/
theorem pass_commit (hw : tree.WellFormed)
    (href : ∀ c ∈ cs, ∀ n ∈ c.references, n ≠ node ∧ node ∉ tree.ancestors n) :
    let first := pass tree node config d cs
    pass first.commit.tree node config d cs = first.moved ⟨first.commit.tree, node⟩ := by
  intro first
  simp only [first, commit_tree_pass]
  exact pass_moved config d fun c hc => Site.alike_setFrame_self hw _ (href c hc)

/-- A second pass begins where the first has put the node. -/
theorem subject_moved_commit (hnode : node < tree.size) :
    let first := pass tree node config d cs
    (first.moved ⟨first.commit.tree, node⟩).subject
      = first.subject.after first.resolution.frame := by
  intro first
  have hcurrent : first.commit.tree.frame node = first.resolution.frame := by
    rw [commit_tree_pass]
    exact Tree.frame_setFrame_self hnode _
  have hcontent : first.commit.tree.content node = tree.content node := by
    rw [commit_tree_pass]
    exact Tree.content_setFrame _ _ _
  simp only [subject, moved, Subject.after, hcurrent, hcontent, first, pass_site]

/-- A second pass over a node, right after the first is applied, comes to the same frame with the
same warnings and leaves the tree alone. With pinned edges the constraints have to be repeatable. -/
theorem pass_idempotent (hb : tree.Built)
    (href : ∀ c ∈ cs, ∀ n ∈ c.references, n ≠ node ∧ node ∉ tree.ancestors n)
    (hpin : .pinEdges ∈ cs → (pass tree node config d cs).constraints.Repeatable
      (pass tree node config d cs).subject) :
    let first := pass tree node config d cs
    let second := pass first.commit.tree node config d cs
    second.resolution = first.resolution ∧ second.commit.tree = first.commit.tree := by
  intro first second
  have htree : first.commit.tree = tree.setFrame node first.resolution.frame :=
    commit_tree_pass _ _ _ _ _
  rcases Nat.lt_or_ge node tree.size with hnode | hnode
  · have hmoved : second = first.moved ⟨first.commit.tree, node⟩ :=
      pass_commit node config d hb.wellFormed href
    have hsubject : second.subject = first.subject.after first.resolution.frame := by
      rw [hmoved]
      exact subject_moved_commit node config d hnode
    have hsyn : second.constraints.synthesize second.subject
        = first.constraints.synthesize first.subject := by
      rw [hsubject, hmoved]
      refine Constraints.synthesize_after (pass_admissible (lt_irrefl 0) tree node config d cs) ?_
      intro hp
      exact hpin ((pinsEdges_pass tree node config d cs).1 hp)
    have hres : second.resolution = first.resolution := by
      simp only [resolution, hsyn]
      rw [hmoved]
      rfl
    have htree' : second.commit.tree = first.commit.tree.setFrame node second.resolution.frame :=
      commit_tree_pass _ _ _ _ _
    refine ⟨hres, ?_⟩
    rw [htree', hres, htree, Tree.setFrame_setFrame]
  · -- A number that belongs to no node has nothing to be written to.
    have hsame : first.commit.tree = tree := htree.trans (Tree.setFrame_eq_self hnode _)
    simp only [second, hsame]
    exact ⟨rfl, hsame⟩

/-- A card that a margin keeps off its badge moves no further in a second pass. -/
theorem card_stays_beside_badge :
    let tree : Tree Rat := ((∅ : Tree Rat).addRoot "root" ⟨⟨0, 0⟩, ⟨200, 100⟩⟩).1
    let tree := (tree.addChild 0 "card" ⟨⟨5, 5⟩, ⟨40, 30⟩⟩).1
    let tree := (tree.addChild 0 "badge" ⟨⟨90, 10⟩, ⟨20, 20⟩⟩).1
    let cs : List (Directive Rat) := [.sideTo .start 2 .finish, .lineTo .mid 2 .mid,
      .set (.margin .start) (.points 4), .set (.size .horizontal) (.percent 10), .pinEdges]
    let first := pass tree 1 .standard .rtl cs
    let second := pass first.commit.tree 1 .standard .rtl cs
    first.constraints.Repeatable first.subject
      ∧ second.resolution = first.resolution ∧ second.commit.tree = first.commit.tree := by
  intro tree₀ tree₁ tree cs first second
  have hb : tree.Built :=
    .addChild (.addChild (.addRoot .empty _ _) (by decide) _ _) (by decide) _ _
  have hrep : first.constraints.Repeatable first.subject := by
    refine ⟨?_, ?_, ?_⟩
    · intro a
      cases a <;> decide +kernel
    · have hcontent : first.subject.content = none := by decide +kernel
      simp [hcontent]
    · intro a
      cases a <;> decide +kernel
  exact ⟨hrep, pass_idempotent 1 .standard .rtl hb (by decide +kernel) fun _ => hrep⟩

end Session

end Pinning
