import Pinning.Proofs.Reading
import Pinning.Proofs.Separation

/-!
# What is fixed does not depend on the past

Where a node stands is looked at along an axis only for want of a line or of a size. Constraints that
have both (`Constraints.Fixes`) come to the same extent there from any frame, in one pass or in two
(`Fixes.extent_synthesize_after`), and where they have both along either axis nothing that is worked
out or warned of depends on the frame (`synthesize_after_of_fixes`).

What earlier passes over a node leave behind is a frame (`Session.exists_passes_eq`). So a pass that
is fixed, and gathers the same from any frame, does not notice them.
-/

namespace Pinning

variable {α : Type}

namespace Constraints

/-- A line across the axis is set, and its size is determined. -/
def Fixes (c : Constraints α) (content : Option (Size α)) (a : Axis) : Prop :=
  c.Positions a ∧ c.Determines content a

instance (c : Constraints α) (content : Option (Size α)) (a : Axis) :
    Decidable (c.Fixes content a) :=
  inferInstanceAs (Decidable (_ ∧ _))

variable [Scalar α] {c : Constraints α} {s : Subject α} {a : Axis}

/-- Between pinned edges every axis is fixed. -/
theorem fixes_pinnedTo (frame : Rect α) (content : Option (Size α)) :
    (c.pinnedTo frame).Fixes content a :=
  ⟨.inl rfl, .inl (.inr (.inr (.inl ⟨rfl, rfl⟩)))⟩

theorem Fixes.settled_after (h : c.Fixes s.content a) (frame : Rect α) :
    c.settled (s.after frame) a = c.settled s a :=
  Constraints.settled_after c s h.1 h.2 frame

/-- An axis that is fixed comes out the same from any frame. -/
theorem Fixes.extent_synthesize_after (h : c.Fixes s.content a) (frame : Rect α) :
    (c.synthesize (s.after frame)).frame.extent a = (c.synthesize s).frame.extent a := by
  cases hp : c.pinsEdges with
  | false =>
    rw [extent_synthesize hp, extent_synthesize hp]
    exact h.settled_after frame
  | true =>
    let span := c.withoutMargins.solve s false
    let span' := c.withoutMargins.solve (s.after frame) false
    have hunmargined : c.withoutMargins.Fixes s.content a := h
    have hspan : span'.frame.extent a = span.frame.extent a := by
      rw [extent_solve, extent_solve]
      exact hunmargined.settled_after frame
    rw [extent_synthesize_pinned hp, extent_synthesize_pinned hp]
    calc (c.pinnedTo span'.frame).settled (s.after frame) a
        = (c.pinnedTo span'.frame).settled s a := (fixes_pinnedTo _ _).settled_after frame
      _ = (c.pinnedTo span.frame).settled s a := settled_pinnedTo_congr rfl hspan

/-- Where both axes are fixed the whole synthesis is. -/
theorem synthesize_after_of_fixes (h : ∀ a, c.Fixes s.content a) (frame : Rect α) :
    c.synthesize (s.after frame) = c.synthesize s := by
  cases hp : c.pinsEdges with
  | false =>
    have hdirect : c.solve (s.after frame) true = c.solve s true :=
      solve_after c s (fun a => (h a).settled_after frame) true
    simp only [synthesize, hp, hdirect]
    rfl
  | true =>
    have hspan : c.withoutMargins.solve (s.after frame) false = c.withoutMargins.solve s false := by
      refine solve_after _ s (fun a => ?_) false
      have hunmargined : c.withoutMargins.Fixes s.content a := h a
      exact hunmargined.settled_after frame
    have hpinned : ∀ span : Rect α,
        (c.pinnedTo span).solve (s.after frame) true = (c.pinnedTo span).solve s true :=
      fun span => solve_after _ s (fun _ => (fixes_pinnedTo span _).settled_after frame) true
    simp only [synthesize, hp, if_true, hspan, hpinned]
    rfl

end Constraints

namespace Session

variable [Scalar α]

/-- The tree after passes over a node, one after the other. -/
def passes (tree : Tree α) (node : NodeId) :
    List (Config α × Direction × List (Directive α)) → Tree α
  | [] => tree
  | (config, d, cs) :: more => passes (pass tree node config d cs).commit.tree node more

theorem exists_passes_eq (node : NodeId) :
    ∀ (earlier : List (Config α × Direction × List (Directive α))) (tree : Tree α),
      ∃ frame, passes tree node earlier = tree.setFrame node frame
  | [], tree => ⟨tree.frame node, (Tree.setFrame_frame node).symm⟩
  | (config, d, cs) :: more, tree => by
    obtain ⟨frame, hframe⟩ := exists_passes_eq node more (pass tree node config d cs).commit.tree
    refine ⟨frame, ?_⟩
    rw [passes, hframe, commit_tree_pass, Tree.setFrame_setFrame]

variable (tree : Tree α) (node : NodeId) (config : Config α) (d : Direction)
  (cs : List (Directive α))

theorem subject_pass_setFrame (frame : Rect α) :
    (pass (tree.setFrame node frame) node config d cs).subject
      = (pass tree node config d cs).subject.after ((tree.setFrame node frame).frame node) := by
  rw [subject_pass, subject_pass, Tree.content_setFrame]
  rfl

/-- A chain that refers neither to its node nor into it gathers the same whatever its frame is. -/
theorem constraints_pass_setFrame (hw : tree.WellFormed)
    (href : ∀ c ∈ cs, ∀ n ∈ c.references, n ≠ node ∧ node ∉ tree.ancestors n) (frame : Rect α) :
    (pass (tree.setFrame node frame) node config d cs).constraints
      = (pass tree node config d cs).constraints := by
  rw [pass_moved config d fun c hc => Site.alike_setFrame_self hw frame (href c hc)]
  rfl

/-- Along an axis with a line and a size, constraints come to the same origin and the same size from
whatever frame the node has, and if both axes are such, to the same frame with the same warnings. So
a pass like that, whose slots do not depend on the frame of its node, does not depend on what earlier
passes have done to the node. -/
theorem fixed_pass_forgets :
    (∀ (c : Constraints α) (s : Subject α) (frame : Rect α),
      (∀ a, c.Fixes s.content a →
        (c.synthesize (s.after frame)).frame.extent a = (c.synthesize s).frame.extent a)
      ∧ ((∀ a, c.Fixes s.content a) → c.synthesize (s.after frame) = c.synthesize s))
    ∧ ∀ (tree : Tree α) (node : NodeId) (config : Config α) (d : Direction)
        (cs : List (Directive α)),
      let s tree := pass tree node config d cs
      (∀ frame, (s (tree.setFrame node frame)).constraints = (s tree).constraints) →
      (∀ a, (s tree).constraints.Fixes (tree.content node) a) →
      ∀ earlier, (s (passes tree node earlier)).resolution.frame = (s tree).resolution.frame := by
  refine ⟨fun c s frame =>
    ⟨fun a h => h.extent_synthesize_after frame, fun h => c.synthesize_after_of_fixes h frame⟩, ?_⟩
  intro tree node config d cs s hslots hfixes earlier
  obtain ⟨frame, hframe⟩ := exists_passes_eq node earlier tree
  have hfixes' : ∀ a, (s tree).constraints.Fixes (s tree).subject.content a := by
    rwa [subject_pass]
  have hsynthesis : (s (tree.setFrame node frame)).constraints.synthesize
      (s (tree.setFrame node frame)).subject
        = (s tree).constraints.synthesize (s tree).subject := by
    rw [hslots, subject_pass_setFrame]
    exact Constraints.synthesize_after_of_fixes hfixes' _
  rw [hframe]
  exact congrArg Synthesis.frame hsynthesis

/-- A badge at the left edge of a card, as wide as its height makes it: it does not notice that it has
been stretched and moved before. Its height is fixed and its top is not, so along the horizontal axis
alone it comes out the same from anywhere. -/
theorem badge_forgets_earlier_passes :
    let tree : Tree Rat := ((∅ : Tree Rat).addRoot "root" ⟨⟨0, 0⟩, ⟨200, 100⟩⟩).1
    let tree := (tree.addChild 0 "card" ⟨⟨60, 10⟩, ⟨40, 30⟩⟩).1
    let tree := (tree.addChild 0 "badge" ⟨⟨5, 5⟩, ⟨20, 12⟩⟩).1
    let cs : List (Directive Rat) := [.sideTo .finish 1 .start, .lineTo .mid 1 .mid,
      .set (.margin .finish) (.points 4), .set (.size .vertical) (.percent 20), .aspectRatio 2,
      .pinEdges]
    let earlier : List (Config Rat × Direction × List (Directive Rat)) :=
      [(.standard, .rtl, [.set .all (.points 10)]),
        (.standard, .ltr, [.relative (.below (some .start)) [1], .sizeOf .vertical 0])]
    let s tree := pass tree 2 .standard .ltr cs
    let c := (s tree).constraints
    let c' := (pass tree 2 .standard .ltr (cs.eraseIdx 1)).constraints
    let placed (frame : Rect Rat) : Subject Rat := ⟨frame, tree.content 2, 1 / 1000⟩
    let here := placed ⟨⟨5, 5⟩, ⟨20, 12⟩⟩
    let elsewhere := placed ⟨⟨-3, 8⟩, ⟨0, 50⟩⟩
    (∀ frame, (s (tree.setFrame 2 frame)).constraints = c)
      ∧ (∀ a, c.Fixes (tree.content 2) a)
      ∧ (passes tree 2 earlier).frame 2 = ⟨⟨60, 40⟩, ⟨180, 100⟩⟩
      ∧ (s (passes tree 2 earlier)).resolution.frame = (s tree).resolution.frame
      ∧ (s tree).resolution.frame = ⟨⟨20, 15⟩, ⟨36, 20⟩⟩
      ∧ c.synthesize elsewhere = c.synthesize here
      ∧ c'.Fixes (tree.content 2) .horizontal
      ∧ (c'.synthesize elsewhere).frame.extent .horizontal
        = (c'.synthesize here).frame.extent .horizontal
      ∧ (c'.synthesize elsewhere).frame ≠ (c'.synthesize here).frame := by
  intro tree₀ tree₁ tree cs earlier s c c' placed here elsewhere
  have hb : tree.Built :=
    .addChild (.addChild (.addRoot .empty _ _) (by decide) _ _) (by decide) _ _
  have hslots : ∀ frame, (s (tree.setFrame 2 frame)).constraints = c :=
    constraints_pass_setFrame tree 2 .standard .ltr cs hb.wellFormed (by decide +kernel)
  have hfixes : ∀ a, c.Fixes (tree.content 2) a := fun a => by cases a <;> decide +kernel
  have hfixes' : c'.Fixes (tree.content 2) .horizontal := by decide +kernel
  obtain ⟨hsynthesis, hpass⟩ := fixed_pass_forgets (α := Rat)
  obtain ⟨-, hsame⟩ := hsynthesis c here elsewhere.current
  obtain ⟨halong, -⟩ := hsynthesis c' here elsewhere.current
  exact ⟨hslots, hfixes, by decide +kernel,
    hpass tree 2 .standard .ltr cs hslots hfixes earlier, by decide +kernel, hsame hfixes, hfixes',
    halong .horizontal hfixes', by decide +kernel⟩

end Session

end Pinning
