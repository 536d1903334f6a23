import Pinning.Proofs.Beside

/-!
# Anchors meet

Anchors and edges are laid onto those of another frame line by line: a directive that does so joins at
most one line across each axis (`Directive.joints`), all of them to the lines of one frame
(`Directive.mark`). Where the rest of a session is about sizes (`Directive.LeavesLines`), such a line is
the only one that is set across its axis, and no margin moves it. So the frame stands on it whatever
size it has come to (`Session.line_pass_of_joints`).

Both ends of a joint are read in the coordinates of the container, and as neither it nor what lies
around it is moved, they are in one place on the plane of the roots as well
(`Tree.frameIn_none_setFrame`).
-/

namespace Pinning

section Sizes

variable {α : Type}

/-- The slot is about where the frame stands. -/
def Slot.Stands : Slot → Prop
  | line _ _ | marginLow _ | marginHigh _ => True
  | _ => False

def Setter.LeavesLines : Setter → Prop
  | size _ | minSize _ | maxSize _ | square => True
  | _ => False

/-- The directive is about sizes, alignments or the reading direction: it sets no line and no margin
and pins no edges. -/
def Directive.LeavesLines : Directive α → Prop
  | set setter _ => setter.LeavesLines
  | sizes _ _ | sizeOf _ _ | sizesOf _ | aspectRatio _ | aspectRatioOf _ | aspectRatioOfContent
  | fitSize | justify _ | align _ | turn _ => True
  | _ => False

variable [Scalar α]

/-- What is written with finite values nowhere is not there. -/
theorem Effect.value_gatheredAll_of_refused {es : List (Effect α)} {slot : Slot}
    (h : ∀ v, write slot v ∈ es → ¬Scalar.isFinite v) : (gatheredAll es).value slot = none := by
  rw [gatheredAll, Constraints.value_overlayAll, List.findSome?_eq_none_iff]
  intro c hc
  obtain ⟨e, he, rfl⟩ := List.mem_map.1 (List.mem_reverse.1 hc)
  cases e with
  | write slot' v =>
    simp only [gathered]
    split_ifs with hv
    · refine Constraints.value_set_of_ne ?_
      rintro rfl
      exact h v he hv
    · rfl
  | _ => rfl

/-- What is not written is not there. -/
theorem Effect.value_gatheredAll_eq_none {es : List (Effect α)} {slot : Slot}
    (h : ∀ v, write slot v ∉ es) : (gatheredAll es).value slot = none :=
  value_gatheredAll_of_refused fun v hv => absurd hv (h v)

namespace Directive

variable {s : Site α} {d : Direction} {slot slot' : Slot} {v : α}

theorem not_mem_measuring (name : String) (x : Length α) :
    Effect.write slot v ∉ measuring name x := by
  cases x with
  | points => exact List.not_mem_nil
  | percent p =>
    simp only [measuring]
    split_ifs <;> simp

theorem eq_of_mem_writeSize {x : α} (h : .write slot v ∈ writeSize slot' x) : slot = slot' := by
  simp only [writeSize] at h
  split_ifs at h <;> simp at h <;> exact h.1

theorem eq_of_mem_setSize {a : Axis} {x : Length α} (h : .write slot v ∈ setSize s slot' a x) :
    slot = slot' := by
  simp only [setSize, List.mem_append, not_mem_measuring, false_or] at h
  exact eq_of_mem_writeSize h

theorem eq_of_mem_setRatio {r : α} (h : .write slot v ∈ setRatio r) : slot = .aspectRatio := by
  simp only [setRatio] at h
  split_ifs at h <;> simp at h
  exact h.1

theorem not_stands_of_mem_setLength {setter : Setter} (hset : setter.LeavesLines) {x : Length α}
    (h : .write slot v ∈ setLength s d x setter) : ¬ slot.Stands := by
  cases setter with
  | size a | minSize a | maxSize a =>
    rw [eq_of_mem_setSize h]
    exact not_false
  | square =>
    simp only [setLength, List.mem_append, not_mem_measuring, false_or] at h
    rcases h with h | h <;> rw [eq_of_mem_writeSize h] <;> exact not_false
  | _ => exact hset.elim

/-- A directive about sizes writes to none of the slots that say where the frame stands. -/
theorem LeavesLines.not_stands {c : Directive α} (hc : c.LeavesLines)
    (h : .write slot v ∈ c.effects s d) : ¬ slot.Stands := by
  have hsize : ∀ (a : Axis) (x : Length α), .write slot v ∈ setLength s d x (.size a) →
      ¬ slot.Stands := fun a x h => by
    have hset : (Setter.size a).LeavesLines := trivial
    exact not_stands_of_mem_setLength hset h
  have hratio : ∀ r : α, Effect.write slot v ∈ setRatio r → ¬ slot.Stands := fun r h => by
    rw [eq_of_mem_setRatio h]
    exact not_false
  cases c with
  | set setter x => exact not_stands_of_mem_setLength hc h
  | sizes w x =>
    rcases List.mem_append.1 h with h | h
    · exact hsize _ _ h
    · exact hsize _ _ h
  | sizeOf a node => exact hsize a _ h
  | sizesOf node =>
    obtain ⟨a, -, h⟩ := List.mem_flatMap.1 h
    exact hsize a _ h
  | aspectRatio r => exact hratio r h
  | aspectRatioOf node =>
    simp only [effects] at h
    split at h
    · exact hratio _ h
    · simp at h
  | aspectRatioOfContent =>
    simp only [effects] at h
    split at h
    · exact hratio _ h
    · simp at h
  | fitSize | justify | align | turn => simp [effects] at h
  | _ => exact hc.elim

theorem LeavesLines.value_gathered {c : Directive α} (hc : c.LeavesLines) (hslot : slot.Stands) :
    (c.gathered s d).value slot = none :=
  Effect.value_gatheredAll_eq_none fun _ h => hc.not_stands h hslot

end Directive

end Sizes

/-- The two lines of an anchor, each with the line of another anchor that it goes onto. -/
def Anchor.joints (own target : Anchor) (d : Direction) : List Relation.Place :=
  [⟨.horizontal, own.horizontal.line d, target.horizontal.line d⟩,
    ⟨.vertical, own.vertical, target.vertical⟩]

namespace Directive

/-- The lines of the node that a directive lays onto lines of one other frame. -/
def joints (d : Direction) : Directive Rat → List Relation.Place
  | sideTo own _ target => [⟨.horizontal, own.line d, target.line d⟩]
  | lineTo own _ target => [⟨.vertical, own, target⟩]
  | anchorTo own _ target => own.joints target d
  | anchor own => own.joints own d
  | _ => []

/-- The frame that the lines are laid onto: that of a node, or the container itself. -/
def mark (site : Site Rat) : Directive Rat → Rect Rat
  | sideTo _ n _ | lineTo _ n _ | anchorTo _ n _ => site.frameOf n
  | _ => ⟨.zero, site.containerSize⟩

variable {site : Site Rat} {d : Direction} {c : Directive Rat} {p : Relation.Place}

theorem joints_pairwise (c : Directive Rat) :
    (c.joints d).Pairwise fun p q => p.axis ≠ q.axis := by
  cases c <;> simp [joints, Anchor.joints]

theorem gathered_of_mem_joints (hp : p ∈ c.joints d) : c.gathered site d
    = Effect.gatheredAll ((c.joints d).map (Relation.Place.effect (c.mark site))) := by
  cases c with
  | sideTo | lineTo | anchorTo => rfl
  | anchor own => exact Constraints.empty_overlay _
  | _ => cases hp

/-- A line that is joined is the only one that is set across its axis. -/
theorem value_gathered_joint (hp : p ∈ c.joints d) (l : Line) :
    (c.gathered site d).value (.line p.axis l)
      = if l = p.own then some ((c.mark site).line p.axis p.group) else none := by
  rw [gathered_of_mem_joints hp, Relation.Place.value_gatheredAll l c.joints_pairwise hp]

theorem value_gathered_of_ne_line (hp : p ∈ c.joints d) {slot : Slot} (hslot : ∀ a l, slot ≠ .line a l) :
    (c.gathered site d).value slot = none := by
  rw [gathered_of_mem_joints hp]
  refine Effect.value_gatheredAll_eq_none fun v h => ?_
  obtain ⟨q, -, hq⟩ := List.mem_map.1 h
  simp only [Relation.Place.effect, Effect.write.injEq] at hq
  exact hslot _ _ hq.1.symm

end Directive

namespace Constraints

/-- Without margins a line goes where it is set. -/
theorem inward_of_unset {c : Constraints Rat} {a : Axis} (hlow : c.value (.marginLow a) = none)
    (hhigh : c.value (.marginHigh a) = none) (l : Line) (v : Rat) : c.inward a l v = v := by
  cases l <;> simp only [inward, hlow, hhigh, Option.getD_none, add_zero, sub_zero]

end Constraints

theorem Rect.line_translate (r : Rect Rat) (offset : Point Rat) (a : Axis) (l : Line) :
    (r.translate offset).line a l = r.line a l + offset.along a := by
  cases a <;> cases l <;>
    simp only [line, Extent.line, translate, extent, Point.add_eq, Point.along] <;> ring

theorem Anchor.point_translate (own : Anchor) (d : Direction) (r : Rect Rat) (offset : Point Rat) :
    own.point d (r.translate offset) = own.point d r + offset :=
  Point.ext (r.line_translate offset .horizontal _) (r.line_translate offset .vertical _)

/-- A node that is given another frame stands in the same space as before. -/
theorem Tree.frameIn_none_setFrame {t : Tree Rat} (hw : t.WellFormed) {n : NodeId}
    (hn : n < t.size) (frame : Rect Rat) : (t.setFrame n frame).frameIn n none
      = frame.translate (t.spaceOrigin (t.parent? n) - t.spaceOrigin none) := by
  have hshape : t.SameShape (t.setFrame n frame) := sameShape_setFrame n frame
  have hspace : (t.setFrame n frame).spaceOrigin (t.parent? n) = t.spaceOrigin (t.parent? n) := by
    cases hp : t.parent? n with
    | none => rfl
    | some p =>
      refine hshape.absoluteOrigin fun m hm => ?_
      rw [← hw.ancestors_of_parent hp] at hm
      rw [frame_setFrame_of_ne]
      rintro rfl
      exact hw.not_mem_ancestors_self m hm
  rw [frameIn, hshape.parent?, hspace, frame_setFrame_self hn]
  rfl

namespace Session

open Directive (inForce turnedBy)

variable (tree : Tree Rat) (node : NodeId) (config : Config Rat) (d : Direction)
  {before after : List (Directive Rat)} {c : Directive Rat}

/-- In a session that is otherwise about sizes, a line is where it is joined to. -/
theorem line_pass_of_joints (hothers : ∀ c' ∈ before ++ after, c'.LeavesLines)
    {p : Relation.Place} (hp : p ∈ c.joints (turnedBy d before)) :
    (pass tree node config d (before ++ c :: after)).resolution.frame.line p.axis p.own
      = (c.mark ⟨tree, node⟩).line p.axis p.group := by
  have hturn : ∀ d', c ≠ .turn d' := by
    rintro d' rfl
    cases hp
  have hunpinned : (pass tree node config d (before ++ c :: after)).constraints.pinsEdges = false := by
    rw [Bool.eq_false_iff, Ne, pinsEdges_pass]
    intro hpin
    rcases List.mem_append.1 hpin with hmem | hmem
    · exact hothers _ (List.mem_append_left _ hmem)
    · rcases List.mem_cons.1 hmem with rfl | hmem
      · cases hp
      · exact hothers _ (List.mem_append_right _ hmem)
  -- The others leave all that says where the frame stands to the one call.
  have hvalue : ∀ slot : Slot, slot.Stands →
      (pass tree node config d (before ++ c :: after)).constraints.value slot
        = (c.gathered ⟨tree, node⟩ (turnedBy d before)).value slot := by
    intro slot hslot
    rw [← alone_eq tree node config]
    refine value_pass_of_others _ _ _ _ _ _ hturn fun x hx => ?_
    have hmem : x.2 ∈ before ++ after := by
      have hsnd := List.mem_map_of_mem (f := Prod.snd) hx
      rwa [List.map_append, Directive.map_snd_inForce, Directive.map_snd_inForce] at hsnd
    rw [alone_eq]
    exact (hothers _ hmem).value_gathered hslot
  have hline : ∀ l, (pass tree node config d (before ++ c :: after)).constraints.value
      (.line p.axis l) = if l = p.own then some ((c.mark ⟨tree, node⟩).line p.axis p.group)
        else none :=
    fun l => (hvalue (.line p.axis l) trivial).trans (Directive.value_gathered_joint hp l)
  have hmargin : ∀ slot : Slot, slot.Stands → (∀ a l, slot ≠ .line a l) →
      (pass tree node config d (before ++ c :: after)).constraints.value slot = none :=
    fun slot hslot hne => (hvalue slot hslot).trans (Directive.value_gathered_of_ne_line hp hne)
  refine (Constraints.line_synthesize hunpinned p.own).trans ?_
  rw [Constraints.line_settled_of_alone ((hline p.own).trans (if_pos rfl))
    fun l hl => (hline l).trans (if_neg hl)]
  exact Constraints.inward_of_unset (hmargin (.marginLow p.axis) trivial nofun)
    (hmargin (.marginHigh p.axis) trivial nofun) _ _

/-- Where both lines of an anchor are joined, the two anchors are one point. -/
theorem point_pass_of_joints (hothers : ∀ c' ∈ before ++ after, c'.LeavesLines) {own target : Anchor}
    (hjoints : c.joints (turnedBy d before) = own.joints target (turnedBy d before)) :
    own.point (turnedBy d before) (pass tree node config d (before ++ c :: after)).resolution.frame
      = target.point (turnedBy d before) (c.mark ⟨tree, node⟩) := by
  have hline : ∀ p ∈ own.joints target (turnedBy d before),
      (pass tree node config d (before ++ c :: after)).resolution.frame.line p.axis p.own
        = (c.mark ⟨tree, node⟩).line p.axis p.group :=
    fun p hp => line_pass_of_joints tree node config d hothers (hjoints ▸ hp)
  simp only [Anchor.joints, List.forall_mem_cons] at hline
  exact Point.ext hline.1 hline.2.1

/-- In a session that is otherwise about sizes, an anchor of the node comes to stand on the anchor
that it is laid onto as that stood when the call was made, and an edge on such an edge, whatever size
the node comes to have: in the coordinates of the container, and for anchors in the plane of the roots
as well. -/
theorem anchors_meet (hb : tree.Built) (hnode : node < tree.size)
    (hothers : ∀ c ∈ before ++ after, c.LeavesLines) :
    let d' := turnedBy d before
    let container := tree.parent? node
    let left c := (pass tree node config d (before ++ c :: after)).commit.tree
    (∀ (own : Anchor) n target,
      own.point d' ((left (.anchorTo own n target)).frame node)
          = target.point d' (tree.frameIn n container)
        ∧ own.point d' ((left (.anchorTo own n target)).frameIn node none)
          = target.point d' (tree.frameIn n none))
    ∧ (∀ own : Anchor, own.point d' ((left (.anchor own)).frame node)
        = own.point d' ⟨.zero, Site.containerSize ⟨tree, node⟩⟩)
    ∧ (∀ (own : Side) n target,
      ((left (.sideTo own n target)).frame node).line .horizontal (own.line d')
        = (tree.frameIn n container).line .horizontal (target.line d'))
    ∧ ∀ (own : Line) n target,
      ((left (.lineTo own n target)).frame node).line .vertical own
        = (tree.frameIn n container).line .vertical target := by
  intro d' container left
  have hleft : ∀ c, left c = tree.setFrame node
      (pass tree node config d (before ++ c :: after)).resolution.frame :=
    fun c => commit_tree_pass tree node config d _
  have hframe : ∀ c, (left c).frame node
      = (pass tree node config d (before ++ c :: after)).resolution.frame := fun c => by
    rw [hleft, Tree.frame_setFrame_self hnode]
  have hplane : ∀ c, (left c).frameIn node none = ((left c).frame node).translate
      (tree.spaceOrigin container - tree.spaceOrigin none) := fun c => by
    rw [hframe, hleft, Tree.frameIn_none_setFrame hb.wellFormed hnode]
  refine ⟨fun own n target => ?_, fun own => ?_, fun own n target => ?_, fun own n target => ?_⟩
  · have hmeet : own.point d' ((left (.anchorTo own n target)).frame node)
        = target.point d' (tree.frameIn n container) := by
      rw [hframe]
      exact point_pass_of_joints tree node config d hothers rfl
    refine ⟨hmeet, ?_⟩
    rw [hplane, Anchor.point_translate, hmeet, ← Anchor.point_translate,
      ← Tree.frameIn_eq_translate]
  · rw [hframe]
    exact point_pass_of_joints tree node config d hothers rfl
  · rw [hframe]
    have hjoint : ⟨.horizontal, own.line d', target.line d'⟩
        ∈ (Directive.sideTo own n target).joints d' := List.mem_singleton_self _
    exact line_pass_of_joints tree node config d hothers hjoint
  · rw [hframe]
    have hjoint : ⟨.vertical, own, target⟩ ∈ (Directive.lineTo own n target).joints d' :=
      List.mem_singleton_self _
    exact line_pass_of_joints tree node config d hothers hjoint

/-- A badge is given a width, a ratio and a height that is less than the ratio asks for, and its
starting corner is laid onto a dot in another container: in the reading direction of the call the two
points are one, on the plane of the roots. -/
theorem badge_meets_dot :
    let tree : Tree Rat := ((∅ : Tree Rat).addRoot "root" ⟨⟨10, 0⟩, ⟨200, 100⟩⟩).1
    let tree := (tree.addChild 0 "card" ⟨⟨60, 10⟩, ⟨80, 30⟩⟩).1
    let tree := (tree.addChild 1 "badge" ⟨⟨1, 1⟩, ⟨4, 4⟩⟩).1
    let tree := (tree.addChild 0 "panel" ⟨⟨5, 40⟩, ⟨50, 50⟩⟩).1
    let tree := (tree.addChild 3 "dot" ⟨⟨7, 8⟩, ⟨10, 6⟩⟩).1
    let before : List (Directive Rat) :=
      [.turn .rtl, .aspectRatio 2, .set (.maxSize .vertical) (.points 3)]
    let after : List (Directive Rat) :=
      [.set (.size .horizontal) (.percent 10), .justify .start, .turn .ltr]
    let own : Anchor := ⟨.high, .start⟩
    let target : Anchor := ⟨.mid, .finish⟩
    let left c := (pass tree 2 .standard .ltr (before ++ c :: after)).commit.tree
    (∀ c ∈ before ++ after, c.LeavesLines)
      ∧ own.point .rtl ((left (.anchorTo own 4 target)).frameIn 2 none)
        = target.point .rtl (tree.frameIn 4 none)
      ∧ target.point .rtl (tree.frameIn 4 none) = ⟨22, 51⟩
      ∧ (left (.anchorTo own 4 target)).frame 2 = ⟨⟨-56, 38⟩, ⟨8, 3⟩⟩
      ∧ own.point .rtl ((left (.anchor own)).frame 2) = ⟨80, 30⟩ := by
  intro tree₀ tree₁ tree₂ tree₃ tree before after own target left
  have hb : tree.Built := .addChild (.addChild (.addChild (.addChild (.addRoot .empty _ _)
    (by decide) _ _) (by decide) _ _) (by decide) _ _) (by decide) _ _
  have hothers : ∀ c ∈ before ++ after, c.LeavesLines := by
    simp only [before, after, List.cons_append, List.nil_append, List.forall_mem_cons,
      Directive.LeavesLines, Setter.LeavesLines, and_self, List.not_mem_nil, false_implies,
      implies_true]
  obtain ⟨hanchor, hcontainer, -⟩ :=
    anchors_meet tree 2 .standard .ltr hb (by decide) hothers
  exact ⟨hothers, (hanchor own 4 target).2, by decide +kernel, by decide +kernel,
    (hcontainer own).trans (by decide +kernel)⟩

end Session

end Pinning
