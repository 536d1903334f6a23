import Pinning.Proofs.Absolute
import Pinning.Proofs.Coordinates
import Pinning.Proofs.Mirroring
import Pinning.Proofs.Reading

/-!
# Right to left mirrors left to right

In the mirror of a tree every frame but the roots' stands mirrored in its parent. Seen from any
container, all frames are then mirrored in that (`frameIn_mirrored`), as long as there is one root
for everything to be mirrored with. A directive that reverses names no left or right: what it
gathers from the left in the mirrored tree is the mirror of what it gathers from the right in the
tree (`gathered_mirrored`). So a chain of them comes to mirrored constraints, and where those are
impartial to the mirrored frame (`rtl_mirrors_ltr`).
-/

namespace Pinning

namespace Tree

variable (t : Tree Rat)

/-- The tree in which every frame stands mirrored in its parent. -/
def mirrored : Tree Rat where
  nodes := t.nodes.map fun n =>
    { n with frame := n.parent.elim n.frame fun p => n.frame.mirrored (t.frame p).size.width }
  byName := t.byName
  byName_eq := by
    rw [t.byName_eq, Node.index_map]
    exact fun _ => rfl

/-- All nodes are of one tree. -/
def HasOneRoot : Prop := ∃ r, ∀ n < t.size, t.parent? n = none → n = r

variable {t}

theorem node?_mirrored (n : NodeId) : t.mirrored.node? n = (t.node? n).map fun x =>
    { x with frame := x.parent.elim x.frame fun p => x.frame.mirrored (t.frame p).size.width } :=
  Array.getElem?_map

theorem sameShape_mirrored : t.SameShape t.mirrored := by
  refine ⟨Array.size_map, fun n => ?_, fun n => ?_, fun n => ?_⟩
  · rw [Tree.parent?, Tree.parent?, node?_mirrored]
    cases t.node? n <;> rfl
  · rw [Tree.children, Tree.children, node?_mirrored]
    cases t.node? n <;> rfl
  · rw [Tree.name, Tree.name, node?_mirrored]
    cases t.node? n <;> rfl

theorem content_mirrored (n : NodeId) : t.mirrored.content n = t.content n := by
  rw [Tree.content, Tree.content, node?_mirrored]
  cases t.node? n <;> rfl

theorem frame_mirrored (n : NodeId) : t.mirrored.frame n
    = (t.parent? n).elim (t.frame n) fun p => (t.frame n).mirrored (t.frame p).size.width := by
  rw [Tree.frame, node?_mirrored, Tree.parent?]
  cases h : t.node? n with
  | none =>
    have hframe : t.frame n = .zero := by rw [Tree.frame, h]; rfl
    rw [hframe]
    rfl
  | some x =>
    have hframe : t.frame n = x.frame := by rw [Tree.frame, h]; rfl
    rw [hframe]
    rfl

theorem size_frame_mirrored (n : NodeId) : (t.mirrored.frame n).size = (t.frame n).size := by
  rw [frame_mirrored]
  cases t.parent? n <;> rfl

/-- A node and its mirror image lie as far from the two sides of the root. -/
theorem absoluteOrigin_mirrored (hw : t.WellFormed) {r : NodeId}
    (hr : ∀ n < t.size, t.parent? n = none → n = r) (n : NodeId) (hn : n < t.size) :
    t.mirrored.absoluteOrigin n = ⟨2 * (t.frame r).origin.x + (t.frame r).size.width
      - (t.absoluteOrigin n).x - (t.frame n).size.width, (t.absoluteOrigin n).y⟩ := by
  have hshape := sameShape_mirrored (t := t)
  have hw' := hshape.wellFormed hw
  -- From the root down; a child's two distances add up to those of its parent.
  induction n using hw.parent_induction with
  | root n h =>
    rw [absoluteOrigin_of_root (by rw [hshape.parent?, h]), absoluteOrigin_of_root h,
      frame_mirrored, h, hr n hn h]
    ext
    · simp only [Option.elim_none]
      ring
    · rfl
  | child n p h ih =>
    rw [absoluteOrigin_of_parent hw' (by rw [hshape.parent?, h]), absoluteOrigin_of_parent hw h,
      ih ((hw.parent_lt h).trans hn), frame_mirrored, h]
    ext
    · simp only [Option.elim_some, Rect.mirrored, Point.add_eq]
      ring
    · rfl

theorem frameIn_mirrored (hw : t.WellFormed) (hone : t.HasOneRoot) {n p : NodeId}
    (hn : n < t.size) (hp : p < t.size) : t.mirrored.frameIn n (some p)
      = (t.frameIn n (some p)).mirrored (t.frame p).size.width := by
  obtain ⟨r, hr⟩ := hone
  have hspace : ∀ t' : Tree Rat, t'.spaceOrigin (some p) = t'.absoluteOrigin p := fun _ => rfl
  have hwidth : (t.frameIn n (some p)).size.width = (t.frame n).size.width := rfl
  have horigin := frameIn_origin (sameShape_mirrored.wellFormed hw) n (some p)
  rw [hspace, absoluteOrigin_mirrored hw hr n hn, absoluteOrigin_mirrored hw hr p hp] at horigin
  refine Rect.ext ?_ (size_frame_mirrored n)
  rw [horigin]
  simp only [Rect.mirrored, frameIn_origin hw, hspace, hwidth, Point.sub_eq, Point.mk.injEq,
    and_true]
  ring

end Tree

namespace Site

variable (s : Site Rat)

def mirrored : Site Rat := ⟨s.tree.mirrored, s.node⟩

theorem containerSize_mirrored : s.mirrored.containerSize = s.containerSize := by
  have hp := (Tree.sameShape_mirrored (t := s.tree)).parent? s.node
  simp only [containerSize, mirrored, Tree.containerSize?, hp]
  cases s.tree.parent? s.node with
  | none => rfl
  | some p => simp only [Option.map_some, Tree.size_frame_mirrored]

variable {s}

theorem frameOf_mirrored (hw : s.tree.WellFormed) (hone : s.tree.HasOneRoot) {p : NodeId}
    (hp : s.container = some p) {n : NodeId} (hn : n < s.tree.size) :
    s.mirrored.frameOf n = (s.frameOf n).mirrored s.containerSize.width := by
  have hp' : s.tree.parent? s.node = some p := hp
  have hwidth : s.containerSize.width = (s.tree.frame p).size.width := by
    rw [containerSize, Tree.containerSize?, hp']
    rfl
  have hcontainer : s.mirrored.container = some p :=
    (Tree.sameShape_mirrored.parent? s.node).trans hp'
  have hlt : p < s.tree.size := (hw.parent_lt hp').trans (Tree.lt_size_of_parent hp')
  rw [frameOf, frameOf, hcontainer, hp, hwidth]
  exact Tree.frameIn_mirrored hw hone hn hlt

end Site

/-- The side is named by the reading direction, or is the center. -/
def Side.Reverses : Side → Prop
  | start | finish | fixed .mid => True
  | _ => False

theorem Side.Reverses.line {s : Side} (h : s.Reverses) : s.line .ltr = (s.line .rtl).opposite := by
  rcases s with l | _ | _
  · cases l <;> first | rfl | exact h.elim
  · rfl
  · rfl

namespace Border

/-- The border is named by the reading direction, or is above or below. -/
def Reverses : Border → Prop
  | start | finish | low .vertical | high .vertical => True
  | _ => False

/-- The border that takes the place of `b` in the mirror. -/
def mirrored : Border → Border
  | low .horizontal => high .horizontal
  | high .horizontal => low .horizontal
  | b => b

theorem mirrored_eq {b : Border} (h : b.Reverses) : b.mirrored = b := by
  cases b with
  | low a => cases a <;> first | rfl | exact h.elim
  | high a => cases a <;> first | rfl | exact h.elim
  | _ => rfl

end Border

def Relation.Reverses : Relation → Prop
  | above a | below a => ∀ s ∈ a, s.Reverses
  | before _ | after _ => True
  | leftOf _ | rightOf _ => False

def Setter.Reverses : Setter → Prop
  | inset b | margin b => b.Reverses
  | center a => a = .vertical
  | all => False
  | _ => True

/-- The directive names no left and no right and keeps the reading direction. -/
def Directive.Reverses : Directive Rat → Prop
  | set setter _ => setter.Reverses
  | sideTo own _ target => own.Reverses ∧ target.Reverses
  | anchorTo own _ target => own.horizontal.Reverses ∧ target.horizontal.Reverses
  | anchor own => own.horizontal.Reverses
  | relative r _ => r.Reverses
  | justify side => side.Reverses
  | margins _ | turn _ => False
  | _ => True

namespace Relation

variable (w : Rat)

theorem bounds?_mirrored : ∀ group : List (Rect Rat),
    bounds? (group.map (Rect.mirrored w)) = (bounds? group).map (Rect.mirrored w)
  | [] => rfl
  | f :: fs => by
    have hfold : ∀ (fs : List (Rect Rat)) (f : Rect Rat),
        (fs.map (Rect.mirrored w)).foldl Rect.union (f.mirrored w)
          = (fs.foldl Rect.union f).mirrored w := by
      intro fs
      induction fs with
      | nil => exact fun _ => rfl
      | cons g gs ih =>
        intro f
        rw [List.map_cons, List.foldl_cons, Rect.union_mirrored, ih, List.foldl_cons]
    rw [List.map_cons, bounds?, hfold]
    rfl

theorem writes_mirrored {r : Relation} (h : r.Reverses) (group : List (Rect Rat)) :
    r.writes .ltr (group.map (Rect.mirrored w))
      = (r.writes .rtl group).map fun (slot, v) => (slot.mirrored, slot.reflect w v) := by
  unfold writes
  rw [bounds?_mirrored]
  cases hb : bounds? group with
  | none => rfl
  | some b =>
    simp only [Option.map_some]
    cases r with
    | above a | below a =>
      cases a with
      | none => rfl
      | some s =>
        simp [physical, Slot.mirrored, Slot.reflect, (h s rfl).line, Rect.line_mirrored_horizontal,
          Rect.line_mirrored_vertical, Line.opposite_opposite]
    | before a | after a =>
      cases a <;> simp [physical, Slot.mirrored, Slot.reflect, Rect.line_mirrored_horizontal,
        Rect.line_mirrored_vertical, Direction.leading, Direction.trailing, Line.opposite]
    | leftOf | rightOf => exact h.elim

end Relation

namespace Directive

open Effect (gatheredAll)

section Effects

variable (w : Rat)

@[simp] theorem mirrored_gathered_write (slot : Slot) (v : Rat) :
    (Effect.write slot v).gathered.mirrored w
      = (Effect.write slot.mirrored (slot.reflect w v)).gathered :=
  (Constraints.mirrored_set w ∅ slot v).trans
    (congrArg (Constraints.set · _ _) (Constraints.mirrored_empty w))

theorem mirrored_gatheredAll_writes : ∀ ws : List (Slot × Rat),
    (gatheredAll (ws.map fun (slot, v) => Effect.write slot v)).mirrored w
      = gatheredAll ((ws.map fun (slot, v) => (slot.mirrored, slot.reflect w v)).map
          fun (slot, v) => Effect.write slot v)
  | [] => Constraints.mirrored_empty w
  | (slot, v) :: ws => by
    simp only [List.map_cons, Effect.gatheredAll_cons, Constraints.mirrored_overlay,
      mirrored_gathered_write, mirrored_gatheredAll_writes ws]

end Effects

variable (s : Site Rat)

theorem gatheredAll_setInset_mirrored (b : Border) (v : Length Rat) :
    gatheredAll (setInset s .ltr b.mirrored v)
      = (gatheredAll (setInset s .rtl b v)).mirrored s.containerSize.width := by
  rw [gatheredAll_setInset, gatheredAll_setInset, mirrored_gathered_write]
  rcases b with (_ | _) | (_ | _) | _ | _ <;>
    simp [insetCoordinate, Border.mirrored, Border.line, Border.axis, Slot.mirrored, Slot.reflect,
      Line.opposite, Size.along, Direction.leading, Direction.trailing]

theorem gatheredAll_setMargin_mirrored (b : Border) (v : Length Rat) :
    gatheredAll (setMargin s .ltr b.mirrored v)
      = (gatheredAll (setMargin s .rtl b v)).mirrored s.containerSize.width := by
  rw [gatheredAll_setMargin, gatheredAll_setMargin, mirrored_gathered_write]
  rcases b with (_ | _) | (_ | _) | _ | _ <;> rfl

/-- Writes to two slots may trade places. -/
theorem overlay_write_comm {slot slot' : Slot} (h : slot ≠ slot') (v v' : Rat) :
    (Effect.write slot v).gathered.overlay (Effect.write slot' v').gathered
      = (Effect.write slot' v').gathered.overlay (Effect.write slot v).gathered :=
  Constraints.overlay_comm_of_apart (Constraints.apart_set h v v')

theorem gatheredAll_setLength_mirrored {setter : Setter} (h : setter.Reverses) (v : Length Rat) :
    gatheredAll (setLength s .ltr v setter)
      = (gatheredAll (setLength s .rtl v setter)).mirrored s.containerSize.width := by
  have hinset := fun b => gatheredAll_setInset_mirrored s b v
  have hmargin := fun b => gatheredAll_setMargin_mirrored s b v
  cases setter with
  | inset b =>
    have hb := hinset b
    rwa [Border.mirrored_eq h] at hb
  | margin b =>
    have hb := hmargin b
    rwa [Border.mirrored_eq h] at hb
  | span a =>
    -- In the mirror the two borders are swapped, and written in the other order.
    simp only [setLength, Effect.gatheredAll_append, Constraints.mirrored_overlay, ← hinset]
    cases a
    · simp only [gatheredAll_setInset, Border.mirrored]
      exact overlay_write_comm (by simp [Border.line]) _ _
    · rfl
  | margins a =>
    simp only [setLength, Effect.gatheredAll_append, Constraints.mirrored_overlay, ← hmargin]
    cases a
    · simp only [gatheredAll_setMargin, Border.mirrored]
      exact overlay_write_comm (by simp [Border.line]) _ _
    · rfl
  | center a =>
    cases h
    simp [setLength, setCenter, Slot.mirrored, Slot.reflect]
  | size a | minSize a | maxSize a =>
    simp [setLength, setSize, Slot.mirrored, Slot.reflect]
  | square => simp [setLength, Slot.mirrored, Slot.reflect]
  | all => exact h.elim

theorem gatheredAll_setRatio_mirrored (w r : Rat) :
    gatheredAll (setRatio r) = (gatheredAll (setRatio r)).mirrored w := by
  unfold setRatio
  split_ifs <;> simp [Slot.mirrored, Slot.reflect]

variable {s}

section Mirror

variable (hw : s.tree.WellFormed) (hone : s.tree.HasOneRoot) {p : NodeId}
  (hp : s.container = some p)

include hw hone hp

theorem gatheredAll_place_mirrored {r : Relation} (h : r.Reverses) (nodes : List NodeId) :
    gatheredAll (place s.mirrored .ltr r nodes)
      = (gatheredAll (place s .rtl r nodes)).mirrored s.containerSize.width := by
  have hsiblings : s.mirrored.tree.siblings s.mirrored.node = s.tree.siblings s.node :=
    Tree.sameShape_mirrored.siblings s.node
  have hgroup : (nodes.filter (· ∈ s.tree.siblings s.node)).map s.mirrored.frameOf
      = ((nodes.filter (· ∈ s.tree.siblings s.node)).map s.frameOf).map
          (Rect.mirrored s.containerSize.width) := by
    rw [List.map_map]
    refine List.map_congr_left fun n hn => ?_
    have hsib : n ∈ s.tree.siblings s.node := by simpa using (List.mem_filter.1 hn).2
    exact Site.frameOf_mirrored hw hone hp (hw.parent?_of_mem_siblings hsib).2.2
  rw [gatheredAll_place, gatheredAll_place, mirrored_gatheredAll_writes, hsiblings, hgroup,
    Relation.writes_mirrored _ h]

/-- What a directive gathers from the left in the mirror is the mirror of what it gathers from the
right. -/
theorem gathered_mirrored {c : Directive Rat} (h : c.Reverses)
    (href : ∀ n ∈ c.references, n < s.tree.size) :
    c.gathered s.mirrored .ltr = (c.gathered s .rtl).mirrored s.containerSize.width := by
  have hsize := s.containerSize_mirrored
  have hlength : ∀ (setter : Setter) v, setter.Reverses →
      gatheredAll (setLength s.mirrored .ltr v setter)
        = (gatheredAll (setLength s .rtl v setter)).mirrored s.containerSize.width := by
    intro setter v hs
    rw [setLength_congr .ltr hsize]
    exact gatheredAll_setLength_mirrored s hs v
  have hmargin : ∀ (b : Border) v, b.Reverses → gatheredAll (setMargin s.mirrored .ltr b v)
      = (gatheredAll (setMargin s .rtl b v)).mirrored s.containerSize.width :=
    fun b v hb => hlength (.margin b) v hb
  have hframe : ∀ {n}, n ∈ c.references →
      s.mirrored.frameOf n = (s.frameOf n).mirrored s.containerSize.width :=
    fun hn => Site.frameOf_mirrored hw hone hp (href _ hn)
  have hframeSize : ∀ n, (s.mirrored.tree.frame n).size = (s.tree.frame n).size :=
    Tree.size_frame_mirrored
  cases c with
  | set setter v => exact hlength setter v h
  | sideTo own node target =>
    simp [gathered, effects, hframe (n := node) List.mem_cons_self, h.1.line, h.2.line,
      Rect.line_mirrored_horizontal, Line.opposite_opposite, Slot.mirrored, Slot.reflect]
  | lineTo own node target =>
    simp [gathered, effects, hframe (n := node) List.mem_cons_self, Rect.line_mirrored_vertical,
      Slot.mirrored, Slot.reflect]
  | anchorTo own node target =>
    simp [gathered, effects, setAnchor, Anchor.point, hframe (n := node) List.mem_cons_self,
      h.1.line, h.2.line, Rect.line_mirrored_horizontal, Rect.line_mirrored_vertical,
      Line.opposite_opposite, Slot.mirrored, Slot.reflect]
  | anchor own =>
    have hown : own.horizontal.line .ltr = (own.horizontal.line .rtl).opposite :=
      Side.Reverses.line h
    have hself : (⟨.zero, s.containerSize⟩ : Rect Rat).mirrored s.containerSize.width
        = ⟨.zero, s.containerSize⟩ := by simp [Rect.mirrored, Point.zero]
    have hline := Rect.line_mirrored_horizontal s.containerSize.width ⟨.zero, s.containerSize⟩
      (own.horizontal.line .rtl).opposite
    rw [hself, Line.opposite_opposite] at hline
    simp [gathered, effects, setAnchor, Anchor.point, hsize, hown, hline, Slot.mirrored,
      Slot.reflect]
  | relative r nodes => exact gatheredAll_place_mirrored hw hone hp h nodes
  | sizes width height =>
    simp only [gathered, effects, Effect.gatheredAll_append, Constraints.mirrored_overlay]
    rw [hlength (.size _) width trivial, hlength (.size _) height trivial]
  | sizeOf a node =>
    simp only [gathered, effects, hframeSize]
    exact hlength (.size a) _ trivial
  | sizesOf node =>
    simp only [gathered, effects, hframeSize, List.flatMap_cons, List.flatMap_nil,
      List.append_nil, Effect.gatheredAll_append, Constraints.mirrored_overlay]
    rw [hlength (.size _) _ trivial, hlength (.size _) _ trivial]
  | aspectRatio r => exact gatheredAll_setRatio_mirrored _ r
  | aspectRatioOf node =>
    simp only [gathered, effects, hframeSize]
    split
    · exact gatheredAll_setRatio_mirrored _ _
    · simp
  | aspectRatioOfContent =>
    have hcontent : s.mirrored.tree.content s.mirrored.node = s.tree.content s.node :=
      Tree.content_mirrored _
    simp only [gathered, effects]
    rw [hcontent]
    cases (s.tree.content s.node).bind Size.aspectRatio? with
    | some r => exact gatheredAll_setRatio_mirrored _ r
    | none => simp
  | directionalMargins i =>
    simp only [gathered, effects, Effect.gatheredAll_append, Constraints.mirrored_overlay]
    rw [hmargin (.low .vertical) _ trivial, hmargin .start _ trivial,
      hmargin (.high .vertical) _ trivial, hmargin .finish _ trivial]
  | justify side =>
    have hside : side.line .ltr = (side.line .rtl).opposite := Side.Reverses.line h
    simp [gathered, effects, Effect.gathered, hside, Constraints.mirrored_setSpanAlign_horizontal]
  | align line =>
    simp [gathered, effects, Effect.gathered, Constraints.mirrored_setSpanAlign_vertical]
  | fitSize | pinEdges =>
    simp [gathered, effects, Effect.gathered, Constraints.mirrored_flags]
  | margins | turn => exact h.elim

end Mirror

end Directive

namespace Session

variable {tree : Tree Rat} {node p : NodeId} (config : Config Rat) {cs : List (Directive Rat)}

theorem constraints_pass_mirrored (hw : tree.WellFormed) (hone : tree.HasOneRoot)
    (hp : tree.parent? node = some p) (hcs : ∀ c ∈ cs, c.Reverses)
    (href : ∀ c ∈ cs, ∀ n ∈ c.references, n < tree.size) :
    (pass tree.mirrored node config .ltr cs).constraints
      = (pass tree node config .rtl cs).constraints.mirrored (tree.frame p).size.width := by
  have hturn : ∀ c ∈ cs, ∀ d', c ≠ .turn d' := by
    intro c hc d'
    rintro rfl
    exact hcs _ hc
  have hwidth : (Site.mk tree node).containerSize.width = (tree.frame p).size.width := by
    rw [Site.containerSize, Tree.containerSize?, hp]
    rfl
  simp only [pass_constraints, Directive.inForce_of_forall_ne _ hturn,
    Constraints.mirrored_overlayAll, List.map_map, alone_eq]
  refine congrArg Constraints.overlayAll (List.map_congr_left fun c hc => ?_)
  rw [← hwidth]
  exact Directive.gathered_mirrored (s := ⟨tree, node⟩) hw hone hp (hcs c hc) (href c hc)

theorem subject_pass_mirrored (hp : tree.parent? node = some p) :
    (pass tree.mirrored node config .ltr cs).subject
      = (pass tree node config .rtl cs).subject.mirrored (tree.frame p).size.width := by
  have hframe : tree.mirrored.frame node
      = (tree.frame node).mirrored (tree.frame p).size.width := by rw [Tree.frame_mirrored, hp]; rfl
  have htolerance : (pass tree.mirrored node config .ltr cs).tolerance
      = (pass tree node config .rtl cs).tolerance := by
    simp only [pass, issueAll_tolerance]
    rfl
  simp only [subject, Subject.mirrored, pass_site, hframe, htolerance, Tree.content_mirrored]

/-- A chain of directives that reverse, read from the right in a tree and from the left in its
mirror, comes to constraints and frames that mirror each other in the container. -/
theorem rtl_mirrors_ltr (hb : tree.Built) (hone : tree.HasOneRoot)
    (hp : tree.parent? node = some p) (hcs : ∀ c ∈ cs, c.Reverses)
    (href : ∀ c ∈ cs, ∀ n ∈ c.references, n < tree.size)
    (himpartial : (pass tree node config .rtl cs).constraints.Impartial) :
    let width := (tree.frame p).size.width
    let rtl := pass tree node config .rtl cs
    let ltr := pass tree.mirrored node config .ltr cs
    ltr.constraints = rtl.constraints.mirrored width
      ∧ ltr.resolution.frame = rtl.resolution.frame.mirrored width
      ∧ ltr.commit.tree.frame node = (rtl.commit.tree.frame node).mirrored width := by
  intro width rtl ltr
  have hc : ltr.constraints = rtl.constraints.mirrored width :=
    constraints_pass_mirrored config hb.wellFormed hone hp hcs href
  have hframe : ltr.resolution.frame = rtl.resolution.frame.mirrored width := by
    have hs : ltr.subject = rtl.subject.mirrored width := subject_pass_mirrored config hp
    have h := Constraints.frame_synthesize_mirrored width rtl.subject himpartial
    rwa [← hc, ← hs] at h
  have hlt : node < tree.size := Tree.lt_size_of_parent hp
  have hlt' : node < tree.mirrored.size := by rwa [Tree.sameShape_mirrored.size]
  refine ⟨hc, hframe, ?_⟩
  simp only [commit_tree_pass, ltr, rtl, Tree.frame_setFrame_self hlt,
    Tree.frame_setFrame_self hlt']
  exact hframe

/-- A card that starts beside a badge and is justified to the end, with its edges pinned. -/
theorem card_beside_badge_in_mirror :
    let tree : Tree Rat := ((∅ : Tree Rat).addRoot "root" ⟨⟨10, 0⟩, ⟨200, 100⟩⟩).1
    let tree := (tree.addChild 0 "card" ⟨⟨5, 5⟩, ⟨40, 30⟩⟩).1
    let tree := (tree.addChild 0 "badge" ⟨⟨90, 10⟩, ⟨20, 20⟩⟩).1
    let tree := (tree.addChild 2 "dot" ⟨⟨1, 1⟩, ⟨4, 4⟩⟩).1
    let cs : List (Directive Rat) := [.sideTo .start 3 .finish, .set (.inset .finish) (.percent 5),
      .lineTo .mid 2 .mid, .set (.margin .start) (.points 4),
      .set (.maxSize .horizontal) (.points 60), .justify .finish, .pinEdges]
    let width := (tree.frame 0).size.width
    let rtl := pass tree 1 .standard .rtl cs
    let ltr := pass tree.mirrored 1 .standard .ltr cs
    rtl.constraints.Impartial
      ∧ ltr.constraints = rtl.constraints.mirrored width
      ∧ ltr.resolution.frame = rtl.resolution.frame.mirrored width
      ∧ ltr.commit.tree.frame 1 = (rtl.commit.tree.frame 1).mirrored width := by
  intro tree₀ tree₁ tree₂ tree cs width rtl ltr
  have hb : tree.Built := .addChild (.addChild (.addChild (.addRoot .empty _ _)
    (by decide) _ _) (by decide) _ _) (by decide) _ _
  have hone : tree.HasOneRoot := ⟨0, by decide +kernel⟩
  have hcs : ∀ c ∈ cs, c.Reverses := by
    simp [cs, Directive.Reverses, Side.Reverses, Setter.Reverses, Border.Reverses]
  have hp : tree.parent? 1 = some 0 := by decide +kernel
  have himpartial : rtl.constraints.Impartial := by decide +kernel
  exact ⟨himpartial, rtl_mirrors_ltr .standard hb hone hp hcs (by decide +kernel) himpartial⟩

end Session

end Pinning
