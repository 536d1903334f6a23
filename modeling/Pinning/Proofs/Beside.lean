import Mathlib.Order.Bounds.Basic
import Pinning.Proofs.Absolute
import Pinning.Proofs.Displacement
import Pinning.Proofs.Standing

/-!
# Places beside a group

The union of a group reaches from the least of the low edges to the greatest of the high ones along
each axis (`Relation.exists_bounds`), whatever the signs of the sizes. Those two determine it, so it
depends on the frames of the group as a set (`Rect.Bounds.unique`).

A relation asks for one line of the node on one line of that union, across one axis or across both
(`Relation.places`). Where no other call sets a line across the axis, the line is set alone and the
frame stands on it. References to strangers are warnings and nothing else: they come in front of what
the siblings among the nodes bring about (`Directive.place_eq`), and what a session has already warned
of stays out of everything that follows (`Session.issueAll_behind`).
-/

namespace Pinning

/-- The frame reaches along both axes from the least low edge of the frames to the greatest high
edge. -/
structure Rect.Bounds (b : Rect Rat) (frames : Set (Rect Rat)) : Prop where
  low (a : Axis) : IsLeast ((fun f => f.line a .low) '' frames) (b.line a .low)
  high (a : Axis) : IsGreatest ((fun f => f.line a .high) '' frames) (b.line a .high)

namespace Rect

theorem extent_union (f g : Rect Rat) (a : Axis) :
    (f.union g).extent a = (f.extent a).union (g.extent a) := by
  cases a <;> rfl

theorem line_union_low (f g : Rect Rat) (a : Axis) :
    (f.union g).line a .low = min (f.line a .low) (g.line a .low) := by
  rw [line, extent_union]
  exact Scalar.min_eq _ _

theorem line_union_high (f g : Rect Rat) (a : Axis) :
    (f.union g).line a .high = max (f.line a .high) (g.line a .high) := by
  rw [line, extent_union]
  exact (add_sub_cancel _ _).trans (Scalar.max_eq _ _)

/-- A frame is its low and high edges. -/
theorem eq_of_edges {f g : Rect Rat} (hlow : ∀ a, f.line a .low = g.line a .low)
    (hhigh : ∀ a, f.line a .high = g.line a .high) : f = g := by
  have hsize : ∀ a, f.size.along a = g.size.along a := fun a => by
    have h : f.line a .low + f.size.along a = g.line a .low + g.size.along a := hhigh a
    rw [hlow a] at h
    exact add_left_cancel h
  exact Rect.ext (Point.ext (hlow .horizontal) (hlow .vertical))
    (congrArg₂ Size.mk (hsize .horizontal) (hsize .vertical))

namespace Bounds

variable {b b' : Rect Rat} {frames frames' : Set (Rect Rat)}

theorem unique (h : b.Bounds frames) (h' : b'.Bounds frames) : b = b' :=
  eq_of_edges (fun a => (h.low a).unique (h'.low a)) fun a => (h.high a).unique (h'.high a)

theorem singleton (f : Rect Rat) : f.Bounds {f} where
  low a := by simp only [Set.image_singleton, isLeast_singleton]
  high a := by simp only [Set.image_singleton, isGreatest_singleton]

theorem union (h : b.Bounds frames) (h' : b'.Bounds frames') :
    (b.union b').Bounds (frames ∪ frames') where
  low a := by
    rw [Set.image_union, line_union_low]
    exact (h.low a).union (h'.low a)
  high a := by
    rw [Set.image_union, line_union_high]
    exact (h.high a).union (h'.high a)

theorem foldl_union : ∀ (group : List (Rect Rat)) {b : Rect Rat} {frames : Set (Rect Rat)},
    b.Bounds frames → (group.foldl Rect.union b).Bounds (frames ∪ {f | f ∈ group})
  | [], b, frames, h => by simpa using h
  | g :: group, b, frames, h => by
    have hset : frames ∪ {f | f ∈ g :: group} = frames ∪ {g} ∪ {f | f ∈ group} := by
      rw [Set.union_assoc]
      exact congrArg (frames ∪ ·) (Set.ext fun f => List.mem_cons)
    rw [hset]
    exact foldl_union group (h.union (.singleton g))

end Bounds

end Rect

namespace Relation

theorem exists_bounds {group : List (Rect Rat)} (h : group ≠ []) :
    ∃ b, bounds? group = some b ∧ b.Bounds {f | f ∈ group} := by
  cases group with
  | nil => exact absurd rfl h
  | cons g group =>
    refine ⟨_, rfl, ?_⟩
    have hset : {f | f ∈ g :: group} = {g} ∪ {f | f ∈ group} := Set.ext fun f => List.mem_cons
    rw [hset]
    exact .foldl_union group (.singleton g)

/-- The order of a group and repetitions in it do not matter. -/
theorem bounds?_congr {group group' : List (Rect Rat)} (h : ∀ f, f ∈ group' ↔ f ∈ group) :
    bounds? group' = bounds? group := by
  rcases eq_or_ne group [] with rfl | hne
  · rw [List.eq_nil_iff_forall_not_mem.2 fun f hf => List.not_mem_nil ((h f).1 hf)]
  · have hne' : group' ≠ [] := by
      rintro rfl
      exact hne (List.eq_nil_iff_forall_not_mem.2 fun f hf => List.not_mem_nil ((h f).2 hf))
    obtain ⟨b, hb, hbounds⟩ := exists_bounds hne
    obtain ⟨b', hb', hbounds'⟩ := exists_bounds hne'
    have hset : {f | f ∈ group'} = {f | f ∈ group} := Set.ext h
    rw [hset] at hbounds'
    rw [hb, hb', hbounds'.unique hbounds]

/-- A line of the node to go on a line of the group's bounds. -/
structure Place where
  axis : Axis
  own : Line
  group : Line
deriving DecidableEq, Repr

/-- What a relation asks for: an edge of the node on the facing edge of the group, and a line across
the other axis on the same line. -/
def places (d : Direction) : Relation → List Place
  | above side => ⟨.vertical, .high, .low⟩ :: aligned .horizontal (side.map (Side.line d))
  | below side => ⟨.vertical, .low, .high⟩ :: aligned .horizontal (side.map (Side.line d))
  | leftOf line => ⟨.horizontal, .high, .low⟩ :: aligned .vertical line
  | rightOf line => ⟨.horizontal, .low, .high⟩ :: aligned .vertical line
  | before line => ⟨.horizontal, d.trailing, d.leading⟩ :: aligned .vertical line
  | after line => ⟨.horizontal, d.leading, d.trailing⟩ :: aligned .vertical line
where
  aligned (a : Axis) (line : Option Line) : List Place := line.toList.map fun l => ⟨a, l, l⟩

/-- Across each axis there is at most one place. -/
theorem places_pairwise (d : Direction) (r : Relation) :
    (r.places d).Pairwise fun p q => p.axis ≠ q.axis := by
  cases r with
  | above line | below line | leftOf line | rightOf line | before line | after line =>
    cases line <;> simp [places, places.aligned]

theorem writes_eq (r : Relation) (d : Direction) {group : List (Rect Rat)} {b : Rect Rat}
    (hb : bounds? group = some b) : r.writes d group
      = (r.places d).map fun p => (.line p.axis p.own, b.line p.axis p.group) := by
  have haligned : ∀ (a : Axis) (line : Option Line),
      (places.aligned a line).map (fun p => (Slot.line p.axis p.own, b.line p.axis p.group))
        = line.toList.map fun l => (Slot.line a l, b.line a l) := by
    intro a line
    cases line <;> rfl
  simp only [writes, hb]
  cases r with
  | above | below | leftOf | rightOf => simp only [physical, places, List.map_cons, haligned]
  | before | after =>
    cases d <;> simp only [physical, places, List.map_cons, haligned, Direction.leading,
      Direction.trailing, if_true, reduceCtorEq, if_false]

def Place.effect (b : Rect Rat) (p : Place) : Effect Rat :=
  .write (.line p.axis p.own) (b.line p.axis p.group)

/-- What a relation comes to beside a group with these bounds, or beside none. -/
def effects (r : Relation) (d : Direction) (bounds? : Option (Rect Rat)) : List (Effect Rat) :=
  bounds?.elim [.warn (.noReference r.name)] fun b => (r.places d).map (Place.effect b)

variable {b : Rect Rat} {p : Place} {ps : List Place}

theorem Place.value_gathered (a : Axis) (l : Line) : (p.effect b).gathered.value (.line a l)
    = if a = p.axis ∧ l = p.own then some (b.line p.axis p.group) else none := by
  have hfinite : Scalar.isFinite (b.line p.axis p.group) = true := rfl
  simp only [Place.effect, Effect.gathered, hfinite, if_true, Constraints.set, Slot.line.injEq]
  rfl

theorem Place.value_gatheredAll_cons (slot : Slot) :
    (Effect.gatheredAll ((p :: ps).map (effect b))).value slot
      = ((Effect.gatheredAll (ps.map (effect b))).value slot).or
          ((p.effect b).gathered.value slot) :=
  rfl

theorem Place.value_gatheredAll_of_ne {a : Axis} (l : Line) : ∀ {ps : List Place},
    (∀ p ∈ ps, p.axis ≠ a) →
      (Effect.gatheredAll (ps.map (effect b))).value (.line a l) = none
  | [], _ => rfl
  | p :: ps, h => by
    obtain ⟨hp, hps⟩ := List.forall_mem_cons.1 h
    rw [value_gatheredAll_cons, value_gatheredAll_of_ne l hps, value_gathered,
      if_neg fun ha => hp ha.1.symm, Option.or_none]

/-- Across its axis a place is the only line that is written. -/
theorem Place.value_gatheredAll (l : Line) : ∀ {ps : List Place},
    ps.Pairwise (fun p q => p.axis ≠ q.axis) → p ∈ ps →
      (Effect.gatheredAll (ps.map (effect b))).value (.line p.axis l)
        = if l = p.own then some (b.line p.axis p.group) else none
  | q :: ps, h, hp => by
    obtain ⟨hq, hps⟩ := List.pairwise_cons.1 h
    rw [value_gatheredAll_cons, value_gathered]
    rcases List.mem_cons.1 hp with rfl | hp
    · rw [value_gatheredAll_of_ne l fun q hmem => (hq q hmem).symm, Option.none_or]
      exact if_congr (and_iff_right rfl) rfl rfl
    · have hne : ¬ (p.axis = q.axis ∧ l = q.own) := fun ha => hq p hp ha.1.symm
      rw [value_gatheredAll l hps hp, if_neg hne, Option.or_none]

end Relation

namespace Site

/-- The bounds of the siblings among some nodes, if there are any. -/
def groupBounds? (s : Site Rat) (nodes : List NodeId) : Option (Rect Rat) :=
  Relation.bounds? ((nodes.filter (· ∈ s.tree.siblings s.node)).map s.frameOf)

variable {s : Site Rat} {nodes nodes' : List NodeId}

theorem groupBounds?_congr (h : ∀ n ∈ s.tree.siblings s.node, n ∈ nodes' ↔ n ∈ nodes) :
    s.groupBounds? nodes' = s.groupBounds? nodes := by
  refine Relation.bounds?_congr fun f => ?_
  simp only [List.mem_map, List.mem_filter, decide_eq_true_eq]
  exact exists_congr fun n => and_congr_left fun _ => and_congr_left fun hn => h n hn

/-- Siblings have the same container, so they stand in it where their frames say. -/
theorem exists_groupBounds (hw : s.tree.WellFormed)
    (h : ∃ n ∈ nodes, n ∈ s.tree.siblings s.node) : ∃ b, s.groupBounds? nodes = some b
      ∧ b.Bounds (s.tree.frame '' {n | n ∈ nodes ∧ n ∈ s.tree.siblings s.node}) := by
  obtain ⟨n, hn, hsibling⟩ := h
  have hne : (nodes.filter (· ∈ s.tree.siblings s.node)).map s.frameOf ≠ [] := by
    rw [Ne, List.map_eq_nil_iff]
    exact List.ne_nil_of_mem (List.mem_filter.2 ⟨hn, decide_eq_true hsibling⟩)
  obtain ⟨b, hb, hbounds⟩ := Relation.exists_bounds hne
  refine ⟨b, hb, ?_⟩
  have hset : {f | f ∈ (nodes.filter (· ∈ s.tree.siblings s.node)).map s.frameOf}
      = s.tree.frame '' {n | n ∈ nodes ∧ n ∈ s.tree.siblings s.node} := by
    ext f
    simp only [Set.mem_ofPred_eq, List.mem_map, List.mem_filter, decide_eq_true_eq, Set.mem_image]
    refine exists_congr fun n => and_congr_right fun hn => ?_
    rw [frameOf, container, ← (hw.parent?_of_mem_siblings hn.2).1, Tree.frameIn_parent]
  rwa [← hset]

end Site

namespace Directive

variable (site : Site Rat) (d : Direction) (r : Relation) (nodes : List NodeId)

/-- What a relation warns of for each stranger among the nodes. -/
def strangers : List (Warning Rat) :=
  (nodes.filter (· ∉ site.tree.siblings site.node)).map fun n =>
    .notSibling r.name (site.tree.name n) site.label

theorem place_eq : place site d r nodes
    = (strangers site r nodes).map Effect.warn ++ r.effects d (site.groupBounds? nodes) := by
  rw [place, strangers, List.map_map]
  refine congrArg (_ ++ ·) ?_
  rw [Site.groupBounds?]
  generalize (nodes.filter (· ∈ site.tree.siblings site.node)).map site.frameOf = group
  cases group with
  | nil => rfl
  | cons f fs =>
    rw [Relation.writes_eq r d rfl, List.map_map]
    rfl

variable {site d r nodes}

theorem value_gathered_relative {b : Rect Rat} (hb : site.groupBounds? nodes = some b)
    {p : Relation.Place} (hp : p ∈ r.places d) (l : Line) :
    ((relative r nodes).gathered site d).value (.line p.axis l)
      = if l = p.own then some (b.line p.axis p.group) else none := by
  have hgathered : (relative r nodes).gathered site d
      = Effect.gatheredAll ((r.places d).map (Relation.Place.effect b)) := by
    refine (gatheredAll_place site d r nodes).trans ?_
    rw [Relation.writes_eq r d hb, List.map_map]
    rfl
  rw [hgathered, Relation.Place.value_gatheredAll l (r.places_pairwise d) hp]

end Directive

namespace Session

open Directive (inForce turnedBy)

section

variable {α : Type} [Scalar α]

/-- A session that comes behind these warnings. -/
def behind (ws : List (Warning α)) (s : Session α) : Session α :=
  { s with warnings := ws ++ s.warnings }

/-- The session without what it has warned of. -/
def unwarned (s : Session α) : Session α := { s with warnings := [] }

variable (ws : List (Warning α)) (s : Session α)

theorem perform_behind (e : Effect α) : (s.behind ws).perform e = (s.perform e).behind ws := by
  cases e with
  | write | measure =>
    rw [perform, perform, apply_ite (behind ws)]
    simp only [behind, warn, record, List.append_assoc]
  | warn => simp only [perform, behind, warn, List.append_assoc]
  | _ => rfl

theorem foldl_perform_behind (es : List (Effect α)) :
    es.foldl perform (s.behind ws) = (es.foldl perform s).behind ws :=
  List.foldl_hom (behind ws) fun s e => s.perform_behind ws e

theorem issue_behind (c : Directive α) : (s.behind ws).issue c = (s.issue c).behind ws :=
  foldl_perform_behind ws s _

theorem issueAll_behind (cs : List (Directive α)) :
    (s.behind ws).issueAll cs = (s.issueAll cs).behind ws :=
  List.foldl_hom (behind ws) fun s c => s.issue_behind ws c

theorem resolution_behind : (s.behind ws).resolution
    = ⟨s.resolution.frame, ws ++ s.resolution.warnings⟩ :=
  congrArg (Resolution.mk _) (List.append_assoc _ _ _)

omit [Scalar α] in
theorem behind_unwarned : s.unwarned.behind s.warnings = s := by
  rw [behind, unwarned, List.append_nil]

theorem foldl_perform_warn : ∀ (ws : List (Warning α)) (s : Session α),
    (ws.map Effect.warn).foldl perform s = s.unwarned.behind (s.warnings ++ ws)
  | [], s => by rw [List.append_nil, behind_unwarned, List.map_nil, List.foldl_nil]
  | w :: ws, s => by
    rw [List.map_cons, List.foldl_cons, foldl_perform_warn ws]
    simp only [perform, warn, behind, unwarned, List.append_assoc, List.singleton_append]

theorem issueAll_direction (cs : List (Directive α)) :
    (s.issueAll cs).direction = turnedBy s.direction cs :=
  (List.foldl_hom direction fun s c => (s.issue_direction c).symm).symm

end

variable (tree : Tree Rat) (node : NodeId) (config : Config Rat) (d : Direction)
  (before after : List (Directive Rat)) (r : Relation) (nodes : List NodeId)

/-- The session but for what it warns of before the relation, and of strangers. -/
def placed : Session Rat :=
  ((r.effects (turnedBy d before) (Site.groupBounds? ⟨tree, node⟩ nodes)).foldl perform
    (pass tree node config d before).unwarned).issueAll after

theorem placed_congr {nodes' : List NodeId}
    (h : ∀ n ∈ tree.siblings node, n ∈ nodes' ↔ n ∈ nodes) :
    placed tree node config d before after r nodes'
      = placed tree node config d before after r nodes := by
  rw [placed, placed, Site.groupBounds?_congr (s := ⟨tree, node⟩) h]

theorem pass_relative : pass tree node config d (before ++ .relative r nodes :: after)
    = (placed tree node config d before after r nodes).behind
        ((pass tree node config d before).warnings ++ Directive.strangers ⟨tree, node⟩ r nodes) := by
  have hdirection : (pass tree node config d before).direction = turnedBy d before :=
    issueAll_direction _ before
  have happend : pass tree node config d (before ++ .relative r nodes :: after)
      = ((pass tree node config d before).issue (.relative r nodes)).issueAll after :=
    List.foldl_append
  rw [happend, issue, Directive.effects, Directive.place_eq, List.foldl_append, foldl_perform_warn,
    hdirection, pass_site, foldl_perform_behind, issueAll_behind, placed]

/-- Where no other call reaches a slot, it holds what the one call leaves there. -/
theorem value_pass_of_others {c : Directive Rat} (hc : ∀ d', c ≠ .turn d') {slot : Slot}
    (h : ∀ x ∈ inForce d before ++ inForce (turnedBy d before) after,
      (alone tree node config x.1 x.2).value slot = none) :
    (pass tree node config d (before ++ c :: after)).constraints.value slot
      = (alone tree node config (turnedBy d before) c).value slot := by
  have hnone : ∀ cs : List (Direction × Directive Rat),
      (∀ x ∈ cs, (alone tree node config x.1 x.2).value slot = none) →
        cs.reverse.findSome? (fun x => (alone tree node config x.1 x.2).value slot) = none :=
    fun cs hcs => List.findSome?_eq_none_iff.2 fun x hx => hcs x (List.mem_reverse.1 hx)
  rw [value_pass, Directive.inForce_append, inForce, Directive.turned_of_ne _ hc,
    List.reverse_append, List.reverse_cons, List.findSome?_append, List.findSome?_append,
    hnone _ fun x hx => h x (List.mem_append_left _ hx),
    hnone _ fun x hx => h x (List.mem_append_right _ hx)]
  simp

/-- A node goes beside the extremes of a whole group: where no other call sets a line across the
axis, its line is that of the group's bounds, moved inwards by its own margin, however large it comes
out. Only which siblings are in the group matters, and each reference to a stranger is one warning
and nothing else. -/
theorem relation_reaches_group_bounds (hb : tree.Built) :
    let siblings := tree.siblings node
    let session nodes := pass tree node config d (before ++ .relative r nodes :: after)
    let s := session nodes
    (.pinEdges ∉ before ++ after → (∃ n ∈ nodes, n ∈ siblings) →
      ∃ b : Rect Rat, b.Bounds (tree.frame '' {n | n ∈ nodes ∧ n ∈ siblings})
        ∧ ∀ p ∈ r.places (turnedBy d before),
          (∀ x ∈ inForce d before ++ inForce (turnedBy d before) after, ∀ l,
            (alone tree node config x.1 x.2).value (.line p.axis l) = none) →
          s.resolution.frame.line p.axis p.own
            = s.constraints.inward p.axis p.own (b.line p.axis p.group))
    ∧ ∃ earlier later, ∀ nodes', (∀ n ∈ siblings, n ∈ nodes' ↔ n ∈ nodes) →
        let s' := session nodes'
        s'.constraints = s.constraints ∧ s'.resolution.frame = s.resolution.frame
          ∧ s'.commit.tree = s.commit.tree
          ∧ s'.resolution.warnings = earlier ++ (nodes'.filter (· ∉ siblings)).map
              (fun n => .notSibling r.name (tree.name n) (tree.name node)) ++ later := by
  intro siblings session s
  refine ⟨fun hpins hgroup => ?_, (pass tree node config d before).warnings,
    (placed tree node config d before after r nodes).resolution.warnings, ?_⟩
  · obtain ⟨b, hsome, hbounds⟩ :=
      Site.exists_groupBounds (s := ⟨tree, node⟩) hb.wellFormed hgroup
    refine ⟨b, hbounds, fun p hp hothers => ?_⟩
    have hunpinned : s.constraints.pinsEdges = false := by
      rw [Bool.eq_false_iff, Ne, pinsEdges_pass]
      simpa using hpins
    -- Of the lines across the axis the relation sets one, and nothing else sets any.
    have hvalue : ∀ l, s.constraints.value (.line p.axis l)
        = if l = p.own then some (b.line p.axis p.group) else none := fun l => by
      rw [← Directive.value_gathered_relative hsome hp l, ← alone_eq]
      exact value_pass_of_others _ _ _ _ _ _ (by simp) fun x hx => hothers x hx l
    refine (Constraints.line_synthesize hunpinned p.own).trans ?_
    exact Constraints.line_settled_of_alone ((hvalue p.own).trans (if_pos rfl))
      fun l hl => (hvalue l).trans (if_neg hl)
  · intro nodes' hnodes s'
    have hs : s = (placed tree node config d before after r nodes).behind _ :=
      pass_relative tree node config d before after r nodes
    have hs' : s' = (placed tree node config d before after r nodes).behind _ :=
      placed_congr tree node config d before after r nodes hnodes
        ▸ pass_relative tree node config d before after r nodes'
    have hframe : s'.resolution.frame = s.resolution.frame := by
      rw [hs, hs', resolution_behind, resolution_behind]
    refine ⟨by rw [hs, hs']; rfl, hframe, ?_, ?_⟩
    · rw [commit_tree_pass, commit_tree_pass]
      exact congrArg _ hframe
    · rw [hs', resolution_behind]
      rfl

/-- Read from the right, before two neighbours is to the right of both; one of them has a width below
zero. The container and a dot inside of a neighbour are strangers. -/
theorem note_before_card_and_badge :
    let tree : Tree Rat := ((∅ : Tree Rat).addRoot "root" ⟨⟨10, 0⟩, ⟨200, 100⟩⟩).1
    let tree := (tree.addChild 0 "card" ⟨⟨60, 10⟩, ⟨-20, 30⟩⟩).1
    let tree := (tree.addChild 0 "badge" ⟨⟨100, 20⟩, ⟨40, 5⟩⟩).1
    let tree := (tree.addChild 0 "note" ⟨⟨5, 5⟩, ⟨15, 12⟩⟩).1
    let tree := (tree.addChild 1 "dot" ⟨⟨1, 1⟩, ⟨4, 4⟩⟩).1
    let before : List (Directive Rat) := [.turn .rtl, .set (.margin (.low .horizontal)) (.points 6)]
    let after : List (Directive Rat) := [.set (.size .horizontal) (.percent 10), .justify .start]
    let session nodes := pass tree 3 .standard .ltr
      (before ++ .relative (.before (some .high)) nodes :: after)
    let s := session [2, 4, 1, 2]
    let s' := session [0, 1, 0, 2]
    (∃ b : Rect Rat, b.Bounds (tree.frame '' {n | n ∈ [2, 4, 1, 2] ∧ n ∈ tree.siblings 3})
        ∧ s.resolution.frame.line .horizontal .low
          = s.constraints.inward .horizontal .low (b.line .horizontal .high)
        ∧ s.resolution.frame.line .vertical .high
          = s.constraints.inward .vertical .high (b.line .vertical .high))
      ∧ s.resolution.frame = ⟨⟨146, 28⟩, ⟨20, 12⟩⟩
      ∧ (∀ n ∈ tree.siblings 3, n ∈ [0, 1, 0, 2] ↔ n ∈ [2, 4, 1, 2])
      ∧ s'.resolution.frame = s.resolution.frame ∧ s'.commit.tree = s.commit.tree := by
  intro tree₀ tree₁ tree₂ tree₃ tree before after session s s'
  have hb : tree.Built := .addChild (.addChild (.addChild (.addChild (.addRoot .empty _ _)
    (by decide) _ _) (by decide) _ _) (by decide) _ _) (by decide) _ _
  have hothers : ∀ x ∈ inForce .ltr before ++ inForce (turnedBy .ltr before) after, ∀ a l,
      (alone tree 3 .standard x.1 x.2).value (.line a l) = none := by
    intro x hx a l
    revert x
    cases a <;> cases l <;> decide +kernel
  have hnodes : ∀ n ∈ tree.siblings 3, n ∈ [0, 1, 0, 2] ↔ n ∈ [2, 4, 1, 2] := by decide +kernel
  obtain ⟨hlines, earlier, later, hsame⟩ := relation_reaches_group_bounds tree 3 .standard .ltr
    before after (.before (some .high)) [2, 4, 1, 2] hb
  obtain ⟨b, hbounds, hline⟩ := hlines (by simp [before, after]) (by decide +kernel)
  obtain ⟨-, hframe, htree, -⟩ := hsame [0, 1, 0, 2] hnodes
  refine ⟨⟨b, hbounds, ?_, ?_⟩, by decide +kernel, hnodes, hframe, htree⟩
  · exact hline ⟨.horizontal, .low, .high⟩ (by decide) fun x hx l => hothers x hx _ l
  · exact hline ⟨.vertical, .high, .high⟩ (by decide) fun x hx l => hothers x hx _ l

end Session

end Pinning
