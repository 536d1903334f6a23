import Pinning.Proofs.Coordinates
import Pinning.Proofs.Reading

/-!
# Layout does not depend on where the container is

When a node is put elsewhere (`Tree.moveTo`), the corners of all that lies in it move along
(`absoluteOrigin_moveTo`). So everything inside keeps its place as seen from anything inside
(`frameIn_moveTo`). A session that refers to nothing outside therefore reads what it read before, and
comes to the same frame with the same warnings (`displaced_alike`).
-/

namespace Pinning

namespace Tree

section

variable {α : Type} {t : Tree α}

/-- The node is `a` or lies in it. -/
def Inside (t : Tree α) (a n : NodeId) : Prop := n = a ∨ a ∈ t.ancestors n

instance (t : Tree α) (a n : NodeId) : Decidable (t.Inside a n) :=
  inferInstanceAs (Decidable (_ ∨ _))

theorem Inside.of_parent (hw : t.WellFormed) {a n p : NodeId} (hp : t.parent? n = some p)
    (h : t.Inside a p) : t.Inside a n := by
  rw [Inside, hw.ancestors_of_parent hp, List.mem_cons]
  rcases h with rfl | h
  · exact .inr (.inl rfl)
  · exact .inr (.inr h)

theorem Inside.parent (hw : t.WellFormed) {a n p : NodeId} (h : t.Inside a n) (hn : n ≠ a)
    (hp : t.parent? n = some p) : t.Inside a p := by
  rw [Inside, hw.ancestors_of_parent hp, List.mem_cons] at h
  rcases h with rfl | rfl | h
  · exact absurd rfl hn
  · exact .inl rfl
  · exact .inr h

end

variable {t : Tree Rat}

/-- The tree with a node put elsewhere in its parent, as large as it is. -/
def moveTo (t : Tree Rat) (a : NodeId) (origin : Point Rat) : Tree Rat :=
  t.setFrame a ⟨origin, (t.frame a).size⟩

theorem size_frame_moveTo (a : NodeId) (origin : Point Rat) (n : NodeId) :
    ((t.moveTo a origin).frame n).size = (t.frame n).size := by
  rcases eq_or_ne n a with rfl | hn
  · rcases Nat.lt_or_ge n t.size with hlt | hge
    · rw [moveTo, frame_setFrame_self hlt]
    · rw [moveTo, setFrame_eq_self hge]
  · rw [moveTo, frame_setFrame_of_ne hn]

/-- All that lies in a node moves along with it. -/
theorem absoluteOrigin_moveTo (hw : t.WellFormed) {a : NodeId} (ha : a < t.size)
    (origin : Point Rat) (n : NodeId) (h : t.Inside a n) : (t.moveTo a origin).absoluteOrigin n
      = t.absoluteOrigin n + (origin - (t.frame a).origin) := by
  have hshape : t.SameShape (t.moveTo a origin) := sameShape_setFrame a _
  have hw' := hshape.wellFormed hw
  have hself : ((t.moveTo a origin).frame a).origin = origin := by
    rw [moveTo, frame_setFrame_self ha]
  -- From the root down: above `a` nothing moves, and from `a` on a child moves with its parent.
  induction n using hw.parent_induction with
  | root n hn =>
    obtain rfl : n = a := by simpa [Inside, ancestors_of_root hn] using h
    rw [absoluteOrigin_of_root (by rw [hshape.parent?, hn]), absoluteOrigin_of_root hn, hself]
    simp only [Point.add_eq, Point.sub_eq, add_sub_cancel]
  | child n p hp ih =>
    rw [absoluteOrigin_of_parent hw' (by rw [hshape.parent?, hp]), absoluteOrigin_of_parent hw hp]
    rcases eq_or_ne n a with rfl | hn
    · have habove : (t.moveTo n origin).absoluteOrigin p = t.absoluteOrigin p := by
        refine hshape.absoluteOrigin fun m hm => ?_
        rw [moveTo, frame_setFrame_of_ne]
        rintro rfl
        rw [← hw.ancestors_of_parent hp] at hm
        exact hw.not_mem_ancestors_self m hm
      rw [habove, hself]
      simp only [Point.add_eq, Point.sub_eq, Point.mk.injEq]
      exact ⟨by ring, by ring⟩
    · have hframe : (t.moveTo a origin).frame n = t.frame n := frame_setFrame_of_ne hn _
      rw [ih (h.parent hw hn hp), hframe]
      simp only [Point.add_eq, Point.mk.injEq]
      exact ⟨by ring, by ring⟩

/-- Two nodes that move along with a third keep their places as seen from each other. -/
theorem frameIn_moveTo (hw : t.WellFormed) {a n s : NodeId} (hn : t.Inside a n)
    (hs : t.Inside a s) (origin : Point Rat) :
    (t.moveTo a origin).frameIn n (some s) = t.frameIn n (some s) := by
  rcases Nat.lt_or_ge a t.size with ha | ha
  · have hw' : (t.moveTo a origin).WellFormed := (sameShape_setFrame a _).wellFormed hw
    have hspace : ∀ t' : Tree Rat, t'.spaceOrigin (some s) = t'.absoluteOrigin s := fun _ => rfl
    refine Rect.ext ?_ (size_frame_moveTo a origin n)
    rw [frameIn_origin hw', frameIn_origin hw, hspace, hspace,
      absoluteOrigin_moveTo hw ha origin n hn, absoluteOrigin_moveTo hw ha origin s hs]
    simp only [Point.add_eq, Point.sub_eq, add_sub_add_right_eq_sub]
  · rw [moveTo, setFrame_eq_self ha]

/-- In its own parent a node stands where its frame says. -/
theorem frameIn_parent (n : NodeId) : t.frameIn n (t.parent? n) = t.frame n := by
  simp only [frameIn, Rect.translate, Point.add_eq, Point.sub_eq, sub_self, add_zero]

/-- From one space to another a frame is translated by what lies between the two. -/
theorem frameIn_eq_translate (n : NodeId) (s s' : Option NodeId) :
    t.frameIn n s' = (t.frameIn n s).translate (t.spaceOrigin s - t.spaceOrigin s') := by
  simp only [frameIn, Rect.translate, Point.add_eq, Point.sub_eq, Rect.mk.injEq, Point.mk.injEq,
    and_true]
  exact ⟨by ring, by ring⟩

end Tree

/-- A site does not notice that something around it is put elsewhere, unless it measures a node that
lies outside. -/
theorem Site.alike_moveTo {tree : Tree Rat} (hw : tree.WellFormed) {node c a : NodeId}
    (hc : tree.parent? node = some c) (ha : tree.Inside a c) (origin : Point Rat)
    {refs : List NodeId} (h : ∀ n ∈ refs, tree.Inside a n) :
    Site.Alike ⟨tree, node⟩ ⟨tree.moveTo a origin, node⟩ refs := by
  have hshape : tree.SameShape (tree.moveTo a origin) := Tree.sameShape_setFrame a _
  refine
    { node := rfl
      container := hshape.parent? node
      containerSize := ?_
      siblings := hshape.siblings node
      name := hshape.name
      content := Tree.content_setFrame a node _
      frameOf := ?_ }
  · simp only [containerSize, Tree.containerSize?, hshape.parent?, hc, Option.map_some,
      Tree.size_frame_moveTo]
  · intro n hn
    simp only [frameOf, container, hshape.parent?, hc]
    exact Tree.frameIn_moveTo hw (h n hn) ha origin

namespace Session

variable {tree : Tree Rat} {node c a : NodeId} (config : Config Rat) (d : Direction)
  {cs : List (Directive Rat)}

theorem pass_moveTo (hw : tree.WellFormed) (hc : tree.parent? node = some c)
    (ha : tree.Inside a c) (href : ∀ c ∈ cs, ∀ n ∈ c.references, tree.Inside a n)
    (origin : Point Rat) : pass (tree.moveTo a origin) node config d cs
      = (pass tree node config d cs).moved ⟨tree.moveTo a origin, node⟩ := by
  refine pass_moved config d fun x hx => Site.alike_moveTo hw hc ha origin ?_
  intro n hn
  cases x with
  | relative r nodes =>
    -- Siblings have the same container, which lies in `a`.
    have hsibling : n ∈ tree.siblings node := of_decide_eq_true (List.mem_filter.1 hn).2
    exact ha.of_parent hw ((hw.parent?_of_mem_siblings hsibling).1.trans hc)
  | _ => exact href _ hx n hn

/-- Where the container is does not matter. When it, or something around it, is put elsewhere, a
session that refers to nothing outside of that gathers the same and comes to the same frame with the
same warnings: frames are seen alike from all that moves along. -/
theorem displaced_alike (hb : tree.Built) :
    (∀ (node c a : NodeId) (config : Config Rat) (d : Direction) (cs : List (Directive Rat))
      (origin : Point Rat), tree.parent? node = some c → tree.Inside a c →
      (∀ c ∈ cs, ∀ n ∈ c.references, tree.Inside a n) →
      let s := pass tree node config d cs
      let s' := pass (tree.moveTo a origin) node config d cs
      s'.constraints = s.constraints ∧ s'.resolution = s.resolution
        ∧ s'.commit.tree.frame node = s.commit.tree.frame node)
    ∧ (∀ (n s a : NodeId) (origin : Point Rat), tree.Inside a n → tree.Inside a s →
      (tree.moveTo a origin).frameIn n (some s) = tree.frameIn n (some s))
    ∧ (∀ n, tree.frameIn n (tree.parent? n) = tree.frame n)
    ∧ ∀ (n s s' : NodeId), tree.frameIn n (some s')
        = (tree.frameIn n (some s)).translate (tree.absoluteOrigin s - tree.absoluteOrigin s') := by
  have hw := hb.wellFormed
  refine ⟨?_, fun n s a origin hn hs => Tree.frameIn_moveTo hw hn hs origin, Tree.frameIn_parent,
    fun n s s' => Tree.frameIn_eq_translate n (some s) (some s')⟩
  intro node c a config d cs origin hc ha href s s'
  have hmoved : s' = s.moved ⟨tree.moveTo a origin, node⟩ :=
    pass_moveTo config d hw hc ha href origin
  -- The node itself lies in `a` and has not been touched.
  have hframe : (tree.moveTo a origin).frame node = tree.frame node := by
    refine Tree.frame_setFrame_of_ne ?_ _
    rintro rfl
    rcases ha with rfl | ha
    · exact absurd (hw.parent_lt hc) (lt_irrefl _)
    · exact absurd ((hw.lt_of_mem_ancestors ha).trans (hw.parent_lt hc)) (lt_irrefl _)
  have hsubject : s'.subject = s.subject := by
    rw [hmoved]
    simp only [subject, moved, hframe, s, pass_site]
    rw [Tree.moveTo, Tree.content_setFrame]
  have hresolution : s'.resolution = s.resolution := by
    rw [resolution, hsubject, hmoved]
    rfl
  have hlt : node < tree.size := Tree.lt_size_of_parent hc
  have hlt' : node < (tree.moveTo a origin).size := by
    rwa [Tree.moveTo, (Tree.sameShape_setFrame a _).size]
  refine ⟨by rw [hmoved]; rfl, hresolution, ?_⟩
  simp only [s, s', commit_tree_pass, Tree.frame_setFrame_self hlt, Tree.frame_setFrame_self hlt']
  exact congrArg Resolution.frame hresolution

/-- A card in a moved panel, placed by the panel's own right edge and after a dot inside its
neighbour. -/
theorem card_moves_with_panel :
    let tree : Tree Rat := ((∅ : Tree Rat).addRoot "root" ⟨⟨10, 0⟩, ⟨200, 100⟩⟩).1
    let tree := (tree.addChild 0 "panel" ⟨⟨5, 5⟩, ⟨90, 60⟩⟩).1
    let tree := (tree.addChild 1 "card" ⟨⟨0, 0⟩, ⟨40, 30⟩⟩).1
    let tree := (tree.addChild 1 "badge" ⟨⟨60, 10⟩, ⟨20, 20⟩⟩).1
    let tree := (tree.addChild 3 "dot" ⟨⟨1, 1⟩, ⟨4, 4⟩⟩).1
    let cs : List (Directive Rat) := [.sideTo .finish 1 .finish, .lineTo .mid 4 .high,
      .relative (.below none) [3, 0], .set (.size .horizontal) (.percent 50)]
    let s := pass tree 2 .standard .rtl cs
    let s' := pass (tree.moveTo 1 ⟨-30, 7⟩) 2 .standard .rtl cs
    tree.parent? 2 = some 1 ∧ tree.Inside 1 1
      ∧ (∀ c ∈ cs, ∀ n ∈ c.references, tree.Inside 1 n)
      ∧ s'.constraints = s.constraints ∧ s'.resolution = s.resolution
      ∧ s'.commit.tree.frame 2 = s.commit.tree.frame 2 := by
  intro tree₀ tree₁ tree₂ tree₃ tree cs s s'
  have hb : tree.Built := .addChild (.addChild (.addChild (.addChild (.addRoot .empty _ _)
    (by decide) _ _) (by decide) _ _) (by decide) _ _) (by decide) _ _
  have hp : tree.parent? 2 = some 1 := by decide +kernel
  have href : ∀ c ∈ cs, ∀ n ∈ c.references, tree.Inside 1 n := by decide +kernel
  exact ⟨hp, .inl rfl, href, (displaced_alike hb).1 2 1 1 .standard .rtl cs ⟨-30, 7⟩ hp (.inl rfl)
    href⟩

end Session

end Pinning
