import Pinning.Proofs.Accumulation
import Pinning.Proofs.Forest

/-!
# What a directive reads

A directive reads the container's size, the siblings, the content of its own node and the frames of
the nodes it measures, all as seen from the container (`Site.Alike`). Sites that are alike in these
give it the same effects (`effects_congr`), and a whole chain the same session but for the site
(`issueAll_moved`). A new frame for a node goes unnoticed elsewhere unless something that is read
lies in that node (`alike_setFrame`). What a session reads never lies in its own node, so one that
comes after another on the same node reads what the first one read (`alike_setFrame_self`).
-/

namespace Pinning

variable {α : Type}

/-- The nodes that a directive names, but for those that only count as siblings. -/
def Directive.references : Directive α → List NodeId
  | .sideTo _ node _ | .lineTo _ node _ | .anchorTo _ node _ | .sizeOf _ node | .sizesOf node
  | .aspectRatioOf node => [node]
  | _ => []

/-- The nodes whose frames a directive measures: of those that only count as siblings, the siblings. -/
def Directive.reads (s : Site α) : Directive α → List NodeId
  | .relative _ nodes => nodes.filter (· ∈ s.tree.siblings s.node)
  | c => c.references

variable [Scalar α]

/-- Two sites of a node that a directive which measures `refs` cannot tell apart. -/
structure Site.Alike (s s' : Site α) (refs : List NodeId) : Prop where
  node : s'.node = s.node
  container : s'.container = s.container
  containerSize : s'.containerSize = s.containerSize
  siblings : s'.tree.siblings s'.node = s.tree.siblings s.node
  name (n : NodeId) : s'.tree.name n = s.tree.name n
  content : s'.tree.content s'.node = s.tree.content s.node
  frameOf {n : NodeId} (h : n ∈ refs) : s'.frameOf n = s.frameOf n

namespace Site.Alike

variable {s s' : Site α} {refs : List NodeId} (h : s.Alike s' refs)

include h

theorem label : s'.label = s.label := by rw [Site.label, Site.label, h.node, h.name]

/-- A frame has the same size from wherever it is seen. -/
theorem size {n : NodeId} (hn : n ∈ refs) :
    (s'.tree.frame n).size = (s.tree.frame n).size := by
  have hsize : (s'.frameOf n).size = (s.frameOf n).size := by rw [h.frameOf hn]
  exact hsize

end Site.Alike

namespace Directive

variable {s s' : Site α} (d : Direction)

theorem measured_congr (h : s'.containerSize = s.containerSize) (a : Axis) (v : Length α) :
    measured s' a v = measured s a v := by rw [measured, measured, h]

theorem setInset_congr (h : s'.containerSize = s.containerSize) (b : Border) (v : Length α) :
    setInset s' d b v = setInset s d b v := by
  simp only [setInset, measured_congr h, h]

theorem setMargin_congr (h : s'.containerSize = s.containerSize) (b : Border) (v : Length α) :
    setMargin s' d b v = setMargin s d b v := by
  simp only [setMargin, measured_congr h]

theorem setLength_congr (h : s'.containerSize = s.containerSize) (v : Length α)
    (setter : Setter) : setLength s' d v setter = setLength s d v setter := by
  cases setter <;>
    simp only [setLength, setInset_congr d h, setMargin_congr d h, setCenter, setSize,
      measured_congr h, h]

theorem place_congr (r : Relation) {nodes : List NodeId}
    (h : s.Alike s' ((relative r nodes).reads s)) : place s' d r nodes = place s d r nodes := by
  have hgroup : (nodes.filter (· ∈ s.tree.siblings s.node)).map s'.frameOf
      = (nodes.filter (· ∈ s.tree.siblings s.node)).map s.frameOf :=
    List.map_congr_left fun n hn => h.frameOf hn
  simp only [place, h.siblings, hgroup, h.name, h.label]

/-- A directive has the same effects where it reads the same. -/
theorem effects_congr (c : Directive α) (h : s.Alike s' (c.reads s)) :
    c.effects s' d = c.effects s d := by
  cases c with
  | set setter v => exact setLength_congr d h.containerSize v setter
  | sideTo own node target | lineTo own node target | anchorTo own node target =>
    simp only [effects, h.frameOf (n := node) List.mem_cons_self]
  | anchor own => simp only [effects, h.containerSize]
  | relative r nodes => exact place_congr d r h
  | sizes w h' => simp only [effects, setLength_congr d h.containerSize]
  | sizeOf a node =>
    simp only [effects, setLength_congr d h.containerSize, h.size (n := node) List.mem_cons_self]
  | sizesOf node =>
    simp only [effects, setLength_congr d h.containerSize, h.size (n := node) List.mem_cons_self]
  | aspectRatioOf node =>
    simp only [effects, h.size (n := node) List.mem_cons_self, h.name]
  | aspectRatioOfContent => simp only [effects, h.content]
  | margins i => simp only [effects, setMargin_congr d h.containerSize]
  | directionalMargins i => simp only [effects, setMargin_congr d h.containerSize]
  | aspectRatio | fitSize | pinEdges | justify | align | turn => rfl

end Directive

namespace Session

variable (s : Session α) {site : Site α}

/-- The same session on another site. -/
def moved (site : Site α) : Session α := { s with site }

theorem perform_moved (hc : site.container = s.site.container) (hl : site.label = s.site.label)
    (e : Effect α) : (s.moved site).perform e = (s.perform e).moved site := by
  cases e with
  | write slot v =>
    simp only [perform, moved, record, warn, hl]
    split_ifs <;> rfl
  | measure directive =>
    simp only [perform, moved, warn, hc, hl]
    split_ifs <;> rfl
  | _ => simp only [perform, moved, record, warn, hl]

theorem foldl_perform_moved : ∀ (es : List (Effect α)) (s : Session α),
    site.container = s.site.container → site.label = s.site.label →
      es.foldl perform (s.moved site) = (es.foldl perform s).moved site
  | [], _, _, _ => rfl
  | e :: es, s, hc, hl => by
    rw [List.foldl_cons, List.foldl_cons, perform_moved s hc hl]
    exact foldl_perform_moved es _ (by rwa [perform_site]) (by rwa [perform_site])

theorem issue_moved (c : Directive α) (h : s.site.Alike site (c.reads s.site)) :
    (s.moved site).issue c = (s.issue c).moved site := by
  rw [issue, issue, moved, Directive.effects_congr s.direction c h]
  exact foldl_perform_moved _ s h.container h.label

theorem issueAll_moved : ∀ (cs : List (Directive α)) (s : Session α),
    (∀ c ∈ cs, s.site.Alike site (c.reads s.site)) →
      (s.moved site).issueAll cs = (s.issueAll cs).moved site
  | [], _, _ => rfl
  | c :: cs, s, h => by
    rw [issueAll_cons, issueAll_cons, issue_moved s c (h c List.mem_cons_self)]
    refine issueAll_moved cs _ fun c' hc' => ?_
    rw [issue_site]
    exact h c' (List.mem_cons_of_mem _ hc')

/-- A chain that reads the same in two trees gathers the same in both, and warns of the same. -/
theorem pass_moved {tree tree' : Tree α} {node : NodeId} (config : Config α) (d : Direction)
    {cs : List (Directive α)}
    (h : ∀ c ∈ cs, Site.Alike ⟨tree, node⟩ ⟨tree', node⟩ (c.reads ⟨tree, node⟩)) :
    pass tree' node config d cs = (pass tree node config d cs).moved ⟨tree', node⟩ :=
  issueAll_moved cs (start tree node config d) h

end Session

/-- A new frame for a node goes unnoticed at a site that neither lies in that node nor measures it or
something inside it. -/
theorem Site.alike_setFrame {tree : Tree α} (hw : tree.WellFormed) {node other : NodeId}
    (frame : Rect α) {refs : List NodeId} (hnode : other ∉ tree.ancestors node)
    (h : ∀ n ∈ refs, n ≠ other ∧ other ∉ tree.ancestors n) :
    Site.Alike ⟨tree, node⟩ ⟨tree.setFrame other frame, node⟩ refs := by
  have hspace : ∀ s ∈ tree.parent? node, s ≠ other ∧ other ∉ tree.ancestors s := by
    intro s hs
    rw [hw.ancestors_of_parent hs, List.mem_cons, not_or] at hnode
    exact ⟨Ne.symm hnode.1, hnode.2⟩
  refine
    { node := rfl
      container := (Tree.sameShape_setFrame other frame).parent? node
      containerSize := ?_
      siblings := (Tree.sameShape_setFrame other frame).siblings node
      name := (Tree.sameShape_setFrame other frame).name
      content := Tree.content_setFrame other node frame
      frameOf := ?_ }
  · have hsize : (tree.setFrame other frame).containerSize? node = tree.containerSize? node := by
      rw [Tree.containerSize?, Tree.containerSize?, (Tree.sameShape_setFrame other frame).parent?]
      cases hp : tree.parent? node with
      | none => rfl
      | some p => simp [Tree.frame_setFrame_of_ne (hspace p hp).1]
    simp only [containerSize, hsize]
  · intro n hn
    obtain ⟨hne, ha⟩ := h n hn
    simp only [Site.frameOf, Site.container, (Tree.sameShape_setFrame other frame).parent?]
    exact Tree.frameIn_setFrame hw frame hne ha hspace

/-- A node that has got a new frame looks to a directive as it did before, unless that refers to the
node or into it. -/
theorem Site.alike_setFrame_self {tree : Tree α} (hw : tree.WellFormed) {node : NodeId}
    (frame : Rect α) {c : Directive α}
    (h : ∀ n ∈ c.references, n ≠ node ∧ node ∉ tree.ancestors n) :
    Site.Alike ⟨tree, node⟩ ⟨tree.setFrame node frame, node⟩ (c.reads ⟨tree, node⟩) := by
  refine alike_setFrame hw frame (hw.not_mem_ancestors_self node) ?_
  intro n hn
  cases c with
  | relative r nodes =>
    exact hw.not_mem_ancestors_sibling (of_decide_eq_true (List.mem_filter.1 hn).2)
  | _ => exact h n hn

end Pinning
