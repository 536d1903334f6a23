import Pinning.Proofs.Forest
import Pinning.Scene.Views

/-!
# The forest of a script

Declaring a view adds nodes and sets their contents, and nothing else. So the tree that a script
declares is a forest (`Script.built_tree`). The order of a scene is kept beside its tree, with depths
that are counted on the way down; it lists the nodes as they stand in the tree, each with the number
of its ancestors (`Script.ordered_scene`).
-/

namespace Pinning

variable {α : Type}

namespace Tree

/-- The nodes of a tree are in another one, under the parents that they had. -/
structure Grows (t t' : Tree α) : Prop where
  size_le : t.size ≤ t'.size
  parent? {n : NodeId} (hn : n < t.size) : t'.parent? n = t.parent? n

/-- The depth of a node with this parent. -/
def depthUnder (t : Tree α) (parent : Option NodeId) : Nat :=
  parent.elim 0 fun p => (t.ancestors p).length + 1

theorem WellFormed.length_ancestors {t : Tree α} (hw : t.WellFormed) (n : NodeId) :
    (t.ancestors n).length = t.depthUnder (t.parent? n) := by
  cases hp : t.parent? n with
  | none => rw [ancestors_of_root hp, depthUnder, Option.elim_none, List.length_nil]
  | some p => rw [hw.ancestors_of_parent hp, depthUnder, Option.elim_some, List.length_cons]

namespace Grows

variable {t t' t'' : Tree α}

theorem refl (t : Tree α) : t.Grows t := ⟨le_rfl, fun _ => rfl⟩

theorem trans (h : t.Grows t') (h' : t'.Grows t'') : t.Grows t'' :=
  ⟨h.size_le.trans h'.size_le, fun hn =>
    (h'.parent? (hn.trans_le h.size_le)).trans (h.parent? hn)⟩

theorem ancestors (h : t.Grows t') (hw : t.WellFormed) (hw' : t'.WellFormed) {n : NodeId}
    (hn : n < t.size) : t'.ancestors n = t.ancestors n := by
  induction n using hw.parent_induction with
  | root n hroot =>
    rw [ancestors_of_root hroot, ancestors_of_root (by rw [h.parent? hn, hroot])]
  | child n p hp ih =>
    rw [hw.ancestors_of_parent hp, hw'.ancestors_of_parent (by rw [h.parent? hn, hp]),
      ih ((hw.parent_lt hp).trans hn)]

theorem depthUnder (h : t.Grows t') (hw : t.WellFormed) (hw' : t'.WellFormed)
    {parent : Option NodeId} (hp : ∀ p ∈ parent, p < t.size) :
    t'.depthUnder parent = t.depthUnder parent := by
  cases parent with
  | none => rfl
  | some p => exact congrArg (fun ids => ids.length + 1) (h.ancestors hw hw' (hp p rfl))

end Grows

end Tree

namespace Scene

/-- The order lists the nodes as they stand in the tree. -/
def Ordered (s : Scene α) : Prop :=
  s.order = s.tree.ids.map fun id => (id, (s.tree.ancestors id).length)

theorem ordered_empty : ({} : Scene α).Ordered := rfl

theorem Ordered.lt_size {s : Scene α} (ho : s.Ordered) {n : NodeId} {depth : Nat}
    (h : (n, depth) ∈ s.order) : n < s.tree.size := by
  rw [ho, List.mem_map] at h
  obtain ⟨n, hn, ⟨⟩⟩ := h
  exact List.mem_range.1 hn

section Add

variable (s : Scene α) (parent : Option NodeId) (depth : Nat) (name : String) (frame : Rect α)
  (content : Option (Size α))

theorem add_snd : (s.add parent depth name frame content).2 = s.tree.size := by
  cases parent <;> rfl

theorem order_add : (s.add parent depth name frame content).1.order
    = s.order ++ [(s.tree.size, depth)] := by
  cases parent <;> rfl

theorem size_add : (s.add parent depth name frame content).1.tree.size = s.tree.size + 1 := by
  cases parent with
  | none => exact (Tree.sameShape_setContent _ content).size.trans (Tree.size_addRoot name frame)
  | some p =>
    exact (Tree.sameShape_setContent _ content).size.trans (Tree.size_addChild p name frame)

variable {s parent}

theorem built_add (hb : s.tree.Built) (hp : ∀ p ∈ parent, p < s.tree.size) :
    (s.add parent depth name frame content).1.tree.Built := by
  cases parent with
  | none => exact (hb.addRoot name frame).setContent _ content
  | some p => exact (hb.addChild (hp p rfl) name frame).setContent _ content

theorem parent?_add (hp : ∀ p ∈ parent, p < s.tree.size) (n : NodeId) :
    (s.add parent depth name frame content).1.tree.parent? n
      = if n = s.tree.size then parent else s.tree.parent? n := by
  cases parent with
  | none =>
    refine ((Tree.sameShape_setContent _ content).parent? n).trans
      ((Tree.parent?_addRoot name frame n).trans ?_)
    split_ifs with hn
    · exact Tree.parent?_eq_none hn.ge
    · rfl
  | some p =>
    refine ((Tree.sameShape_setContent _ content).parent? n).trans ?_
    exact Tree.parent?_addChild (hp p rfl) name frame n

theorem grows_add (hp : ∀ p ∈ parent, p < s.tree.size) :
    s.tree.Grows (s.add parent depth name frame content).1.tree where
  size_le := (Nat.le_succ _).trans_eq (s.size_add ..).symm
  parent? hn := by rw [parent?_add _ _ _ _ hp, if_neg hn.ne]

theorem lt_size_add : ∀ p ∈ some (s.add parent depth name frame content).2,
    p < (s.add parent depth name frame content).1.tree.size := by
  simp [add_snd, size_add]

/-- What is declared in a view that is added lies one deeper. -/
theorem depthUnder_add (hb : s.tree.Built) (hp : ∀ p ∈ parent, p < s.tree.size) :
    (s.add parent depth name frame content).1.tree.depthUnder
        (some (s.add parent depth name frame content).2)
      = s.tree.depthUnder parent + 1 := by
  have hw' := (built_add depth name frame content hb hp).wellFormed
  rw [add_snd, Tree.depthUnder, Option.elim_some, hw'.length_ancestors, parent?_add _ _ _ _ hp,
    if_pos rfl, (grows_add depth name frame content hp).depthUnder hb.wellFormed hw' hp]

/-- The depth that is counted is that of the node. -/
theorem Ordered.add (ho : s.Ordered) (hb : s.tree.Built) (hp : ∀ p ∈ parent, p < s.tree.size)
    (hd : depth = s.tree.depthUnder parent) :
    (s.add parent depth name frame content).1.Ordered := by
  have hw := hb.wellFormed
  have hw' := (built_add depth name frame content hb hp).wellFormed
  have hg := grows_add depth name frame content hp
  have hnew : ((s.add parent depth name frame content).1.tree.ancestors s.tree.size).length
      = depth := by
    have hunder := depthUnder_add depth name frame content hb hp
    rw [add_snd] at hunder
    rw [hd]
    exact Nat.succ_injective hunder
  rw [Ordered, order_add, ho, Tree.ids, Tree.ids, size_add, List.range_succ, List.map_append,
    List.map_singleton, hnew]
  refine congrArg (· ++ _) (List.map_congr_left fun n hn => ?_)
  rw [hg.ancestors hw hw' (List.mem_range.1 hn)]

end Add

end Scene

variable [Scalar α]

namespace View

mutual

theorem built_declare {parent : Option NodeId} {depth : Nat} {s s' : Scene α} (hb : s.tree.Built)
    (hp : ∀ p ∈ parent, p < s.tree.size) : ∀ {v : View α}, declare parent depth s v = .ok s' →
      s'.tree.Built ∧ s.tree.Grows s'.tree
  | ⟨_, name, modifiers, children⟩, h => by
    rw [declare] at h
    split_ifs at h with hdup
    split at h
    · cases h
    · rename_i frame content _
      obtain ⟨hb', hg⟩ := built_declareAll (Scene.built_add _ _ _ _ hb hp)
        (Scene.lt_size_add _ _ _ _) h
      exact ⟨hb', (Scene.grows_add _ _ _ _ hp).trans hg⟩

theorem built_declareAll {parent : Option NodeId} {depth : Nat} {s s' : Scene α}
    (hb : s.tree.Built) (hp : ∀ p ∈ parent, p < s.tree.size) : ∀ {vs : List (View α)},
      declareAll parent depth s vs = .ok s' → s'.tree.Built ∧ s.tree.Grows s'.tree
  | [], h => by
    cases h
    exact ⟨hb, .refl _⟩
  | v :: vs, h => by
    rw [declareAll] at h
    split at h
    · cases h
    · rename_i s₁ hv
      obtain ⟨hb₁, hg₁⟩ := built_declare hb hp hv
      obtain ⟨hb', hg⟩ := built_declareAll hb₁ (fun p hp' => (hp p hp').trans_le hg₁.size_le) h
      exact ⟨hb', hg₁.trans hg⟩

end

mutual

theorem ordered_declare {parent : Option NodeId} {depth : Nat} {s s' : Scene α} (ho : s.Ordered)
    (hb : s.tree.Built) (hp : ∀ p ∈ parent, p < s.tree.size)
    (hd : depth = s.tree.depthUnder parent) :
    ∀ {v : View α}, declare parent depth s v = .ok s' → s'.Ordered
  | ⟨_, name, modifiers, children⟩, h => by
    rw [declare] at h
    split_ifs at h with hdup
    split at h
    · cases h
    · rename_i frame content _
      refine ordered_declareAll (ho.add _ _ _ _ hb hp hd) (Scene.built_add _ _ _ _ hb hp)
        (Scene.lt_size_add _ _ _ _) ?_ h
      rw [Scene.depthUnder_add _ _ _ _ hb hp, hd]

theorem ordered_declareAll {parent : Option NodeId} {depth : Nat} {s s' : Scene α}
    (ho : s.Ordered) (hb : s.tree.Built) (hp : ∀ p ∈ parent, p < s.tree.size)
    (hd : depth = s.tree.depthUnder parent) :
    ∀ {vs : List (View α)}, declareAll parent depth s vs = .ok s' → s'.Ordered
  | [], h => by
    cases h
    exact ho
  | v :: vs, h => by
    rw [declareAll] at h
    split at h
    · cases h
    · rename_i s₁ hv
      obtain ⟨hb₁, hg₁⟩ := built_declare hb hp hv
      refine ordered_declareAll (ordered_declare ho hb hp hd hv) hb₁
        (fun p hp' => (hp p hp').trans_le hg₁.size_le) ?_ h
      rw [hg₁.depthUnder hb.wellFormed hb₁.wellFormed hp, hd]

end

end View

namespace Script

variable {script : Script α}

theorem tree_eq_ok_iff {tree : Tree α} :
    script.tree = .ok tree ↔ ∃ scene, script.scene = .ok scene ∧ scene.tree = tree := by
  rw [Script.tree]
  cases script.scene <;> simp [Except.map]

theorem scene_eq_error_iff {e : SceneError} : script.scene = .error e ↔ script.tree = .error e := by
  rw [Script.tree]
  cases script.scene <;> simp [Except.map]

theorem tree_of_scene {scene : Scene α} (h : script.scene = .ok scene) :
    script.tree = .ok scene.tree :=
  tree_eq_ok_iff.2 ⟨scene, h, rfl⟩

/-- The views of a script make a forest. -/
theorem built_tree {tree : Tree α} (h : script.tree = .ok tree) : tree.Built := by
  obtain ⟨scene, hscene, rfl⟩ := tree_eq_ok_iff.1 h
  exact (View.built_declareAll .empty (fun p hp => by cases hp) hscene).1

/-- The order that is kept of a script's views agrees with their tree. -/
theorem ordered_scene {scene : Scene α} (h : script.scene = .ok scene) : scene.Ordered :=
  View.ordered_declareAll Scene.ordered_empty .empty (fun p hp => by cases hp) rfl h

end Script

end Pinning
