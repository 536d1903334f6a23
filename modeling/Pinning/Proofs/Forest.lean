import Mathlib.Data.List.Basic
import Mathlib.Order.Nat
import Mathlib.Tactic.SplitIfs
import Pinning.Session

/-!
# The forest of frames

A tree that is built by adding nodes and setting their contents and frames (`Tree.Built`) is a
forest: a parent comes before its children, and it lists them in their order (`Built.wellFormed`).
So the climb to the root meets all the ancestors (`ancestors_of_parent`).

A new frame for a node is seen from that node and from inside it, and from nowhere else
(`frameIn_setFrame`).
-/

namespace Pinning

variable {α : Type}

namespace Tree

/-- The trees that come of adding nodes and setting their contents and frames. -/
inductive Built : Tree α → Prop
  | empty : Built ∅
  | addRoot {t : Tree α} (h : Built t) (name : String) (frame : Rect α) :
    Built (t.addRoot name frame).1
  | addChild {t : Tree α} (h : Built t) {parent : NodeId} (hp : parent < t.size) (name : String)
    (frame : Rect α) : Built (t.addChild parent name frame).1
  | setContent {t : Tree α} (h : Built t) (id : NodeId) (size : Option (Size α)) :
    Built (t.setContent id size)
  | setFrame {t : Tree α} (h : Built t) (id : NodeId) (frame : Rect α) : Built (t.setFrame id frame)

/-- Parents come first, and list their children in order. -/
structure WellFormed (t : Tree α) : Prop where
  parent_lt {n p : ℕ} (h : t.parent? n = some p) : p < n
  children_eq (p : NodeId) : t.children p = t.ids.filter fun n => t.parent? n = some p

variable {t : Tree α}

/-- Two trees with the same nodes in the same places, whatever their contents and frames. -/
structure SameShape (t t' : Tree α) : Prop where
  size : t'.size = t.size
  parent? (n : NodeId) : t'.parent? n = t.parent? n
  children (n : NodeId) : t'.children n = t.children n
  name (n : NodeId) : t'.name n = t.name n

theorem node?_modify (id n : NodeId) (c : Node.Change α) :
    (t.modify id c).node? n = if n = id then (t.node? n).map c.apply else t.node? n := by
  simp only [node?, modify, Array.getElem?_modify]
  split_ifs with h h' h' <;> simp_all

theorem node?_insert (x : Node α) (n : NodeId) :
    (t.insert x).node? n = if n = t.size then some x else t.node? n :=
  Array.getElem?_push

theorem size_modify (id : NodeId) (c : Node.Change α) : (t.modify id c).size = t.size :=
  Array.size_modify

theorem size_insert (x : Node α) : (t.insert x).size = t.size + 1 := Array.size_push _

theorem size_addRoot (name : String) (frame : Rect α) :
    (t.addRoot name frame).1.size = t.size + 1 := size_insert _

theorem size_addChild (parent : NodeId) (name : String) (frame : Rect α) :
    (t.addChild parent name frame).1.size = t.size + 1 := by
  simp only [addChild, size_modify, size_insert]

theorem node?_eq_none {n : NodeId} (h : t.size ≤ n) : t.node? n = none :=
  Array.getElem?_eq_none h

theorem parent?_eq_none {n : NodeId} (h : t.size ≤ n) : t.parent? n = none := by
  rw [parent?, node?_eq_none h, Option.bind_none]

theorem lt_size_of_parent {n p : NodeId} (h : t.parent? n = some p) : n < t.size := by
  rcases Nat.lt_or_ge n t.size with hn | hn
  · exact hn
  · rw [parent?_eq_none hn] at h
    cases h

/-- A new root has no parent and no children, like a number that belongs to no node. -/
theorem parent?_addRoot (name : String) (frame : Rect α) (n : NodeId) :
    (t.addRoot name frame).1.parent? n = t.parent? n := by
  simp only [parent?, addRoot, node?_insert]
  split_ifs with h
  · rw [node?_eq_none h.ge]
    rfl
  · rfl

theorem children_addRoot (name : String) (frame : Rect α) (n : NodeId) :
    (t.addRoot name frame).1.children n = t.children n := by
  simp only [children, addRoot, node?_insert]
  split_ifs with h
  · rw [node?_eq_none h.ge]
    rfl
  · rfl

theorem node?_addChild {parent : NodeId} (hp : parent < t.size) (name : String) (frame : Rect α)
    (n : NodeId) : (t.addChild parent name frame).1.node? n
      = if n = t.size then some { name, frame, parent := some parent }
        else if n = parent then
          (t.node? n).map fun x => { x with children := x.children ++ [t.size] }
        else t.node? n := by
  simp only [addChild, node?_modify, node?_insert]
  rcases eq_or_ne n parent with rfl | hn
  · simp [hp.ne, Node.Change.child]
  · simp [hn]

theorem parent?_addChild {parent : NodeId} (hp : parent < t.size) (name : String) (frame : Rect α)
    (n : NodeId) : (t.addChild parent name frame).1.parent? n
      = if n = t.size then some parent else t.parent? n := by
  simp only [parent?, node?_addChild hp]
  split_ifs with h h'
  · rfl
  · cases t.node? n <;> rfl
  · rfl

theorem children_addChild {parent : NodeId} (hp : parent < t.size) (name : String)
    (frame : Rect α) (n : NodeId) : (t.addChild parent name frame).1.children n
      = if n = parent then t.children n ++ [t.size] else t.children n := by
  simp only [children, node?_addChild hp]
  rcases eq_or_ne n t.size with rfl | hn
  · rw [if_pos rfl, if_neg hp.ne', node?_eq_none le_rfl]
    rfl
  · rw [if_neg hn]
    split_ifs with h
    · subst h
      obtain ⟨x, hx⟩ : ∃ x, t.node? n = some x := ⟨_, Array.getElem?_eq_getElem hp⟩
      rw [hx]
      rfl
    · rfl

theorem sameShape_modify (id : NodeId) {c : Node.Change α}
    (h : ∀ x, (c.apply x).parent = x.parent ∧ (c.apply x).children = x.children) :
    t.SameShape (t.modify id c) where
  size := size_modify id c
  parent? n := by
    rw [Tree.parent?, Tree.parent?, node?_modify]
    split_ifs
    · cases hx : t.node? n with
      | none => rfl
      | some x => exact (h x).1
    · rfl
  children n := by
    rw [Tree.children, Tree.children, node?_modify]
    split_ifs
    · cases hx : t.node? n with
      | none => rfl
      | some x => exact (h x).2
    · rfl
  name n := by
    rw [Tree.name, Tree.name, node?_modify]
    split_ifs
    · cases hx : t.node? n with
      | none => rfl
      | some x => exact c.name_apply x
    · rfl

theorem sameShape_setFrame (id : NodeId) (frame : Rect α) : t.SameShape (t.setFrame id frame) :=
  sameShape_modify id fun _ => ⟨rfl, rfl⟩

theorem sameShape_setContent (id : NodeId) (size : Option (Size α)) :
    t.SameShape (t.setContent id size) :=
  sameShape_modify id fun _ => ⟨rfl, rfl⟩

theorem SameShape.refl (t : Tree α) : t.SameShape t :=
  ⟨rfl, fun _ => rfl, fun _ => rfl, fun _ => rfl⟩

theorem SameShape.trans {t' t'' : Tree α} (h : t.SameShape t') (h' : t'.SameShape t'') :
    t.SameShape t'' where
  size := h'.size.trans h.size
  parent? n := (h'.parent? n).trans (h.parent? n)
  children n := (h'.children n).trans (h.children n)
  name n := (h'.name n).trans (h.name n)

theorem SameShape.wellFormed {t' : Tree α} (h : t.SameShape t') (hw : t.WellFormed) :
    t'.WellFormed where
  parent_lt hp := hw.parent_lt (by rwa [h.parent?] at hp)
  children_eq p := by simp only [h.children, hw.children_eq, ids, h.size, h.parent?]

theorem WellFormed.mem_children (hw : t.WellFormed) {p n : NodeId} :
    n ∈ t.children p ↔ t.parent? n = some p := by
  rw [hw.children_eq, List.mem_filter, decide_eq_true_eq, ids, List.mem_range]
  exact ⟨And.right, fun h => ⟨lt_size_of_parent h, h⟩⟩

theorem WellFormed.addRoot (hw : t.WellFormed) (name : String) (frame : Rect α) :
    (t.addRoot name frame).1.WellFormed where
  parent_lt hp := hw.parent_lt (by rwa [parent?_addRoot] at hp)
  children_eq p := by
    simp only [children_addRoot, hw.children_eq, ids, size_addRoot, parent?_addRoot,
      List.range_succ, List.filter_append, List.filter_cons, List.filter_nil,
      parent?_eq_none le_rfl]
    simp

theorem WellFormed.addChild (hw : t.WellFormed) {parent : NodeId} (hp : parent < t.size)
    (name : String) (frame : Rect α) : (t.addChild parent name frame).1.WellFormed where
  parent_lt := by
    intro n p h
    rw [parent?_addChild hp] at h
    split_ifs at h with hn
    · cases h
      exact hn ▸ hp
    · exact hw.parent_lt h
  children_eq p := by
    have hold : (List.range t.size).filter (fun n =>
        (t.addChild parent name frame).1.parent? n = some p) = t.children p := by
      rw [hw.children_eq]
      refine List.filter_congr fun n hn => ?_
      rw [parent?_addChild hp, if_neg (List.mem_range.1 hn).ne]
    rw [ids, size_addChild, List.range_succ, List.filter_append, hold, children_addChild hp]
    simp only [List.filter_cons, List.filter_nil, parent?_addChild hp, if_true, Option.some.injEq]
    by_cases h : p = parent
    · simp [h]
    · simp [h, Ne.symm h]

theorem Built.wellFormed (h : t.Built) : t.WellFormed := by
  induction h with
  | empty => exact ⟨fun h => by simp [parent?, node?, EmptyCollection.emptyCollection] at h,
      fun p => by simp [children, node?, ids, size, EmptyCollection.emptyCollection]⟩
  | addRoot _ name frame ih => exact ih.addRoot name frame
  | addChild _ hp name frame ih => exact ih.addChild hp name frame
  | setContent _ id size ih => exact (sameShape_setContent id size).wellFormed ih
  | setFrame _ id frame ih => exact (sameShape_setFrame id frame).wellFormed ih

/-- What holds of a node whenever it holds of its parent holds of every node. -/
theorem WellFormed.parent_induction (hw : t.WellFormed) {P : NodeId → Prop}
    (root : ∀ n, t.parent? n = none → P n) (child : ∀ n p, t.parent? n = some p → P p → P n)
    (n : NodeId) : P n := by
  induction n using Nat.strong_induction_on with
  | h n ih =>
    cases h : t.parent? n with
    | none => exact root n h
    | some p => exact child n p h (ih p (hw.parent_lt h))

theorem SameShape.climb {t' : Tree α} (h : t.SameShape t') : ∀ (k : ℕ) (n : NodeId),
    ancestors.climb t' k n = ancestors.climb t k n
  | 0, _ => rfl
  | k + 1, n => by simp only [ancestors.climb, h.parent?, h.climb k]

theorem SameShape.ancestors {t' : Tree α} (h : t.SameShape t') (n : NodeId) :
    t'.ancestors n = t.ancestors n := h.climb n n

/-- The climb takes no more steps than the node's number. -/
theorem WellFormed.climb_eq (hw : t.WellFormed) : ∀ {k m n : ℕ}, n ≤ k → n ≤ m →
    ancestors.climb t k n = ancestors.climb t m n
  -- Both fuels reach a root, as numbers fall with every step.
  | 0, 0, _, _, _ => rfl
  | 0, m + 1, n, hk, _ => by
    cases h : t.parent? n with
    | none => simp [ancestors.climb, h]
    | some p => exact absurd (hw.parent_lt h) (by omega)
  | k + 1, 0, n, _, hm => by
    cases h : t.parent? n with
    | none => simp [ancestors.climb, h]
    | some p => exact absurd (hw.parent_lt h) (by omega)
  | k + 1, m + 1, n, hk, hm => by
    simp only [ancestors.climb]
    cases h : t.parent? n with
    | none => rfl
    | some p =>
      have hlt := hw.parent_lt h
      simp only []
      rw [hw.climb_eq (m := m) (by omega) (by omega)]

theorem ancestors_of_root {n : NodeId} (h : t.parent? n = none) : t.ancestors n = [] := by
  cases n with
  | zero => rfl
  | succ n => simp [ancestors, ancestors.climb, h]

theorem WellFormed.ancestors_of_parent (hw : t.WellFormed) {n p : ℕ}
    (h : t.parent? n = some p) : t.ancestors n = p :: t.ancestors p := by
  have hlt := hw.parent_lt h
  obtain ⟨k, rfl⟩ : ∃ k, n = k + 1 := ⟨n - 1, by omega⟩
  rw [ancestors, ancestors.climb, h]
  simp only [List.cons.injEq, true_and]
  exact hw.climb_eq (by omega) le_rfl

theorem WellFormed.lt_of_mem_ancestors (hw : t.WellFormed) {n a : NodeId}
    (h : a ∈ t.ancestors n) : a < n := by
  induction n using hw.parent_induction with
  | root n hn => simp [ancestors_of_root hn] at h
  | child n p hp ih =>
    rw [hw.ancestors_of_parent hp, List.mem_cons] at h
    rcases h with rfl | h
    · exact hw.parent_lt hp
    · exact (ih h).trans (hw.parent_lt hp)

theorem WellFormed.parent?_of_mem_siblings (hw : t.WellFormed) {n m : NodeId}
    (h : m ∈ t.siblings n) : t.parent? m = t.parent? n ∧ m ≠ n ∧ m < t.size := by
  unfold siblings at h
  cases hp : t.parent? n with
  | some p =>
    simp only [hp, hw.children_eq, List.mem_filter, decide_eq_true_eq, ids, List.mem_range] at h
    exact ⟨h.1.2, h.2, h.1.1⟩
  | none =>
    simp only [hp, List.mem_filter, decide_eq_true_eq, ids, List.mem_range] at h
    exact ⟨h.2.2, h.2.1, h.1⟩

theorem WellFormed.not_mem_ancestors_self (hw : t.WellFormed) (n : NodeId) : n ∉ t.ancestors n :=
  fun h => absurd (hw.lt_of_mem_ancestors h) (lt_irrefl _)

/-- No sibling lies in the node. -/
theorem WellFormed.not_mem_ancestors_sibling (hw : t.WellFormed) {n m : NodeId}
    (h : m ∈ t.siblings n) : m ≠ n ∧ n ∉ t.ancestors m := by
  obtain ⟨hp, hne, -⟩ := hw.parent?_of_mem_siblings h
  refine ⟨hne, fun ha => ?_⟩
  cases hp' : t.parent? n with
  | none =>
    rw [ancestors_of_root (hp.trans hp')] at ha
    cases ha
  | some p =>
    rw [hw.ancestors_of_parent (hp.trans hp'), ← hw.ancestors_of_parent hp'] at ha
    exact hw.not_mem_ancestors_self n ha

theorem SameShape.siblings {t' : Tree α} (h : t.SameShape t') (n : NodeId) :
    t'.siblings n = t.siblings n := by
  simp only [Tree.siblings, h.parent?, h.children, ids, h.size]

section Frames

variable [Scalar α]

theorem frame_setFrame_of_ne {id n : NodeId} (h : n ≠ id) (frame : Rect α) :
    (t.setFrame id frame).frame n = t.frame n := by
  rw [Tree.frame, Tree.frame, setFrame, node?_modify, if_neg h]

theorem frame_setFrame_self {id : NodeId} (h : id < t.size) (frame : Rect α) :
    (t.setFrame id frame).frame id = frame := by
  obtain ⟨x, hx⟩ : ∃ x, t.node? id = some x := ⟨_, Array.getElem?_eq_getElem h⟩
  rw [Tree.frame, setFrame, node?_modify, if_pos rfl, hx]
  rfl

omit [Scalar α] in
theorem content_setFrame (id n : NodeId) (frame : Rect α) :
    (t.setFrame id frame).content n = t.content n := by
  rw [Tree.content, Tree.content, setFrame, node?_modify]
  split_ifs
  · cases t.node? n <;> rfl
  · rfl

omit [Scalar α] in
theorem setFrame_eq_self {id : NodeId} (h : t.size ≤ id) (frame : Rect α) :
    t.setFrame id frame = t := by
  refine ext_nodes (Array.ext_getElem? fun n => ?_)
  simp only [setFrame, modify, Array.getElem?_modify]
  split_ifs with hn
  · subst hn
    rw [Array.getElem?_eq_none h]
    rfl
  · rfl

theorem setFrame_frame (id : NodeId) : t.setFrame id (t.frame id) = t := by
  refine ext_nodes (Array.ext_getElem? fun n => ?_)
  simp only [setFrame, modify, Array.getElem?_modify]
  split_ifs with h
  · subst h
    rw [Tree.frame, node?]
    cases t.nodes[id]? <;> rfl
  · rfl

omit [Scalar α] in
theorem setFrame_setFrame (id : NodeId) (frame frame' : Rect α) :
    (t.setFrame id frame).setFrame id frame' = t.setFrame id frame' := by
  refine ext_nodes (Array.ext_getElem? fun n => ?_)
  simp only [setFrame, modify, Array.getElem?_modify]
  split_ifs
  · rw [Option.map_map]
    rfl
  · rfl

omit [Scalar α] in
theorem setFrame_comm {id id' : NodeId} (h : id ≠ id') (frame frame' : Rect α) :
    (t.setFrame id frame).setFrame id' frame' = (t.setFrame id' frame').setFrame id frame := by
  refine ext_nodes (Array.ext_getElem? fun n => ?_)
  simp only [setFrame, modify, Array.getElem?_modify]
  split_ifs with h' h''
  · exact absurd (h''.trans h'.symm) h
  · rfl
  · rfl
  · rfl

/-- The corner of a node depends on where it and its ancestors stand in their parents. -/
theorem SameShape.absoluteOrigin {t' : Tree α} (h : t.SameShape t') {n : NodeId}
    (hf : ∀ m ∈ n :: t.ancestors n, (t'.frame m).origin = (t.frame m).origin) :
    t'.absoluteOrigin n = t.absoluteOrigin n := by
  rw [Tree.absoluteOrigin, Tree.absoluteOrigin, h.ancestors, hf n List.mem_cons_self]
  refine List.foldl_ext _ _ _ fun o m hm => ?_
  rw [hf m (List.mem_cons_of_mem _ hm)]

/-- The frame of a node as seen from a space depends on its own frame, and on where its ancestors
and the space stand. -/
theorem SameShape.frameIn {t' : Tree α} (h : t.SameShape t') {n : NodeId} {space : Option NodeId}
    (hw : t.WellFormed) (hn : t'.frame n = t.frame n)
    (ha : ∀ m ∈ t.ancestors n, (t'.frame m).origin = (t.frame m).origin)
    (hs : ∀ s ∈ space, ∀ m ∈ s :: t.ancestors s, (t'.frame m).origin = (t.frame m).origin) :
    t'.frameIn n space = t.frameIn n space := by
  have hspace : t'.spaceOrigin space = t.spaceOrigin space := by
    cases space with
    | none => rfl
    | some s => exact h.absoluteOrigin (hs s rfl)
  have hparent : t'.spaceOrigin (t.parent? n) = t.spaceOrigin (t.parent? n) := by
    cases hp : t.parent? n with
    | none => rfl
    | some p =>
      rw [hw.ancestors_of_parent hp] at ha
      exact h.absoluteOrigin ha
  rw [Tree.frameIn, Tree.frameIn, h.parent?, hn, hspace, hparent]

/-- A node's frame is seen from that node and its descendants only. -/
theorem frameIn_setFrame (hw : t.WellFormed) {id n : NodeId} {space : Option NodeId}
    (frame : Rect α) (hn : n ≠ id) (ha : id ∉ t.ancestors n)
    (hs : ∀ s ∈ space, s ≠ id ∧ id ∉ t.ancestors s) :
    (t.setFrame id frame).frameIn n space = t.frameIn n space := by
  have hne : ∀ {m k : NodeId}, k ≠ id → id ∉ t.ancestors k → m ∈ k :: t.ancestors k →
      ((t.setFrame id frame).frame m).origin = (t.frame m).origin := by
    intro m k hk ha hm
    rw [frame_setFrame_of_ne]
    rintro rfl
    rcases List.mem_cons.1 hm with rfl | hm
    · exact hk rfl
    · exact ha hm
  exact (sameShape_setFrame id frame).frameIn hw (frame_setFrame_of_ne hn frame)
    (fun m hm => hne hn ha (List.mem_cons_of_mem _ hm))
    fun s hs' m hm => hne (hs s hs').1 (hs s hs').2 hm

end Frames

end Tree

end Pinning
