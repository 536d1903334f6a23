import Pinning.Proofs.Declarations
import Pinning.Proofs.Independence

/-!
# Numbers of nodes

A number comes into a run by the name of a node (`lookUp_yields`), or from the tree itself, where the
numbers of parents and children are those of nodes (`WellFormed.parent_lt_size`). No statement takes
a node away. So all the numbers that a run has at hand belong to nodes of its tree
(`Stage.inBounds_after`): those that the directives of its calls name, the node of a session and its
container, and the order in which the views are reported.
-/

namespace Pinning

variable {α β γ ε : Type}

/-- A result, if there is one, has the property. -/
def Yields (P : β → Prop) (x : Except ε β) : Prop := ∀ b, x = .ok b → P b

namespace Yields

variable {P : β → Prop} {Q : γ → Prop} {x : Except ε β}

theorem ok {b : β} (h : P b) : Yields P (.ok b : Except ε β) := by
  intro b' hb
  cases hb
  exact h

theorem error (e : ε) : Yields P (.error e) := fun _ hb => by cases hb

theorem bind {k : β → Except ε γ} (hx : Yields P x) (hk : ∀ b, P b → Yields Q (k b)) :
    Yields Q (x >>= k) := by
  rcases x with e | b
  · exact error e
  · exact hk b (hx b rfl)

/-- It does not matter what comes first. -/
theorem of_bind {k : β → Except ε γ} (hk : ∀ b, Yields Q (k b)) : Yields Q (x >>= k) := by
  rcases x with e | b
  · exact error e
  · exact hk b

end Yields

namespace Tree

variable (t : Tree α)

theorem lookUp_yields (name : String) (span : Span) : Yields (· < t.size) (t.lookUp name span) := by
  unfold lookUp
  rcases h : t.find? name with _ | id
  · exact .error _
  · exact .ok (name_of_find? h).1

end Tree

/-- The directive names nodes of the tree. -/
def Directive.In (t : Tree α) (d : Directive α) : Prop := ∀ n ∈ d.named, n < t.size

namespace Call

open Directive (In)

variable (t : Tree α) (c : Call α)

theorem bad_yields {P : β → Prop} (usage : Usage) :
    Yields P (c.bad usage : Except SceneError β) := .error _

theorem nodes_yields (usage : Usage) : ∀ items : List (Arg α),
    Yields (fun ids => ∀ n ∈ ids, n < t.size) (c.nodes t usage items)
  | [] => .ok (by simp)
  | item :: items => by
    cases item with
    | name span node =>
      refine (t.lookUp_yields node span).bind fun id hid => ?_
      exact (nodes_yields usage items).bind fun ids hids => .ok (by simpa using ⟨hid, hids⟩)
    | _ => exact c.bad_yields usage

/-- A directive that names the node that is looked up and no other. -/
theorem reference_yields {name : String} {span : Span} {directive : NodeId → Directive α}
    (h : ∀ n, (directive n).named = [n]) :
    Yields (In t) (t.lookUp name span >>= fun n => .ok (directive n)) :=
  (t.lookUp_yields name span).bind fun n hn => .ok (by simpa [In, h] using hn)

theorem plain_yields {d : Directive α} (h : d.named = []) :
    Yields (In t) (.ok d : Except SceneError (Directive α)) := .ok (by simp [In, h])

theorem setter_yields [Scalar α] (s : Setter) : Yields (In t) (c.setter t s) := by
  unfold setter
  split
  · split
    · exact plain_yields t rfl
    · exact c.bad_yields _
  · exact plain_yields t rfl
  · exact plain_yields t rfl
  · split
    · exact .of_bind fun target => reference_yields t fun n => rfl
    · exact .of_bind fun target => reference_yields t fun n => rfl
    · exact c.bad_yields _
  · split
    · exact reference_yields t fun n => rfl
    · exact c.bad_yields _
  · exact c.bad_yields _

theorem anchor_yields (own : Anchor) : Yields (In t) (c.anchor t own) := by
  unfold anchor
  split
  · exact plain_yields t rfl
  · exact .of_bind fun target => reference_yields t fun n => rfl
  · exact c.bad_yields _
  · exact c.bad_yields _

theorem go_yields (usage : Usage) (word? : String → Option β) (relation : Option β → Relation)
    (targets : Arg α) (word : Option String) :
    Yields (In t) (place.go t c usage word? relation targets word) := by
  unfold place.go
  cases targets with
  | name | list =>
    refine (c.nodes_yields t usage _).bind fun ids hids => ?_
    rcases word with _ | w
    · exact .ok hids
    · exact .of_bind fun b => .ok hids
  | _ => exact c.bad_yields usage

theorem place_yields (usage : Usage) (word? : String → Option β) (relation : Option β → Relation) :
    Yields (In t) (c.place t usage word? relation) := by
  unfold place
  split
  · exact go_yields t c usage word? relation _ _
  · split
    · exact .of_bind fun w => go_yields t c usage word? relation _ _
    · exact c.bad_yields usage
  · exact c.bad_yields usage

theorem size_yields : Yields (In t) (c.size t) := by
  unfold size
  split
  · exact reference_yields t fun n => rfl
  · exact .of_bind fun v => plain_yields t rfl
  · exact .of_bind fun w => .of_bind fun h => plain_yields t rfl
  · exact c.bad_yields _

theorem aspectRatio_yields : Yields (In t) (c.aspectRatio t) := by
  unfold aspectRatio
  split
  · exact plain_yields t rfl
  · exact plain_yields t rfl
  · exact reference_yields t fun n => rfl
  · exact c.bad_yields _
  · exact c.bad_yields _

theorem flag_yields {d : Directive α} (h : d.named = []) : Yields (In t) (c.flag d) := by
  unfold flag
  split
  · exact plain_yields t h
  · exact c.bad_yields _

theorem margin_yields : Yields (In t) c.margin := by
  unfold margin
  exact .of_bind fun insets => plain_yields t rfl

theorem word_yields (usage : Usage) (word? : String → Option β) {directive : β → Directive α}
    (h : ∀ b, (directive b).named = []) : Yields (In t) (c.word usage word? directive) := by
  unfold word
  split
  · exact .of_bind fun b => plain_yields t (h b)
  · exact c.bad_yields _

/-- The numbers that the directive of a call names belong to nodes. -/
theorem directive_yields [Scalar α] : Yields (In t) (c.directive t) := by
  unfold directive
  split
  · exact .error _
  · exact c.setter_yields t _
  · exact c.anchor_yields t _
  iterate 6 exact c.place_yields t _ _ _
  · exact c.size_yields t
  · exact c.aspectRatio_yields t
  iterate 2 exact c.flag_yields t rfl
  · exact c.margin_yields t
  iterate 2 exact c.word_yields t _ _ fun b => rfl

theorem directives_yields [Scalar α] : ∀ calls : List (Call α),
    Yields (fun ds => ∀ d ∈ ds, In t d) (calls.mapM (Call.directive t))
  | [] => .ok (by simp)
  | c :: calls => by
    rw [List.mapM_cons]
    refine (directive_yields t c).bind fun d hd => ?_
    exact (directives_yields calls).bind fun ds hds => .ok (List.forall_mem_cons.2 ⟨hd, hds⟩)

end Call

theorem Tree.WellFormed.parent_lt_size {t : Tree α} (hw : t.WellFormed) {n p : NodeId}
    (h : t.parent? n = some p) : p < t.size :=
  (hw.parent_lt h).trans (lt_size_of_parent h)

variable [Scalar α]

/-- Every number that a run has at hand between two statements belongs to a node. -/
structure Stage.InBounds (config : Config α) (s : Stage α) : Prop where
  directive {c : Call α} {d : Directive α} (h : c.directive s.tree = .ok d) {n : NodeId}
    (hn : n ∈ d.named) : n < s.tree.size
  session {target : Spanned String} {calls : List (Call α)} {session : Session α}
    (h : s.session config target calls = .ok session) :
    session.site.tree = s.tree ∧ session.site.node < s.tree.size
      ∧ ∀ p ∈ session.site.container, p < s.tree.size
  parent {n p : NodeId} (h : s.tree.parent? n = some p) : n < s.tree.size ∧ p < s.tree.size
  child {n p : NodeId} (h : n ∈ s.tree.children p) : n < s.tree.size ∧ p < s.tree.size
  named {name : String} {n : NodeId} (h : (name, n) ∈ s.tree.byName) : n < s.tree.size
  reported {n : NodeId} {depth : Nat} (h : (n, depth) ∈ s.scene.order) : n < s.tree.size

theorem Stage.inBounds {s : Stage α} (hw : s.tree.WellFormed) (ho : s.scene.Ordered)
    (config : Config α) : s.InBounds config where
  directive h n hn := Call.directive_yields s.tree _ _ h n hn
  session h := by
    obtain ⟨node, ds, hnode, -, rfl⟩ := exists_of_session h
    rw [Session.pass_site]
    exact ⟨rfl, (Tree.name_of_find? hnode).1, fun p hp => hw.parent_lt_size hp⟩
  parent h := ⟨Tree.lt_size_of_parent h, hw.parent_lt_size h⟩
  child h :=
    have hp := hw.mem_children.1 h
    ⟨Tree.lt_size_of_parent hp, hw.parent_lt_size hp⟩
  named h := by
    rw [Tree.byName_eq_map, List.mem_map] at h
    obtain ⟨n, hn, ⟨⟩⟩ := h
    exact List.mem_range.1 (List.mem_reverse.1 hn)
  reported h := ho.lt_size h

/-- Statements add no node and take none away. -/
theorem Script.inBounds_after {script : Script α} {scene : Scene α}
    (hscene : script.scene = .ok scene) {s₀ s : Stage α} (h₀ : s₀.scene = scene)
    {config : Config α} {sts : List (Statement α)} (h : s₀.after config sts = .ok s) :
    s.tree.size = scene.tree.size ∧ s.InBounds config := by
  subst h₀
  have hshape := Stage.after_sameShape h
  have hw : s₀.tree.WellFormed := (built_tree (tree_of_scene hscene)).wellFormed
  exact ⟨hshape.size, Stage.inBounds (hshape.wellFormed hw)
    (Stage.after_ordered h (ordered_scene hscene)) config⟩

end Pinning
