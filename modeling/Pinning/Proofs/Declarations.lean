import Mathlib.Data.List.Forall2
import Mathlib.Data.List.Nodup
import Pinning.Proofs.Views

/-!
# What the views of a script declare

A tree is read here as a list of entries, one for each node in the order in which they were added.
Declaring a view appends its own entry and then those of the views inside it (`entries_declare`), and
refuses a name that is there already. So a script's tree has one entry for each of its views, with
the measures that the view's modifiers give, and no name twice (`Script.entries_tree`).
-/

namespace Pinning

variable {α : Type}

/-- What a view declares of its node. -/
structure Entry (α : Type) where
  name : String
  frame : Rect α
  content : Option (Size α)

def Node.entry (x : Node α) : Entry α := ⟨x.name, x.frame, x.content⟩

namespace Tree

variable {t : Tree α}

def entries (t : Tree α) : List (Entry α) := t.nodes.toList.map Node.entry

/-- The names of the nodes, in their order. -/
def names (t : Tree α) : List String := t.entries.map (·.name)

theorem getElem?_entries (n : NodeId) : t.entries[n]? = (t.node? n).map Node.entry := by
  simp [entries, node?]

theorem length_entries : t.entries.length = t.size := by simp [entries, size]

theorem exists_entry {n : NodeId} (h : n < t.size) : ∃ e, t.entries[n]? = some e :=
  ⟨_, List.getElem?_eq_getElem (by rwa [length_entries])⟩

theorem name_eq (n : NodeId) : t.name n = t.entries[n]?.elim "" (·.name) := by
  rw [getElem?_entries, name]
  cases t.node? n <;> rfl

theorem content_eq (n : NodeId) : t.content n = t.entries[n]?.bind (·.content) := by
  rw [getElem?_entries, content]
  cases t.node? n <;> rfl

theorem frame_eq [Scalar α] (n : NodeId) : t.frame n = t.entries[n]?.elim .zero (·.frame) := by
  rw [getElem?_entries, frame]
  cases t.node? n <;> rfl

/-- The node that a name finds has that name. -/
theorem name_of_find? {name : String} {n : NodeId} (h : t.find? name = some n) :
    n < t.size ∧ t.name n = name := by
  rw [find?_eq] at h
  have hmem := List.mem_of_find?_eq_some h
  rw [List.mem_reverse, ids, List.mem_range] at hmem
  exact ⟨hmem, by simpa using List.find?_some h⟩

theorem find?_eq_none {name : String} : t.find? name = none ↔ name ∉ t.names := by
  rw [find?_eq, List.find?_eq_none]
  simp only [List.mem_reverse, ids, List.mem_range, decide_eq_true_eq, names, List.mem_map, not_exists,
    not_and]
  constructor
  · intro h e he
    obtain ⟨n, hn⟩ := List.mem_iff_getElem?.1 he
    have hlt : n < t.size := by
      rw [← length_entries]
      exact (List.getElem?_eq_some_iff.1 hn).1
    have hname := h n hlt
    rwa [name_eq, hn] at hname
  · intro h n hn
    obtain ⟨e, he⟩ := exists_entry hn
    rw [name_eq, he]
    exact h e (List.mem_of_getElem? he)

theorem getElem?_names {n : NodeId} (h : n < t.size) : t.names[n]? = some (t.name n) := by
  obtain ⟨e, he⟩ := exists_entry h
  rw [names, List.getElem?_map, name_eq, he]
  rfl

theorem length_names (t : Tree α) : t.names.length = t.size := by
  rw [names, List.length_map, length_entries]

theorem map_name_ids (t : Tree α) : t.ids.map t.name = t.names := by
  refine List.ext_getElem? fun n => ?_
  by_cases hn : n < t.size
  · rw [getElem?_names hn, ids, List.getElem?_map, List.getElem?_range hn, Option.map_some]
  · have hle : t.size ≤ n := Nat.le_of_not_lt hn
    rw [List.getElem?_eq_none (by rwa [List.length_map, ids, List.length_range]),
      List.getElem?_eq_none (by rwa [length_names])]

theorem SameShape.names {t t' : Tree α} (h : t.SameShape t') : t'.names = t.names := by
  rw [← t'.map_name_ids, ← t.map_name_ids, ids, ids, h.size, funext h.name]

/-- Where no name is repeated, a name belongs to one node. -/
theorem eq_of_name (h : t.names.Nodup) {n m : NodeId} (hn : n < t.size) (hm : m < t.size)
    (hname : t.name n = t.name m) : n = m := by
  have hlength : n < t.names.length := by rwa [names, List.length_map, length_entries]
  exact (List.getElem?_inj hlength h).1 (by rw [getElem?_names hn, getElem?_names hm, hname])

theorem entries_addRoot (name : String) (frame : Rect α) :
    (t.addRoot name frame).1.entries = t.entries ++ [⟨name, frame, none⟩] := by
  simp [entries, addRoot, insert, Node.entry]

theorem entries_modify {c : Node.Change α} (h : ∀ x, (c.apply x).entry = x.entry) (id : NodeId) :
    (t.modify id c).entries = t.entries := by
  refine List.ext_getElem? fun n => ?_
  rw [getElem?_entries, getElem?_entries, node?_modify]
  split_ifs
  · cases t.node? n with
    | none => rfl
    | some x => exact congrArg some (h x)
  · rfl

theorem entries_addChild (parent : NodeId) (name : String) (frame : Rect α) :
    (t.addChild parent name frame).1.entries = t.entries ++ [⟨name, frame, none⟩] := by
  have hlinked : (t.addChild parent name frame).1.entries
      = (t.insert { name, frame, parent := some parent }).entries := by
    rw [addChild, entries_modify]
    exact fun _ => rfl
  rw [hlinked]
  simp [entries, insert, Node.entry]

/-- The content of the node that was added last. -/
theorem entries_setContent {grown : Tree α} {e : Entry α}
    (h : grown.entries = t.entries ++ [e]) (content : Option (Size α)) :
    (grown.setContent t.size content).entries = t.entries ++ [{ e with content := content }] := by
  refine List.ext_getElem? fun n => ?_
  have hn : (grown.node? n).map Node.entry = (t.entries ++ [e])[n]? := by
    rw [← getElem?_entries, h]
  rw [getElem?_entries, setContent, node?_modify]
  rw [List.getElem?_append, length_entries] at hn ⊢
  rcases Nat.lt_trichotomy n t.size with hlt | rfl | hgt
  · rw [if_neg hlt.ne, hn, if_pos hlt, if_pos hlt]
  · rw [if_pos rfl, if_neg (lt_irrefl _)]
    rw [if_neg (lt_irrefl _)] at hn
    cases hx : grown.node? t.size with
    | none => simp [hx] at hn
    | some x =>
      simp only [hx, Option.map_some, Nat.sub_self, List.getElem?_cons_zero,
        Option.some.injEq] at hn ⊢
      rw [← hn]
      rfl
  · obtain ⟨k, rfl⟩ : ∃ k, n = t.size + (k + 1) := Nat.exists_eq_add_of_lt hgt
    rw [if_neg hgt.ne', hn, if_neg hgt.not_gt, if_neg hgt.not_gt, Nat.add_sub_cancel_left,
      List.getElem?_cons_succ, List.getElem?_cons_succ]

end Tree

theorem Scene.entries_add (s : Scene α) (parent : Option NodeId) (depth : Nat) (name : String)
    (frame : Rect α) (content : Option (Size α)) :
    (s.add parent depth name frame content).1.tree.entries
      = s.tree.entries ++ [⟨name, frame, content⟩] := by
  cases parent with
  | none => exact Tree.entries_setContent (Tree.entries_addRoot name frame) content
  | some p => exact Tree.entries_setContent (Tree.entries_addChild p name frame) content

namespace View

mutual

/-- A view and those inside it, as they are declared. -/
def preorder : View α → List (View α)
  | ⟨span, name, modifiers, children⟩ => ⟨span, name, modifiers, children⟩ :: preorderAll children

def preorderAll : List (View α) → List (View α)
  | [] => []
  | v :: vs => preorder v ++ preorderAll vs

end

variable [Scalar α]

/-- The entry is the one that the view asks for. -/
def Declares (v : View α) (e : Entry α) : Prop :=
  e.name = v.name.value ∧ measures v.modifiers .zero none = .ok (e.frame, e.content)

/-- A tree that has been declared further: by one entry for each of the views, and no name twice. -/
def Extends (vs : List (View α)) (t t' : Tree α) : Prop :=
  ∃ es, t'.entries = t.entries ++ es ∧ List.Forall₂ Declares vs es
    ∧ (t.names.Nodup → t'.names.Nodup)

theorem Extends.trans {vs ws : List (View α)} {t t' t'' : Tree α} (h : Extends vs t t')
    (h' : Extends ws t' t'') : Extends (vs ++ ws) t t'' := by
  obtain ⟨es, he, hes, hn⟩ := h
  obtain ⟨fs, hf, hfs, hn'⟩ := h'
  exact ⟨es ++ fs, by rw [hf, he, List.append_assoc], List.rel_append hes hfs, hn' ∘ hn⟩

theorem Extends.names_eq {vs : List (View α)} {t t' : Tree α} (h : Extends vs t t') :
    t'.names = t.names ++ vs.map (·.name.value) := by
  obtain ⟨es, he, hes, -⟩ := h
  have hnames : es.map (·.name) = vs.map (·.name.value) := by
    clear he
    induction hes with
    | nil => rfl
    | cons hdeclares _ ih => rw [List.map_cons, List.map_cons, ih, hdeclares.1]
  rw [Tree.names, he, List.map_append, hnames, ← Tree.names]

/-- A view's own entry. -/
theorem extends_add {v : View α} {s : Scene α} {frame : Rect α} {content : Option (Size α)}
    (hfree : s.tree.find? v.name.value = none)
    (hm : measures v.modifiers .zero none = .ok (frame, content)) (parent : Option NodeId)
    (depth : Nat) : Extends [v] s.tree (s.add parent depth v.name.value frame content).1.tree := by
  have he := s.entries_add parent depth v.name.value frame content
  refine ⟨_, he, .cons ⟨rfl, hm⟩ .nil, fun hn => ?_⟩
  rw [Tree.names, he, List.map_append]
  refine hn.append (List.nodup_singleton _) ?_
  simpa using Tree.find?_eq_none.1 hfree

mutual

theorem entries_declare {parent : Option NodeId} {depth : Nat} {s s' : Scene α} :
    ∀ {v : View α}, declare parent depth s v = .ok s' → Extends v.preorder s.tree s'.tree
  | ⟨span, name, modifiers, children⟩, h => by
    rw [declare] at h
    split_ifs at h with hdup
    rw [Bool.not_eq_true, Option.isSome_eq_false_iff, Option.isNone_iff_eq_none] at hdup
    split at h
    · cases h
    · rename_i frame content hm
      have hown := extends_add (v := ⟨span, name, modifiers, children⟩) hdup hm parent depth
      exact hown.trans (entries_declareAll h)

theorem entries_declareAll {parent : Option NodeId} {depth : Nat} {s s' : Scene α} :
    ∀ {vs : List (View α)}, declareAll parent depth s vs = .ok s' →
      Extends (preorderAll vs) s.tree s'.tree
  | [], h => by
    cases h
    exact ⟨[], (List.append_nil _).symm, .nil, id⟩
  | v :: vs, h => by
    rw [declareAll] at h
    split at h
    · cases h
    · rename_i s₁ hv
      exact (entries_declare hv).trans (entries_declareAll h)

end

end View

namespace Script

/-- All views of a script, wherever they stand in it. -/
def allViews (script : Script α) : List (View α) := View.preorderAll script.views

variable [Scalar α] {script : Script α} {tree : Tree α}

/-- A script's tree has an entry for each of its views, in their order, and no name twice. -/
theorem entries_tree (h : script.tree = .ok tree) :
    List.Forall₂ View.Declares script.allViews tree.entries ∧ tree.names.Nodup := by
  obtain ⟨scene, hscene, rfl⟩ := tree_eq_ok_iff.1 h
  obtain ⟨es, he, hes, hn⟩ := View.entries_declareAll hscene
  rw [show ({} : Scene α).tree.entries = [] from rfl, List.nil_append] at he
  exact ⟨by rwa [he], hn List.nodup_nil⟩

theorem names_tree (h : script.tree = .ok tree) :
    tree.names = script.allViews.map (·.name.value) := by
  obtain ⟨scene, hscene, rfl⟩ := tree_eq_ok_iff.1 h
  exact (View.entries_declareAll hscene).names_eq

theorem exists_view_of_entry (h : script.tree = .ok tree) {e : Entry α} (he : e ∈ tree.entries) :
    ∃ v ∈ script.allViews, v.Declares e := by
  obtain ⟨hlength, hget⟩ := List.forall₂_iff_get.1 (entries_tree h).1
  obtain ⟨n, hn, rfl⟩ := List.getElem_of_mem he
  exact ⟨_, List.getElem_mem (hlength ▸ hn), hget n (hlength ▸ hn) hn⟩

theorem exists_entry_of_view (h : script.tree = .ok tree) {v : View α} (hv : v ∈ script.allViews) :
    ∃ e ∈ tree.entries, v.Declares e := by
  obtain ⟨hlength, hget⟩ := List.forall₂_iff_get.1 (entries_tree h).1
  obtain ⟨n, hn, rfl⟩ := List.getElem_of_mem hv
  exact ⟨_, List.getElem_mem (hlength ▸ hn), hget n hn (hlength ▸ hn)⟩

end Script

end Pinning
