import Mathlib.Data.List.Pairwise
import Mathlib.Logic.Relation
import Pinning.Proofs.Outline
import Pinning.Scalar.Rational

/-!
# Trees by their history

A tree that is built by edits is what its history says. The edits that add nodes make a list of
parents and names, and the tree agrees with it node by node (`Recorded`), whatever contents and
frames were set in between. So children and siblings are those of the history in the order in which
they were added, and a name finds the node that got it last (`find?_eq_some_iff`).

The way up from a node is a loop (`Climbs`). Parents come first, so the loop comes to an end and has
met the ancestors, each of them once (`climbs_iff`).
-/

namespace Pinning

variable {α : Type}

namespace Tree

/-- What can be done to a tree. -/
inductive Edit (α : Type) where
  | addRoot (name : String) (frame : Rect α)
  | addChild (parent : NodeId) (name : String) (frame : Rect α)
  | setContent (id : NodeId) (size : Option (Size α))
  | setFrame (id : NodeId) (frame : Rect α)

namespace Edit

/-- The parent and the name of the node that an edit adds. -/
def added? : Edit α → Option (Option NodeId × String)
  | addRoot name _ => some (none, name)
  | addChild parent name _ => some (some parent, name)
  | setContent .. | setFrame .. => none

/-- A child is added to a node whose number is known. -/
def Knows (numbers : List NodeId) : Edit α → Prop
  | addChild parent .. => parent ∈ numbers
  | _ => True

instance (numbers : List NodeId) : ∀ e : Edit α, Decidable (e.Knows numbers)
  | addChild parent .. => inferInstanceAs (Decidable (parent ∈ numbers))
  | addRoot .. | setContent .. | setFrame .. => .isTrue trivial

end Edit

/-- A tree, and the numbers of nodes that its edits have returned. -/
structure Growth (α : Type) where
  tree : Tree α := ∅
  numbers : List NodeId := []

namespace Growth

variable (g : Growth α)

def edit : Edit α → Growth α
  | .addRoot name frame =>
    let (tree, id) := g.tree.addRoot name frame
    ⟨tree, g.numbers ++ [id]⟩
  | .addChild parent name frame =>
    let (tree, id) := g.tree.addChild parent name frame
    ⟨tree, g.numbers ++ [id]⟩
  | .setContent id size => { g with tree := g.tree.setContent id size }
  | .setFrame id frame => { g with tree := g.tree.setFrame id frame }

def editAll (es : List (Edit α)) : Growth α := es.foldl edit g

/-- Every edit knows the numbers that it needs from those before it. -/
def Knows : Growth α → List (Edit α) → Prop
  | _, [] => True
  | g, e :: es => e.Knows g.numbers ∧ Knows (g.edit e) es

instance decidableKnows : ∀ (g : Growth α) (es : List (Edit α)), Decidable (g.Knows es)
  | _, [] => .isTrue trivial
  | g, e :: es =>
    have := decidableKnows (g.edit e) es
    inferInstanceAs (Decidable (_ ∧ _))

end Growth

/-- The tree is the one that the list of added nodes tells of, and all their numbers are known. -/
structure Recorded (added : List (Option NodeId × String)) (g : Growth α) : Prop where
  built : g.tree.Built
  names : g.tree.names = added.map (·.2)
  parent? (n : NodeId) : g.tree.parent? n = added[n]?.bind (·.1)
  numbers : g.numbers = List.range g.tree.size

variable {t t' : Tree α} {g : Growth α} {added : List (Option NodeId × String)}

theorem Recorded.size (h : Recorded added g) : g.tree.size = added.length := by
  rw [← length_names, h.names, List.length_map]

theorem Recorded.grown (h : Recorded added g) {parent : Option NodeId} {name : String}
    (hb : t'.Built) (hg : g.tree.Grown parent name t') :
    Recorded (added ++ [(parent, name)]) ⟨t', g.numbers ++ [g.tree.size]⟩ where
  built := hb
  names := by rw [hg.names, h.names, List.map_append, List.map_singleton]
  parent? n := by
    rw [hg.parent?, h.size]
    rcases Nat.lt_trichotomy n added.length with hn | rfl | hn
    · rw [if_neg hn.ne, h.parent?, List.getElem?_append_left hn]
    · simp
    · rw [if_neg hn.ne', h.parent?, List.getElem?_eq_none hn.le, List.getElem?_eq_none]
      simp
      omega
  numbers := by rw [hg.size, List.range_succ, h.numbers]

theorem Recorded.sameShape (h : Recorded added g) (hb : t'.Built) (hs : g.tree.SameShape t') :
    Recorded added { g with tree := t' } where
  built := hb
  names := hs.names.trans h.names
  parent? n := (hs.parent? n).trans (h.parent? n)
  numbers := by rw [h.numbers, hs.size]

theorem Recorded.edit (h : Recorded added g) {e : Edit α} (he : e.Knows g.numbers) :
    Recorded (added ++ e.added?.toList) (g.edit e) := by
  cases e with
  | addRoot name frame => exact h.grown (h.built.addRoot name frame) (grown_addRoot _ name frame)
  | addChild parent name frame =>
    have hp : parent < g.tree.size := by
      simp only [Edit.Knows, h.numbers, List.mem_range] at he
      exact he
    exact h.grown (h.built.addChild hp name frame) (grown_addChild hp name frame)
  | setContent id size =>
    simp only [Edit.added?, Option.toList_none, List.append_nil]
    exact h.sameShape (h.built.setContent id size) (sameShape_setContent id size)
  | setFrame id frame =>
    simp only [Edit.added?, Option.toList_none, List.append_nil]
    exact h.sameShape (h.built.setFrame id frame) (sameShape_setFrame id frame)

theorem Recorded.editAll : ∀ {es : List (Edit α)} {g : Growth α}
    {added : List (Option NodeId × String)}, Recorded added g → g.Knows es →
      Recorded (added ++ es.filterMap Edit.added?) (g.editAll es)
  | [], g, added, h, _ => by simpa [Growth.editAll] using h
  | e :: es, g, added, h, hk => by
    have hrest := (h.edit hk.1).editAll hk.2
    rw [List.append_assoc] at hrest
    have hadded : (e :: es).filterMap Edit.added?
        = e.added?.toList ++ es.filterMap Edit.added? := by
      rw [List.filterMap_cons]
      rcases e.added? with _ | x <;> rfl
    rw [hadded]
    exact hrest

theorem recorded_empty : Recorded [] ({} : Growth α) where
  built := .empty
  names := rfl
  parent? n := parent?_eq_none (Nat.zero_le n)
  numbers := rfl

theorem pairwise_ids (t : Tree α) : t.ids.Pairwise (· < ·) := List.pairwise_lt_range

theorem WellFormed.pairwise_children (hw : t.WellFormed) (p : NodeId) :
    (t.children p).Pairwise (· < ·) := by
  rw [hw.children_eq]
  exact t.pairwise_ids.filter _

theorem WellFormed.mem_siblings (hw : t.WellFormed) {n m : NodeId} :
    m ∈ t.siblings n ↔ m ≠ n ∧ m < t.size ∧ t.parent? m = t.parent? n := by
  unfold siblings
  rcases hp : t.parent? n with _ | p
  · simp only [List.mem_filter, decide_eq_true_eq, ids, List.mem_range]
    tauto
  · simp only [List.mem_filter, decide_eq_true_eq, hw.mem_children]
    constructor
    · rintro ⟨h, hne⟩
      exact ⟨hne, lt_size_of_parent h, h⟩
    · rintro ⟨hne, -, h⟩
      exact ⟨h, hne⟩

theorem WellFormed.pairwise_siblings (hw : t.WellFormed) (n : NodeId) :
    (t.siblings n).Pairwise (· < ·) := by
  unfold siblings
  rcases t.parent? n with _ | p
  · exact t.pairwise_ids.filter _
  · exact (hw.pairwise_children p).filter _

theorem getElem?_names_eq_some_iff {name : String} {n : ℕ} :
    t.names[n]? = some name ↔ n < t.size ∧ t.name n = name := by
  by_cases hn : n < t.size
  · simp [getElem?_names hn, hn]
  · rw [List.getElem?_eq_none (by rw [length_names]; omega)]
    simp [hn]

theorem last_of_find? {name : String} {n : ℕ} (h : t.find? name = some n) :
    t.names[n]? = some name ∧ ∀ m : ℕ, n < m → t.names[m]? ≠ some name := by
  refine ⟨getElem?_names_eq_some_iff.2 (name_of_find? h), fun m hm hname => ?_⟩
  obtain ⟨hmt, hmname⟩ := getElem?_names_eq_some_iff.1 hname
  -- The search goes through the numbers from the highest down, and has passed `m`.
  rw [find?_eq] at h
  obtain ⟨-, before, after, hids, hbefore⟩ := List.find?_eq_some_iff_append.1 h
  have hdown : (before ++ n :: after).Pairwise (· > ·) := by
    rw [← hids, List.pairwise_reverse]
    exact t.pairwise_ids
  have hmem : m ∈ before ++ n :: after := by
    rw [← hids, List.mem_reverse, ids, List.mem_range]
    exact hmt
  simp only [List.mem_append, List.mem_cons] at hmem
  rcases hmem with hm' | rfl | hm'
  · simpa [hmname] using hbefore m hm'
  · omega
  · have hlt := (List.pairwise_cons.1 (List.pairwise_append.1 hdown).2.1).1 m hm'
    exact absurd hm (Nat.lt_asymm hlt)

/-- A name finds the last node that has it. -/
theorem find?_eq_some_iff {name : String} {n : ℕ} : t.find? name = some n ↔
    t.names[n]? = some name ∧ ∀ m : ℕ, n < m → t.names[m]? ≠ some name := by
  refine ⟨last_of_find?, fun ⟨hn, hlast⟩ => ?_⟩
  rcases hfind : t.find? name with _ | k
  · exact absurd (List.mem_of_getElem? hn) (find?_eq_none.1 hfind)
  · obtain ⟨hk, hklast⟩ := last_of_find? hfind
    rcases Nat.lt_trichotomy k n with hlt | rfl | hgt
    · exact absurd hn (hklast n hlt)
    · rfl
    · exact absurd hk (hlast k hgt)

theorem WellFormed.mem_ancestors (hw : t.WellFormed) {n a : NodeId} :
    a ∈ t.ancestors n ↔ Relation.TransGen (fun c p => t.parent? c = some p) n a := by
  induction n using hw.parent_induction with
  | root n hn =>
    rw [ancestors_of_root hn, Relation.TransGen.head'_iff]
    simp [hn]
  | child n p hp ih =>
    rw [hw.ancestors_of_parent hp, Relation.TransGen.head'_iff, List.mem_cons, ih]
    simp [hp, Relation.reflTransGen_iff_eq_or_transGen]

/-- No ancestor is met twice: their numbers fall. -/
theorem WellFormed.pairwise_ancestors (hw : t.WellFormed) (n : NodeId) :
    (n :: t.ancestors n).Pairwise (· > ·) := by
  induction n using hw.parent_induction with
  | root n hn => simp [ancestors_of_root hn]
  | child n p hp ih =>
    refine List.pairwise_cons.2 ⟨fun a ha => hw.lt_of_mem_ancestors ha, ?_⟩
    rwa [hw.ancestors_of_parent hp]

variable [Scalar α]

/-- The loop from a node up to its root. It has a corner in hand and a node ahead, if there is one,
whose origin it adds before it goes on to the parent. -/
inductive Climbs (t : Tree α) : Point α → Option NodeId → Point α → Prop
  | stop (o : Point α) : Climbs t o none o
  | up {o o' : Point α} {p : NodeId} (h : Climbs t (o + (t.frame p).origin) (t.parent? p) o') :
    Climbs t o (some p) o'

/-- The loop comes to an end, and then it has the origins of all the ancestors. -/
theorem WellFormed.climbs_iff (hw : t.WellFormed) (n : NodeId) {o o' : Point α} :
    Climbs t o (t.parent? n) o'
      ↔ o' = (t.ancestors n).foldl (fun o p => o + (t.frame p).origin) o := by
  induction n using hw.parent_induction generalizing o with
  | root n hn =>
    rw [ancestors_of_root hn, hn, List.foldl_nil]
    refine ⟨fun h => ?_, ?_⟩
    · cases h
      rfl
    · rintro rfl
      exact .stop _
  | child n p hp ih =>
    rw [hw.ancestors_of_parent hp, hp, List.foldl_cons, ← ih]
    refine ⟨fun h => ?_, .up⟩
    cases h with
    | up h => exact h

/-- A tree that is built by edits is the forest that its history tells of. Parents come first. A
node's children are the nodes that were added to it, its siblings the other nodes with the same
parent or, for a root, the other roots, both in the order in which they were added; so nodes are
siblings of each other, and none of itself. A name finds the node that got it last. The way up from a
node comes to an end and adds up its origin and those of its ancestors. -/
theorem forest_of_edits (es : List (Edit α)) (h : Growth.Knows {} es) :
    let t := (Growth.editAll {} es).tree
    let added := es.filterMap Edit.added?
    (Growth.editAll {} es).numbers = List.range added.length
    ∧ t.size = added.length
    ∧ (∀ n : ℕ, t.parent? n = added[n]?.bind (·.1))
    ∧ (∀ n p : ℕ, t.parent? n = some p → p < n)
    ∧ (∀ p, (t.children p).Pairwise (· < ·) ∧ ∀ n, n ∈ t.children p ↔ t.parent? n = some p)
    ∧ (∀ n, (t.siblings n).Pairwise (· < ·)
      ∧ ∀ m, m ∈ t.siblings n ↔ m ≠ n ∧ m < t.size ∧ t.parent? m = t.parent? n)
    ∧ (∀ n m, n < t.size → m < t.size → (m ∈ t.siblings n ↔ n ∈ t.siblings m))
    ∧ (∀ n, n ∉ t.siblings n)
    ∧ (∀ (name : String) (n : ℕ), t.find? name = some n ↔
      added[n]?.map (·.2) = some name ∧ ∀ m : ℕ, n < m → added[m]?.map (·.2) ≠ some name)
    ∧ (∀ name, t.find? name = none ↔ name ∉ added.map (·.2))
    ∧ ∀ n, (∀ a, a ∈ t.ancestors n ↔ Relation.TransGen (fun c p => t.parent? c = some p) n a)
      ∧ (n :: t.ancestors n).Pairwise (· > ·)
      ∧ (∀ o, Climbs t (t.frame n).origin (t.parent? n) o ↔ o = t.absoluteOrigin n)
      ∧ t.absoluteOrigin n
        = (t.ancestors n).foldl (fun o p => o + (t.frame p).origin) (t.frame n).origin := by
  intro t added
  have hr : Recorded added (Growth.editAll {} es) := recorded_empty.editAll h
  have hw : t.WellFormed := hr.built.wellFormed
  refine ⟨?_, hr.size, hr.parent?, fun n p hp => hw.parent_lt hp,
    fun p => ⟨hw.pairwise_children p, fun n => hw.mem_children⟩,
    fun n => ⟨hw.pairwise_siblings n, fun m => hw.mem_siblings⟩, fun n m hn hm => ?_, fun n => ?_,
    fun name n => ?_, fun name => ?_,
    fun n => ⟨fun a => hw.mem_ancestors, hw.pairwise_ancestors n, fun o => hw.climbs_iff n, rfl⟩⟩
  · rw [hr.numbers, hr.size]
  · simp only [hw.mem_siblings, hn, hm, true_and, ne_comm (a := n), eq_comm (a := t.parent? n)]
  · simp [hw.mem_siblings]
  · simp only [find?_eq_some_iff, hr.names, t, List.getElem?_map]
  · rw [find?_eq_none, hr.names]

/-- A panel with a card and a badge in it, and a second card beside it that takes the name over. -/
theorem second_card_takes_name :
    let es : List (Edit Rat) := [.addRoot "panel" ⟨⟨10, 20⟩, ⟨80, 60⟩⟩, .addChild 0 "card" .zero,
      .setFrame 1 ⟨⟨5, 5⟩, ⟨8, 8⟩⟩, .addChild 0 "badge" .zero, .addRoot "card" .zero,
      .setContent 2 (some ⟨3, 4⟩), .addChild 1 "chip" ⟨⟨1, 2⟩, ⟨1, 1⟩⟩]
    let t := (Growth.editAll {} es).tree
    Growth.Knows {} es ∧ t.find? "card" = some 3 ∧ t.find? "note" = none
      ∧ 2 ∈ t.siblings 1 ∧ 1 ∈ t.siblings 2 ∧ 3 ∈ t.siblings 0 ∧ 1 ∉ t.siblings 1
      ∧ 4 ∈ t.children 1 ∧ Climbs t (t.frame 4).origin (t.parent? 4) ⟨16, 27⟩ := by
  intro es t
  have hk : Growth.Knows {} es := by decide
  obtain ⟨-, -, -, -, hchildren, hsiblings, hsym, hirrefl, hfind, hnone, hup⟩ :=
    forest_of_edits es hk
  have hbadge : 2 ∈ t.siblings 1 := ((hsiblings 1).2 2).2 (by decide)
  refine ⟨hk, (hfind "card" 3).2 ⟨by decide, fun m hm => ?_⟩, (hnone "note").2 (by decide), hbadge,
    (hsym 1 2 (by decide) (by decide)).1 hbadge, ((hsiblings 0).2 3).2 (by decide), hirrefl 1,
    ((hchildren 1).2 4).2 (by decide), ((hup 4).2.2.1 _).2 (by decide +kernel)⟩
  rcases Nat.lt_trichotomy m 4 with hlt | rfl | hgt
  · omega
  · decide
  · rw [List.getElem?_eq_none]
    · simp
    · exact hgt

end Tree

end Pinning
