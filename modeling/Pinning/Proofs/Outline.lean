import Pinning.Proofs.Closing

/-!
# The report is a picture of the views

A view has its place in the forest: its name, that of the view around it, and how many views it lies
in. The places of all views in their order make the outline of a script (`View.outlineAll`), and the
report has just these (`Script.places_of_run`). In an outline the view around another one is the
last before it that is one less deep (`Place.Hangs`), so that the forest can be read off the report.
-/

namespace Pinning

variable {α : Type}

/-- Where a view stands in the forest. -/
structure Place where
  name : String
  /-- The name of the view around it. -/
  parent : Option String
  /-- How many views it lies in. -/
  depth : Nat
deriving DecidableEq

def NodeReport.place (n : NodeReport α) : Place := ⟨n.name, n.parent, n.depth⟩

namespace View

mutual

/-- The places of a view and of those inside it, as they are declared. -/
def outline (parent : Option String) (depth : Nat) : View α → List Place
  | ⟨_, name, _, children⟩ =>
    ⟨name.value, parent, depth⟩ :: outlineAll (some name.value) (depth + 1) children

def outlineAll (parent : Option String) (depth : Nat) : List (View α) → List Place
  | [] => []
  | v :: vs => outline parent depth v ++ outlineAll parent depth vs

end

mutual

theorem map_name_outline (parent : Option String) (depth : Nat) : ∀ v : View α,
    (outline parent depth v).map (·.name) = v.preorder.map (·.name.value)
  | ⟨_, name, _, children⟩ => by
    rw [outline, preorder, List.map_cons, List.map_cons, map_name_outlineAll]

theorem map_name_outlineAll (parent : Option String) (depth : Nat) : ∀ vs : List (View α),
    (outlineAll parent depth vs).map (·.name) = (preorderAll vs).map (·.name.value)
  | [] => rfl
  | v :: vs => by
    rw [outlineAll, preorderAll, List.map_append, List.map_append, map_name_outline,
      map_name_outlineAll]

end

mutual

theorem le_depth_outline {parent : Option String} {depth : Nat} : ∀ {v : View α},
    ∀ x ∈ outline parent depth v, depth ≤ x.depth
  | ⟨_, name, _, children⟩, x, hx => by
    rw [outline] at hx
    rcases List.mem_cons.1 hx with rfl | hx
    · exact le_rfl
    · exact (Nat.le_succ depth).trans (le_depth_outlineAll x hx)

theorem le_depth_outlineAll {parent : Option String} {depth : Nat} : ∀ {vs : List (View α)},
    ∀ x ∈ outlineAll parent depth vs, depth ≤ x.depth
  | [], x, hx => by cases hx
  | v :: vs, x, hx => by
    rw [outlineAll] at hx
    rcases List.mem_append.1 hx with hx | hx
    · exact le_depth_outline x hx
    · exact le_depth_outlineAll x hx

end

end View

namespace Place

/-- After these places, views of this parent and depth can come: roots, or those inside the last one
that is one less deep. -/
def Hangs (before : List Place) (parent : Option String) (depth : Nat) : Prop :=
  (parent = none ∧ depth = 0)
    ∨ ∃ p, before.reverse.find? (fun x => x.depth + 1 = depth) = some p ∧ parent = some p.name

/-- Places that come after others, each in its turn. -/
def Follow : List Place → List Place → Prop
  | _, [] => True
  | before, x :: xs => Hangs before x.parent x.depth ∧ Follow (before ++ [x]) xs

theorem follow_append : ∀ {before xs ys : List Place},
    Follow before (xs ++ ys) ↔ Follow before xs ∧ Follow (before ++ xs) ys
  | before, [], ys => by simp [Follow]
  | before, x :: xs, ys => by simp [Follow, follow_append, and_assoc]

theorem Follow.hangs {before xs ys : List Place} {x : Place} (h : Follow before (xs ++ x :: ys)) :
    Hangs (before ++ xs) x.parent x.depth :=
  (follow_append.1 h).2.1

/-- Places that are as deep leave open what comes after them. -/
theorem Hangs.append {before xs : List Place} {parent : Option String} {depth : Nat}
    (h : Hangs before parent depth) (hxs : ∀ x ∈ xs, depth ≤ x.depth) :
    Hangs (before ++ xs) parent depth := by
  refine h.imp id fun ⟨p, hp, hparent⟩ => ⟨p, ?_, hparent⟩
  have hnone : xs.reverse.find? (fun x => x.depth + 1 = depth) = none := by
    rw [List.find?_eq_none]
    intro x hx
    have := hxs x (List.mem_reverse.1 hx)
    simp only [decide_eq_true_eq]
    omega
  rw [List.reverse_append, List.find?_append, hnone, Option.none_or, hp]

theorem hangs_inside (before : List Place) (x : Place) :
    Hangs (before ++ [x]) (some x.name) (x.depth + 1) :=
  .inr ⟨x, by simp, rfl⟩

end Place

namespace View

open Place

mutual

theorem follow_outline {before : List Place} {parent : Option String} {depth : Nat}
    (h : Hangs before parent depth) : ∀ {v : View α}, Follow before (outline parent depth v)
  | ⟨_, name, _, children⟩ => by
    rw [outline]
    exact ⟨h, follow_outlineAll (hangs_inside before ⟨name.value, parent, depth⟩)⟩

theorem follow_outlineAll {before : List Place} {parent : Option String} {depth : Nat}
    (h : Hangs before parent depth) : ∀ {vs : List (View α)},
      Follow before (outlineAll parent depth vs)
  | [] => trivial
  | v :: vs => by
    rw [outlineAll, follow_append]
    exact ⟨follow_outline h, follow_outlineAll (h.append le_depth_outline)⟩

end

end View

namespace Tree

/-- The places of the nodes, in their order. -/
def places (t : Tree α) : List Place :=
  t.ids.map fun id => ⟨t.name id, (t.parent? id).map t.name, (t.ancestors id).length⟩

theorem SameShape.places {t t' : Tree α} (h : t.SameShape t') : t'.places = t.places := by
  simp only [Tree.places, ids, h.size, h.parent?, h.ancestors, funext h.name]

/-- The tree with a last node of this name and parent. -/
structure Grown (t : Tree α) (parent : Option NodeId) (name : String) (t' : Tree α) : Prop where
  names : t'.names = t.names ++ [name]
  parent? (n : NodeId) : t'.parent? n = if n = t.size then parent else t.parent? n

/-- What can be said of a node's children by its place. -/
theorem under_of_place {t : Tree α} {p : NodeId} {x : Place} (h : t.places[p]? = some x) :
    t.name p = x.name ∧ t.depthUnder (some p) = x.depth + 1 := by
  rw [places, List.getElem?_map] at h
  obtain ⟨id, hid, rfl⟩ := Option.map_eq_some_iff.1 h
  obtain ⟨hlt, hget⟩ := List.getElem?_eq_some_iff.1 hid
  obtain rfl : p = id := by simpa only [ids, List.getElem_range] using hget
  exact ⟨rfl, rfl⟩

theorem length_places (t : Tree α) : t.places.length = t.size := by
  rw [places, List.length_map, ids, List.length_range]

theorem exists_place {t : Tree α} {p : NodeId} (h : p < t.size) : ∃ x, t.places[p]? = some x :=
  ⟨_, List.getElem?_eq_getElem (by rwa [length_places])⟩

/-- Later nodes do not rename an earlier one. -/
theorem map_name_of_prefix {t t' : Tree α} {xs : List Place} (h : t'.places = t.places ++ xs)
    {parent : Option NodeId} (hp : ∀ p ∈ parent, p < t.size) :
    parent.map t'.name = parent.map t.name := by
  cases parent with
  | none => rfl
  | some p =>
    obtain ⟨x, hx⟩ := exists_place (hp p rfl)
    have hx' : t'.places[p]? = some x := by
      rw [h]
      exact List.getElem?_append_left (List.getElem?_eq_some_iff.1 hx).1 ▸ hx
    rw [Option.map_some, Option.map_some, (under_of_place hx).1, (under_of_place hx').1]

namespace Grown

variable {t t' : Tree α} {parent : Option NodeId} {name : String} (h : t.Grown parent name t')

include h

theorem size : t'.size = t.size + 1 := by
  rw [← length_names, h.names, List.length_append, length_names, List.length_singleton]

theorem name_old {n : NodeId} (hn : n < t.size) : t'.name n = t.name n := by
  have hlast : t'.names[n]? = some (t'.name n) :=
    getElem?_names (h.size ▸ Nat.lt_succ_of_lt hn)
  rw [h.names, List.getElem?_append_left (by rwa [length_names]), getElem?_names hn] at hlast
  exact (Option.some.inj hlast).symm

theorem name_new : t'.name t.size = name := by
  have hlast : t'.names[t.size]? = some (t'.name t.size) :=
    getElem?_names (h.size ▸ Nat.lt_succ_self _)
  rw [h.names, List.getElem?_append_right (length_names t).le, length_names, Nat.sub_self,
    List.getElem?_cons_zero] at hlast
  exact (Option.some.inj hlast).symm

theorem grows : t.Grows t' where
  size_le := (Nat.le_succ _).trans_eq h.size.symm
  parent? hn := by rw [h.parent?, if_neg hn.ne]

theorem sameShape {t'' : Tree α} (hs : t'.SameShape t'') : t.Grown parent name t'' where
  names := hs.names.trans h.names
  parent? n := (hs.parent? n).trans (h.parent? n)

theorem places (hw : t.WellFormed) (hw' : t'.WellFormed) (hp : ∀ p ∈ parent, p < t.size) :
    t'.places = t.places ++ [⟨name, parent.map t.name, t.depthUnder parent⟩] := by
  have hlast : t'.parent? t.size = parent := by rw [h.parent?, if_pos rfl]
  have hdepth : (t'.ancestors t.size).length = t.depthUnder parent := by
    rw [hw'.length_ancestors, hlast, h.grows.depthUnder hw hw' hp]
  have hname : parent.map t'.name = parent.map t.name := by
    cases parent with
    | none => rfl
    | some p => exact congrArg some (h.name_old (hp p rfl))
  rw [Tree.places, ids, h.size, List.range_succ, List.map_append, List.map_singleton, h.name_new,
    hlast, hname, hdepth]
  refine congrArg (· ++ _) (List.map_congr_left fun n hn => ?_)
  have hold : n < t.size := List.mem_range.1 hn
  have hparent : (t.parent? n).map t'.name = (t.parent? n).map t.name := by
    cases hp : t.parent? n with
    | none => rfl
    | some p => exact congrArg some (h.name_old ((hw.parent_lt hp).trans hold))
  rw [h.name_old hold, h.grows.parent? hold, h.grows.ancestors hw hw' hold, hparent]

end Grown

theorem grown_addRoot (t : Tree α) (name : String) (frame : Rect α) :
    t.Grown none name (t.addRoot name frame).1 where
  names := by rw [names, entries_addRoot, List.map_append]; rfl
  parent? n := by
    rw [parent?_addRoot]
    split_ifs with hn
    · exact parent?_eq_none hn.ge
    · rfl

theorem grown_addChild {t : Tree α} {parent : NodeId} (hp : parent < t.size) (name : String)
    (frame : Rect α) : t.Grown (some parent) name (t.addChild parent name frame).1 where
  names := by rw [names, entries_addChild, List.map_append]; rfl
  parent? n := parent?_addChild hp name frame n

end Tree

theorem Scene.grown_add {s : Scene α} {parent : Option NodeId} (hp : ∀ p ∈ parent, p < s.tree.size)
    (depth : Nat) (name : String) (frame : Rect α) (content : Option (Size α)) :
    s.tree.Grown parent name (s.add parent depth name frame content).1.tree := by
  cases parent with
  | none => exact (s.tree.grown_addRoot name frame).sameShape (Tree.sameShape_setContent _ content)
  | some p =>
    exact (Tree.grown_addChild (hp p rfl) name frame).sameShape
      (Tree.sameShape_setContent _ content)

namespace View

variable [Scalar α]

mutual

theorem places_declare {parent : Option NodeId} {depth : Nat} {s s' : Scene α} (hb : s.tree.Built)
    (hp : ∀ p ∈ parent, p < s.tree.size) : ∀ {v : View α}, declare parent depth s v = .ok s' →
      s'.tree.places
        = s.tree.places ++ outline (parent.map s.tree.name) (s.tree.depthUnder parent) v
  | ⟨span, name, modifiers, children⟩, h => by
    rw [declare] at h
    split_ifs at h with hdup
    split at h
    · cases h
    · rename_i frame content _
      have hb' := Scene.built_add depth name.value frame content hb hp
      have hplaces := (Scene.grown_add hp depth name.value frame content).places hb.wellFormed
        hb'.wellFormed hp
      -- The view's place is the last, and the children's are under it.
      have hlast : (s.add parent depth name.value frame content).1.tree.places[s.tree.size]?
          = some ⟨name.value, parent.map s.tree.name, s.tree.depthUnder parent⟩ := by
        rw [hplaces, ← s.tree.length_places, List.getElem?_concat_length]
      obtain ⟨hname, hdepth⟩ := Tree.under_of_place hlast
      have hchildren := places_declareAll hb' (Scene.lt_size_add _ _ _ _) h
      rw [hchildren, hplaces, Scene.add_snd, Option.map_some, hname, hdepth, outline,
        List.append_assoc, List.singleton_append]

theorem places_declareAll {parent : Option NodeId} {depth : Nat} {s s' : Scene α}
    (hb : s.tree.Built) (hp : ∀ p ∈ parent, p < s.tree.size) :
    ∀ {vs : List (View α)}, declareAll parent depth s vs = .ok s' →
      s'.tree.places
        = s.tree.places ++ outlineAll (parent.map s.tree.name) (s.tree.depthUnder parent) vs
  | [], h => by
    cases h
    exact (List.append_nil _).symm
  | v :: vs, h => by
    rw [declareAll] at h
    split at h
    · cases h
    · rename_i s₁ hv
      obtain ⟨hb₁, hg₁⟩ := built_declare hb hp hv
      have hown := places_declare hb hp hv
      rw [places_declareAll hb₁ (fun p hp' => (hp p hp').trans_le hg₁.size_le) h, hown,
        Tree.map_name_of_prefix hown hp, hg₁.depthUnder hb.wellFormed hb₁.wellFormed hp, outlineAll,
        List.append_assoc]

end

end View

variable [Scalar α]

theorem Report.map_place_nodesOf {s : Scene α} (ho : s.Ordered) :
    (nodesOf s).map NodeReport.place = s.tree.places := by
  rw [nodesOf, ho, List.map_map, List.map_map]
  rfl

namespace Stage

variable {config : Config α}

/-- A pin's warnings are about its target. -/
theorem target_of_mem_raised {s : Stage α} {st : Statement α} {w : WarningReport α}
    (hw : w ∈ s.raised config st) : st.target? = some w.node := by
  cases st with
  | view | direction => cases hw
  | pin span target calls =>
    rw [raised] at hw
    split at hw
    · obtain ⟨w', -, rfl⟩ := List.mem_map.1 hw
      rfl
    · cases hw

theorem forall₂_raisedAll : ∀ {sts : List (Statement α)} {s : Stage α} {r : Report α},
    (s.run config sts).result = .ok r →
      List.Forall₂ (fun st ws => ∀ w ∈ ws, st.target? = some w.node) sts (s.raisedAll config sts)
  | [], _, _, _ => .nil
  | st :: sts, s, r, h => by
    obtain ⟨s', hs', h'⟩ := exists_of_run_cons h
    rw [raisedAll_cons hs']
    exact .cons (fun w hw => target_of_mem_raised hw) (forall₂_raisedAll h')

end Stage

namespace Script

variable {script : Script α} {config : Config α} {process : Direction} {r : Report α}

theorem places_scene {scene : Scene α} (h : script.scene = .ok scene) :
    scene.tree.places = View.outlineAll none 0 script.views :=
  (View.places_declareAll .empty (fun p hp => by cases hp) h).trans (List.nil_append _)

/-- The report has the outline of the script. -/
theorem places_of_run (h : (script.run config process).result = .ok r) :
    r.nodes.map NodeReport.place = View.outlineAll none 0 script.views := by
  obtain ⟨scene, s, hscene, rfl, hshape, hs⟩ := exists_of_run h
  have hplaces := Report.map_place_nodesOf (Stage.after_ordered hs (ordered_scene hscene))
  exact hplaces.trans (hshape.places.trans (places_scene hscene))

theorem names_of_run (h : (script.run config process).result = .ok r) :
    r.nodes.map (·.name) = script.allViews.map (·.name.value) := by
  have hplaces := congrArg (List.map Place.name) (places_of_run h)
  rwa [View.map_name_outlineAll, List.map_map] at hplaces

/-- A view that is reported is a root, or lies in the last one before it that is one less deep. -/
theorem parent_of_run (h : (script.run config process).result = .ok r)
    {before after : List (NodeReport α)} {n : NodeReport α} (hn : r.nodes = before ++ n :: after) :
    (n.parent = none ∧ n.depth = 0)
      ∨ ∃ p, before.reverse.find? (fun x => x.depth + 1 = n.depth) = some p
        ∧ n.parent = some p.name := by
  have hfollow : Place.Follow [] (View.outlineAll none 0 script.views) :=
    View.follow_outlineAll (.inl ⟨rfl, rfl⟩)
  rw [← places_of_run h, hn, List.map_append, List.map_cons] at hfollow
  refine hfollow.hangs.imp id fun ⟨p, hp, hparent⟩ => ?_
  rw [List.nil_append, ← List.map_reverse, List.find?_map] at hp
  obtain ⟨q, hq, rfl⟩ := Option.map_eq_some_iff.1 hp
  exact ⟨q, hq, hparent⟩

theorem nodup_names_of_run (h : (script.run config process).result = .ok r) :
    (r.nodes.map (·.name)).Nodup := by
  obtain ⟨scene, -, hscene, -⟩ := exists_of_run h
  have htree := tree_of_scene hscene
  rw [names_of_run h, ← names_tree htree]
  exact (entries_tree htree).2

/-- The frame that is reported of a view is the one that it has in the end. -/
theorem frame?_of_run {scene : Scene α} {s : Stage α} (hscene : script.scene = .ok scene)
    (hs : Stage.after config ⟨scene, config.effectiveDirection process, [], []⟩ script.statements
      = .ok s) {i : ℕ} {v : View α} (hv : script.allViews[i]? = some v) :
    s.tree.name i = v.name.value ∧ s.report.frame? v.name.value = some (s.tree.frame i) := by
  have htree := tree_of_scene hscene
  have hshape : scene.tree.SameShape s.tree := Stage.after_sameShape hs
  have hname : scene.tree.names[i]? = some v.name.value := by
    rw [names_tree htree, List.getElem?_map, hv, Option.map_some]
  have hi : i < scene.tree.size := by
    rw [← Tree.length_names]
    exact (List.getElem?_eq_some_iff.1 hname).1
  have hiname : s.tree.name i = v.name.value := by
    rw [hshape.name]
    exact Option.some.inj ((Tree.getElem?_names hi).symm.trans hname)
  have hframe := Stage.frame?_report (s := s) (n := i)
    (Stage.after_ordered hs (ordered_scene hscene))
    (by rw [hshape.names]; exact (entries_tree htree).2) (by rwa [hshape.size])
  rw [hiname] at hframe
  exact ⟨hiname, hframe⟩

/-- A view is reported with the frame of the last session that was on it. -/
theorem frame?_of_last_pin (h : (script.run config process).result = .ok r)
    {before after : List (Statement α)} {span : Span} {target : Spanned String}
    {calls : List (Call α)} (hsts : script.statements = before ++ .pin span target calls :: after)
    (hafter : ∀ st ∈ after, st.target? ≠ some target.value) :
    ∃ scene s session, script.scene = .ok scene
      ∧ Stage.after config ⟨scene, config.effectiveDirection process, [], []⟩ before = .ok s
      ∧ s.session config target calls = .ok session
      ∧ r.frame? target.value = some session.resolution.frame := by
  obtain ⟨scene, -, hscene, -⟩ := exists_of_run h
  have htree := tree_of_scene hscene
  rw [run, hscene, hsts] at h
  obtain ⟨s, hbefore, hrun⟩ := Stage.run_append h
  obtain ⟨s₁, hpin, hrun₁⟩ := Stage.exists_of_run_cons hrun
  obtain ⟨s', hs', rfl⟩ := Stage.report_after hrun₁
  obtain ⟨node, ds, hnode, hds, rfl⟩ := Stage.exists_of_statement_pin hpin
  refine ⟨scene, s, _, hscene, hbefore, Stage.session_eq hnode hds, ?_⟩
  obtain ⟨hlt, hname⟩ := Tree.name_of_find? hnode
  have hpinned := Stage.statement_sameShape hpin
  have hshape : scene.tree.SameShape s'.tree :=
    (Stage.after_sameShape hbefore).trans (hpinned.trans (Stage.after_sameShape hs'))
  have hname' : s'.tree.name node = target.value := by
    rw [(Stage.after_sameShape hs').name, hpinned.name, hname]
  -- The pins after it leave the frame of its node alone.
  have hkept := Stage.frame_after hs' (n := node) (by rwa [hpinned.name, hname])
  have hwritten := Tree.frame_setFrame_self hlt
    (Session.pass s.tree node config s.direction ds).resolution.frame
  have hordered : s'.scene.Ordered :=
    Stage.after_ordered ((Stage.after_cons hpin after).trans hs')
      (Stage.after_ordered hbefore (ordered_scene hscene))
  have hframe := Stage.frame?_report (s := s') (n := node) hordered
    (by rw [hshape.names]; exact (entries_tree htree).2)
    (by rw [(Stage.after_sameShape hs').size, hpinned.size]; exact hlt)
  rw [hname', hkept] at hframe
  exact hframe.trans (congrArg some hwritten)

theorem raised_of_run (h : (script.run config process).result = .ok r) :
    r.warnings = (script.raised config process).flatten
      ∧ List.Forall₂ (fun st ws => ∀ w ∈ ws, st.target? = some w.node) script.statements
        (script.raised config process) := by
  obtain ⟨scene, -, hscene, -⟩ := exists_of_run h
  rw [run, hscene] at h
  rw [raised, hscene]
  exact ⟨(Stage.run_warnings h).trans (List.nil_append _), Stage.forall₂_raisedAll h⟩

theorem exists_pin_of_warning (h : (script.run config process).result = .ok r)
    {w : WarningReport α} (hw : w ∈ r.warnings) :
    ∃ st ∈ script.statements, st.target? = some w.node := by
  obtain ⟨hwarnings, hraised⟩ := raised_of_run h
  obtain ⟨hlength, hget⟩ := List.forall₂_iff_get.1 hraised
  rw [hwarnings] at hw
  obtain ⟨ws, hws, hw⟩ := List.mem_flatten.1 hw
  obtain ⟨i, hi, rfl⟩ := List.getElem_of_mem hws
  exact ⟨_, List.getElem_mem (hlength ▸ hi), hget i (hlength ▸ hi) hi w hw⟩

/-- The report is a picture of the views of a script. It has one entry for each of them, in their
order and with its place in the forest, which can be read off the entries before it. No name is
repeated, and each stands for the frame that its view has in the end: that of the last session on
it, or the declared one where there was none. The warnings are those of the pins, in their order,
each about the target of its pin. -/
theorem report_pictures_views (script : Script α) (config : Config α) (process : Direction)
    (r : Report α) (h : (script.run config process).result = .ok r) :
    r.nodes.map NodeReport.place = View.outlineAll none 0 script.views
    ∧ r.nodes.map (·.name) = script.allViews.map (·.name.value)
    ∧ (r.nodes.map (·.name)).Nodup
    ∧ (∀ before n after, r.nodes = before ++ n :: after →
      (n.parent = none ∧ n.depth = 0)
        ∨ ∃ p, before.reverse.find? (fun x => x.depth + 1 = n.depth) = some p
          ∧ n.parent = some p.name)
    ∧ (∃ scene s, script.scene = .ok scene
      ∧ Stage.after config ⟨scene, config.effectiveDirection process, [], []⟩ script.statements
        = .ok s
      ∧ ∀ (i : ℕ) (v : View α), script.allViews[i]? = some v →
        s.tree.name i = v.name.value ∧ r.frame? v.name.value = some (s.tree.frame i))
    ∧ (∀ (before after : List (Statement α)) (span : Span) (target : Spanned String)
      (calls : List (Call α)), script.statements = before ++ .pin span target calls :: after →
      (∀ st ∈ after, st.target? ≠ some target.value) →
      ∃ scene s session, script.scene = .ok scene
        ∧ Stage.after config ⟨scene, config.effectiveDirection process, [], []⟩ before = .ok s
        ∧ s.session config target calls = .ok session
        ∧ r.frame? target.value = some session.resolution.frame)
    ∧ (∀ v ∈ script.allViews, (∀ st ∈ script.statements, st.target? ≠ some v.name.value) →
      ∃ frame content, View.measures v.modifiers .zero none = .ok (frame, content)
        ∧ r.frame? v.name.value = some frame)
    ∧ (∀ name, name ∉ script.allViews.map (·.name.value) → r.frame? name = none)
    ∧ r.warnings = (script.raised config process).flatten
    ∧ List.Forall₂ (fun st ws => ∀ w ∈ ws, st.target? = some w.node) script.statements
      (script.raised config process)
    ∧ ∀ w ∈ r.warnings, ∃ st ∈ script.statements, st.target? = some w.node := by
  obtain ⟨hwarnings, hraised⟩ := raised_of_run h
  refine ⟨places_of_run h, names_of_run h, nodup_names_of_run h,
    fun before n after hn => parent_of_run h hn, ?_,
    fun before after span target calls hsts hafter => frame?_of_last_pin h hsts hafter, ?_, ?_,
    hwarnings, hraised, fun w hw => exists_pin_of_warning h hw⟩
  · obtain ⟨scene, s, hscene, rfl, -, hs⟩ := exists_of_run h
    exact ⟨scene, s, hscene, hs, fun i v hv => frame?_of_run hscene hs hv⟩
  · intro v hv hsts
    obtain ⟨frame, content, hmeasures, hframe, -⟩ := frame_of_untouched h hv hsts
    exact ⟨frame, content, hmeasures, hframe⟩
  · intro name hname
    rw [← names_of_run h] at hname
    rw [Report.frame?, Option.map_eq_none_iff, List.find?_eq_none]
    intro n hn heq
    exact hname (List.mem_map.2 ⟨n, hn, by simpa using heq⟩)

/-- A badge in a card beside a note. The note is pinned twice, with a warning each time, and
reported as its second session left it. -/
theorem note_is_reported_as_pinned_last :
    let s : Span := ⟨0, 0⟩
    let view (name : String) (vs : List (View Rat)) : View Rat :=
      ⟨s, ⟨name, s⟩, [⟨s, ⟨"width", s⟩, ⟨20, s⟩⟩], vs⟩
    let calls (name : String) (v : Rat) : List (Call Rat) :=
      [⟨s, ⟨name, s⟩, [.number s v]⟩, ⟨s, ⟨"fit_size", s⟩, []⟩]
    let note (name : String) (v : Rat) : Statement Rat := .pin s ⟨"note", s⟩ (calls name v)
    let script : Script Rat := ⟨[note "left" 3, .view (view "card" [view "badge" []]),
      .direction s ⟨"rtl", s⟩, .view (view "note" []), note "left" 5]⟩
    let card : NodeReport Rat := ⟨"card", none, 0, ⟨⟨0, 0⟩, ⟨20, 0⟩⟩⟩
    let r : Report Rat := ⟨[card, ⟨"badge", some "card", 1, ⟨⟨0, 0⟩, ⟨20, 0⟩⟩⟩,
      ⟨"note", none, 0, ⟨⟨5, 0⟩, ⟨20, 0⟩⟩⟩], [⟨"note", .noContentSize⟩, ⟨"note", .noContentSize⟩]⟩
    (script.run .standard .ltr).result = .ok r
      ∧ r.nodes.map NodeReport.place = View.outlineAll none 0 script.views
      ∧ (r.nodes.map (·.name)).Nodup
      ∧ (∃ p, [card].reverse.find? (fun x => x.depth + 1 = 1) = some p ∧ some "card" = some p.name)
      ∧ (∃ scene s session, script.scene = .ok scene
        ∧ Stage.after .standard ⟨scene, .ltr, [], []⟩ (script.statements.take 4) = .ok s
        ∧ s.session .standard ⟨"note", ⟨0, 0⟩⟩ (calls "left" 5) = .ok session
        ∧ r.frame? "note" = some session.resolution.frame)
      ∧ r.frame? "badge" = some ⟨⟨0, 0⟩, ⟨20, 0⟩⟩ ∧ r.frame? "panel" = none
      ∧ r.warnings = (script.raised .standard .ltr).flatten := by
  intro s view calls note script card r
  have hr : (script.run .standard .ltr).result = .ok r := by decide +kernel
  obtain ⟨hplaces, -, hnodup, hparent, -, hlast, huntouched, hother, hwarnings, -⟩ :=
    report_pictures_views script .standard .ltr r hr
  obtain ⟨frame, content, hmeasures, hbadge⟩ :=
    huntouched (view "badge" []) (.tail _ (.head _)) (by decide)
  cases hmeasures
  refine ⟨hr, hplaces, hnodup, ?_, hlast _ [] s _ _ rfl (by simp), hbadge,
    hother "panel" (by decide), hwarnings⟩
  exact (hparent [card] _ _ rfl).resolve_left (by simp)

end Script

end Pinning
