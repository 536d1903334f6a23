import Pinning.Proofs.Declarations

/-!
# What can be wrong with views

Views are declared one after the other, a view before those inside it, and the first offence ends
that: a name that is there already, or a modifier that there is not (`View.Offence`). The names that
are there are those of the views before, at whatever depth, so that the forest can be read as the
list of its views (`View.declareAll_eq_error_iff`).
-/

namespace Pinning

variable {α : Type}

namespace View

/-- There is a modifier of this key. -/
def Known (m : Modifier α) : Prop := m.key.value ∈ Modifier.Key.all.map (·.name)

instance (m : Modifier α) : Decidable (Known m) := inferInstanceAs (Decidable (_ ∈ _))

theorem ofName?_eq_none {m : Modifier α} :
    Modifier.Key.ofName? m.key.value = none ↔ ¬Known m := by
  simp [Modifier.Key.ofName?, Known]

/-- No name is repeated, and every modifier is known. -/
structure Sound (vs : List (View α)) : Prop where
  names : (vs.map (·.name.value)).Nodup
  modifiers : ∀ v ∈ vs, ∀ m ∈ v.modifiers, Known m

instance (vs : List (View α)) : Decidable (Sound vs) :=
  decidable_of_iff ((vs.map (·.name.value)).Nodup ∧ ∀ v ∈ vs, ∀ m ∈ v.modifiers, Known m)
    ⟨fun h => ⟨h.1, h.2⟩, fun h => ⟨h.1, h.2⟩⟩

/-- The first offence among views: a name that a view before has, or else the first modifier that is
not known. -/
inductive Offence (vs : List (View α)) : SceneError → Prop
  | name {before after : List (View α)} {v : View α} (hvs : vs = before ++ v :: after)
    (hbefore : Sound before) (h : v.name.value ∈ before.map (·.name.value)) :
    Offence vs (.duplicateView v.name.value v.name.span)
  | modifier {before after : List (View α)} {v : View α} {ms ms' : List (Modifier α)}
    {m : Modifier α} (hvs : vs = before ++ v :: after) (hbefore : Sound before)
    (hname : v.name.value ∉ before.map (·.name.value)) (hms : v.modifiers = ms ++ m :: ms')
    (hknown : ∀ m' ∈ ms, Known m') (h : ¬Known m) :
    Offence vs (.unknownModifier m.key.value (Modifier.Key.all.map (·.name)) m.key.span)

/-- What is wrong with a view after views of these names. -/
def offenceAfter? (names : List String) (v : View α) : Option SceneError :=
  if v.name.value ∈ names then some (.duplicateView v.name.value v.name.span)
  else (v.modifiers.find? fun m => ¬Known m).map fun m =>
    .unknownModifier m.key.value (Modifier.Key.all.map (·.name)) m.key.span

/-- The first offence among views after others of these names. -/
def firstOffence? (names : List String) : List (View α) → Option SceneError
  | [] => none
  | v :: vs => (v.offenceAfter? names).or (firstOffence? (names ++ [v.name.value]) vs)

theorem firstOffence?_append : ∀ (names : List String) (vs ws : List (View α)),
    firstOffence? names (vs ++ ws)
      = (firstOffence? names vs).or (firstOffence? (names ++ vs.map (·.name.value)) ws)
  | names, [], ws => by simp [firstOffence?]
  | names, v :: vs, ws => by
    simp [firstOffence?, firstOffence?_append _ vs ws, Option.or_assoc, List.append_assoc]

theorem offenceAfter?_eq_none_iff {names : List String} {v : View α} : v.offenceAfter? names = none
    ↔ v.name.value ∉ names ∧ ∀ m ∈ v.modifiers, Known m := by
  rw [offenceAfter?]
  split_ifs with h <;> simp [h]

theorem sound_cons {v : View α} {vs : List (View α)} : Sound (v :: vs) ↔
    (∀ m ∈ v.modifiers, Known m) ∧ (∀ w ∈ vs, w.name.value ≠ v.name.value) ∧ Sound vs := by
  constructor
  · rintro ⟨hnames, hmodifiers⟩
    rw [List.map_cons, List.nodup_cons, List.mem_map, not_exists] at hnames
    exact ⟨hmodifiers v List.mem_cons_self, fun w hw heq => hnames.1 w ⟨hw, heq⟩, hnames.2,
      fun w hw => hmodifiers w (List.mem_cons_of_mem v hw)⟩
  · rintro ⟨hv, hne, hnames, hmodifiers⟩
    refine ⟨?_, List.forall_mem_cons.2 ⟨hv, hmodifiers⟩⟩
    rw [List.map_cons, List.nodup_cons, List.mem_map, not_exists]
    exact ⟨fun w hw => hne w hw.1 hw.2, hnames⟩

theorem firstOffence?_eq_none_iff {names : List String} {vs : List (View α)} :
    firstOffence? names vs = none ↔ Sound vs ∧ ∀ v ∈ vs, v.name.value ∉ names := by
  induction vs generalizing names with
  | nil => simpa [firstOffence?] using ⟨List.nodup_nil, by simp⟩
  | cons v vs ih =>
    rw [firstOffence?, Option.or_eq_none_iff, offenceAfter?_eq_none_iff, ih, sound_cons]
    simp only [List.mem_append, List.mem_singleton, not_or, forall_and, List.forall_mem_cons]
    tauto

/-- The first offence is that of a view after sound ones. -/
theorem exists_of_firstOffence {e : SceneError} : ∀ {names : List String} {vs : List (View α)},
    firstOffence? names vs = some e → ∃ before v after, vs = before ++ v :: after
      ∧ firstOffence? names before = none
      ∧ v.offenceAfter? (names ++ before.map (·.name.value)) = some e
  | names, [], h => by cases h
  | names, v :: vs, h => by
    rcases Option.or_eq_some_iff.1 h with hv | ⟨hv, hvs⟩
    · exact ⟨[], v, vs, rfl, rfl, by simpa using hv⟩
    · obtain ⟨before, w, after, rfl, hbefore, hw⟩ := exists_of_firstOffence hvs
      refine ⟨v :: before, w, after, rfl, ?_, ?_⟩
      · rw [firstOffence?, hv, hbefore, Option.or_none]
      · simpa using hw

theorem firstOffence?_nil_eq_none {vs : List (View α)} : firstOffence? [] vs = none ↔ Sound vs := by
  simp [firstOffence?_eq_none_iff]

theorem firstOffence?_of_sound {before after : List (View α)} {v : View α} {e : SceneError}
    (h : Sound before) (he : v.offenceAfter? (before.map (·.name.value)) = some e) :
    firstOffence? [] (before ++ v :: after) = some e := by
  rw [firstOffence?_append, firstOffence?_nil_eq_none.2 h, Option.none_or, firstOffence?,
    List.nil_append, he, Option.some_or]

theorem firstOffence?_eq_some_iff {vs : List (View α)} {e : SceneError} :
    firstOffence? [] vs = some e ↔ Offence vs e := by
  constructor
  · intro h
    obtain ⟨before, v, after, hvs, hbefore, hv⟩ := exists_of_firstOffence h
    rw [List.nil_append, offenceAfter?] at hv
    split_ifs at hv with hname
    · cases hv
      exact .name hvs (firstOffence?_nil_eq_none.1 hbefore) hname
    · obtain ⟨m, hm, rfl⟩ := Option.map_eq_some_iff.1 hv
      obtain ⟨hunknown, ms, ms', hms, hknown⟩ := List.find?_eq_some_iff_append.1 hm
      exact .modifier hvs (firstOffence?_nil_eq_none.1 hbefore) hname hms (by simpa using hknown)
        (by simpa using hunknown)
  · intro h
    cases h with
    | name hvs hbefore h =>
      rw [hvs]
      exact firstOffence?_of_sound hbefore (if_pos h)
    | @modifier before after v ms ms' m hvs hbefore hname hms hknown h =>
      have hfind : v.modifiers.find? (fun m => ¬Known m) = some m :=
        List.find?_eq_some_iff_append.2 ⟨by simpa using h, ms, ms', hms, by simpa using hknown⟩
      rw [hvs]
      refine firstOffence?_of_sound hbefore ?_
      rw [offenceAfter?, if_neg hname, hfind, Option.map_some]

variable [Scalar α]

theorem measures_eq_error_iff {e : SceneError} : ∀ (ms : List (Modifier α)) (frame : Rect α)
    (content : Option (Size α)), measures ms frame content = .error e
      ↔ (ms.find? fun m => ¬Known m).map (fun m =>
          SceneError.unknownModifier m.key.value (Modifier.Key.all.map (·.name)) m.key.span)
        = some e
  | [], frame, content => by simp [measures]
  | m :: ms, frame, content => by
    rw [measures, List.find?_cons]
    cases hkey : Modifier.Key.ofName? m.key.value with
    | none => simp [ofName?_eq_none.1 hkey]
    | some key =>
      have hknown : Known m := by
        by_contra h
        rw [ofName?_eq_none.2 h] at hkey
        cases hkey
      simp only [hknown, not_true, decide_false]
      cases key <;> exact measures_eq_error_iff ms _ _

mutual

theorem declare_eq_error_iff {parent : Option NodeId} {depth : Nat} {s : Scene α}
    {e : SceneError} : ∀ {v : View α},
      declare parent depth s v = .error e ↔ firstOffence? s.tree.names v.preorder = some e
  | ⟨span, name, modifiers, children⟩ => by
    rw [declare, preorder, firstOffence?, offenceAfter?]
    by_cases hdup : name.value ∈ s.tree.names
    · have hfind : (s.tree.find? name.value).isSome = true := by
        rw [Option.isSome_iff_ne_none, ne_eq, Tree.find?_eq_none, not_not]
        exact hdup
      simp [hfind, hdup]
    · have hfind : s.tree.find? name.value = none := Tree.find?_eq_none.2 hdup
      rw [hfind, Option.isSome_none, if_neg Bool.false_ne_true, if_neg hdup]
      cases hm : measures modifiers .zero none with
      | error e' =>
        rw [(measures_eq_error_iff modifiers .zero none).1 hm, Option.some_or, Except.error.injEq,
          Option.some.injEq]
      | ok measured =>
        have hnone := Option.eq_none_iff_forall_ne_some.2 fun e' he' =>
          absurd (((measures_eq_error_iff modifiers .zero none).2 he').symm.trans hm) (by simp)
        rw [hnone, Option.none_or]
        -- The names before the children are those before the view, and its own.
        have hown := (extends_add (v := ⟨span, name, modifiers, children⟩) hfind hm parent
          depth).names_eq
        rw [List.map_singleton] at hown
        rw [← hown]
        exact declareAll_eq_error_iff

theorem declareAll_eq_error_iff {parent : Option NodeId} {depth : Nat} {s : Scene α}
    {e : SceneError} : ∀ {vs : List (View α)}, declareAll parent depth s vs = .error e
      ↔ firstOffence? s.tree.names (preorderAll vs) = some e
  | [] => by simp [declareAll, preorderAll, firstOffence?]
  | v :: vs => by
    rw [declareAll, preorderAll, firstOffence?_append]
    cases hv : declare parent depth s v with
    | error e' =>
      simp [declare_eq_error_iff.1 hv]
    | ok s' =>
      have hnone : firstOffence? s.tree.names v.preorder = none := by
        refine Option.eq_none_iff_forall_ne_some.2 fun e' he' => ?_
        rw [declare_eq_error_iff.2 he'] at hv
        cases hv
      rw [hnone, Option.none_or, ← (entries_declare hv).names_eq]
      exact declareAll_eq_error_iff

end

end View

namespace Script

variable [Scalar α] {script : Script α}

theorem tree_eq_error_iff {e : SceneError} :
    script.tree = .error e ↔ View.Offence script.allViews e := by
  rw [← scene_eq_error_iff, scene, View.declareAll_eq_error_iff, allViews, ← View.firstOffence?_eq_some_iff]
  rfl

theorem exists_tree_iff : (∃ tree, script.tree = .ok tree) ↔ View.Sound script.allViews := by
  rw [← View.firstOffence?_nil_eq_none]
  cases htree : script.tree with
  | error e => simp [View.firstOffence?_eq_some_iff.2 (tree_eq_error_iff.1 htree)]
  | ok tree =>
    refine iff_of_true ⟨tree, rfl⟩ (Option.eq_none_iff_forall_ne_some.2 fun e he => ?_)
    rw [tree_eq_error_iff.2 (View.firstOffence?_eq_some_iff.1 he)] at htree
    cases htree

end Script

end Pinning
