import Pinning.Proofs.Parts
import Pinning.Proofs.Placement

/-!
# Errors point at parts

A scene error carries the place of one part of the script, the one that it is about
(`SceneError.Blames`). Each function that can fail is given the parts that its errors may be about: a
call its own parts, a view its own, a statement its own. So a run that fails blames a part of the
script (`Script.failsAt_run`).
-/

namespace Pinning

variable {α β γ : Type}

/-- The part that an error is about, with its name and its place. -/
inductive SceneError.Blames : SceneError → Part α → Prop
  | target (name : Spanned String) (known : List String) :
    Blames (.ofNode name.value name.span known) (.text name)
  | name (span : Span) (node : String) (known : List String) :
    Blames (.ofNode node span known) (.arg (.name span node))
  | member (span : Span) (node member : String) (known : List String) :
    Blames (.ofNode node span known) (.arg (.member span node member))
  | view (name : Spanned String) : Blames (.duplicateView name.value name.span) (.text name)
  | modifier (key : Spanned String) (valid : List String) :
    Blames (.unknownModifier key.value valid key.span) (.text key)
  | directive (name : Spanned String) (known : List String) :
    Blames (.ofDirective name.value name.span known) (.text name)
  | arguments (c : Call α) (usage : Usage) :
    Blames (.badArguments c.name.value usage c.span) (.call c)
  | direction (name : Spanned String) : Blames (.badDirection name.value name.span) (.text name)

/-- What fails blames one of these parts. -/
def FailsAt (Q : Part α → Prop) (x : Except SceneError β) : Prop :=
  ∀ e, x = .error e → ∃ p, Q p ∧ e.Blames p

section

variable {Q Q' : Part α → Prop}

theorem FailsAt.ok (b : β) : FailsAt Q (.ok b) := fun _ h => by cases h

theorem FailsAt.error {p : Part α} {e : SceneError} (hp : Q p) (he : e.Blames p) :
    FailsAt Q (.error e : Except SceneError β) := fun _ h => by
  cases h
  exact ⟨p, hp, he⟩

/-- An error that is passed on. -/
theorem FailsAt.of_error {x : Except SceneError β} (hx : FailsAt Q x) {e : SceneError}
    (h : x = .error e) : FailsAt Q (.error e : Except SceneError γ) := fun _ he => by
  cases he
  exact hx e h

theorem FailsAt.mono {x : Except SceneError β} (hx : FailsAt Q x) (h : ∀ p, Q p → Q' p) :
    FailsAt Q' x := fun e he => by
  obtain ⟨p, hp, hblames⟩ := hx e he
  exact ⟨p, h p hp, hblames⟩

theorem FailsAt.bind {x : Except SceneError β} {k : β → Except SceneError γ} (hx : FailsAt Q x)
    (hk : ∀ b, FailsAt Q (k b)) : FailsAt Q (x >>= k) := by
  cases x with
  | error e => exact hx.of_error rfl
  | ok b => exact hk b

theorem FailsAt.map {x : Except SceneError β} (hx : FailsAt Q x) (f : β → γ) :
    FailsAt Q (x.map f) := by
  cases x with
  | error e => exact hx.of_error rfl
  | ok b => exact .ok _

theorem FailsAt.ite {x y : Except SceneError β} (p : Prop) [Decidable p] (hx : FailsAt Q x)
    (hy : FailsAt Q y) : FailsAt Q (if p then x else y) := by
  split
  · exact hx
  · exact hy

theorem Tree.failsAt_lookUp (t : Tree α) {name : String} {span : Span} {p : Part α} (hp : Q p)
    (hblames : ∀ known, (SceneError.ofNode name span known).Blames p) :
    FailsAt Q (t.lookUp name span) := by
  unfold lookUp
  cases t.find? name with
  | none => exact .error hp (hblames _)
  | some id => exact .ok id

end

theorem Part.Within.of_mem {p q : Part α} (h : q ∈ p.parts) : p.Within q := .single h

namespace Call

variable (t : Tree α) (c : Call α)

theorem within_arg {arg : Arg α} (h : arg ∈ c.args) : (Part.call c).Within (.arg arg) :=
  .of_mem (List.mem_cons_of_mem _ (List.mem_map_of_mem h))

theorem within_item {span : Span} {items : List (Arg α)} (h : .list span items ∈ c.args)
    {item : Arg α} (hitem : item ∈ items) : (Part.call c).Within (.arg item) :=
  (c.within_arg h).tail (List.mem_map_of_mem hitem)

theorem failsAt_bad (usage : Usage) :
    FailsAt (Part.call c).Within (c.bad usage : Except SceneError β) :=
  .error .refl (.arguments c usage)

theorem failsAt_orBad (usage : Usage) (x : Option β) :
    FailsAt (Part.call c).Within (c.orBad usage x) := by
  cases x with
  | none => exact c.failsAt_bad usage
  | some b => exact .ok b

/-- A name among the arguments, looked up. -/
theorem failsAt_name {span : Span} {node : String}
    (h : (Part.call c).Within (.arg (.name span node))) :
    FailsAt (Part.call c).Within (t.lookUp node span) :=
  t.failsAt_lookUp h fun known => .name span node known

theorem failsAt_member {span : Span} {node member : String}
    (h : .member span node member ∈ c.args) :
    FailsAt (Part.call c).Within (t.lookUp node span) :=
  t.failsAt_lookUp (c.within_arg h) fun known => .member span node member known

theorem failsAt_nodes (usage : Usage) {items : List (Arg α)}
    (h : ∀ item ∈ items, (Part.call c).Within (.arg item)) :
    FailsAt (Part.call c).Within (c.nodes t usage items) := by
  induction items with
  | nil => exact .ok []
  | cons item items ih =>
    have hrest := ih fun item' h' => h item' (List.mem_cons_of_mem item h')
    cases item with
    | name span node =>
      exact (c.failsAt_name t (h _ List.mem_cons_self)).bind fun id => hrest.bind fun ids => .ok _
    | _ => exact c.failsAt_bad usage

theorem failsAt_place_go (usage : Usage) (word? : String → Option β)
    (relation : Option β → Relation) {targets : Arg α} (h : targets ∈ c.args)
    (word : Option String) :
    FailsAt (Part.call c).Within (place.go t c usage word? relation targets word) := by
  unfold place.go
  cases targets with
  | name span node =>
    have hname : ∀ item ∈ [.name span node], (Part.call c).Within (.arg item) := by
      intro item hitem
      rw [List.mem_singleton.1 hitem]
      exact c.within_arg h
    refine (c.failsAt_nodes t usage hname).bind fun group => ?_
    cases word with
    | none => exact .ok _
    | some w => exact (c.failsAt_orBad usage _).bind fun _ => .ok _
  | list span items =>
    refine (c.failsAt_nodes t usage fun item hitem => c.within_item h hitem).bind fun group => ?_
    cases word with
    | none => exact .ok _
    | some w => exact (c.failsAt_orBad usage _).bind fun _ => .ok _
  | _ => exact c.failsAt_bad usage

theorem failsAt_anchor (own : Anchor) : FailsAt (Part.call c).Within (c.anchor t own) := by
  obtain ⟨span, name, args⟩ := c
  rcases args with _ | ⟨arg, _ | ⟨arg', args⟩⟩
  · exact .ok _
  · cases arg with
    | member span' node member =>
      exact (failsAt_orBad _ _ _).bind fun target =>
        (failsAt_member t _ List.mem_cons_self).bind fun id => .ok _
    | _ => exact failsAt_bad _ _
  · cases arg <;> exact failsAt_bad _ _

theorem failsAt_place (usage : Usage) (word? : String → Option β) (relation : Option β → Relation) :
    FailsAt (Part.call c).Within (c.place t usage word? relation) := by
  obtain ⟨span, name, args⟩ := c
  rcases args with _ | ⟨targets, _ | ⟨arg, _ | ⟨arg', args⟩⟩⟩
  · exact failsAt_bad _ _
  · exact failsAt_place_go t _ usage word? relation List.mem_cons_self none
  · cases arg with
    | named span' key value =>
      refine .ite (key.value = "aligned") ?_ (failsAt_bad _ _)
      exact (failsAt_orBad _ usage _).bind fun w =>
        failsAt_place_go t _ usage word? relation List.mem_cons_self (some w)
    | _ => exact failsAt_bad _ _
  · cases arg <;> exact failsAt_bad _ _

theorem failsAt_size : FailsAt (Part.call c).Within (c.size t) := by
  obtain ⟨span, name, args⟩ := c
  rcases args with _ | ⟨arg, _ | ⟨arg', _ | ⟨arg'', args⟩⟩⟩
  · exact failsAt_bad _ _
  · cases arg with
    | name span' node =>
      exact (failsAt_name t _ (within_arg _ List.mem_cons_self)).bind fun id => .ok _
    | _ => exact (failsAt_orBad _ _ _).bind fun v => .ok _
  · rw [size_pair]
    exact (failsAt_orBad _ _ _).bind fun w => (failsAt_orBad _ _ _).bind fun h => .ok _
  · cases arg <;> exact failsAt_bad _ _

theorem failsAt_aspectRatio : FailsAt (Part.call c).Within (c.aspectRatio t) := by
  obtain ⟨span, name, args⟩ := c
  rcases args with _ | ⟨arg, _ | ⟨arg', args⟩⟩
  · exact .ok _
  · cases arg with
    | name span' node =>
      exact (failsAt_name t _ (within_arg _ List.mem_cons_self)).bind fun id => .ok _
    | number => exact .ok _
    | _ => exact failsAt_bad _ _
  · cases arg <;> exact failsAt_bad _ _

theorem failsAt_flag (d : Directive α) : FailsAt (Part.call c).Within (c.flag d) := by
  obtain ⟨span, name, args⟩ := c
  cases args with
  | nil => exact .ok d
  | cons arg args => exact failsAt_bad _ _

theorem failsAt_word (usage : Usage) (word? : String → Option β) (directive : β → Directive α) :
    FailsAt (Part.call c).Within (c.word usage word? directive) := by
  obtain ⟨span, name, args⟩ := c
  rcases args with _ | ⟨arg, _ | ⟨arg', args⟩⟩
  · exact failsAt_bad _ _
  · cases arg with
    | name span' n => exact (failsAt_orBad _ _ _).bind fun b => .ok _
    | _ => exact failsAt_bad _ _
  · cases arg <;> exact failsAt_bad _ _

theorem failsAt_margin : FailsAt (Part.call c).Within c.margin :=
  (c.failsAt_orBad _ _).bind fun _ => .ok _

variable [Scalar α]

theorem failsAt_setter (s : Setter) : FailsAt (Part.call c).Within (c.setter t s) := by
  obtain ⟨span, name, args⟩ := c
  rcases args with _ | ⟨arg, _ | ⟨arg', args⟩⟩
  · exact .ite (s.hasDefault = true) (.ok _) (failsAt_bad _ _)
  · cases arg with
    | number | percent => exact .ok _
    | member span' node member =>
      unfold setter
      dsimp only
      cases s.reference with
      | side own | line own =>
        exact (failsAt_orBad _ _ _).bind fun target =>
          (failsAt_member t _ List.mem_cons_self).bind fun id => .ok _
      | size | none => exact failsAt_bad _ _
    | name span' node =>
      unfold setter
      dsimp only
      cases s.reference with
      | size a => exact (failsAt_name t _ (within_arg _ List.mem_cons_self)).bind fun id => .ok _
      | side | line | none => exact failsAt_bad _ _
    | list | named => exact failsAt_bad _ _
  · cases arg <;> exact failsAt_bad _ _

/-- A call that is no directive blames a part of its own. -/
theorem failsAt_directive : FailsAt (Part.call c).Within (c.directive t) := by
  unfold directive
  cases CallName.ofName? c.name.value with
  | none => exact .error (.of_mem List.mem_cons_self) (.directive c.name _)
  | some name =>
    cases name with
    | set s => exact failsAt_setter t c s
    | anchor a => exact failsAt_anchor t c a
    | above | below | leftOf | rightOf | before | after => exact failsAt_place t c _ _ _
    | size => exact failsAt_size t c
    | aspectRatio => exact failsAt_aspectRatio t c
    | fitSize | pinEdges => exact failsAt_flag c _
    | margin => exact failsAt_margin c
    | justify | align => exact failsAt_word c _ _ _

end Call

theorem View.within_key {v : View α} {m : Modifier α} (h : m ∈ v.modifiers) :
    (Part.view v).Within (.text m.key) := by
  have hm : Part.modifier m ∈ (Part.view v).parts :=
    List.mem_cons_of_mem _ (List.mem_append_left _ (List.mem_map_of_mem h))
  exact (Part.Within.of_mem hm).tail List.mem_cons_self

theorem View.within_child {v child : View α} (h : child ∈ v.children) {p : Part α}
    (hp : (Part.view child).Within p) : (Part.view v).Within p :=
  .head (List.mem_cons_of_mem _ (List.mem_append_right _ (List.mem_map_of_mem h))) hp

variable [Scalar α]

theorem View.failsAt_measures {Q : Part α → Prop} {ms : List (Modifier α)}
    (h : ∀ m ∈ ms, Q (.text m.key)) (frame : Rect α) (content : Option (Size α)) :
    FailsAt Q (View.measures ms frame content) := by
  induction ms generalizing frame content with
  | nil => exact .ok _
  | cons m ms ih =>
    have hrest := ih fun m' h' => h m' (List.mem_cons_of_mem m h')
    rw [View.measures]
    cases Modifier.Key.ofName? m.key.value with
    | none => exact .error (h m List.mem_cons_self) (.modifier m.key _)
    | some key => cases key <;> exact hrest _ _

mutual

theorem View.failsAt_declare (parent : Option NodeId) (depth : Nat) (s : Scene α) :
    ∀ v : View α, FailsAt (Part.view v).Within (View.declare parent depth s v)
  | ⟨span, name, modifiers, children⟩ => by
    let v : View α := ⟨span, name, modifiers, children⟩
    have hkeys : ∀ m ∈ modifiers, (Part.view v).Within (.text m.key) :=
      fun m hm => View.within_key hm
    have hchildren : ∀ child ∈ children, ∀ p, (Part.view child).Within p → (Part.view v).Within p :=
      fun child hc p hp => View.within_child hc hp
    rw [View.declare]
    refine .ite _ (.error (.of_mem List.mem_cons_self) (.view name)) ?_
    cases hm : View.measures modifiers .zero none with
    | error e => exact (View.failsAt_measures hkeys .zero none).of_error hm
    | ok measured => exact View.failsAt_declareAll _ _ _ hchildren

theorem View.failsAt_declareAll {Q : Part α → Prop} (parent : Option NodeId) (depth : Nat)
    (s : Scene α) : ∀ {vs : List (View α)}, (∀ v ∈ vs, ∀ p, (Part.view v).Within p → Q p) →
      FailsAt Q (View.declareAll parent depth s vs)
  | [], _ => .ok s
  | v :: vs, h => by
    have hv := (View.failsAt_declare parent depth s v).mono (h v List.mem_cons_self)
    rw [View.declareAll]
    cases hd : View.declare parent depth s v with
    | error e => exact hv.of_error hd
    | ok s' =>
      exact View.failsAt_declareAll parent depth s' fun v' hv' =>
        h v' (List.mem_cons_of_mem v hv')

end

theorem Script.failsAt_scene (script : Script α) : FailsAt script.Has script.scene := by
  refine View.failsAt_declareAll none 0 {} fun v hv p hp => ?_
  obtain ⟨st, hst, hview⟩ := List.mem_filterMap.1 hv
  cases st with
  | view v' =>
    cases hview
    exact ⟨_, hst, hp⟩
  | direction | pin => cases hview

namespace Stage

variable (config : Config α) (s : Stage α)

theorem failsAt_directives (t : Tree α) {Q : Part α → Prop} {calls : List (Call α)}
    (h : ∀ c ∈ calls, ∀ p, (Part.call c).Within p → Q p) :
    FailsAt Q (calls.mapM (Call.directive t)) := by
  induction calls with
  | nil => exact .ok []
  | cons c calls ih =>
    rw [List.mapM_cons]
    exact ((c.failsAt_directive t).mono (h c List.mem_cons_self)).bind fun d =>
      (ih fun c' h' => h c' (List.mem_cons_of_mem c h')).bind fun ds => .ok _

/-- A statement that fails blames a part of its own. -/
theorem failsAt_statement (st : Statement α) :
    FailsAt st.part.Within (s.statement config st) := by
  cases st with
  | view v => exact .ok s
  | direction span name =>
    rw [statement]
    cases Direction.ofName? name.value with
    | none => exact .error (.of_mem List.mem_cons_self) (.direction name)
    | some d => exact .ok _
  | pin span target calls =>
    have htarget : (Part.pin span target calls).Within (.text target) := .of_mem List.mem_cons_self
    have hcalls : ∀ c ∈ calls, ∀ p, (Part.call c).Within p →
        (Part.pin span target calls).Within p := fun c hc p hp =>
      .head (List.mem_cons_of_mem _ (List.mem_map_of_mem hc)) hp
    refine FailsAt.map ?_ _
    exact (s.tree.failsAt_lookUp htarget fun known => .target target known).bind fun node =>
      (failsAt_directives s.tree hcalls).bind fun ds => .ok _

theorem failsAt_run (sts : List (Statement α)) :
    FailsAt (fun p => ∃ st ∈ sts, st.part.Within p) (s.run config sts).result := by
  induction sts generalizing s with
  | nil => exact .ok _
  | cons st sts ih =>
    have hst := s.failsAt_statement config st
    rw [run]
    cases h : s.statement config st with
    | error e => exact (hst.of_error h).mono fun p hp => ⟨st, List.mem_cons_self, hp⟩
    | ok s' =>
      refine (ih s').mono fun p hp => ?_
      obtain ⟨st', hst', hp⟩ := hp
      exact ⟨st', List.mem_cons_of_mem st hst', hp⟩

end Stage

/-- A run that fails blames a part of its script. -/
theorem Script.failsAt_run (script : Script α) (config : Config α) (process : Direction) :
    FailsAt script.Has (script.run config process).result := by
  rw [run]
  cases h : script.scene with
  | error e => exact script.failsAt_scene.of_error h
  | ok scene => exact Stage.failsAt_run config _ script.statements

end Pinning
