import Pinning.Proofs.Relocation
import Pinning.Scene.Run

/-!
# Places pass through a run

What a script does depends on no place in it: a script that is moved runs as before, and where the
run fails the error is moved.
-/

namespace Pinning

variable {α β γ ε ε' : Type} (r : Relocation)

def SceneError.relocate : SceneError → SceneError
  | unknownNode name s names => unknownNode name (s.relocate r) names
  | duplicateView name s => duplicateView name (s.relocate r)
  | unknownDirective name s names => unknownDirective name (s.relocate r) names
  | badArguments directive usage s => badArguments directive usage (s.relocate r)
  | unknownModifier name valid s => unknownModifier name valid (s.relocate r)
  | badDirection name s => badDirection name (s.relocate r)

/-- One result is another with the place of its error moved. -/
def Moved (x' x : Except SceneError β) : Prop := x' = x.mapError (SceneError.relocate r)

theorem Moved.bind {r : Relocation} {x x' : Except SceneError β}
    {k k' : β → Except SceneError γ} (hx : Moved r x' x) (hk : ∀ b, Moved r (k' b) (k b)) :
    Moved r (x' >>= k') (x >>= k) := by
  cases hx
  cases x with
  | error e => rfl
  | ok b => exact hk b

theorem Moved.map {r : Relocation} {x x' : Except SceneError β} (hx : Moved r x' x) (f : β → γ) :
    Moved r (x'.map f) (x.map f) := by
  cases hx
  cases x <;> rfl

theorem Moved.ite {r : Relocation} {x x' y y' : Except SceneError β} (p : Prop) [Decidable p]
    (hx : Moved r x' x) (hy : Moved r y' y) :
    Moved r (if p then x' else y') (if p then x else y) := by
  split
  · exact hx
  · exact hy

theorem Tree.moved_lookUp (t : Tree α) (name : String) (s : Span) :
    Moved r (t.lookUp name (s.relocate r)) (t.lookUp name s) := by
  unfold lookUp
  cases t.find? name <;> rfl

namespace Arg

variable (arg : Arg α)

theorem relocate_length? : (arg.relocate r).length? = arg.length? := by cases arg <;> rfl

theorem relocate_number? : (arg.relocate r).number? = arg.number? := by cases arg <;> rfl

theorem relocate_name? : (arg.relocate r).name? = arg.name? := by cases arg <;> rfl

end Arg

namespace Call

variable (t : Tree α) (c : Call α)

theorem moved_orBad (usage : Usage) {x x' : Option β} (h : x' = x) :
    Moved r ((c.relocate r).orBad usage x') (c.orBad usage x) := by
  subst h
  cases x' <;> rfl

theorem moved_nodes (usage : Usage) (items : List (Arg α)) :
    Moved r ((c.relocate r).nodes t usage (items.map (Arg.relocate r)))
      (c.nodes t usage items) := by
  induction items with
  | nil => rfl
  | cons item items ih =>
    cases item with
    | name span node => exact (t.moved_lookUp r node span).bind fun id => ih.bind fun ids => rfl
    | _ => rfl

theorem moved_place_go (usage : Usage) (word? : String → Option β)
    (relation : Option β → Relation) (targets : Arg α) (word : Option String) :
    Moved r (place.go t (c.relocate r) usage word? relation (targets.relocate r) word)
      (place.go t c usage word? relation targets word) := by
  unfold place.go
  cases targets with
  | name span node =>
    refine (moved_nodes r t c usage [.name span node]).bind fun group => ?_
    cases word with
    | none => rfl
    | some w => exact (moved_orBad r c usage rfl).bind fun b => rfl
  | list span items =>
    rw [Arg.relocate_list]
    refine (moved_nodes r t c usage items).bind fun group => ?_
    cases word with
    | none => rfl
    | some w => exact (moved_orBad r c usage rfl).bind fun b => rfl
  | _ => rfl

theorem moved_anchor (own : Anchor) : Moved r ((c.relocate r).anchor t own) (c.anchor t own) := by
  obtain ⟨span, name, args⟩ := c
  rcases args with _ | ⟨arg, _ | ⟨arg', args⟩⟩
  · rfl
  · cases arg with
    | member span' node member =>
      exact (moved_orBad r ⟨span, name, [.member span' node member]⟩ _ rfl).bind fun target =>
        (t.moved_lookUp r node span').bind fun id => rfl
    | _ => rfl
  · cases arg <;> rfl

theorem moved_place (usage : Usage) (word? : String → Option β) (relation : Option β → Relation) :
    Moved r ((c.relocate r).place t usage word? relation) (c.place t usage word? relation) := by
  have go := moved_place_go r t c usage word? relation
  obtain ⟨span, name, args⟩ := c
  rcases args with _ | ⟨targets, _ | ⟨arg, _ | ⟨arg', args⟩⟩⟩
  · rfl
  · exact go targets none
  · cases arg with
    | named span' key value =>
      have word := (moved_orBad r ⟨span, name, [targets, .named span' key value]⟩ usage
        (value.relocate_name? r)).bind fun w => go targets (some w)
      exact .ite (key.value = "aligned") word rfl
    | _ => rfl
  · cases arg <;> rfl

theorem size_pair (span : Span) (name : Spanned String) (w h : Arg α) :
    (⟨span, name, [w, h]⟩ : Call α).size t = do
      return .sizes (← orBad ⟨span, name, [w, h]⟩ .widthAndHeight w.length?)
        (← orBad ⟨span, name, [w, h]⟩ .widthAndHeight h.length?) := by
  cases w <;> rfl

theorem moved_size : Moved r ((c.relocate r).size t) (c.size t) := by
  obtain ⟨span, name, args⟩ := c
  rcases args with _ | ⟨arg, _ | ⟨arg', _ | ⟨arg'', args⟩⟩⟩
  · rfl
  · cases arg with
    | name span' node => exact (t.moved_lookUp r node span').bind fun id => rfl
    | _ => rfl
  · rw [relocate, List.map_cons, List.map_cons, List.map_nil, size_pair, size_pair]
    have length (x : Arg α) :=
      moved_orBad r ⟨span, name, [arg, arg']⟩ .widthAndHeight (x.relocate_length? r)
    exact (length arg).bind fun w => (length arg').bind fun h => rfl
  · cases arg <;> rfl

theorem moved_aspectRatio : Moved r ((c.relocate r).aspectRatio t) (c.aspectRatio t) := by
  obtain ⟨span, name, args⟩ := c
  rcases args with _ | ⟨arg, _ | ⟨arg', args⟩⟩
  · rfl
  · cases arg with
    | name span' node => exact (t.moved_lookUp r node span').bind fun id => rfl
    | _ => rfl
  · cases arg <;> rfl

theorem moved_flag (d : Directive α) : Moved r ((c.relocate r).flag d) (c.flag d) := by
  obtain ⟨span, name, args⟩ := c
  cases args <;> rfl

theorem moved_word (usage : Usage) (word? : String → Option β) (directive : β → Directive α) :
    Moved r ((c.relocate r).word usage word? directive) (c.word usage word? directive) := by
  obtain ⟨span, name, args⟩ := c
  rcases args with _ | ⟨arg, _ | ⟨arg', args⟩⟩
  · rfl
  · cases arg with
    | name span' n =>
      exact (moved_orBad r ⟨span, name, [.name span' n]⟩ usage rfl).bind fun b => rfl
    | _ => rfl
  · cases arg <;> rfl

theorem moved_margin : Moved r (c.relocate r).margin c.margin := by
  have hnumbers : ((c.relocate r).args.mapM Arg.number?) = c.args.mapM Arg.number? := by
    rw [relocate, List.mapM_map]
    exact congrArg (fun f => c.args.mapM f) (funext fun arg => arg.relocate_number? r)
  exact (moved_orBad r c .insets (by rw [hnumbers])).bind fun insets => rfl

variable [Scalar α]

theorem moved_setter (s : Setter) : Moved r ((c.relocate r).setter t s) (c.setter t s) := by
  obtain ⟨span, name, args⟩ := c
  rcases args with _ | ⟨arg, _ | ⟨arg', args⟩⟩
  · unfold setter
    dsimp only [relocate, List.map_nil]
    cases s.hasDefault <;> rfl
  · cases arg with
    | member span' node member =>
      unfold setter
      dsimp only
      cases s.reference with
      | side own =>
        exact (moved_orBad r ⟨span, name, [.member span' node member]⟩ s.usage rfl).bind
          fun target => (t.moved_lookUp r node span').bind fun id => rfl
      | line own =>
        exact (moved_orBad r ⟨span, name, [.member span' node member]⟩ s.usage rfl).bind
          fun target => (t.moved_lookUp r node span').bind fun id => rfl
      | _ => rfl
    | name span' node =>
      unfold setter
      dsimp only
      cases s.reference with
      | size a => exact (t.moved_lookUp r node span').bind fun id => rfl
      | _ => rfl
    | _ => rfl
  · cases arg <;> rfl

theorem moved_directive : Moved r ((c.relocate r).directive t) (c.directive t) := by
  have hname : (c.relocate r).name.value = c.name.value := rfl
  unfold directive
  rw [hname]
  cases CallName.ofName? c.name.value with
  | none => rfl
  | some name =>
    cases name with
    | set s => exact moved_setter r t c s
    | anchor a => exact moved_anchor r t c a
    | above | below | leftOf | rightOf | before | after => exact moved_place r t c _ _ _
    | size => exact moved_size r t c
    | aspectRatio => exact moved_aspectRatio r t c
    | fitSize | pinEdges => exact moved_flag r c _
    | margin => exact moved_margin r c
    | justify | align => exact moved_word r c _ _ _

end Call

section Views

variable [Scalar α]

theorem View.moved_measures (ms : List (Modifier α)) (frame : Rect α) (content : Option (Size α)) :
    Moved r (View.measures (ms.map (Modifier.relocate r)) frame content)
      (View.measures ms frame content) := by
  induction ms generalizing frame content with
  | nil => rfl
  | cons m ms ih =>
    have hkey : (m.relocate r).key.value = m.key.value := rfl
    rw [List.map_cons, View.measures, View.measures, hkey]
    cases Modifier.Key.ofName? m.key.value with
    | none => rfl
    | some key => cases key <;> exact ih _ _

mutual

theorem View.moved_declare (parent : Option NodeId) (depth : Nat) (s : Scene α) : ∀ v : View α,
    Moved r (View.declare parent depth s (v.relocate r)) (View.declare parent depth s v)
  | ⟨span, name, modifiers, children⟩ => by
    have hmeasures := View.moved_measures r modifiers .zero none
    rw [View.relocate, View.declare, View.declare, hmeasures]
    refine .ite _ rfl ?_
    cases View.measures modifiers .zero none with
    | error e => rfl
    | ok measured => exact View.moved_declareAll _ _ _ children

theorem View.moved_declareAll (parent : Option NodeId) (depth : Nat) (s : Scene α) :
    ∀ vs : List (View α), Moved r (View.declareAll parent depth s (View.relocateAll r vs))
      (View.declareAll parent depth s vs)
  | [] => rfl
  | v :: vs => by
    have hv := View.moved_declare parent depth s v
    rw [View.relocateAll, View.declareAll, View.declareAll, hv]
    cases View.declare parent depth s v with
    | error e => rfl
    | ok s' => exact View.moved_declareAll parent depth s' vs

end

omit [Scalar α] in
theorem Script.relocate_views (script : Script α) :
    (script.relocate r).views = View.relocateAll r script.views := by
  rw [View.relocateAll_eq_map, views, views, relocate, List.filterMap_map, List.map_filterMap]
  congr 1
  funext st
  cases st <;> rfl

theorem Script.moved_scene (script : Script α) :
    Moved r (script.relocate r).scene script.scene := by
  rw [scene, relocate_views]
  exact View.moved_declareAll r none 0 {} script.views

end Views

section Runs

variable [Scalar α] (config : Config α)

namespace Stage

variable (s : Stage α)

theorem moved_directives (t : Tree α) (calls : List (Call α)) :
    Moved r ((calls.map (Call.relocate r)).mapM (Call.directive t))
      (calls.mapM (Call.directive t)) := by
  induction calls with
  | nil => rfl
  | cons c calls ih =>
    rw [List.map_cons, List.mapM_cons, List.mapM_cons]
    exact (Call.moved_directive r t c).bind fun d => ih.bind fun ds => rfl

theorem moved_session (target : Spanned String) (calls : List (Call α)) :
    Moved r (s.session config (target.relocate r) (calls.map (Call.relocate r)))
      (s.session config target calls) :=
  (s.tree.moved_lookUp r target.value target.span).bind fun _ =>
    (moved_directives r s.tree calls).bind fun _ => rfl

theorem moved_statement (st : Statement α) :
    Moved r (s.statement config (st.relocate r)) (s.statement config st) := by
  cases st with
  | view v => rfl
  | direction span name =>
    have hname : (name.relocate r).value = name.value := rfl
    rw [Statement.relocate, statement, statement, hname]
    cases Direction.ofName? name.value <;> rfl
  | pin span target calls =>
    rw [Statement.relocate, statement, statement]
    exact (s.moved_session r config target calls).map _

end Stage

/-- One outcome is another with the place of its error moved. -/
def Outcome.relocate (o : Outcome SceneError α) : Outcome SceneError α :=
  ⟨o.result.mapError (SceneError.relocate r), o.log⟩

theorem Stage.relocate_run (s : Stage α) (sts : List (Statement α)) :
    s.run config (sts.map (Statement.relocate r)) = (s.run config sts).relocate r := by
  induction sts generalizing s with
  | nil => rfl
  | cons st sts ih =>
    rw [List.map_cons, run, run, s.moved_statement r config st]
    cases s.statement config st with
    | error e => rfl
    | ok s' => exact ih s'

theorem Script.relocate_run (script : Script α) (process : Direction) :
    (script.relocate r).run config process = (script.run config process).relocate r := by
  rw [run, run, script.moved_scene r]
  cases script.scene with
  | error e => rfl
  | ok scene => exact Stage.relocate_run r config _ script.statements

end Runs

end Pinning
