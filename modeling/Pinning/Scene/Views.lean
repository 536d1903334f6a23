import Pinning.Scene.Error
import Pinning.Script.Syntax
import Pinning.Tree

/-!
The scene that the views of a script declare: their tree, and the order in which they are reported.
Views are added in the order in which they are written, a view before those inside it, and each name
is declared once.
-/

namespace Pinning

variable {α : Type}

/-- What a modifier sets: a part of the frame, or a side of the content's size. -/
inductive Modifier.Key where
  | origin (axis : Axis)
  | size (axis : Axis)
  | content (axis : Axis)
deriving DecidableEq, Repr

namespace Modifier.Key

def name : Key → String
  | origin .horizontal => "x"
  | origin .vertical => "y"
  | size .horizontal => "width"
  | size .vertical => "height"
  | content .horizontal => "intrinsic_width"
  | content .vertical => "intrinsic_height"

def all : List Key := [origin, size, content].flatMap fun key => [key .horizontal, key .vertical]

def ofName? (name : String) : Option Key := all.find? (·.name = name)

end Modifier.Key

def Point.setAlong (p : Point α) (a : Axis) (v : α) : Point α :=
  match a with
  | .horizontal => { p with x := v }
  | .vertical => { p with y := v }

def Size.setAlong (s : Size α) (a : Axis) (v : α) : Size α :=
  match a with
  | .horizontal => { s with width := v }
  | .vertical => { s with height := v }

/-- The views of a script as they are declared. -/
structure Scene (α : Type) where
  tree : Tree α := ∅
  /-- The views in their order, each with how many views it lies in. -/
  order : List (NodeId × Nat) := []

/-- Adds a view to a scene and returns its number. -/
def Scene.add (s : Scene α) (parent : Option NodeId) (depth : Nat) (name : String) (frame : Rect α)
    (content : Option (Size α)) : Scene α × NodeId :=
  let (grown, id) := match parent with
    | some p => s.tree.addChild p name frame
    | none => s.tree.addRoot name frame
  ({ tree := grown.setContent id content, order := s.order ++ [(id, depth)] }, id)

variable [Scalar α]

namespace View

/-- The frame and the content's size that modifiers give, a later one over an earlier. -/
def measures : List (Modifier α) → Rect α → Option (Size α) →
    Except SceneError (Rect α × Option (Size α))
  | [], frame, content => .ok (frame, content)
  | m :: ms, frame, content =>
    match Modifier.Key.ofName? m.key.value with
    | some (.origin a) =>
      measures ms { frame with origin := frame.origin.setAlong a m.value.value } content
    | some (.size a) =>
      measures ms { frame with size := frame.size.setAlong a m.value.value } content
    | some (.content a) =>
      measures ms frame (some ((content.getD .zero).setAlong a m.value.value))
    | none =>
      .error (.unknownModifier m.key.value (Modifier.Key.all.map (·.name)) m.key.span)

mutual

/-- The scene with a view and all those inside it added. -/
def declare (parent : Option NodeId) (depth : Nat) (s : Scene α) :
    View α → Except SceneError (Scene α)
  | ⟨_, name, modifiers, children⟩ =>
    if (s.tree.find? name.value).isSome then .error (.duplicateView name.value name.span)
    else
      match measures modifiers .zero none with
      | .error e => .error e
      | .ok (frame, content) =>
        let added := s.add parent depth name.value frame content
        declareAll (some added.2) (depth + 1) added.1 children

def declareAll (parent : Option NodeId) (depth : Nat) (s : Scene α) :
    List (View α) → Except SceneError (Scene α)
  | [] => .ok s
  | v :: vs =>
    match declare parent depth s v with
    | .error e => .error e
    | .ok s => declareAll parent depth s vs

end

end View

/-- The views of a script that stand in no other. -/
def Script.views (script : Script α) : List (View α) :=
  script.statements.filterMap fun
    | .view v => some v
    | _ => none

/-- The scene of all views of a script, wherever they stand in it. -/
def Script.scene (script : Script α) : Except SceneError (Scene α) :=
  View.declareAll none 0 {} script.views

def Script.tree (script : Script α) : Except SceneError (Tree α) := script.scene.map Scene.tree

end Pinning
