import Pinning.Directive
import Pinning.Scene.Error
import Pinning.Script.Syntax

/-!
From calls to directives. The name of a call decides what its arguments may look like; names of
views in them are looked up in the tree, so that every directive refers to nodes that exist.
-/

namespace Pinning

variable {α : Type}

/-- The names of the directives that scripts can call. -/
inductive CallName where
  | set (setter : Setter)
  | anchor (anchor : Anchor)
  | above
  | below
  | leftOf
  | rightOf
  | before
  | after
  | size
  | aspectRatio
  | fitSize
  | pinEdges
  | margin
  | justify
  | align
deriving DecidableEq, Repr

namespace CallName

def name : CallName → String
  | set s => s.name
  | anchor a => a.name
  | above => "above"
  | below => "below"
  | leftOf => "left_of"
  | rightOf => "right_of"
  | before => "before"
  | after => "after"
  | size => "size"
  | aspectRatio => "aspect_ratio"
  | fitSize => "fit_size"
  | pinEdges => "pin_edges"
  | margin => "margin"
  | justify => "justify"
  | align => "align"

/-- All of them. A square is called as a `size` with one length. -/
def all : List CallName :=
  (Setter.list.filter (· ≠ .square)).map set ++ Anchor.all.map anchor ++
    [above, below, leftOf, rightOf, before, after, size, aspectRatio, fitSize, pinEdges, margin,
      justify, align]

def ofName? (name : String) : Option CallName := all.find? (·.name = name)

end CallName

namespace Setter

/-- Whether the length may be left out and is then zero. -/
def hasDefault : Setter → Bool
  | inset _ | center _ | span _ | all => true
  | size _ | minSize _ | maxSize _ | square | margin _ | margins _ => false

/-- What can be pinned to a line of another node, or measured after another node, by the same
name. -/
inductive Reference where
  | side (own : Side)
  | line (own : Line)
  | size (axis : Axis)
  | none
deriving DecidableEq, Repr

def reference : Setter → Reference
  | inset (.low .horizontal) => .side (.fixed .low)
  | inset (.high .horizontal) => .side (.fixed .high)
  | inset .start => .side .start
  | inset .finish => .side .finish
  | inset (.low .vertical) => .line .low
  | inset (.high .vertical) => .line .high
  | center .horizontal => .side (.fixed .mid)
  | center .vertical => .line .mid
  | size a => .size a
  | _ => .none

def usage (s : Setter) : Usage :=
  match s.reference with
  | .side _ => .lengthOrSide
  | .line _ => .lengthOrLevel
  | .size _ => .lengthOrNode
  | .none => .length

end Setter

namespace Arg

def length? : Arg α → Option (Length α)
  | number _ v => some (.points v)
  | percent _ p => some (.percent p)
  | _ => none

def number? : Arg α → Option α
  | number _ v => some v
  | _ => none

def name? : Arg α → Option String
  | name _ n => some n
  | _ => none

end Arg

/-- The node of a name that stands at a place in the source. -/
def Tree.lookUp (t : Tree α) (name : String) (span : Span) : Except SceneError NodeId :=
  match t.find? name with
  | some id => .ok id
  | none => .error (.ofNode name span (t.ids.map t.name))

namespace Call

variable [Scalar α] (t : Tree α) (c : Call α)

def bad {β : Type} (usage : Usage) : Except SceneError β :=
  .error (.badArguments c.name.value usage c.span)

def orBad {β : Type} (usage : Usage) : Option β → Except SceneError β
  | some x => .ok x
  | none => c.bad usage

/-- `top(10)`, `top(50%)`, `top(other.bottom)`, `width(other)`. -/
def setter (s : Setter) : Except SceneError (Directive α) :=
  match c.args with
  | [] => if s.hasDefault then .ok (.set s (.points 0)) else c.bad s.usage
  | [.number _ v] => .ok (.set s (.points v))
  | [.percent _ p] => .ok (.set s (.percent p))
  | [.member span node member] =>
    match s.reference with
    | .side own => do
      let target ← c.orBad s.usage (Side.ofEdgeName? member)
      return .sideTo own (← t.lookUp node span) target
    | .line own => do
      let target ← c.orBad s.usage (Line.ofEdgeName? member)
      return .lineTo own (← t.lookUp node span) target
    | _ => c.bad s.usage
  | [.name span node] =>
    match s.reference with
    | .size a => return .sizeOf a (← t.lookUp node span)
    | _ => c.bad s.usage
  | _ => c.bad s.usage

/-- `center()`, `top_left(other.bottom_right)`. -/
def anchor (own : Anchor) : Except SceneError (Directive α) :=
  match c.args with
  | [] => .ok (.anchor own)
  | [.member span node member] => do
    let target ← c.orBad .anchor (Anchor.ofName? member)
    return .anchorTo own (← t.lookUp node span) target
  | [_] => c.bad .anchor
  | _ => c.bad .oneAnchor

/-- The nodes of a list in which nothing but names is allowed. -/
def nodes (usage : Usage) : List (Arg α) → Except SceneError (List NodeId)
  | [] => .ok []
  | .name span node :: items => return (← t.lookUp node span) :: (← nodes usage items)
  | _ :: _ => c.bad usage

/-- `below(other)`, `below([a, b])`, `below(other, aligned: left)`. -/
def place {β : Type} (usage : Usage) (word? : String → Option β) (relation : Option β → Relation) :
    Except SceneError (Directive α) :=
  match c.args with
  | [targets] => go targets none
  | [targets, .named _ key value] =>
    if key.value = "aligned" then do go targets (some (← c.orBad usage value.name?))
    else c.bad usage
  | _ => c.bad usage
where
  go (targets : Arg α) (word : Option String) : Except SceneError (Directive α) := do
    let group ← match targets with
      | .name span node => c.nodes t usage [.name span node]
      | .list _ items => c.nodes t usage items
      | _ => c.bad usage
    match word with
    | none => return .relative (relation none) group
    | some w => return .relative (relation (some (← c.orBad usage (word? w)))) group

/-- `size(10)`, `size(other)`, `size(10, 50%)`. -/
def size : Except SceneError (Directive α) :=
  match c.args with
  | [.name span node] => return .sizesOf (← t.lookUp node span)
  | [arg] => return .set .square (← c.orBad .size arg.length?)
  | [w, h] =>
    return .sizes (← c.orBad .widthAndHeight w.length?) (← c.orBad .widthAndHeight h.length?)
  | _ => c.bad .size

/-- `aspect_ratio()`, `aspect_ratio(1.5)`, `aspect_ratio(other)`. -/
def aspectRatio : Except SceneError (Directive α) :=
  match c.args with
  | [] => .ok .aspectRatioOfContent
  | [.number _ ratio] => .ok (.aspectRatio ratio)
  | [.name span node] => return .aspectRatioOf (← t.lookUp node span)
  | [_] => c.bad .ratioOrNode
  | _ => c.bad .ratio

def flag (d : Directive α) : Except SceneError (Directive α) :=
  match c.args with
  | [] => .ok d
  | _ => c.bad .nothing

/-- One to four numbers. -/
def margin : Except SceneError (Directive α) :=
  return .margins (← c.orBad .insets ((c.args.mapM Arg.number?).bind Insets.ofList?))

/-- `justify(left)`, `align(top)`. -/
def word {β : Type} (usage : Usage) (word? : String → Option β) (directive : β → Directive α) :
    Except SceneError (Directive α) :=
  match c.args with
  | [.name _ n] => return directive (← c.orBad usage (word? n))
  | _ => c.bad usage

/-- The directive of a call. -/
def directive : Except SceneError (Directive α) :=
  match CallName.ofName? c.name.value with
  | none => .error (.ofDirective c.name.value c.name.span (CallName.all.map (·.name)))
  | some (.set s) => c.setter t s
  | some (.anchor a) => c.anchor t a
  | some .above => c.place t .nodesBesideSide Side.ofAlignName? .above
  | some .below => c.place t .nodesBesideSide Side.ofAlignName? .below
  | some .leftOf => c.place t .nodesBesideLevel Line.ofAlignName? .leftOf
  | some .rightOf => c.place t .nodesBesideLevel Line.ofAlignName? .rightOf
  | some .before => c.place t .nodesBesideLevel Line.ofAlignName? .before
  | some .after => c.place t .nodesBesideLevel Line.ofAlignName? .after
  | some .size => c.size t
  | some .aspectRatio => c.aspectRatio t
  | some .fitSize => c.flag .fitSize
  | some .pinEdges => c.flag .pinEdges
  | some .margin => c.margin
  | some .justify => c.word .side Side.ofAlignName? .justify
  | some .align => c.word .level Line.ofAlignName? .align

end Call

end Pinning
