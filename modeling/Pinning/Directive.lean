import Pinning.Anchor
import Pinning.Insets
import Pinning.Length
import Pinning.Relation
import Pinning.Tree
import Pinning.Warning

/-!
Directives, and what each of them does.

A directive reads the tree and the reading direction and yields a list of effects
(`Directive.effects`): writes to slots, warnings and flags. It never reads what was gathered
before, so a session is nothing but its effects in a row. Reading directions and percentages are
gone from the effects: every write is to a slot of a physical side, with a value in points.
-/

namespace Pinning

variable {α : Type}

/-- An edge of a frame, by its place or by the reading direction. -/
inductive Border where
  | low (axis : Axis)
  | high (axis : Axis)
  | start
  | finish
deriving DecidableEq, Repr

namespace Border

def axis : Border → Axis
  | low a | high a => a
  | start | finish => .horizontal

def line (d : Direction) : Border → Line
  | low _ => .low
  | high _ => .high
  | start => d.leading
  | finish => d.trailing

def name : Border → String
  | low a => a.lineName .low
  | high a => a.lineName .high
  | start => "start"
  | finish => "end"

def all : List Border :=
  [low .vertical, low .horizontal, high .vertical, high .horizontal, start, finish]

end Border

/-- Directives that take one length. -/
inductive Setter where
  | inset (border : Border)
  | center (axis : Axis)
  | span (axis : Axis)
  | all
  | size (axis : Axis)
  | minSize (axis : Axis)
  | maxSize (axis : Axis)
  | square
  | margin (border : Border)
  | margins (axis : Axis)
deriving DecidableEq, Repr

namespace Setter

def name : Setter → String
  | inset b => b.name
  | center a => a.lineName .mid
  | span .horizontal => "horizontally"
  | span .vertical => "vertically"
  | all => "all"
  | size a => a.sizeName
  | minSize a => "min_" ++ a.sizeName
  | maxSize a => "max_" ++ a.sizeName
  | square => "size_square"
  | margin b => "margin_" ++ b.name
  | margins .horizontal => "margin_horizontal"
  | margins .vertical => "margin_vertical"

def list : List Setter :=
  Border.all.map inset ++ Border.all.map margin ++ [all, square] ++
    [center, span, size, minSize, maxSize, margins].flatMap fun f => [f .horizontal, f .vertical]

def ofName? (name : String) : Option Setter := list.find? (·.name = name)

end Setter

inductive Directive (α : Type) where
  | set (setter : Setter) (value : Length α)
  /-- A line across the horizontal axis, onto such a line of another node. -/
  | sideTo (own : Side) (node : NodeId) (target : Side)
  /-- A line across the vertical axis, onto such a line of another node. -/
  | lineTo (own : Line) (node : NodeId) (target : Line)
  | anchorTo (own : Anchor) (node : NodeId) (target : Anchor)
  /-- An anchor onto the same anchor of the container. -/
  | anchor (own : Anchor)
  | relative (relation : Relation) (nodes : List NodeId)
  | sizes (width height : Length α)
  | sizeOf (axis : Axis) (node : NodeId)
  | sizesOf (node : NodeId)
  | aspectRatio (ratio : α)
  | aspectRatioOf (node : NodeId)
  | aspectRatioOfContent
  | fitSize
  | pinEdges
  | margins (insets : Insets α)
  | directionalMargins (insets : DirectionalInsets α)
  | justify (side : Side)
  | align (line : Line)
  /-- Reads what follows in another direction. -/
  | turn (direction : Direction)

inductive Effect (α : Type) where
  /-- A value for a slot, taken only if it is finite. -/
  | write (slot : Slot) (value : α)
  | warn (warning : Warning α)
  /-- The container is measured; that there is none is reported the first time. -/
  | measure (directive : String)
  | fitSize
  | pinEdges
  | spanAlign (axis : Axis) (line : Line)
  | turn (direction : Direction)
deriving DecidableEq

/-- A node in its tree. -/
structure Site (α : Type) where
  tree : Tree α
  node : NodeId

namespace Site

variable (s : Site α)

def label : String := s.tree.name s.node

def container : Option NodeId := s.tree.parent? s.node

variable [Scalar α]

/-- The size of the container; without one, an empty size. -/
def containerSize : Size α := (s.tree.containerSize? s.node).getD .zero

/-- The frame of a node in the coordinates of the container. -/
def frameOf (node : NodeId) : Rect α := s.tree.frameIn node s.container

end Site

namespace Directive

open Effect

variable [Scalar α] (s : Site α) (d : Direction)

/-- What measuring a length against the container brings about. -/
def measuring (directive : String) : Length α → List (Effect α)
  | .points _ => []
  | .percent p =>
    (if p < 0 then [warn (.negativePercent directive p)] else []) ++ [measure directive]

/-- The length in points along an axis of the container. -/
def measured (a : Axis) (v : Length α) : α := v.resolve (s.containerSize.along a)

/-- A size is written as it is, a negative one as zero. -/
def writeSize (slot : Slot) (v : α) : List (Effect α) :=
  if v < 0 then [warn (.negativeSize slot v), write slot 0] else [write slot v]

/-- A distance inwards from an edge of the container. -/
def setInset (b : Border) (v : Length α) : List (Effect α) :=
  let a := b.axis
  let l := b.line d
  measuring (a.lineName l) v ++
    if l = .low then [write (.line a .low) (measured s a v)]
    else [measure (a.lineName l), write (.line a l) (s.containerSize.along a - measured s a v)]

/-- A distance from the center of the container. -/
def setCenter (a : Axis) (v : Length α) : List (Effect α) :=
  measuring (a.lineName .mid) v ++
    [measure (a.lineName .mid), write (.line a .mid) (s.containerSize.along a / 2 + measured s a v)]

def setMargin (b : Border) (v : Length α) : List (Effect α) :=
  let slot := if b.line d = .low then Slot.marginLow b.axis else Slot.marginHigh b.axis
  measuring slot.name v ++ [write slot (measured s b.axis v)]

def setSize (slot : Slot) (a : Axis) (v : Length α) : List (Effect α) :=
  measuring slot.name v ++ writeSize slot (measured s a v)

def setLength (v : Length α) : Setter → List (Effect α)
  | .inset b => setInset s d b v
  | .center a => setCenter s a v
  | .span a => setInset s d (.low a) v ++ setInset s d (.high a) v
  | .all => [.low .vertical, .low .horizontal, .high .vertical, .high .horizontal].flatMap
      fun b => setInset s d b v
  | .size a => setSize s (.size a) a v
  | .minSize a => setSize s (.minSize a) a v
  | .maxSize a => setSize s (.maxSize a) a v
  | .square =>
    let w := measured s .horizontal v
    measuring "size_square" v ++ writeSize (.size .horizontal) w ++ writeSize (.size .vertical) w
  | .margin b => setMargin s d b v
  | .margins a => setMargin s d (.low a) v ++ setMargin s d (.high a) v

def setAnchor (own : Anchor) (p : Point α) : List (Effect α) :=
  [write (.line .horizontal (own.horizontal.line d)) p.x, write (.line .vertical own.vertical) p.y]

def setRatio (ratio : α) : List (Effect α) :=
  if Scalar.isFinite ratio ∧ 0 < ratio then [write .aspectRatio ratio]
  else [warn (.ratioNotPositive ratio)]

/-- Only siblings count as references, and there has to be one. -/
def place (r : Relation) (nodes : List NodeId) : List (Effect α) :=
  let siblings := s.tree.siblings s.node
  let strangers := nodes.filter (· ∉ siblings)
  let group := (nodes.filter (· ∈ siblings)).map s.frameOf
  strangers.map (fun n => warn (.notSibling r.name (s.tree.name n) s.label)) ++
    if group.isEmpty then [warn (.noReference r.name)]
    else (r.writes d group).map fun (slot, v) => write slot v

def effects : Directive α → List (Effect α)
  | set setter v => setLength s d v setter
  | sideTo own node target =>
    [write (.line .horizontal (own.line d)) ((s.frameOf node).line .horizontal (target.line d))]
  | lineTo own node target => [write (.line .vertical own) ((s.frameOf node).line .vertical target)]
  | anchorTo own node target => setAnchor d own (target.point d (s.frameOf node))
  | anchor own => measure own.name :: setAnchor d own (own.point d ⟨.zero, s.containerSize⟩)
  | relative r nodes => place s d r nodes
  | sizes w h => setLength s d w (.size .horizontal) ++ setLength s d h (.size .vertical)
  | sizeOf a node => setLength s d (.points ((s.tree.frame node).size.along a)) (.size a)
  | sizesOf node => [.horizontal, .vertical].flatMap fun a =>
      setLength s d (.points ((s.tree.frame node).size.along a)) (.size a)
  | aspectRatio ratio => setRatio ratio
  | aspectRatioOf node =>
    match (s.tree.frame node).size.aspectRatio? with
    | some ratio => setRatio ratio
    | none => [warn (.ratioOfFlatNode (s.tree.name node))]
  | aspectRatioOfContent =>
    match (s.tree.content s.node).bind Size.aspectRatio? with
    | some ratio => setRatio ratio
    | none => [warn .ratioOfNoContent]
  | fitSize => [.fitSize]
  | pinEdges => [.pinEdges]
  | margins i =>
    setMargin s d (.low .vertical) (.points i.top)
      ++ setMargin s d (.low .horizontal) (.points i.left)
      ++ setMargin s d (.high .vertical) (.points i.bottom)
      ++ setMargin s d (.high .horizontal) (.points i.right)
  | directionalMargins i =>
    setMargin s d (.low .vertical) (.points i.top) ++ setMargin s d .start (.points i.start)
      ++ setMargin s d (.high .vertical) (.points i.bottom)
      ++ setMargin s d .finish (.points i.finish)
  | justify side => [spanAlign .horizontal (side.line d)]
  | align line => [spanAlign .vertical line]
  | turn direction => [.turn direction]

end Directive

end Pinning
