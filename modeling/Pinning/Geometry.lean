import Pinning.Axis
import Pinning.Scalar

/-!
Points, sizes and frames. A frame is the product of its two extents, one along each axis, and its
lines, unions and translations are those of its extents.
-/

namespace Pinning

variable {α : Type}

structure Point (α : Type) where
  x : α
  y : α
deriving DecidableEq

structure Size (α : Type) where
  width : α
  height : α
deriving DecidableEq

/-- A stretch of one axis. -/
structure Extent (α : Type) where
  origin : α
  length : α
deriving DecidableEq

structure Rect (α : Type) where
  origin : Point α
  size : Size α
deriving DecidableEq

namespace Point

def along (p : Point α) : Axis → α
  | .horizontal => p.x
  | .vertical => p.y

variable [Scalar α]

def zero : Point α := ⟨0, 0⟩

instance : Add (Point α) where
  add p q := ⟨p.x + q.x, p.y + q.y⟩

instance : Sub (Point α) where
  sub p q := ⟨p.x - q.x, p.y - q.y⟩

end Point

namespace Size

def along (s : Size α) : Axis → α
  | .horizontal => s.width
  | .vertical => s.height

variable [Scalar α]

def zero : Size α := ⟨0, 0⟩

/-- Width over height, unless the height is too small to divide by. -/
def aspectRatio? (s : Size α) : Option α :=
  if Scalar.epsilon < Scalar.abs s.height then some (s.width / s.height) else none

end Size

namespace Extent

variable [Scalar α]

/-- The coordinate of a line of the extent. -/
def line (e : Extent α) : Line → α
  | .low => e.origin
  | .mid => e.origin + e.length / 2
  | .high => e.origin + e.length

/-- The least extent that holds both. -/
def union (e f : Extent α) : Extent α :=
  let low := Scalar.min (e.line .low) (f.line .low)
  ⟨low, Scalar.max (e.line .high) (f.line .high) - low⟩

end Extent

namespace Rect

def extent (r : Rect α) (a : Axis) : Extent α := ⟨r.origin.along a, r.size.along a⟩

def ofExtents (horizontal vertical : Extent α) : Rect α :=
  ⟨⟨horizontal.origin, vertical.origin⟩, ⟨horizontal.length, vertical.length⟩⟩

variable [Scalar α]

def zero : Rect α := ⟨.zero, .zero⟩

/-- The coordinate of a line of the frame across an axis. -/
def line (r : Rect α) (a : Axis) (l : Line) : α := (r.extent a).line l

def translate (r : Rect α) (offset : Point α) : Rect α := { r with origin := r.origin + offset }

/-- The least frame that holds both. -/
def union (r s : Rect α) : Rect α :=
  ofExtents ((r.extent .horizontal).union (s.extent .horizontal))
    ((r.extent .vertical).union (s.extent .vertical))

/-- Whether a relation holds of each of the four numbers of two frames. -/
def forall₂ (p : α → α → Bool) (r s : Rect α) : Bool :=
  p r.origin.x s.origin.x && p r.origin.y s.origin.y && p r.size.width s.size.width
    && p r.size.height s.size.height

def within (tolerance : α) (r s : Rect α) : Bool :=
  r.forall₂ (fun x y => Scalar.abs (x - y) ≤ tolerance) s

def agrees (r s : Rect α) : Bool := r.forall₂ Scalar.agrees s

end Rect

end Pinning
