import Pinning.Geometry

/-!
Distances inside the four sides of a frame, by place or by reading direction.
-/

namespace Pinning

variable {α : Type}

structure Insets (α : Type) where
  top : α
  left : α
  bottom : α
  right : α
deriving DecidableEq

namespace Insets

def uniform (v : α) : Insets α := ⟨v, v, v, v⟩

/-- One to four numbers: all sides; vertical and horizontal; top, horizontal and bottom; or top,
left, bottom and right. -/
def ofList? : List α → Option (Insets α)
  | [all] => some (uniform all)
  | [vertical, horizontal] => some ⟨vertical, horizontal, vertical, horizontal⟩
  | [top, horizontal, bottom] => some ⟨top, horizontal, bottom, horizontal⟩
  | [top, left, bottom, right] => some ⟨top, left, bottom, right⟩
  | _ => none

end Insets

structure DirectionalInsets (α : Type) where
  top : α
  start : α
  bottom : α
  finish : α
deriving DecidableEq

end Pinning
