import Pinning.Slot

/-!
What a session has gathered: a value for some of the slots, and the flags. Writing a slot again
replaces its value.
-/

namespace Pinning

variable {α : Type}

structure Constraints (α : Type) where
  value : Slot → Option α := fun _ => none
  /-- The content's size counts wherever no size is set. -/
  fitsContent : Bool := false
  /-- Margins shrink the frame between its edges. -/
  pinsEdges : Bool := false
  /-- Where a frame stands between two opposite edges. -/
  spanAlign : Axis → Option Line := fun _ => none

namespace Constraints

instance : EmptyCollection (Constraints α) := ⟨{}⟩

def set (c : Constraints α) (slot : Slot) (v : α) : Constraints α :=
  { c with value := fun s => if s = slot then some v else c.value s }

def setSpanAlign (c : Constraints α) (a : Axis) (l : Line) : Constraints α :=
  { c with spanAlign := fun b => if b = a then some l else c.spanAlign b }

/-- The constraints without any margin. -/
def withoutMargins (c : Constraints α) : Constraints α :=
  { c with value := fun
      | .marginLow _ | .marginHigh _ => none
      | s => c.value s }

variable {c : Constraints α} {s t : Slot} {v : α}

@[simp] theorem value_empty : (∅ : Constraints α).value s = none := rfl

@[simp] theorem value_set_self : (c.set s v).value s = some v := by simp [set]

theorem value_set_of_ne (h : t ≠ s) : (c.set s v).value t = c.value t := by simp [set, h]

end Constraints

end Pinning
