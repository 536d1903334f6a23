import Pinning.Scalar

/-!
Lengths as directives take them: absolute, or in percent of the container.
-/

namespace Pinning

variable {α : Type}

inductive Length (α : Type) where
  | points (value : α)
  | percent (value : α)
deriving DecidableEq

namespace Length

variable [Scalar α]

/-- The length in points when the container measures `reference`. A negative percentage counts as
none. -/
def resolve (reference : α) : Length α → α
  | points v => v
  | percent p => Scalar.pos p * reference / 100

end Length

end Pinning
