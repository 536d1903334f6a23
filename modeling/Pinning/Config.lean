import Pinning.Axis
import Pinning.Scalar

/-!
Options shared by the sessions of one run.
-/

namespace Pinning

variable {α : Type}

structure Config (α : Type) where
  tolerance : α
  /-- The reading direction of new sessions; without one they follow the process. -/
  direction : Option Direction
  logsWarnings : Bool

namespace Config

/-- A thousandth as tolerance, the direction of the process, warnings logged. -/
def standard [Scalar α] : Config α := ⟨Scalar.ofDecimal 1 3, none, true⟩

def effectiveDirection (c : Config α) (process : Direction) : Direction :=
  c.direction.getD process

end Config

end Pinning
