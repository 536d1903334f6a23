import Pinning.Geometry
import Pinning.Warning

/-!
What sessions log: accepted writes and flags, warnings where they are wanted, and how each session
ended.
-/

namespace Pinning

variable {α : Type}

namespace Log

inductive Level where
  | trace
  | debug
  | warn
deriving DecidableEq, Repr

namespace Level

def name : Level → String
  | trace => "TRACE"
  | debug => "DEBUG"
  | warn => "WARN"

/-- Whether records of level `l` are kept by a log that starts at `least`. -/
def admits (least l : Level) : Bool :=
  match least with
  | trace => true
  | debug => l ≠ .trace
  | warn => l = .warn

end Level

inductive Event (α : Type) where
  | wrote (slot : Slot) (value : α)
  | fitSize
  | pinEdges
  | warned (warning : Warning α)
  | committed (frame : Rect α)
  | discarded
deriving DecidableEq

/-- What happened in the session of a node. -/
structure Record (α : Type) where
  node : String
  event : Event α
deriving DecidableEq

namespace Event

def level : Event α → Level
  | wrote .. | fitSize | pinEdges => .trace
  | warned _ => .warn
  | committed _ | discarded => .debug

variable [Scalar α]

open Scalar (text)

def describe : Event α → String
  | wrote slot v => slot.name ++ " = " ++ text v
  | fitSize => "fit_size"
  | pinEdges => "pin_edges"
  | warned w => w.describe
  | committed f =>
    "frame = (" ++ text f.origin.x ++ ", " ++ text f.origin.y ++ ", " ++ text f.size.width ++ " x "
      ++ text f.size.height ++ ")"
  | discarded => "session discarded"

end Event

namespace Record

def level (r : Record α) : Level := r.event.level

def text [Scalar α] (r : Record α) : String := "[" ++ r.node ++ "] " ++ r.event.describe

end Record

end Log

end Pinning
