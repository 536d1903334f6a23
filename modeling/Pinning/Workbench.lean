import Pinning.Session

/-!
A tree and at most one session open on it, in a process with a reading direction of its own.

A session takes its direction when it begins. From then on only its own directives turn it, whatever
becomes of the direction of the process, and the tree stays as it is until the session is closed.
A session that is open when another begins is dropped.
-/

namespace Pinning

variable {α : Type}

structure Workbench (α : Type) where
  tree : Tree α
  process : Direction
  session : Option (Session α) := none
  log : List (Log.Record α) := []

namespace Workbench

/-- What can be done at a workbench. -/
inductive Step (α : Type) where
  /-- Changes the reading direction of the process. -/
  | setProcess (direction : Direction)
  | begin (node : NodeId) (config : Config α)
  | issue (directive : Directive α)
  | close (ending : Ending)

variable [Scalar α] (b : Workbench α)

/-- Closes the session that is open, if there is one. -/
def close (e : Ending) : Workbench α :=
  b.session.elim b fun s =>
    let closed := s.close e
    { b with tree := closed.tree, session := none, log := b.log ++ closed.log }

def begin (node : NodeId) (config : Config α) : Workbench α :=
  let free := b.close .drop
  { free with session := some (.start free.tree node config (config.effectiveDirection b.process)) }

/-- Takes in a directive; without a session it goes nowhere. -/
def issue (d : Directive α) : Workbench α := { b with session := b.session.map (·.issue d) }

def step : Step α → Workbench α
  | .setProcess d => { b with process := d }
  | .begin node config => b.begin node config
  | .issue d => b.issue d
  | .close e => b.close e

def run (steps : List (Step α)) : Workbench α := steps.foldl step b

end Workbench

end Pinning
