import Pinning.Config
import Pinning.Directive
import Pinning.Log
import Pinning.Synthesis.Frame

/-!
Sessions: one node, a chain of directives, and at the end one new frame or none.

A session gathers effects until it is committed, which works out the frame and writes it to the
tree, or discarded, which leaves the tree alone. Whatever becomes of it, it goes out of use at last,
and is committed then if neither has happened yet.
-/

namespace Pinning

variable {α : Type} [Scalar α]

/-- What has become of a session. -/
inductive SessionState where
  | accumulating
  | committed
  | discarded
deriving DecidableEq, Repr

structure Session (α : Type) where
  site : Site α
  direction : Direction
  tolerance : α
  logsWarnings : Bool
  constraints : Constraints α := ∅
  warnings : List (Warning α) := []
  /-- Whether a missing container has been reported. -/
  reportedNoContainer : Bool := false
  log : List (Log.Record α) := []
  state : SessionState := .accumulating

/-- The frame a session arrives at, with everything reported on the way. -/
structure Resolution (α : Type) where
  frame : Rect α
  warnings : List (Warning α)
deriving DecidableEq

/-- What is done with a session in the end. -/
inductive Ending where
  | apply
  | drop
  | discard
deriving DecidableEq, Repr

namespace Session

def start (tree : Tree α) (node : NodeId) (config : Config α) (direction : Direction) :
    Session α where
  site := ⟨tree, node⟩
  direction := direction
  tolerance := config.tolerance
  logsWarnings := config.logsWarnings

variable (s : Session α)

def record (e : Log.Event α) : Session α := { s with log := s.log ++ [⟨s.site.label, e⟩] }

def warn (w : Warning α) : Session α := { s with warnings := s.warnings ++ [w] }

def perform : Effect α → Session α
  | .write slot v =>
    if Scalar.isFinite v then
      { s.record (.wrote slot v) with constraints := s.constraints.set slot v }
    else s.warn (.notFinite slot v)
  | .warn w => s.warn w
  | .measure directive =>
    if s.site.container = none ∧ !s.reportedNoContainer then
      { s.warn (.noContainer directive s.site.label) with reportedNoContainer := true }
    else s
  | .fitSize => { s.record .fitSize with constraints := { s.constraints with fitsContent := true } }
  | .pinEdges => { s.record .pinEdges with constraints := { s.constraints with pinsEdges := true } }
  | .spanAlign a l => { s with constraints := s.constraints.setSpanAlign a l }
  | .turn d => { s with direction := d }

/-- Takes in one directive, read in the direction of the session. -/
def issue (d : Directive α) : Session α := (d.effects s.site s.direction).foldl perform s

/-- Takes in a chain of directives. -/
def issueAll (ds : List (Directive α)) : Session α := ds.foldl issue s

/-- The node as the frame is worked out for it. -/
def subject : Subject α where
  current := s.site.tree.frame s.site.node
  content := s.site.tree.content s.site.node
  tolerance := s.tolerance

def resolution : Resolution α :=
  let synthesis := s.constraints.synthesize s.subject
  ⟨synthesis.frame, s.warnings ++ synthesis.warnings⟩

/-- The tree that a session is about, as the session has it. -/
def tree : Tree α := s.site.tree

/-- Writes the frame. The warnings go out with the resolution. -/
def commit : Session α :=
  let r := s.resolution
  let warned := if s.logsWarnings then r.warnings.map Log.Event.warned else []
  let events := warned ++ [Log.Event.committed r.frame]
  { s with
    site := ⟨s.site.tree.setFrame s.site.node r.frame, s.site.node⟩
    warnings := []
    log := s.log ++ events.map fun e => ⟨s.site.label, e⟩
    state := .committed }

def discard : Session α := { s.record .discarded with state := .discarded }

/-- Puts a session out of use, which commits it if it is still open. -/
def drop : Session α := if s.state = .accumulating then s.commit else s

/-- Ends a session: one that is applied or discarded goes out of use right after. -/
def close : Ending → Session α
  | .apply => s.commit.drop
  | .drop => s.drop
  | .discard => s.discard.drop

theorem tree_commit : s.commit.tree = s.site.tree.setFrame s.site.node s.resolution.frame := rfl

/-- A session that is committed is not committed again when it goes out of use. -/
@[simp]
theorem drop_commit : s.commit.drop = s.commit := rfl

@[simp]
theorem drop_discard : s.discard.drop = s.discard := rfl

theorem close_apply : s.close .apply = s.commit := s.drop_commit

theorem close_discard : s.close .discard = s.discard := s.drop_discard

theorem close_drop (h : s.state = .accumulating) : s.close .drop = s.commit := if_pos h

end Session

end Pinning
