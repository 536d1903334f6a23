import Pinning.Scene.Call
import Pinning.Scene.Report
import Pinning.Script.Reading

/-!
Running a script. All views are declared first, wherever they stand; then the other statements
take effect one after the other. A pin converts all its calls before its session starts, so a run
that fails has the finished sessions before it behind it and nothing of the one that failed.
-/

namespace Pinning

variable {α : Type} [Scalar α]

/-- A run between two statements. -/
structure Stage (α : Type) where
  scene : Scene α
  direction : Direction
  warnings : List (WarningReport α) := []
  log : List (Log.Record α) := []

/-- What came of a run, and what it logged on the way. -/
structure Outcome (ε α : Type) where
  result : Except ε (Report α)
  log : List (Log.Record α)

namespace Stage

variable (config : Config α) (s : Stage α)

def tree : Tree α := s.scene.tree

/-- The session of a pin, with all its directives taken in. -/
def session (target : Spanned String) (calls : List (Call α)) : Except SceneError (Session α) := do
  let node ← s.tree.lookUp target.value target.span
  let directives ← calls.mapM (Call.directive s.tree)
  return (Session.start s.tree node config s.direction).issueAll directives

def statement : Statement α → Except SceneError (Stage α)
  | .view _ => .ok s
  | .direction _ name =>
    match Direction.ofName? name.value with
    | some d => .ok { s with direction := d }
    | none => .error (.badDirection name.value name.span)
  | .pin _ target calls =>
    (s.session config target calls).map fun session =>
      let closed := session.close .apply
      { s with
        scene := { s.scene with tree := closed.tree }
        warnings := s.warnings ++ session.resolution.warnings.map fun w => ⟨target.value, w⟩
        log := s.log ++ closed.log }

def report : Report α := ⟨Report.nodesOf s.scene, s.warnings⟩

/-- Runs the statements in order, up to the first that fails. -/
def run : Stage α → List (Statement α) → Outcome SceneError α
  | s, [] => ⟨.ok s.report, s.log⟩
  | s, st :: sts =>
    match s.statement config st with
    | .ok s' => run s' sts
    | .error e => ⟨.error e, s.log⟩

end Stage

/-- Runs a script in a process with a reading direction of its own. -/
def Script.run (script : Script α) (config : Config α) (process : Direction) :
    Outcome SceneError α :=
  match script.scene with
  | .error e => ⟨.error e, []⟩
  | .ok scene =>
    Stage.run config ⟨scene, config.effectiveDirection process, [], []⟩ script.statements

/-- Why a source has no report. -/
inductive RunError (α : Type) where
  | syntactic (e : SyntaxError α)
  | scene (e : SceneError)

namespace RunError

def span : RunError α → Span
  | syntactic e => e.span
  | scene e => e.span

/-- The message without its place. -/
def message : RunError α → String
  | syntactic e => e.message
  | scene e => e.message

def describe : RunError α → String
  | syntactic e => "parse errors: " ++ e.describe
  | scene e => "scene error: " ++ e.message

end RunError

/-- Reads and runs a source. -/
def runSource (source : String) (config : Config α) (process : Direction) :
    Outcome (RunError α) α :=
  match Script.parse source with
  | .error e => ⟨.error (.syntactic e), []⟩
  | .ok script =>
    let outcome := script.run config process
    ⟨outcome.result.mapError RunError.scene, outcome.log⟩

end Pinning
