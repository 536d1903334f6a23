import Pinning.CommandLine.Options
import Pinning.Scene.Diagnosis
import Pinning.Scene.Document
import Pinning.Settings

/-!
The program as a function of its arguments, its standard input and the files it can read. An input
that cannot be read, or is no text, is none. Results go to standard output and nothing else does; the
log and complaints go elsewhere.
-/

namespace Pinning.CommandLine

/-- What a run of the program leaves behind. -/
structure Effects where
  exitCode : UInt8
  stdout : String := ""
  /-- The lines of the log. -/
  log : List String := []
  complaint : Option String := none
deriving DecidableEq

/-- The least level that is logged. -/
def Options.logLevel (o : Options) : Log.Level :=
  match o.verbosity with
  | 0 | 1 => .warn
  | 2 => .debug
  | _ => .trace

def logLine (r : Log.Record Float) : String :=
  let level := r.level.name
  "[" ++ level ++ String.ofList (List.replicate (5 - level.length) ' ') ++ " pinframe] " ++ r.text

/-- The configuration of a run. Warnings are part of the report and are logged only if asked
for. -/
def Options.configure (o : Options) (settings : Config Float) : Config Float :=
  { settings with
    direction := if o.rtl then some .rtl else settings.direction
    logsWarnings := 0 < o.verbosity }

def render (format : Format) (r : Report Float) : String :=
  match format with
  | .text => r.toText
  | .toml => r.toToml

def Diagnosis.text (d : Diagnosis) : String :=
  "\n".intercalate (d.headline :: d.location.toList ++ d.note.toList.map ("Note: " ++ ·))

/-- Runs a source and puts the outcome into words. -/
def resolve (o : Options) (config : Config Float) (source filename : String) : Effects :=
  let outcome := runSource source config .ltr
  let log := (outcome.log.filter fun r => o.logLevel.admits r.level).map logLine
  match outcome.result with
  | .ok report => { exitCode := 0, stdout := render (o.format.getD .text) report, log }
  | .error e =>
    { exitCode := 1, log, complaint := some (Diagnosis.text (e.diagnose source filename)) }

/-- The settings of a run, or why there are none. -/
def settings (o : Options) (file? : String → Option String) : Except String (Config Float) :=
  match o.config with
  | none => .ok .standard
  | some name =>
    let failure (reason : String) := "Error loading config '" ++ name ++ "': " ++ reason
    match file? name with
    | none => .error (failure "Failed to read config file")
    | some text => (Config.read text).mapError fun e => failure e.message

/-- The program. Exit code 2 stands for a malformed command line, 1 for any other failure. Standard
input is read only where no file is named, and after the settings. -/
def run (args : List String) (stdin : Option String) (file? : String → Option String) : Effects :=
  match Options.ofArgs? args with
  | none => { exitCode := 2, complaint := some "error: malformed command line" }
  | some o =>
    match settings o file? with
    | .error complaint => { exitCode := 1, complaint := some complaint }
    | .ok config =>
      match o.input with
      | none =>
        match stdin with
        | none => { exitCode := 1, complaint := some "Error reading from stdin" }
        | some source => resolve o (o.configure config) source "<stdin>"
      | some name =>
        match file? name with
        | none => { exitCode := 1, complaint := some ("Error reading file '" ++ name ++ "'") }
        | some source => resolve o (o.configure config) source name

end Pinning.CommandLine
