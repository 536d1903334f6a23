/-!
The options of the command line. Options and the one file name may stand in any order; after `--`
everything is a file name. Options of one letter can be run together, and a value can follow its
option directly, after an equals sign or as the next argument. Only `--verbose` may be repeated.
-/

namespace Pinning.CommandLine

inductive Format where
  | text
  | toml
deriving DecidableEq, Repr

structure Options where
  input : Option String := none
  config : Option String := none
  rtl : Bool := false
  format : Option Format := none
  verbosity : Nat := 0
deriving DecidableEq, Repr

/-- Options that take a value. -/
inductive Valued where
  | config
  | format
deriving DecidableEq, Repr

namespace Options

variable (o : Options)

def setInput (name : String) : Option Options :=
  if o.input.isSome ∨ name = "" then none else some { o with input := some name }

def setRtl : Option Options := if o.rtl then none else some { o with rtl := true }

def addVerbose : Options := { o with verbosity := o.verbosity + 1 }

def setValue (option : Valued) (v : String) : Option Options :=
  match option with
  | .config => if o.config.isSome ∨ v = "" then none else some { o with config := some v }
  | .format =>
    match o.format, v with
    | none, "text" => some { o with format := some .text }
    | none, "toml" => some { o with format := some .toml }
    | _, _ => none

/-- Takes in options of one letter that are run together. The last one may await its value. -/
def readLetters (o : Options) : List Char → Option (Options × Option Valued)
  | [] => some (o, none)
  | 'v' :: cs => o.addVerbose.readLetters cs
  | 'c' :: cs => withValue .config cs
  | 'f' :: cs => withValue .format cs
  | _ => none
where
  withValue (option : Valued) : List Char → Option (Options × Option Valued)
    | [] => some (o, some option)
    | '=' :: cs | cs => (o.setValue option (String.ofList cs)).map (·, none)

/-- Takes in an option written out, which may await its value. -/
def readWord (word : List Char) : Option (Options × Option Valued) :=
  let name := String.ofList (word.takeWhile (· ≠ '='))
  match name, word.drop name.length with
  | "rtl", [] => o.setRtl.map (·, none)
  | "verbose", [] => some (o.addVerbose, none)
  | "config", [] => some (o, some .config)
  | "config", _ :: v => (o.setValue .config (String.ofList v)).map (·, none)
  | "format", [] => some (o, some .format)
  | "format", _ :: v => (o.setValue .format (String.ofList v)).map (·, none)
  | _, _ => none

/-- Takes in the arguments from left to right; `awaited` is an option whose value comes next. -/
def read (o : Options) (awaited : Option Valued) : List String → Option Options
  | [] => if awaited.isSome then none else some o
  | arg :: args =>
    match arg.toList, awaited with
    | '-' :: _ :: _, some _ => none
    | _, some option => (o.setValue option arg).bind fun o => o.read none args
    | ['-', '-'], none => args.foldlM setInput o
    | '-' :: '-' :: word, none => (o.readWord word).bind fun (o, awaited) => o.read awaited args
    | '-' :: c :: cs, none => (o.readLetters (c :: cs)).bind fun (o, awaited) => o.read awaited args
    | _, none => (o.setInput arg).bind fun o => o.read none args

/-- The options of a command line, if it is well formed. -/
def ofArgs? (args : List String) : Option Options := read {} none args

end Options

end Pinning.CommandLine
