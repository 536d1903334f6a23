import Pinning.Scene.Run
import Pinning.Script.Location

/-!
How an error is shown with its source: a headline, the place, and one name to try instead.

The error is marked by reading the bytes at which it starts and ends as numbers of characters, so
its place is exact as long as the text before it is ASCII. Where the source is too short for such a
mark, neither place nor suggestion is shown.
-/

namespace Pinning

structure Diagnosis where
  headline : String
  location : Option String
  note : Option String
deriving DecidableEq

variable {α : Type} [Scalar α]

namespace RunError

def suggestions : RunError α → List String
  | syntactic _ => []
  | scene e => e.suggestions?.getD []

/-- The stretch of the source that is marked. -/
def mark (e : RunError α) (source : String) : Span where
  start := min (min e.span.start e.span.stop) source.utf8ByteSize
  stop := min (max e.span.start e.span.stop) source.utf8ByteSize

/-- The place of an error; its mark may reach one character past the end of the source. -/
def location? (e : RunError α) (source : String) : Option Location :=
  let m := e.mark source
  if m.stop ≤ source.length + 1 then Location.ofOffset? source m.start else none

def diagnose (e : RunError α) (source filename : String) : Diagnosis :=
  let location := e.location? source
  { headline := "Error: " ++ e.message
    location := location.map fun l => filename ++ ":" ++ l.text
    -- a later suggestion takes the place of an earlier one
    note := location.bind fun _ =>
      e.suggestions.getLast?.map fun s => "did you mean '" ++ s ++ "'?" }

end RunError

end Pinning
