import Pinning.Script.Span

/-!
Lines and columns of a source text. A line ends with a line terminator, carriage return and line
feed together counting as one, and a terminator at the end of the text starts no further line.
-/

namespace Pinning

/-- A line and a column, both counted from one. -/
structure Location where
  line : Nat
  column : Nat
deriving DecidableEq, Repr

namespace Location

def isTerminator (c : Char) : Bool :=
  c ∈ ['\n', '\r', '\x0b', '\x0c', '\u0085', '\u2028', '\u2029']

/-- The offsets, in characters, at which lines start in a text that itself starts at `pos`, except
for the first line. -/
def laterStarts (pos : Nat) : List Char → List Nat
  | [] => []
  | c :: cs =>
    if isTerminator c ∧ ¬(c = '\r' ∧ cs.head? = some '\n') ∧ cs ≠ [] then
      (pos + 1) :: laterStarts (pos + 1) cs
    else laterStarts (pos + 1) cs

/-- The place of the character at an offset, or of the end of the text. -/
def ofOffset? (source : String) (offset : Nat) : Option Location :=
  if offset ≤ source.length then
    let starts := (laterStarts 0 source.toList).filter (· ≤ offset)
    some ⟨starts.length + 1, offset - starts.getLastD 0 + 1⟩
  else none

def text (l : Location) : String := toString l.line ++ ":" ++ toString l.column

end Location

end Pinning
