import Pinning.Scalar.Double

/-!
Writing TOML. A document is a block of values followed by its sections, each a block of its own
under a header that gives its path; blocks are set apart by an empty line. A section with nothing
but sections in it needs no header.
-/

namespace Pinning.Toml

/-- A value that is written on one line. -/
inductive Plain where
  | string (s : String)
  | float (x : Float)
  | emptyArray

structure Section where
  key : String
  /-- Whether this is one element of an array of tables. -/
  repeated : Bool
  values : List (String × Plain)
  sections : List Section

structure Document where
  values : List (String × Plain)
  sections : List Section

/-- A character inside double quotes. -/
def escape (c : Char) : String :=
  if c = '"' then "\\\""
  else if c = '\\' then "\\\\"
  else if c = '\x08' then "\\b"
  else if c = '\t' then "\\t"
  else if c = '\n' then "\\n"
  else if c = '\x0c' then "\\f"
  else if c = '\r' then "\\r"
  else if c.toNat < 0x20 ∨ c.toNat = 0x7f then "\\u" ++ hex c.toNat
  else String.singleton c
where
  hex (n : Nat) : String :=
    let digits := (Nat.toDigits 16 n).map Char.toUpper
    String.ofList (List.replicate (4 - digits.length) '0' ++ digits)

/-- A finite float always has a point. -/
def floatText (x : Float) : String :=
  if x.isNaN then "nan"
  else
    let text := Double.text x
    if x.isFinite ∧ '.' ∉ text.toList then text ++ ".0" else text

def Plain.text : Plain → String
  | string s => "\"" ++ String.join (s.toList.map escape) ++ "\""
  | float x => floatText x
  | emptyArray => "[]"

def lines (values : List (String × Plain)) : String :=
  String.join (values.map fun (key, v) => key ++ " = " ++ v.text ++ "\n")

mutual

/-- The blocks of a section, where `outer` is the path in front of its key. -/
def Section.blocks (outer : String) : Section → List String
  | ⟨key, repeated, values, sections⟩ =>
    let path := outer ++ key
    let header := if repeated then "[[" ++ path ++ "]]\n" else "[" ++ path ++ "]\n"
    let own :=
      if !repeated && values.isEmpty && !sections.isEmpty then [] else [header ++ lines values]
    own ++ blocksOf (path ++ ".") sections

def blocksOf (outer : String) : List Section → List String
  | [] => []
  | s :: ss => s.blocks outer ++ blocksOf outer ss

end

def Document.text (d : Document) : String :=
  let own := if d.values.isEmpty then [] else [lines d.values]
  "\n".intercalate (own ++ blocksOf "" d.sections)

end Pinning.Toml
