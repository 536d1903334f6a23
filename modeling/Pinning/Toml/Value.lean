import Pinning.Toml.Moment

/-!
Values of TOML documents, and how assignments build them up.

A table remembers how it came about, because that decides who may still add to it: dotted keys may
add to a table that dotted keys made, a header may define a table that so far was only on the way
to another one, and nothing may add to an inline table.
-/

namespace Pinning.Toml

inductive TableKind where
  /-- Made on the way to a table with a header. -/
  | onTheWay
  | dotted
  | headed
  | inline
deriving DecidableEq, Repr

inductive Value where
  | string (s : String)
  | integer (n : Int)
  | float (x : Float)
  | boolean (b : Bool)
  | moment (m : Moment)
  | array (items : List Value)
  | table (kind : TableKind) (entries : List (String × Value))

/-- The entries of a table in the order in which they were made. -/
abbrev Entries := List (String × Value)

namespace Entries

def replace (key : String) (v : Value) (es : Entries) : Entries :=
  es.map fun (k, old) => if k = key then (k, v) else (k, old)

/-- Changes the table at a path of header keys, making the tables that are not there. -/
def modifyAt (f : Entries → Option Entries) : List String → Entries → Option Entries
  | [], es => f es
  | key :: path, es =>
    match es.lookup key with
    | some (.table kind sub) =>
      if kind = .inline then none
      else (modifyAt f path sub).map fun sub => replace key (.table kind sub) es
    | some _ => none
    | none => (modifyAt f path []).map fun sub => es ++ [(key, .table .onTheWay sub)]

/-- Defines a table by its header. -/
def define (path : List String) (es : Entries) : Option Entries :=
  match path.getLast? with
  | none => none
  | some key => modifyAt (enter key) path.dropLast es
where
  enter (key : String) (es : Entries) : Option Entries :=
    match es.lookup key with
    | none => some (es ++ [(key, .table .headed [])])
    | some (.table .onTheWay sub) => some (replace key (.table .headed sub) es)
    | some _ => none

/-- Assigns a value to a dotted key. No key is assigned twice. -/
def assign (v : Value) : List String → Entries → Option Entries
  | [], _ => none
  | [key], es => if (es.lookup key).isSome then none else some (es ++ [(key, v)])
  | key :: path, es =>
    match es.lookup key with
    | some (.table .dotted sub) =>
      (assign v path sub).map fun sub => replace key (.table .dotted sub) es
    | some _ => none
    | none => (assign v path []).map fun sub => es ++ [(key, .table .dotted sub)]

end Entries

end Pinning.Toml
