import Pinning.Decimal.Reading
import Pinning.Toml.Value

/-!
Reading TOML: strings of all four kinds, integers in four bases, floats, booleans, dates and times,
arrays, inline tables, dotted and quoted keys, and tables by header. Arrays of tables are refused;
no setting is one. How deep values nest and how many parts a key has is limited (`deepest`).
-/

namespace Pinning.Toml

/-- A part of a document: what it denotes, and the text after it. -/
abbrev Reader (β : Type) := List Char → Option (β × List Char)

namespace Reader

def isBlank (c : Char) : Bool := c = ' ' || c = '\t'

/-- Characters that may stand in comments and strings. -/
def isPlain (c : Char) : Bool := c = '\t' || (0x20 ≤ c.toNat && c.toNat ≠ 0x7f)

def skipBlank (cs : List Char) : List Char := cs.dropWhile isBlank

def newline? : List Char → Option (List Char)
  | '\n' :: cs => some cs
  | '\r' :: '\n' :: cs => some cs
  | _ => none

def skipComment : List Char → List Char
  | '#' :: cs => cs.dropWhile isPlain
  | cs => cs

/-- The text after the rest of a line on which nothing but a comment is left. -/
def endOfLine? (cs : List Char) : Option (List Char) :=
  match skipComment (skipBlank cs) with
  | [] => some []
  | cs => newline? cs

/-- Skips blanks, comments and line ends between the items of an array. -/
def skipLines : Nat → List Char → List Char
  | 0, cs => cs
  | n + 1, cs =>
    let cs := skipComment (skipBlank cs)
    match newline? cs with
    | some cs => skipLines n cs
    | none => cs

def hexValue? (c : Char) : Option Nat :=
  if c.isDigit then some (c.toNat - '0'.toNat)
  else if 'a' ≤ c ∧ c ≤ 'f' then some (c.toNat - 'a'.toNat + 10)
  else if 'A' ≤ c ∧ c ≤ 'F' then some (c.toNat - 'A'.toNat + 10)
  else none

/-- The character with a code point in hexadecimal. -/
def codePoint? (digits : List Char) : Option Char := do
  let n ← digits.foldlM (fun n c => (hexValue? c).map (16 * n + ·)) 0
  if n.isValidChar then some (Char.ofNat n) else none

def escape? : Char → Option Char
  | 'b' => some '\x08'
  | 't' => some '\t'
  | 'n' => some '\n'
  | 'f' => some '\x0c'
  | 'r' => some '\r'
  | '"' => some '"'
  | '\\' => some '\\'
  | _ => none

/-- Skips blanks and line ends. -/
def skipSpace : List Char → List Char
  | '\r' :: '\n' :: cs => skipSpace cs
  | c :: cs => if isBlank c || c = '\n' then skipSpace cs else c :: cs
  | [] => []

/-- The text after a line's end and all the blank space that follows it. -/
def continuation? (cs : List Char) : Option (List Char) :=
  (newline? (skipBlank cs)).map skipSpace

/-- The character after a backslash. -/
def escaped? : Reader Char
  | 'u' :: cs =>
    if 4 ≤ cs.length then (codePoint? (cs.take 4)).map (·, cs.drop 4) else none
  | 'U' :: cs =>
    if 8 ≤ cs.length then (codePoint? (cs.take 8)).map (·, cs.drop 8) else none
  | c :: cs => (escape? c).map (·, cs)
  | [] => none

/-- The inside of a string with escapes, up to its closing quote. -/
def basic : Nat → Reader (List Char)
  | 0, _ => none
  | n + 1, cs =>
    match cs with
    | '"' :: cs => some ([], cs)
    | '\\' :: cs => do
      let (c, cs) ← escaped? cs
      let (s, cs) ← basic n cs
      return (c :: s, cs)
    | c :: cs => if isPlain c then (basic n cs).map fun (s, cs) => (c :: s, cs) else none
    | [] => none

/-- The inside of a string without escapes. -/
def literal : Reader (List Char)
  | '\'' :: cs => some ([], cs)
  | c :: cs => if isPlain c then (literal cs).map fun (s, cs) => (c :: s, cs) else none
  | [] => none

/-- The inside of a string over several lines. Up to two quotes may stand before the closing
three. -/
def multiline (quote : Char) (escapes : Bool) : Nat → Reader (List Char)
  | 0, _ => none
  | n + 1, cs =>
    let quotes := (cs.take 5).takeWhile (· = quote)
    if 3 ≤ quotes.length then some (quotes.drop 3, cs.drop quotes.length)
    else
      match newline? cs, cs with
      | some cs, _ => (multiline quote escapes n cs).map fun (s, cs) => ('\n' :: s, cs)
      | none, '\\' :: cs =>
        if escapes then
          match continuation? cs with
          | some cs => multiline quote escapes n cs
          | none => do
            let (c, cs) ← escaped? cs
            let (s, cs) ← multiline quote escapes n cs
            return (c :: s, cs)
        else (multiline quote escapes n cs).map fun (s, cs) => ('\\' :: s, cs)
      | none, c :: cs =>
        if isPlain c then (multiline quote escapes n cs).map fun (s, cs) => (c :: s, cs) else none
      | none, [] => none

def asString : Option (List Char × List Char) → Option (String × List Char)
  | some (s, cs) => some (String.ofList s, cs)
  | none => none

/-- A string on one line. -/
def line : Reader String
  | '"' :: cs => asString (basic (cs.length + 1) cs)
  | '\'' :: cs => asString (literal cs)
  | _ => none

def string (cs : List Char) : Option (String × List Char) :=
  match cs with
  | '"' :: '"' :: '"' :: cs => block '"' true cs
  | '\'' :: '\'' :: '\'' :: cs => block '\'' false cs
  | cs => line cs
where
  block (quote : Char) (escapes : Bool) (cs : List Char) : Option (String × List Char) :=
    let cs := (newline? cs).getD cs
    asString (multiline quote escapes (cs.length + 1) cs)

/-- Digits of a base, with single underscores between them. -/
def digits? (base : Nat) (cs : List Char) : Option (List Nat) :=
  match cs with
  | [] => none
  | c :: cs => do
    let d ← digit? c
    return d :: (← rest cs)
where
  digit? (c : Char) : Option Nat := (hexValue? c).filter (· < base)
  rest : List Char → Option (List Nat)
    | [] => some []
    | '_' :: c :: cs => do return (← digit? c) :: (← rest cs)
    | c :: cs => do return (← digit? c) :: (← rest cs)

def ofDigits (base : Nat) (ds : List Nat) : Nat := ds.foldl (fun n d => base * n + d) 0

/-- Sign and magnitude of a decimal integer without superfluous zeros in front. -/
def decimal? (cs : List Char) : Option (Bool × Nat) :=
  match cs with
  | '-' :: cs => (magnitude? cs).map (true, ·)
  | '+' :: cs => (magnitude? cs).map (false, ·)
  | cs => (magnitude? cs).map (false, ·)
where
  magnitude? (cs : List Char) : Option Nat := do
    let ds ← digits? 10 cs
    if ds.head? = some 0 ∧ ds ≠ [0] then none else some (ofDigits 10 ds)

/-- Integers have 64 bits. -/
def integer? (cs : List Char) : Option Value :=
  let n? : Option Int := match cs with
    | '0' :: 'x' :: cs => (digits? 16 cs).map fun ds => ofDigits 16 ds
    | '0' :: 'o' :: cs => (digits? 8 cs).map fun ds => ofDigits 8 ds
    | '0' :: 'b' :: cs => (digits? 2 cs).map fun ds => ofDigits 2 ds
    | cs => (decimal? cs).map fun (negative, n) => if negative then -n else n
  (n?.filter fun n => -0x8000000000000000 ≤ n ∧ n < 0x8000000000000000).map .integer

/-- A decimal with a fraction, an exponent or both, or a word. One too large to be a double is
refused. -/
def float? (cs : List Char) : Option Value :=
  let word := String.ofList cs
  if word ∈ ["inf", "+inf", "-inf", "nan", "+nan", "-nan"] then
    (Decimal.readFloat? word).map .float
  else
    let whole := cs.takeWhile fun c => !(c = '.' || isE c)
    let rest := cs.drop whole.length
    let (fraction, rest) := match rest with
      | '.' :: rest =>
        let fraction := rest.takeWhile fun c => !isE c
        (some fraction, rest.drop fraction.length)
      | rest => (none, rest)
    let exponent := match rest with
      | _ :: '+' :: cs | _ :: '-' :: cs | _ :: cs => some cs
      | [] => none
    if (decimal? whole).isSome ∧ fraction.all (fun ds => (digits? 10 ds).isSome)
        ∧ exponent.all (fun ds => (digits? 10 ds).isSome)
        ∧ (fraction.isSome ∨ exponent.isSome) then
      (Decimal.readFloat? (String.ofList (cs.filter (· ≠ '_')))).bind fun x =>
        if x.isInf ∧ 0 < x then none else some (.float x)
    else none
where
  isE (c : Char) : Bool := c = 'e' || c = 'E'

def isWordChar (c : Char) : Bool := c.isAlphanum || c = '+' || c = '-' || c = '_' || c = '.'

/-- A number or a truth value: nothing that could go on one may follow it. -/
def word (cs : List Char) : Option (Value × List Char) :=
  let w := cs.takeWhile isWordChar
  let v? : Option Value := match String.ofList w with
    | "true" => some (.boolean true)
    | "false" => some (.boolean false)
    | _ => (integer? w).or (float? w)
  v?.map (·, cs.drop w.length)

/-- A value that holds no other. -/
def scalar (cs : List Char) : Option (Value × List Char) :=
  match cs with
  | '"' :: _ | '\'' :: _ => (string cs).map fun (s, cs) => (.string s, cs)
  | cs => ((Moment.read cs).map fun (m, cs) => (.moment m, cs)).or (word cs)

/-- The number of levels to which arrays and inline tables nest, and of parts that a key has. -/
def deepest : Nat := 79

def isKeyChar (c : Char) : Bool := c.isAlphanum || c = '_' || c = '-'

def key (cs : List Char) : Option (String × List Char) :=
  let bare := cs.takeWhile isKeyChar
  if bare = [] then line cs else some (String.ofList bare, cs.drop bare.length)

/-- At most `n` keys with points between them. -/
def keys : Nat → Reader (List String)
  | 0, _ => none
  | n + 1, cs => do
    let (k, cs) ← key (skipBlank cs)
    match skipBlank cs with
    | '.' :: cs => (keys n cs).map fun (ks, cs) => (k :: ks, cs)
    | cs => return ([k], cs)

/-- A key, or several with points between them. -/
def path : Reader (List String) := keys deepest

mutual

/-- A value with at most `depth` levels of arrays and inline tables. -/
def value (depth : Nat) : Nat → Reader Value
  | 0, _ => none
  | n + 1, cs =>
    match cs, depth with
    | '[' :: cs, depth + 1 =>
      (items depth n (skipLines cs.length cs)).map fun (vs, cs) => (.array vs, cs)
    | '\x7b' :: cs, depth + 1 =>
      match skipBlank cs with
      | '\x7d' :: cs => some (.table .inline [], cs)
      | cs => (pairs depth n [] cs).map fun (es, cs) => (.table .inline es, cs)
    | cs, _ => scalar cs

/-- The rest of an array; a comma may follow the last item. -/
def items (depth : Nat) : Nat → Reader (List Value)
  | 0, _ => none
  | n + 1, cs =>
    match cs with
    | ']' :: cs => some ([], cs)
    | cs => do
      let (v, cs) ← value depth n cs
      match skipLines cs.length cs with
      | ',' :: cs => (items depth n (skipLines cs.length cs)).map fun (vs, cs) => (v :: vs, cs)
      | ']' :: cs => return ([v], cs)
      | _ => none

/-- The rest of an inline table, added to the entries so far; a comma is followed by a pair. -/
def pairs (depth : Nat) : Nat → Entries → Reader Entries
  | 0, _, _ => none
  | n + 1, es, cs => do
    let ((ks, v), cs) ← assignment depth n cs
    let es ← es.assign v ks
    match skipBlank cs with
    | ',' :: cs => pairs depth n es cs
    | '\x7d' :: cs => return (es, cs)
    | _ => none

/-- A key with its value. -/
def assignment (depth : Nat) : Nat → Reader (List String × Value)
  | 0, _ => none
  | n + 1, cs => do
    let (ks, cs) ← path cs
    match skipBlank cs with
    | '=' :: cs => (value depth n (skipBlank cs)).map fun (v, cs) => ((ks, v), cs)
    | _ => none

end

end Reader

/-- A document being read: the table that assignments go to, and everything so far. -/
structure Draft where
  table : List String := []
  entries : Entries := []

namespace Draft

/-- Takes in the first line of a text. -/
def readLine (d : Draft) (cs : List Char) : Option (Draft × List Char) :=
  match Reader.skipBlank cs with
  | '[' :: '[' :: _ => none
  | '[' :: cs => do
    let (ks, cs) ← Reader.path cs
    match Reader.skipBlank cs with
    | ']' :: cs => return (⟨ks, ← d.entries.define ks⟩, ← Reader.endOfLine? cs)
    | _ => none
  | cs =>
    match Reader.endOfLine? cs with
    | some cs => some (d, cs)
    | none => do
      let ((ks, v), cs) ← Reader.assignment Reader.deepest (cs.length + 1) cs
      let entries ← d.entries.modifyAt (Entries.assign v ks) d.table
      return ({ d with entries }, ← Reader.endOfLine? cs)

def readLines (d : Draft) : Nat → List Char → Option Entries
  | _, [] => some d.entries
  | 0, _ => none
  | n + 1, cs => do
    let (d, cs) ← d.readLine cs
    readLines d n cs

end Draft

/-- The entries of a document; a byte order mark in front of it is skipped. -/
def read? (text : String) : Option Entries :=
  let cs := match text.toList with
    | '\ufeff' :: cs => cs
    | cs => cs
  ({} : Draft).readLines cs.length cs

end Pinning.Toml
