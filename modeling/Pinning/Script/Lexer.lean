import Pinning.Decimal.Digits
import Pinning.Script.Span
import Pinning.Script.Token

/-!
From text to tokens. At each place the longest lexeme is taken: a token, or blank text, which is
white space or a comment. A lexeme is described by how many characters it takes after its first
one, so that reading always goes on.

A block comment is read in steps: one character other than a star, or a star and the character
after it unless that is a slash. Stars are thus taken in pairs, and an even run of them before
the closing star and slash leaves the comment closed while an odd one swallows the slash. A
comment that does not close is one unknown token over all the steps there are.
-/

namespace Pinning.Lexer

variable {α : Type}

def isIdentStart (c : Char) : Bool := c.isAlpha || c = '_'

def isIdentRest (c : Char) : Bool := c.isAlphanum || c = '_'

def isBlank (c : Char) : Bool := c = ' ' || c = '\t' || c = '\n' || c = '\r'

inductive Lexeme (α : Type) where
  | token (t : Token α)
  | blank
deriving DecidableEq

/-- How many characters a comment takes from inside its opening mark on, and whether it closes. -/
def commentBody : List Char → Nat × Bool
  | '*' :: '/' :: _ => (2, true)
  | ['*'] => (0, false)
  | '*' :: _ :: cs => ((commentBody cs).1 + 2, (commentBody cs).2)
  | _ :: cs => ((commentBody cs).1 + 1, (commentBody cs).2)
  | [] => (0, false)

/-- The digits after the point, if a point and a digit follow. -/
def fraction : List Char → List Char
  | '.' :: cs => cs.takeWhile Char.isDigit
  | _ => []

variable [Scalar α]

/-- The lexeme that starts with `c` and how many of the characters after it belong to it. -/
def next (c : Char) (rest : List Char) : Lexeme α × Nat :=
  if isBlank c then (.blank, 0)
  else if isIdentStart c then
    let more := rest.takeWhile isIdentRest
    let name := String.ofList (c :: more)
    (.token ((Keyword.ofText? name).elim (.ident name) .keyword), more.length)
  else if c.isDigit then
    let more := rest.takeWhile Char.isDigit
    let places := fraction (rest.dropWhile Char.isDigit)
    let value := Scalar.ofDecimal (Decimal.digitsValue (c :: more ++ places)) places.length
    (.token (.number value), more.length + if places = [] then 0 else places.length + 1)
  else if c = '/' then
    match rest with
    | '/' :: body => (.blank, (body.takeWhile (· ≠ '\n')).length + 1)
    | '*' :: body =>
      match commentBody body with
      | (n, true) => (.blank, n + 1)
      | (n, false) => (.token .unknown, n + 1)
    | _ => (.token .unknown, 0)
  else (.token ((Mark.ofChar? c).elim .unknown .mark), 0)

/-- The bytes that characters take. -/
def width : List Char → Nat
  | [] => 0
  | c :: cs => c.utf8Size + width cs

/-- The tokens of a text that starts at byte `pos`. -/
def tokensAt (pos : Nat) : List Char → List (Spanned (Token α))
  | [] => []
  | c :: rest =>
    let (lexeme, n) := next c rest
    let stop := pos + c.utf8Size + width (rest.take n)
    match lexeme with
    | .token t => ⟨t, ⟨pos, stop⟩⟩ :: tokensAt stop (rest.drop n)
    | .blank => tokensAt stop (rest.drop n)
termination_by cs => cs.length
decreasing_by all_goals exact Nat.lt_succ_of_le (List.length_drop ▸ Nat.sub_le ..)

def tokens (source : String) : List (Spanned (Token α)) := tokensAt 0 source.toList

end Pinning.Lexer
