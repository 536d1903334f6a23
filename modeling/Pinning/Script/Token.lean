import Pinning.Scalar

/-!
The tokens of scripts. Keywords and marks are fixed texts; names and numbers carry their value;
every character that starts no token is `unknown`.
-/

namespace Pinning

variable {α : Type}

inductive Keyword where
  | direction
  | pin
  | view
deriving DecidableEq, Repr

inductive Mark where
  | percent
  | parenOpen
  | parenClose
  | comma
  | minus
  | dot
  | colon
  | bracketOpen
  | bracketClose
  | braceOpen
  | braceClose
deriving DecidableEq, Repr

inductive Token (α : Type) where
  | keyword (k : Keyword)
  | mark (m : Mark)
  | ident (name : String)
  | number (value : α)
  | unknown
deriving DecidableEq

namespace Keyword

def text : Keyword → String
  | direction => "direction"
  | pin => "pin"
  | view => "view"

def all : List Keyword := [direction, pin, view]

def ofText? (s : String) : Option Keyword := all.find? (·.text = s)

def describe (k : Keyword) : String := "keyword '" ++ k.text ++ "'"

end Keyword

namespace Mark

def char : Mark → Char
  | percent => '%'
  | parenOpen => '('
  | parenClose => ')'
  | comma => ','
  | minus => '-'
  | dot => '.'
  | colon => ':'
  | bracketOpen => '['
  | bracketClose => ']'
  | braceOpen => '\x7b'
  | braceClose => '\x7d'

def describe (m : Mark) : String := "'" ++ String.singleton m.char ++ "'"

/-- The marks in the order of their characters. -/
def all : List Mark :=
  [percent, parenOpen, parenClose, comma, minus, dot, colon, bracketOpen, bracketClose, braceOpen,
    braceClose]

def ofChar? (c : Char) : Option Mark := all.find? (·.char = c)

end Mark

/-- The token as messages name it. -/
def Token.describe [Scalar α] : Token α → String
  | keyword k => k.describe
  | mark m => m.describe
  | ident name => "name '" ++ name ++ "'"
  | number v => "number " ++ Scalar.text v
  | unknown => "unrecognized character"

end Pinning
