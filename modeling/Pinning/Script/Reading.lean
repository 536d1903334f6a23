import Pinning.Script.Lexer
import Pinning.Script.Parser

/-!
Reading a script from its source, and what is said where that fails.

A source that is no script has one error: the first token that no script could have there, or,
where the source ends too early, all that follows its last token. The error lists what could have
stood in its place, as far as that is a fixed text.
-/

namespace Pinning

variable {α : Type}

/-- What an error can list as expected. -/
inductive Terminal where
  | mark (m : Mark)
  | endOfInput
  | keyword (k : Keyword)
deriving DecidableEq, Repr

namespace Terminal

/-- All of them, in the order of their descriptions. -/
def all : List Terminal := Mark.all.map mark ++ endOfInput :: Keyword.all.map keyword

def describe : Terminal → String
  | mark m => m.describe
  | endOfInput => "end of input"
  | keyword k => k.describe

end Terminal

/-- Why a source is no script. -/
structure SyntaxError (α : Type) where
  span : Span
  /-- The token that does not fit; none at the end of the source. -/
  found : Option (Token α)
  expected : List Terminal

namespace SyntaxError

variable [Scalar α] (e : SyntaxError α)

def message : String :=
  match e.found with
  | some (.keyword k) => "Cannot use " ++ k.describe ++ " here - it is a reserved keyword"
  | some t => "Unexpected " ++ t.describe
  | none => "Unexpected end of input"

/-- The message with its place, in one line. -/
def describe : String :=
  "Parse error at " ++ toString e.span.start ++ ".." ++ toString e.span.stop ++ ": " ++ e.message

end SyntaxError

namespace Parser

variable [Neg α]

/-- Whether a script could go on here with a fixed text, or end here. -/
def State.accepts (s : State α) : Terminal → Bool
  | .mark m => (s.step? ⟨.mark m, ⟨0, 0⟩⟩).isSome
  | .keyword k => (s.step? ⟨.keyword k, ⟨0, 0⟩⟩).isSome
  | .endOfInput => s.script?.isSome

/-- Runs over the tokens of a source that is `length` bytes long, from a state in which the tokens
up to `pos` have been taken. -/
def run (length pos : Nat) (s : State α) :
    List (Spanned (Token α)) → Except (SyntaxError α) (Script α)
  | [] =>
    match s.script? with
    | some script => .ok script
    | none => .error ⟨⟨pos, length⟩, none, Terminal.all.filter s.accepts⟩
  | t :: ts =>
    match s.step? t with
    | some s' => run length t.span.stop s' ts
    | none => .error ⟨t.span, some t.value, Terminal.all.filter s.accepts⟩

end Parser

/-- The script that a source denotes. -/
def Script.parse [Scalar α] (source : String) : Except (SyntaxError α) (Script α) :=
  Parser.run source.utf8ByteSize 0 {} (Lexer.tokens source)

end Pinning
