import Pinning.Script.Combinators

/-!
The grammar of scripts as parsers: a parser for each rule, put together as the rule is. They take
alternatives back, and read again what is common to two of them; the machine that reads scripts
does neither.
-/

namespace Pinning

variable {α : Type}

namespace Descent

open Grammar (extent)

def identifier : Descent α (Spanned String) :=
  (select [] fun t => t.value.ident?).mapWith fun n s => ⟨n, s⟩

/-- A number without its sign. -/
def magnitude : Descent α α := select [] fun t => t.value.number?

def mark (m : Mark) : Descent α Unit := just (.mark m)

def keyword (k : Keyword) : Descent α Unit := just (.keyword k)

def nameOrMember : Descent α (Span → Arg α) :=
  (identifier.andThen ((mark .dot).ignoreThen identifier).orNot).map fun (node, member) s =>
    match member with
    | some member => .member s node.value member.value
    | none => .name s node.value

def direction : Descent α (Span → Statement α) :=
  ((keyword .direction).ignoreThen identifier).map fun name s => .direction s name

variable [Neg α]

def signedNumber : Descent α α :=
  ((mark .minus).orNot.andThen magnitude).map fun (minus, v) => if minus.isSome then -v else v

def modifier : Descent α (Modifier α) :=
  ((identifier.thenIgnore (mark .colon)).andThen
    (signedNumber.mapWith fun v s => (⟨v, s⟩ : Spanned α))).mapWith
      fun (key, value) s => ⟨s, key, value⟩

def modifierBlock : Descent α (List (Modifier α)) :=
  (modifier.listedBy (mark .comma)).delimitedBy (mark .bracketOpen) (mark .bracketClose)

/-- A view, with a parser for those inside it. -/
def viewOf (view : Descent α (View α)) : Descent α (View α) :=
  ((((keyword .view).ignoreThen identifier).andThen modifierBlock.orNot).andThen
    (view.repeated.delimitedBy (mark .braceOpen) (mark .braceClose)).orNot).mapWith
      fun ((name, modifiers), children) s => ⟨s, name, modifiers.getD [], children.getD []⟩

def view : Descent α (View α) := recursive viewOf

def numberOrPercent : Descent α (Span → Arg α) :=
  (signedNumber.andThen (mark .percent).orNot).map fun (v, percent) s =>
    if percent.isSome then .percent s v else .number s v

def named (arg : Descent α (Arg α)) : Descent α (Span → Arg α) :=
  ((identifier.thenIgnore (mark .colon)).andThen arg).map fun (key, value) s => .named s key value

def list (arg : Descent α (Arg α)) : Descent α (Span → Arg α) :=
  ((arg.listedBy (mark .comma)).delimitedBy (mark .bracketOpen) (mark .bracketClose)).map
    fun items s => .list s items

/-- An argument, with a parser for those inside it. -/
def argOf (arg : Descent α (Arg α)) : Descent α (Arg α) :=
  (choice [numberOrPercent, named arg, list arg, nameOrMember]).mapWith fun arg s => arg s

def arg : Descent α (Arg α) := recursive argOf

def call : Descent α (Call α) :=
  (identifier.andThen
    ((arg.listedBy (mark .comma)).delimitedBy (mark .parenOpen) (mark .parenClose))).mapWith
      fun (name, args) s => ⟨s, name, args⟩

def pin : Descent α (Span → Statement α) :=
  ((((keyword .pin).ignoreThen identifier).thenIgnore (mark .colon)).andThen
    (call.separatedBy (mark .dot) false)).map fun (target, calls) s => .pin s target calls

def statement : Descent α (Statement α) :=
  (choice [direction, pin, view.map fun v _ => .view v]).mapWith fun st s => st s

def script : Descent α (Script α) :=
  (statement.repeated.thenIgnore endOfInput).map fun sts => ⟨sts⟩

/-- The error that a failure among these tokens is reported as. -/
def Failure.report (e : Failure) (length : Nat) (ts : Grammar.Phrase α) : SyntaxError α :=
  let expected := Terminal.all.filter fun x => decide (x ∈ e.expected)
  match ts.drop (ts.length - e.left) with
  | [] => ⟨⟨(extent ts).stop, length⟩, none, expected⟩
  | t :: _ => ⟨t.span, some t.value, expected⟩

/-- The script that the tokens of a source denote, or the error of the furthest failure. -/
def parse (length : Nat) (ts : Grammar.Phrase α) : Except (SyntaxError α) (Script α) :=
  match (script ts).result with
  | some (s, _) => .ok s
  | none => .error (((script ts).failure.getD ⟨ts.length, []⟩).report length ts)

end Descent

end Pinning
