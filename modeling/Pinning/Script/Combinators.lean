import Pinning.Script.Reading

/-!
Parsers that are put together from smaller ones.

A parser takes tokens from the front, or it fails and takes none. Alternatives are tried in their
order, each from where the one before it began. Beside its result a parser tells of the failure
that got furthest: what was looked for there, and how many tokens were left. Of two failures the
further one counts, and two at one place are one that looked for both (`Failure.merge`). A parser
that succeeds has such a failure too, that of what it tried in vain; it is reported where nothing
that is tried later gets as far.
-/

namespace Pinning

variable {α β γ : Type}

namespace Grammar

abbrev Phrase (α : Type) := List (Spanned (Token α))

/-- From the start of the first token to the end of the last. -/
def extent (ts : Phrase α) : Span where
  start := ts.head?.elim 0 (·.span.start)
  stop := ts.getLast?.elim 0 (·.span.stop)

end Grammar

open Grammar

/-- What a token is listed as where it is expected; names and numbers are not listed. -/
def Token.terminal? : Token α → Option Terminal
  | mark m => some (.mark m)
  | keyword k => some (.keyword k)
  | ident _ | number _ | unknown => none

def Token.ident? : Token α → Option String
  | ident n => some n
  | _ => none

def Token.number? : Token α → Option α
  | number v => some v
  | _ => none

namespace Descent

/-- Something was looked for in vain. -/
structure Failure where
  /-- How many tokens were left. -/
  left : Nat
  expected : List Terminal

/-- The further one of two failures, or both of them. -/
def Failure.merge (e e' : Failure) : Failure :=
  if e.left < e'.left then e
  else if e'.left < e.left then e'
  else ⟨e.left, e.expected ++ e'.expected⟩

/-- The furthest of the failures that there are. -/
def furthest : Option Failure → Option Failure → Option Failure := Option.merge Failure.merge

/-- What came of a parser. -/
structure Attempt (α β : Type) where
  /-- What was read, and the tokens that are left. -/
  result : Option (β × Phrase α)
  failure : Option Failure

end Descent

/-- A parser that takes tokens from the front. -/
def Descent (α β : Type) := Phrase α → Descent.Attempt α β

namespace Descent

/-- Takes a token of which something can be made. -/
def select (expected : List Terminal) (f : Spanned (Token α) → Option β) : Descent α β
  | [] => ⟨none, some ⟨0, expected⟩⟩
  | t :: ts =>
    match f t with
    | some x => ⟨some (x, ts), none⟩
    | none => ⟨none, some ⟨ts.length + 1, expected⟩⟩

/-- Takes a fixed text. -/
def just (x : Terminal) : Descent α Unit :=
  select [x] fun t => if t.value.terminal? = some x then some () else none

/-- Takes nothing, where nothing is left. -/
def endOfInput : Descent α Unit
  | [] => ⟨some ((), []), none⟩
  | _ :: ts => ⟨none, some ⟨ts.length + 1, [.endOfInput]⟩⟩

def success (x : β) : Descent α β := fun ts => ⟨some (x, ts), none⟩

def failing : Descent α β := fun _ => ⟨none, none⟩

/-- Makes something of what is read and of the stretch that it is read from. -/
def mapWith (f : β → Span → γ) (p : Descent α β) : Descent α γ := fun ts =>
  { p ts with
    result := (p ts).result.map fun (x, rest) =>
      (f x (extent (ts.take (ts.length - rest.length))), rest) }

def map (f : β → γ) (p : Descent α β) : Descent α γ := p.mapWith fun x _ => f x

/-- One after the other. -/
def andThen (p : Descent α β) (q : Descent α γ) : Descent α (β × γ) := fun ts =>
  match p ts with
  | ⟨none, e⟩ => ⟨none, e⟩
  | ⟨some (x, rest), e⟩ =>
    ⟨(q rest).result.map fun (y, rest) => ((x, y), rest), furthest e (q rest).failure⟩

def ignoreThen (p : Descent α β) (q : Descent α γ) : Descent α γ := (p.andThen q).map Prod.snd

def thenIgnore (p : Descent α β) (q : Descent α γ) : Descent α β := (p.andThen q).map Prod.fst

def delimitedBy (p : Descent α β) (opening closing : Descent α γ) : Descent α β :=
  (opening.ignoreThen p).thenIgnore closing

/-- The second one where the first one fails. -/
def orElse (p q : Descent α β) : Descent α β := fun ts =>
  match p ts with
  | ⟨some r, e⟩ => ⟨some r, e⟩
  | ⟨none, e⟩ => ⟨(q ts).result, furthest e (q ts).failure⟩

/-- The first of several that does not fail. -/
def choice : List (Descent α β) → Descent α β
  | [] => failing
  | [p] => p
  | p :: ps => p.orElse (choice ps)

def orNot (p : Descent α β) : Descent α (Option β) := (p.map some).orElse (success none)

/-- A parser that is used in itself, where at least one token has been taken. -/
def recursive (f : Descent α β → Descent α β) : Descent α β := fun ts =>
  f (fun us => if us.length < ts.length then recursive f us else failing us) ts
termination_by ts => ts.length

/-- As many as there are. -/
def repeated (p : Descent α β) : Descent α (List β) :=
  recursive fun more => ((p.andThen more).map fun (x, xs) => x :: xs).orElse (success [])

/-- What follows the first item of several that are separated. After a separator that no item
follows, one that may be the last is taken, and any other is not. -/
def further (p : Descent α β) (separator : Descent α γ) (trailing : Bool) : Descent α (List β) :=
  recursive fun more =>
    let items := (p.andThen more).map fun (x, xs) => x :: xs
    let next := separator.ignoreThen (if trailing then items.orElse (success []) else items)
    next.orElse (success [])

/-- One or more. -/
def separatedBy (p : Descent α β) (separator : Descent α γ) (trailing : Bool) :
    Descent α (List β) :=
  (p.andThen (p.further separator trailing)).map fun (x, xs) => x :: xs

/-- Any number, with a separator after the last one if need be. -/
def listedBy (p : Descent α β) (separator : Descent α γ) : Descent α (List β) :=
  (p.separatedBy separator true).orElse (success [])

end Descent

end Pinning
