import Pinning.Script.Syntax
import Pinning.Script.Token

/-!
From tokens to scripts, one token at a time.

The parser is a pushdown machine. Its state holds the statements that are complete and the one
that is open, with everything read of it so far, so that each step takes exactly one token and the
whole run is a recursion on the tokens. A view or a chain of calls may be complete or go on; such
a state first tries to go on (`State.extend?`), and only then closes (`State.settle`) and tries
the token again from there.

No state is a dead end: what has been read can always be completed. So the first token without a
step is the first one that no script can go on with, and `State.accepts` tells for each other
token whether a script could have gone on with that.
-/

namespace Pinning

variable {α : Type}

/-- How far the argument being read has come. -/
inductive ArgPhase (α : Type) where
  /-- At the start of an argument list or after a comma; the list may end here. -/
  | ready
  /-- After `key:`, where a value has to follow. -/
  | keyed
  | minus (start : Nat)
  /-- A number, which a percent sign may follow. -/
  | number (span : Span) (value : α)
  /-- A name, which may turn out to be a key or the node of a member. -/
  | word (name : Spanned String)
  | dot (name : Spanned String)
  | complete (arg : Arg α)

/-- A list that is being read, or around one that is. -/
structure OpenList (α : Type) where
  /-- The keys in front of the list, the innermost first. -/
  keys : List (Spanned String)
  start : Nat
  items : List (Arg α)

/-- The arguments of a call while they are being read. -/
structure OpenArgs (α : Type) where
  phase : ArgPhase α := .ready
  /-- The keys in front of the current argument, the innermost first. -/
  keys : List (Spanned String) := []
  /-- The complete arguments of the innermost list. -/
  items : List (Arg α) := []
  /-- The lists around, the innermost first. -/
  lists : List (OpenList α) := []

namespace OpenArgs

/-- An argument with the keys in front of it, the innermost first. -/
def underKeys (keys : List (Spanned String)) (arg : Arg α) : Arg α :=
  keys.foldl (fun arg key => .named ⟨key.span.start, arg.span.stop⟩ key arg) arg

variable (o : OpenArgs α)

/-- The current argument, if it may end here. -/
def current? : Option (Arg α) :=
  match o.phase with
  | .number s v => some (underKeys o.keys (.number s v))
  | .word n => some (underKeys o.keys (.name n.span n.value))
  | .complete arg => some (underKeys o.keys arg)
  | .ready | .keyed | .minus _ | .dot _ => none

/-- The items of the innermost list, if it may end here. -/
def closed? : Option (List (Arg α)) :=
  match o.phase with
  | .ready => some o.items
  | _ => o.current?.map fun arg => o.items ++ [arg]

/-- The first token of an argument. -/
def open? [Neg α] (t : Spanned (Token α)) : Option (OpenArgs α) :=
  match t.value with
  | .mark .minus => some { o with phase := .minus t.span.start }
  | .number v => some { o with phase := .number t.span v }
  | .ident n => some { o with phase := .word ⟨n, t.span⟩ }
  | .mark .bracketOpen =>
    some { lists := { keys := o.keys, start := t.span.start, items := o.items } :: o.lists }
  | _ => none

/-- A token that goes on with the current argument. -/
def continue? [Neg α] (t : Spanned (Token α)) : Option (OpenArgs α) :=
  match o.phase, t.value with
  | .ready, _ | .keyed, _ => o.open? t
  | .minus start, .number v => some { o with phase := .number ⟨start, t.span.stop⟩ (-v) }
  | .number s v, .mark .percent =>
    some { o with phase := .complete (.percent ⟨s.start, t.span.stop⟩ v) }
  | .word n, .mark .colon => some { o with phase := .keyed, keys := n :: o.keys }
  | .word n, .mark .dot => some { o with phase := .dot n }
  | .dot n, .ident m =>
    some { o with phase := .complete (.member ⟨n.span.start, t.span.stop⟩ n.value m) }
  | _, _ => none

/-- A token that ends the current argument, or the innermost list with it. -/
def finish? (t : Spanned (Token α)) : Option (OpenArgs α) :=
  match t.value, o.lists with
  | .mark .comma, _ =>
    o.current?.map fun arg => { items := o.items ++ [arg], lists := o.lists }
  | .mark .bracketClose, l :: ls =>
    o.closed?.map fun items =>
      { phase := .complete (.list ⟨l.start, t.span.stop⟩ items)
        keys := l.keys, items := l.items, lists := ls }
  | _, _ => none

def step? [Neg α] (t : Spanned (Token α)) : Option (OpenArgs α) :=
  (o.continue? t).or (o.finish? t)

/-- All arguments, if the call may end here. -/
def args? : Option (List (Arg α)) := if o.lists.isEmpty then o.closed? else none

end OpenArgs

/-- A view being read. -/
structure OpenView (α : Type) where
  start : Nat
  name : Spanned String
  modifiers : List (Modifier α) := []
  children : List (View α) := []

/-- How far the view being read has come. -/
inductive ViewPhase (α : Type) where
  | keyword (start : Nat)
  /-- After the name; modifiers, children or the end may follow. -/
  | named (view : OpenView α)
  /-- Inside the modifiers, before a key or the end of them. -/
  | modifiers (view : OpenView α)
  | key (view : OpenView α) (key : Spanned String)
  | colon (view : OpenView α) (key : Spanned String)
  | minus (view : OpenView α) (key : Spanned String) (start : Nat)
  /-- After a modifier; a comma or the end of the modifiers follows. -/
  | modifier (view : OpenView α)
  /-- After the modifiers; children or the end may follow. -/
  | modified (view : OpenView α) (stop : Nat)
  /-- Inside the children, before a view or the end of them. -/
  | children (view : OpenView α)

namespace OpenView

def close (v : OpenView α) (stop : Nat) : View α :=
  ⟨⟨v.start, stop⟩, v.name, v.modifiers, v.children⟩

def addModifier (v : OpenView α) (key : Spanned String) (value : Spanned α) : OpenView α :=
  { v with modifiers := v.modifiers ++ [⟨⟨key.span.start, value.span.stop⟩, key, value⟩] }

def addChild (v : OpenView α) (child : View α) : OpenView α :=
  { v with children := v.children ++ [child] }

end OpenView

/-- The view, if it may end here. -/
def ViewPhase.view? : ViewPhase α → Option (View α)
  | named v => some (v.close v.name.span.stop)
  | modified v stop => some (v.close stop)
  | _ => none

/-- A chain of calls and the pin it belongs to, while it is being read. -/
structure OpenPin (α : Type) where
  start : Nat
  target : Spanned String
  calls : List (Call α)

/-- The statement being read. -/
inductive Pending (α : Type) where
  | none
  | direction (start : Nat)
  | pin (start : Nat)
  | target (start : Nat) (name : Spanned String)
  /-- Where the name of a call has to follow. -/
  | chain (pin : OpenPin α)
  | call (pin : OpenPin α) (name : Spanned String)
  | args (pin : OpenPin α) (name : Spanned String) (args : OpenArgs α)
  /-- After a call; a further one may follow. -/
  | called (pin : OpenPin α) (stop : Nat)
  /-- A view, with the views around it, the innermost first. -/
  | view (phase : ViewPhase α) (parents : List (OpenView α))

namespace Parser

structure State (α : Type) where
  done : List (Statement α) := []
  pending : Pending α := .none

namespace State

variable (s : State α)

def complete (st : Statement α) : State α := ⟨s.done ++ [st], .none⟩

/-- Hands a complete view to the view around it, or to the script. -/
def completeView (v : View α) : List (OpenView α) → State α
  | [] => s.complete (.view v)
  | p :: ps => { s with pending := .view (.children (p.addChild v)) ps }

/-- Closes the open statement or view, if it may end here. -/
def settle : Option (State α) :=
  match s.pending with
  | .called p stop => some (s.complete (.pin ⟨p.start, stop⟩ p.target p.calls))
  | .view phase parents => phase.view?.map fun v => s.completeView v parents
  | _ => none

/-- The first token of a statement. -/
def begin? (t : Spanned (Token α)) : Option (Pending α) :=
  match t.value with
  | .keyword .direction => some (.direction t.span.start)
  | .keyword .pin => some (.pin t.span.start)
  | .keyword .view => some (.view (.keyword t.span.start) [])
  | _ => none

/-- A token that goes on with the open view. -/
def extendView? [Neg α] (t : Spanned (Token α)) (parents : List (OpenView α)) :
    ViewPhase α → Option (State α)
  | .keyword start =>
    match t.value with
    | .ident n => go (.named { start, name := ⟨n, t.span⟩ })
    | _ => none
  | .named v =>
    match t.value with
    | .mark .bracketOpen => go (.modifiers v)
    | .mark .braceOpen => go (.children v)
    | _ => none
  | .modifiers v =>
    match t.value with
    | .ident k => go (.key v ⟨k, t.span⟩)
    | .mark .bracketClose => go (.modified v t.span.stop)
    | _ => none
  | .key v key =>
    match t.value with
    | .mark .colon => go (.colon v key)
    | _ => none
  | .colon v key =>
    match t.value with
    | .number x => go (.modifier (v.addModifier key ⟨x, t.span⟩))
    | .mark .minus => go (.minus v key t.span.start)
    | _ => none
  | .minus v key start =>
    match t.value with
    | .number x => go (.modifier (v.addModifier key ⟨-x, ⟨start, t.span.stop⟩⟩))
    | _ => none
  | .modifier v =>
    match t.value with
    | .mark .comma => go (.modifiers v)
    | .mark .bracketClose => go (.modified v t.span.stop)
    | _ => none
  | .modified v _ =>
    match t.value with
    | .mark .braceOpen => go (.children v)
    | _ => none
  | .children v =>
    match t.value with
    | .keyword .view => some { s with pending := .view (.keyword t.span.start) (v :: parents) }
    | .mark .braceClose => some (s.completeView (v.close t.span.stop) parents)
    | _ => none
where
  go (phase : ViewPhase α) : Option (State α) := some { s with pending := .view phase parents }

/-- The step on a token that goes on with the open statement, or opens one where none is. -/
def extend? [Neg α] (t : Spanned (Token α)) : Option (State α) :=
  match s.pending with
  | .none => (begin? t).map fun p => { s with pending := p }
  | .direction start =>
    match t.value with
    | .ident n => some (s.complete (.direction ⟨start, t.span.stop⟩ ⟨n, t.span⟩))
    | _ => none
  | .pin start =>
    match t.value with
    | .ident n => some { s with pending := .target start ⟨n, t.span⟩ }
    | _ => none
  | .target start name =>
    match t.value with
    | .mark .colon => some { s with pending := .chain ⟨start, name, []⟩ }
    | _ => none
  | .chain p =>
    match t.value with
    | .ident n => some { s with pending := .call p ⟨n, t.span⟩ }
    | _ => none
  | .call p name =>
    match t.value with
    | .mark .parenOpen => some { s with pending := .args p name {} }
    | _ => none
  | .args p name o =>
    match o.step? t with
    | some o => some { s with pending := .args p name o }
    | none =>
      match t.value, o.args? with
      | .mark .parenClose, some args =>
        let call : Call α := ⟨⟨name.span.start, t.span.stop⟩, name, args⟩
        some { s with pending := .called { p with calls := p.calls ++ [call] } t.span.stop }
      | _, _ => none
  | .called p _ =>
    match t.value with
    | .mark .dot => some { s with pending := .chain p }
    | _ => none
  | .view phase parents => s.extendView? t parents phase

def step? [Neg α] (t : Spanned (Token α)) : Option (State α) :=
  match s.extend? t with
  | some s' => some s'
  | none => s.settle.bind fun s' => s'.extend? t

/-- The script, if it may end here. -/
def script? : Option (Script α) :=
  let s := s.settle.getD s
  match s.pending with
  | .none => some ⟨s.done⟩
  | _ => none

end State

end Parser

end Pinning
