import Pinning.Script.Span

/-!
Scripts as trees. Every part knows the stretch of source it was read from.
-/

namespace Pinning

variable {α : Type}

/-- An argument of a call. -/
inductive Arg (α : Type) where
  | number (span : Span) (value : α)
  | percent (span : Span) (value : α)
  | name (span : Span) (name : String)
  /-- An edge or an anchor of a node: `node.member`. -/
  | member (span : Span) (node member : String)
  | list (span : Span) (items : List (Arg α))
  | named (span : Span) (key : Spanned String) (value : Arg α)

namespace Arg

def span : Arg α → Span
  | number s _ | percent s _ | name s _ | member s _ _ | list s _ | named s _ _ => s

def kind : Arg α → String
  | number .. => "number"
  | percent .. => "percentage"
  | name .. => "name"
  | member .. => "edge or anchor"
  | list .. => "list"
  | named .. => "named argument"

end Arg

/-- One directive of a chain: `name(args)`. -/
structure Call (α : Type) where
  span : Span
  name : Spanned String
  args : List (Arg α)

/-- A number given to a view: `key: value`. -/
structure Modifier (α : Type) where
  span : Span
  key : Spanned String
  value : Spanned α

/-- A view and the views inside it. -/
structure View (α : Type) where
  span : Span
  name : Spanned String
  modifiers : List (Modifier α)
  children : List (View α)

inductive Statement (α : Type) where
  | direction (span : Span) (name : Spanned String)
  | view (view : View α)
  | pin (span : Span) (target : Spanned String) (calls : List (Call α))

def Statement.span : Statement α → Span
  | direction s _ => s
  | view v => v.span
  | pin s _ _ => s

structure Script (α : Type) where
  statements : List (Statement α)

end Pinning
