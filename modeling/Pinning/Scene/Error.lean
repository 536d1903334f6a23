import Pinning.Script.Span
import Pinning.Text.Suggestion

/-!
What can be wrong with a script that reads well: names that stand for nothing, and calls whose
arguments fit no form of the directive.
-/

namespace Pinning

/-- What a directive takes, as errors put it. -/
inductive Usage where
  | lengthOrLevel
  | lengthOrSide
  | lengthOrNode
  | length
  | anchor
  | oneAnchor
  | nodesBesideSide
  | nodesBesideLevel
  | size
  | widthAndHeight
  | ratioOrNode
  | ratio
  | insets
  | side
  | level
  | nothing
deriving DecidableEq, Repr

def Usage.text : Usage → String
  | lengthOrLevel => "a number, a percentage, or an edge such as 'other.bottom'"
  | lengthOrSide => "a number, a percentage, or an edge such as 'other.right'"
  | lengthOrNode => "a number, a percentage, or a node to copy from"
  | length => "a number or a percentage"
  | anchor => "an anchor such as 'other.top_left'"
  | oneAnchor => "at most one anchor"
  | nodesBesideSide => "a node or [nodes], optionally 'aligned: left|center|right|start|end'"
  | nodesBesideLevel => "a node or [nodes], optionally 'aligned: top|center|bottom'"
  | size => "a size, a node, or a width and a height"
  | widthAndHeight => "a width and a height"
  | ratioOrNode => "a ratio or a node"
  | ratio => "a ratio, a node, or nothing"
  | insets => "1 to 4 numbers"
  | side => "left, center, right, start or end"
  | level => "top, center or bottom"
  | nothing => "no arguments"

inductive SceneError where
  | unknownNode (name : String) (span : Span) (suggestions : List String)
  | duplicateView (name : String) (span : Span)
  | unknownDirective (name : String) (span : Span) (suggestions : List String)
  | badArguments (directive : String) (usage : Usage) (span : Span)
  | unknownModifier (name : String) (valid : List String) (span : Span)
  | badDirection (name : String) (span : Span)
deriving DecidableEq

namespace SceneError

/-- An unknown node, with the declared names near it. -/
def ofNode (name : String) (span : Span) (known : List String) : SceneError :=
  unknownNode name span (Suggestion.best known name 2)

/-- An unknown directive, with the directives near it. -/
def ofDirective (name : String) (span : Span) (known : List String) : SceneError :=
  unknownDirective name span (Suggestion.best known name 3)

def span : SceneError → Span
  | unknownNode _ s _ | duplicateView _ s | unknownDirective _ s _ | badArguments _ _ s
  | unknownModifier _ _ s | badDirection _ s => s

/-- Names to try instead, where names are what is wrong. -/
def suggestions? : SceneError → Option (List String)
  | unknownNode _ _ names | unknownDirective _ _ names => some names
  | _ => none

def message : SceneError → String
  | unknownNode name .. => "undefined view '" ++ name ++ "'"
  | duplicateView name _ => "view '" ++ name ++ "' is declared more than once"
  | unknownDirective name .. => "unknown directive '" ++ name ++ "'"
  | badArguments directive usage _ =>
    "invalid arguments for '" ++ directive ++ "': expected " ++ usage.text
  | unknownModifier name valid _ =>
    "unknown view modifier '" ++ name ++ "' (valid modifiers: " ++ ", ".intercalate valid ++ ")"
  | badDirection name _ => "unknown direction '" ++ name ++ "' (expected 'ltr' or 'rtl')"

end SceneError

end Pinning
