import Mathlib.Data.List.Basic
import Mathlib.Order.Nat
import Pinning.Script.Combinators

/-!
# The grammar of scripts

What a sequence of tokens can mean, said without a parser:

    script    = statement*
    statement = "direction" name | "pin" name ":" call ("." call)* | view
    view      = "view" name ("[" modifiers "]")? ("{" view* "}")?
    modifiers = nothing, or modifier ("," modifier)* ","?
    modifier  = name ":" number
    call      = name "(" arguments ")"
    arguments = nothing, or argument ("," argument)* ","?
    argument  = number "%"? | name ":" argument | "[" arguments "]" | name ("." name)?
    number    = "-"? NUMBER

Each rule relates a phrase to the tree that it stands for, and every part of the tree to the stretch
of source from its first token to its last (`extent`).
-/

namespace Pinning.Grammar

variable {α β : Type}

/-- What phrases stand for. -/
abbrev Rule (α β : Type) := Phrase α → β → Prop

@[simp] theorem extent_singleton (t : Spanned (Token α)) : extent [t] = t.span := rfl

theorem extent_cons {ts : Phrase α} (h : ts ≠ []) (t : Spanned (Token α)) :
    extent (t :: ts) = ⟨t.span.start, (extent ts).stop⟩ := by
  simp [extent, List.getLast?_cons, List.getLast?_eq_some_getLast h]

theorem stop_extent_append {us : Phrase α} (h : us ≠ []) (ts : Phrase α) :
    (extent (ts ++ us)).stop = (extent us).stop := by
  simp [extent, List.getLast?_append, List.getLast?_eq_some_getLast h]

theorem extent_cons_append {us : Phrase α} (h : us ≠ []) (t : Spanned (Token α)) (ts : Phrase α) :
    extent (t :: (ts ++ us)) = ⟨t.span.start, (extent us).stop⟩ := by
  rw [extent_cons (List.append_ne_nil_of_right_ne_nil ts h), stop_extent_append h]

theorem extent_cons_concat (t t' : Spanned (Token α)) (ts : Phrase α) :
    extent (t :: (ts ++ [t'])) = ⟨t.span.start, t'.span.stop⟩ :=
  extent_cons_append (List.cons_ne_nil t' []) t ts

theorem extent_cons_cons {ts : Phrase α} (h : ts ≠ []) (t t' : Spanned (Token α)) :
    extent (t :: t' :: ts) = ⟨t.span.start, (extent ts).stop⟩ :=
  extent_cons_append h t [t']

section Repetition

variable (P : Rule α β)

inductive Many : Rule α (List β)
  | nil : Many [] []
  | cons {ts us : Phrase α} {x : β} {xs : List β} (h : P ts x) (hs : Many us xs) :
    Many (ts ++ us) (x :: xs)

/-- One or more, with a mark between each two. -/
inductive Joined (between : Mark) : Rule α (List β)
  | one {ts : Phrase α} {x : β} (h : P ts x) : Joined between ts [x]
  | more {ts us : Phrase α} {x : β} {xs : List β} (h : P ts x) (s : Span)
    (hs : Joined between us xs) : Joined between (ts ++ ⟨.mark between, s⟩ :: us) (x :: xs)

/-- Any number, with commas between and perhaps after them. -/
inductive Listed : Rule α (List β)
  | empty : Listed [] []
  | plain {ts : Phrase α} {xs : List β} (h : Joined P .comma ts xs) : Listed ts xs
  | trailing {ts : Phrase α} {xs : List β} (h : Joined P .comma ts xs) (s : Span) :
    Listed (ts ++ [⟨.mark .comma, s⟩]) xs

/-- Between two marks. -/
inductive Enclosed (opening closing : Mark) : Rule α β
  | mk {ts : Phrase α} {x : β} (s : Span) (h : P ts x) (s' : Span) :
    Enclosed opening closing (⟨.mark opening, s⟩ :: (ts ++ [⟨.mark closing, s'⟩])) x

end Repetition

/-- Nothing instead of a list that is empty. -/
inductive Optional (P : Rule α (List β)) : Rule α (List β)
  | absent : Optional P [] []
  | present {ts : Phrase α} {xs : List β} (h : P ts xs) : Optional P ts xs

section

variable {P Q : Rule α β}

theorem Joined.ne_nil {between : Mark} {ts : Phrase α} {xs : List β}
    (h : Joined P between ts xs) (hP : ∀ us x, P us x → us ≠ []) : ts ≠ [] := by
  cases h with
  | one h => exact hP _ _ h
  | more => simp

/-- What holds of the shorter phrases of a rule may take the place of the rule. -/
theorem Joined.imp {between : Mark} {ts : Phrase α} {xs : List β} (h : Joined P between ts xs)
    (hPQ : ∀ us x, us.length ≤ ts.length → P us x → Q us x) : Joined Q between ts xs := by
  induction h with
  | one h => exact .one (hPQ _ _ le_rfl h)
  | more h s hs ih =>
    refine .more (hPQ _ _ (by simp) h) s (ih fun us x hle hx => hPQ us x ?_ hx)
    simp only [List.length_append, List.length_cons]
    omega

theorem Listed.imp {ts : Phrase α} {xs : List β} (h : Listed P ts xs)
    (hPQ : ∀ us x, us.length ≤ ts.length → P us x → Q us x) : Listed Q ts xs := by
  cases h with
  | empty => exact .empty
  | plain h => exact .plain (h.imp hPQ)
  | trailing h s =>
    refine .trailing (h.imp fun us x hle hx => hPQ us x ?_ hx) s
    rw [List.length_append]
    omega

theorem Many.imp {ts : Phrase α} {xs : List β} (h : Many P ts xs)
    (hPQ : ∀ us x, us.length ≤ ts.length → P us x → Q us x) : Many Q ts xs := by
  induction h with
  | nil => exact .nil
  | cons h hs ih =>
    refine .cons (hPQ _ _ (by simp) h) (ih fun us x hle hx => hPQ us x ?_ hx)
    rw [List.length_append]
    omega

end

variable [Neg α]

inductive IsNumber : Rule α α
  | plain (v : α) (s : Span) : IsNumber [⟨.number v, s⟩] v
  | negative (s : Span) (v : α) (s' : Span) :
    IsNumber [⟨.mark .minus, s⟩, ⟨.number v, s'⟩] (-v)

inductive IsArg : Rule α (Arg α)
  | number {ts : Phrase α} {v : α} (h : IsNumber ts v) : IsArg ts (.number (extent ts) v)
  | percent {ts : Phrase α} {v : α} (h : IsNumber ts v) (s : Span) :
    IsArg (ts ++ [⟨.mark .percent, s⟩]) (.percent (extent (ts ++ [⟨.mark .percent, s⟩])) v)
  | named (key : Spanned String) (s : Span) {ts : Phrase α} {arg : Arg α} (h : IsArg ts arg) :
    IsArg (⟨.ident key.value, key.span⟩ :: ⟨.mark .colon, s⟩ :: ts)
      (.named (extent (⟨.ident key.value, key.span⟩ :: ⟨.mark .colon, s⟩ :: ts)) key arg)
  | list {ts : Phrase α} {args : List (Arg α)}
    (h : Enclosed (Listed IsArg) .bracketOpen .bracketClose ts args) :
    IsArg ts (.list (extent ts) args)
  | name (n : Spanned String) : IsArg [⟨.ident n.value, n.span⟩] (.name n.span n.value)
  | member (n : Spanned String) (s : Span) (m : Spanned String) :
    IsArg [⟨.ident n.value, n.span⟩, ⟨.mark .dot, s⟩, ⟨.ident m.value, m.span⟩]
      (.member ⟨n.span.start, m.span.stop⟩ n.value m.value)

inductive IsCall : Rule α (Call α)
  | mk (name : Spanned String) {ts : Phrase α} {args : List (Arg α)}
    (h : Enclosed (Listed IsArg) .parenOpen .parenClose ts args) :
    IsCall (⟨.ident name.value, name.span⟩ :: ts)
      ⟨extent (⟨.ident name.value, name.span⟩ :: ts), name, args⟩

inductive IsModifier : Rule α (Modifier α)
  | mk (key : Spanned String) (s : Span) {ts : Phrase α} {v : α} (h : IsNumber ts v) :
    IsModifier (⟨.ident key.value, key.span⟩ :: ⟨.mark .colon, s⟩ :: ts)
      ⟨extent (⟨.ident key.value, key.span⟩ :: ⟨.mark .colon, s⟩ :: ts), key, ⟨v, extent ts⟩⟩

inductive IsView : Rule α (View α)
  | mk (s : Span) (name : Spanned String) {ts us : Phrase α} {modifiers : List (Modifier α)}
    {children : List (View α)}
    (hm : Optional (Enclosed (Listed IsModifier) .bracketOpen .bracketClose) ts modifiers)
    (hc : Optional (Enclosed (Many IsView) .braceOpen .braceClose) us children) :
    IsView (⟨.keyword .view, s⟩ :: ⟨.ident name.value, name.span⟩ :: (ts ++ us))
      ⟨extent (⟨.keyword .view, s⟩ :: ⟨.ident name.value, name.span⟩ :: (ts ++ us)), name,
        modifiers, children⟩

inductive IsStatement : Rule α (Statement α)
  | direction (s : Span) (name : Spanned String) :
    IsStatement [⟨.keyword .direction, s⟩, ⟨.ident name.value, name.span⟩]
      (.direction (extent (α := α) [⟨.keyword .direction, s⟩, ⟨.ident name.value, name.span⟩])
        name)
  | pin (s : Span) (target : Spanned String) (s' : Span) {ts : Phrase α} {calls : List (Call α)}
    (h : Joined IsCall .dot ts calls) :
    IsStatement
      (⟨.keyword .pin, s⟩ :: ⟨.ident target.value, target.span⟩ :: ⟨.mark .colon, s'⟩ :: ts)
      (.pin (extent (⟨.keyword .pin, s⟩ :: ⟨.ident target.value, target.span⟩
        :: ⟨.mark .colon, s'⟩ :: ts)) target calls)
  | view {ts : Phrase α} {v : View α} (h : IsView ts v) : IsStatement ts (.view v)

def IsScript : Rule α (Script α) := fun ts script => Many IsStatement ts script.statements

variable {ts : Phrase α}

theorem IsNumber.ne_nil {v : α} (h : IsNumber ts v) : ts ≠ [] := by cases h <;> simp

theorem IsArg.ne_nil {arg : Arg α} (h : IsArg ts arg) : ts ≠ [] := by
  cases h with
  | number h => exact h.ne_nil
  | list h =>
    cases h
    simp
  | _ => simp

theorem IsCall.ne_nil {c : Call α} (h : IsCall ts c) : ts ≠ [] := by
  cases h
  simp

theorem IsCall.span_eq {c : Call α} (h : IsCall ts c) : c.span = extent ts := by
  cases h
  rfl

theorem IsArg.span_eq {arg : Arg α} (h : IsArg ts arg) : arg.span = extent ts := by
  cases h <;> rfl

end Pinning.Grammar
