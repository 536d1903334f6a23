import Mathlib.Logic.Relation
import Pinning.Proofs.Slices

/-!
# The parts of a script

All that a script consists of and that stands somewhere in its source is a part of it (`Part`,
`Script.Has`). What a part is read from are tokens that follow each other, and what its own parts are
read from are some of these, in their order (`IsPart.inOrder`). So parts lie in one another and beside
each other as their tokens do.
-/

namespace Pinning

variable {α β γ : Type}

namespace Span

/-- One span lies within another. -/
def Encloses (s s' : Span) : Prop := s.start ≤ s'.start ∧ s'.stop ≤ s.stop

end Span

namespace Grammar

/-- Phrases that come in the order of what they stand for, with anything between them. -/
inductive InOrder (P : Rule α β) : Rule α (List β)
  | nil (ts : Phrase α) : InOrder P ts []
  | skip {ts : Phrase α} {xs : List β} (t : Spanned (Token α)) (h : InOrder P ts xs) :
    InOrder P (t :: ts) xs
  | cons {ts us : Phrase α} {x : β} {xs : List β} (h : P ts x) (hs : InOrder P us xs) :
    InOrder P (ts ++ us) (x :: xs)

section

variable {P : Rule α β} {ts us : Phrase α} {xs ys : List β}

theorem InOrder.one {x : β} (h : P ts x) : InOrder P ts [x] := by
  rw [← List.append_nil ts]
  exact .cons h (.nil [])

theorem InOrder.skipAll (ts : Phrase α) (h : InOrder P us xs) : InOrder P (ts ++ us) xs := by
  induction ts with
  | nil => exact h
  | cons t ts ih => exact .skip t ih

theorem InOrder.append (h : InOrder P ts xs) (h' : InOrder P us ys) :
    InOrder P (ts ++ us) (xs ++ ys) := by
  induction h with
  | nil ts => exact .skipAll ts h'
  | skip t h ih => exact .skip t ih
  | cons h hs ih =>
    rw [List.append_assoc]
    exact .cons h ih

theorem InOrder.map {Q : Rule α γ} {f : β → γ} (hf : ∀ us x, P us x → Q us (f x))
    (h : InOrder P ts xs) : InOrder Q ts (xs.map f) := by
  induction h with
  | nil ts => exact .nil ts
  | skip t h ih => exact .skip t ih
  | cons h hs ih => exact .cons (hf _ _ h) ih

theorem InOrder.exists_infix (h : InOrder P ts xs) {x : β} (hx : x ∈ xs) :
    ∃ us, us <:+: ts ∧ P us x := by
  induction h with
  | nil => cases hx
  | skip t h ih =>
    obtain ⟨us, hus, hP⟩ := ih hx
    exact ⟨us, List.infix_cons hus, hP⟩
  | @cons ts us x xs h hs ih =>
    rcases List.mem_cons.1 hx with rfl | hx
    · exact ⟨ts, (List.prefix_append ts us).isInfix, h⟩
    · obtain ⟨vs, hvs, hP⟩ := ih hx
      exact ⟨vs, hvs.trans (List.suffix_append ts us).isInfix, hP⟩

theorem Many.inOrder (h : Many P ts xs) : InOrder P ts xs := by
  induction h with
  | nil => exact .nil []
  | cons h hs ih => exact .cons h ih

theorem Joined.inOrder {between : Mark} (h : Joined P between ts xs) : InOrder P ts xs := by
  induction h with
  | one h => exact .one h
  | more h s hs ih => exact .cons h (.skip _ ih)

theorem Listed.inOrder (h : Listed P ts xs) : InOrder P ts xs := by
  cases h with
  | empty => exact .nil []
  | plain h => exact h.inOrder
  | trailing h s =>
    rw [← List.append_nil xs]
    exact h.inOrder.append (.nil _)

theorem Enclosed.inOrder {Q : Rule α (List β)} {opening closing : Mark}
    (h : Enclosed Q opening closing ts xs) (hQ : ∀ us ys, Q us ys → InOrder P us ys) :
    InOrder P ts xs := by
  cases h with
  | mk s h s' =>
    rw [← List.append_nil xs]
    exact .skip _ ((hQ _ _ h).append (.nil _))

theorem Optional.inOrder {Q : Rule α (List β)} (h : Optional Q ts xs)
    (hQ : ∀ us ys, Q us ys → InOrder P us ys) : InOrder P ts xs := by
  cases h with
  | absent => exact .nil []
  | present h => exact hQ _ _ h

end

section

variable {ts us : Phrase α}

theorem exists_start_extent (h : ts ≠ []) : ∃ t ∈ ts, (extent ts).start = t.span.start := by
  cases ts with
  | nil => exact absurd rfl h
  | cons t ts => exact ⟨t, List.mem_cons_self, rfl⟩

theorem exists_stop_extent (h : ts ≠ []) : ∃ t ∈ ts, (extent ts).stop = t.span.stop := by
  refine ⟨ts.getLast h, List.getLast_mem h, ?_⟩
  rw [extent, List.getLast?_eq_some_getLast h, Option.elim_some]

/-- The extent of tokens encloses each of them. -/
theorem encloses_extent (hts : Span.Apart (ts.map (·.span))) {t : Spanned (Token α)}
    (ht : t ∈ ts) : (extent ts).Encloses t.span := by
  induction ts generalizing t with
  | nil => cases ht
  | cons u us ih =>
    by_cases hus : us = []
    · subst hus
      rw [List.mem_singleton.1 ht]
      exact ⟨le_rfl, le_rfl⟩
    · have hapart := hts.sublist (List.sublist_cons_self u.span (us.map (·.span)))
      have hu := hts.nonempty u.span (by simp)
      have hafter : ∀ v ∈ us, u.span.stop ≤ v.span.start := by
        simpa using (List.pairwise_cons.1 hts.ordered).1
      rw [extent_cons hus]
      rcases List.mem_cons.1 ht with rfl | ht
      · obtain ⟨v, hv⟩ := List.exists_mem_of_ne_nil us hus
        have hstop := (ih hapart hv).2
        have hvne := hapart.nonempty v.span (List.mem_map_of_mem hv)
        have hle := hafter v hv
        exact ⟨le_rfl, by simp only; omega⟩
      · have hle := hafter t ht
        exact ⟨by simp only; omega, (ih hapart ht).2⟩

/-- The extent of a phrase lies within that of a phrase around it. -/
theorem extent_encloses (hts : Span.Apart (ts.map (·.span))) (h : us <:+: ts) (hus : us ≠ []) :
    (extent ts).Encloses (extent us) := by
  obtain ⟨t, ht, hstart⟩ := exists_start_extent hus
  obtain ⟨t', ht', hstop⟩ := exists_stop_extent hus
  rw [Span.Encloses, hstart, hstop]
  exact ⟨(encloses_extent hts (h.subset ht)).1, (encloses_extent hts (h.subset ht')).2⟩

theorem extent_nonempty (hts : Span.Apart (ts.map (·.span))) (h : ts ≠ []) :
    (extent ts).start < (extent ts).stop := by
  obtain ⟨t, ht⟩ := List.exists_mem_of_ne_nil ts h
  have hne := hts.nonempty t.span (List.mem_map_of_mem ht)
  obtain ⟨hstart, hstop⟩ := encloses_extent hts ht
  omega

/-- What phrases in order stand for lies in order, too. -/
theorem InOrder.apart {P : Rule α β} {xs : List β} {span : β → Span}
    (hP : ∀ us x, P us x → us ≠ [] ∧ span x = extent us) (h : InOrder P ts xs)
    (hts : Span.Apart (ts.map (·.span))) : Span.Apart (xs.map span) := by
  induction h with
  | nil => exact ⟨by simp, List.Pairwise.nil⟩
  | skip t h ih => exact ih (hts.sublist (List.sublist_cons_self _ _))
  | @cons ts us x xs h hs ih =>
    obtain ⟨hne, hspan⟩ := hP _ _ h
    rw [List.map_append] at hts
    have hleft := hts.sublist (List.sublist_append_left _ _)
    obtain ⟨hnonempty, hordered⟩ := ih (hts.sublist (List.sublist_append_right _ _))
    refine ⟨?_, ?_⟩
    · rw [List.map_cons, List.forall_mem_cons]
      exact ⟨by rw [hspan]; exact extent_nonempty hleft hne, hnonempty⟩
    · rw [List.map_cons, List.pairwise_cons]
      refine ⟨?_, hordered⟩
      intro s hs'
      obtain ⟨y, hy, rfl⟩ := List.mem_map.1 hs'
      obtain ⟨vs, hvs, hy⟩ := hs.exists_infix hy
      obtain ⟨hvne, hyspan⟩ := hP _ _ hy
      -- the last token of the one phrase comes before the first of the other
      obtain ⟨t, ht, hstop⟩ := exists_stop_extent hne
      obtain ⟨u, hu, hstart⟩ := exists_start_extent hvne
      rw [hspan, hyspan, hstop, hstart]
      exact (List.pairwise_append.1 hts.ordered).2.2 _ (List.mem_map_of_mem ht) _
        (List.mem_map_of_mem (hvs.subset hu))

end

end Grammar

open Grammar

/-- A part of a script, with its place in the source. -/
inductive Part (α : Type) where
  /-- A name that stands for itself: of a view, a call, a target, a key or a direction. -/
  | text (name : Spanned String)
  /-- The number of a modifier. -/
  | value (value : Spanned α)
  | arg (arg : Arg α)
  | call (call : Call α)
  | modifier (modifier : Modifier α)
  | view (view : View α)
  | direction (span : Span) (name : Spanned String)
  | pin (span : Span) (target : Spanned String) (calls : List (Call α))

def Statement.part : Statement α → Part α
  | .direction s name => .direction s name
  | .view v => .view v
  | .pin s target calls => .pin s target calls

namespace Part

def span : Part α → Span
  | text name => name.span
  | value v => v.span
  | arg a => a.span
  | call c => c.span
  | modifier m => m.span
  | view v => v.span
  | direction s _ | pin s _ _ => s

/-- The parts that a part is directly made of, in the order of the source. -/
def parts : Part α → List (Part α)
  | arg (.list _ items) => items.map arg
  | arg (.named _ key a) => [text key, arg a]
  | call c => text c.name :: c.args.map arg
  | modifier m => [text m.key, value m.value]
  | view v => text v.name :: (v.modifiers.map modifier ++ v.children.map view)
  | direction _ name => [text name]
  | pin _ target calls => text target :: calls.map call
  | _ => []

/-- One part is another or lies in it, however deep. -/
def Within (p q : Part α) : Prop := Relation.ReflTransGen (fun p q => q ∈ p.parts) p q

end Part

/-- The part is one of the script's, however deep. -/
def Script.Has (script : Script α) (p : Part α) : Prop :=
  ∃ st ∈ script.statements, st.part.Within p

theorem Statement.span_part (st : Statement α) : st.part.span = st.span := by cases st <;> rfl

variable [Neg α]

/-- The part that a phrase stands for. -/
def IsPart : Rule α (Part α)
  | ts, .text name => ts = [⟨.ident name.value, name.span⟩]
  | ts, .value v => IsNumber ts v.value ∧ v.span = extent ts
  | ts, .arg a => IsArg ts a
  | ts, .call c => IsCall ts c
  | ts, .modifier m => IsModifier ts m
  | ts, .view v => IsView ts v
  | ts, .direction s name => IsStatement ts (.direction s name)
  | ts, .pin s target calls => IsStatement ts (.pin s target calls)

variable {ts : Phrase α} {p : Part α}

theorem IsPart.of_statement {st : Statement α} (h : IsStatement ts st) : IsPart ts st.part := by
  cases h with
  | direction s name => exact .direction s name
  | pin s target s' h => exact .pin s target s' h
  | view h => exact h

/-- A part extends from its first token to its last. -/
theorem IsPart.span_eq (h : IsPart ts p) : ts ≠ [] ∧ p.span = extent ts := by
  cases p with
  | text name =>
    cases h
    exact ⟨by simp, rfl⟩
  | value v => exact ⟨h.1.ne_nil, h.2⟩
  | arg a => exact ⟨IsArg.ne_nil h, IsArg.span_eq h⟩
  | call c => exact ⟨IsCall.ne_nil h, IsCall.span_eq h⟩
  | modifier m =>
    cases h
    exact ⟨by simp, rfl⟩
  | view v =>
    cases h
    exact ⟨by simp, rfl⟩
  | direction s name =>
    cases h
    exact ⟨by simp, rfl⟩
  | pin s target calls =>
    cases h
    exact ⟨by simp, rfl⟩

theorem inOrder_text (name : Spanned String) : InOrder IsPart
    [(⟨.ident name.value, name.span⟩ : Spanned (Token α))] [.text name] := .one rfl

theorem inOrder_args {opening closing : Mark} {args : List (Arg α)}
    (h : Enclosed (Listed IsArg) opening closing ts args) :
    InOrder IsPart ts (args.map Part.arg) :=
  (h.inOrder fun _ _ h => h.inOrder).map fun _ _ h => h

/-- The parts of a part are read from tokens of that part, one after the other. -/
theorem IsPart.inOrder (h : IsPart ts p) : InOrder IsPart ts p.parts := by
  cases p with
  | text | value => exact .nil ts
  | arg a =>
    cases h with
    | number | percent | name | member => exact .nil _
    | named key s h => exact (inOrder_text key).append (.skip _ (.one h))
    | list h => exact inOrder_args h
  | call c =>
    cases h with
    | mk name h => exact (inOrder_text name).append (inOrder_args h)
  | modifier m =>
    cases h with
    | mk key s h => exact (inOrder_text key).append (.skip _ (.one ⟨h, rfl⟩))
  | view v =>
    cases h with
    | mk s name hm hc =>
      have hmodifiers := hm.inOrder fun _ _ h => h.inOrder fun _ _ h => h.inOrder
      have hchildren := hc.inOrder fun _ _ h => h.inOrder fun _ _ h => h.inOrder
      refine .skip _ ((inOrder_text name).append (.append ?_ ?_))
      · exact hmodifiers.map fun _ _ h => h
      · exact hchildren.map fun _ _ h => h
  | direction s name =>
    cases h
    exact .skip _ (inOrder_text name)
  | pin s target calls =>
    cases h with
    | pin s target s' h =>
      exact .skip _ ((inOrder_text target).append (.skip _ (h.inOrder.map fun _ _ h => h)))

/-- A part of a part is read from some of its tokens. -/
theorem IsPart.exists_within (h : IsPart ts p) {q : Part α} (hq : p.Within q) :
    ∃ us, us <:+: ts ∧ IsPart us q := by
  induction hq with
  | refl => exact ⟨ts, List.infix_rfl, h⟩
  | tail _ hq ih =>
    obtain ⟨us, hus, hp⟩ := ih
    obtain ⟨vs, hvs, hq⟩ := hp.inOrder.exists_infix hq
    exact ⟨vs, hvs.trans hus, hq⟩

theorem Grammar.IsScript.inOrder {script : Script α} (h : IsScript ts script) :
    InOrder IsPart ts (script.statements.map Statement.part) :=
  (Many.inOrder h).map fun _ _ h => .of_statement h

theorem Grammar.IsScript.exists_phrase {script : Script α} (h : IsScript ts script)
    (hp : script.Has p) : ∃ us, us <:+: ts ∧ IsPart us p := by
  obtain ⟨st, hst, hp⟩ := hp
  obtain ⟨us, hus, hst⟩ := h.inOrder.exists_infix (List.mem_map_of_mem hst)
  obtain ⟨vs, hvs, hp⟩ := hst.exists_within hp
  exact ⟨vs, hvs.trans hus, hp⟩

end Pinning
