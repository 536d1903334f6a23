import Mathlib.Data.String.Basic
import Pinning.Proofs.Grammar
import Pinning.Proofs.Layout

/-!
# What spans stand for

A span covers a text of the source where the source is that text with something before it and
something after it, and the span says where (`Span.Covers`). Tokens stand one after the other
(`Lexer.apart_tokens`). Some that follow each other cover a text that starts with the word of the
first one (`Lexer.exists_covers`), and a name is written as it is (`Lexer.ofList_of_next_ident`).
-/

namespace Pinning

variable {α : Type}

open Grammar

namespace Span

/-- The text stands in the source, between characters, from where the span starts to where it
stops. -/
def Covers (s : Span) (source text : String) : Prop :=
  ∃ before after, source = before ++ text ++ after
    ∧ s = ⟨before.utf8ByteSize, (before ++ text).utf8ByteSize⟩

/-- None is empty, and each stops before the next ones start. -/
structure Apart (spans : List Span) : Prop where
  nonempty : ∀ s ∈ spans, s.start < s.stop
  ordered : spans.Pairwise fun s s' => s.stop ≤ s'.start

theorem Apart.sublist {spans spans' : List Span} (h : Apart spans) (hs : spans'.Sublist spans) :
    Apart spans' :=
  ⟨fun s hs' => h.nonempty s (hs.subset hs'), h.ordered.sublist hs⟩

end Span

namespace Lexer

theorem utf8ByteSize_ofList (cs : List Char) : (String.ofList cs).utf8ByteSize = width cs := by
  induction cs with
  | nil => rfl
  | cons c cs ih =>
    rw [String.ofList_cons, String.utf8ByteSize_append, ih, String.utf8ByteSize_singleton, width]

theorem width_toList (s : String) : width s.toList = s.utf8ByteSize := by
  rw [← utf8ByteSize_ofList, String.ofList_toList]

theorem covers_of_toList {source : String} {pre text post : List Char}
    (h : source.toList = pre ++ (text ++ post)) :
    Span.Covers ⟨width pre, width pre + width text⟩ source (String.ofList text) := by
  refine ⟨String.ofList pre, String.ofList post, ?_, ?_⟩
  · rw [← String.ofList_append, ← String.ofList_append, List.append_assoc, ← h,
      String.ofList_toList]
  · rw [← String.ofList_append, utf8ByteSize_ofList, utf8ByteSize_ofList, width_append]

variable [Scalar α]

/-- The word of a name is the name. -/
theorem ofList_of_next_ident {c : Char} {more rest : List Char} {n : String}
    (h : (next c (more ++ rest) : Lexeme α × Nat) = (.token (.ident n), more.length)) :
    String.ofList (c :: more) = n := by
  unfold next at h
  split_ifs at h with hblank hident hdigit hslash
  · cases h
  · obtain ⟨htoken, hlength⟩ := Prod.mk.inj h
    obtain ⟨hall, hrest⟩ := all_of_length_takeWhile hlength
    rw [List.takeWhile_append_of_pos hall, hrest, List.append_nil] at htoken
    cases hk : Keyword.ofText? (String.ofList (c :: more)) with
    | none =>
      simp only [hk, Option.elim_none] at htoken
      cases htoken
      rfl
    | some k =>
      simp only [hk, Option.elim_some] at htoken
      cases htoken
  · cases h
  · split at h
    · cases h
    · split at h <;> cases h
    · cases h
  · cases hm : Mark.ofChar? c with
    | none =>
      rw [hm] at h
      cases h
    | some m =>
      rw [hm] at h
      cases h

/-- The first tokens of a text, with a gap before them, and what comes after them. -/
theorem exists_of_tokensAt_append {t : Spanned (Token α)} {us vs : Phrase α} {pos : Nat}
    {cs : List Char} (h : tokensAt pos cs = t :: us ++ vs) :
    ∃ gap c more text rest, cs = gap ++ (c :: more ++ text ++ rest)
      ∧ next c (more ++ (text ++ rest)) = (.token t.value, more.length)
      ∧ extent (t :: us) = ⟨pos + width gap, pos + width gap + width (c :: more ++ text)⟩
      ∧ vs = tokensAt (extent (t :: us)).stop rest ∧ (us = [] → text = []) := by
  induction us generalizing t pos cs with
  | nil =>
    obtain ⟨gap, c, more, rest, hcs, hnext, hspan, hvs⟩ := exists_of_tokensAt_cons h
    refine ⟨gap, c, more, [], rest, by rw [List.append_nil, hcs], hnext, ?_, ?_, fun _ => rfl⟩
    · rw [extent_singleton, List.append_nil, hspan]
    · rw [extent_singleton]
      exact hvs
  | cons u us ih =>
    obtain ⟨gap, c, more, rest, rfl, hnext, hspan, hvs⟩ := exists_of_tokensAt_cons h
    obtain ⟨gap', c', more', text, rest, rfl, -, hextent, hvs, -⟩ := ih hvs.symm
    rw [extent_cons (List.cons_ne_nil u us), hextent, hspan]
    refine ⟨gap, c, more, gap' ++ (c' :: more' ++ text), rest, ?_, ?_, ?_, ?_, fun h => by cases h⟩
    · simp
    · simpa using hnext
    · simp only [Span.mk.injEq, true_and, width_append]
      omega
    · rw [hvs, hextent, hspan]

/-- Tokens that follow each other cover a text, which starts with the word of the first. -/
theorem exists_covers {source : String} {t : Spanned (Token α)} {us : Phrase α}
    (h : t :: us <:+: tokens source) : ∃ word rest, (extent (t :: us)).Covers source (word ++ rest)
      ∧ (∀ n, t.value = .ident n → word = n) ∧ (us = [] → rest = "") := by
  obtain ⟨before, after, h⟩ := h
  have hsplit : ∃ pre cs, source.toList = pre ++ cs
      ∧ tokensAt (width pre) cs = t :: us ++ after := by
    rw [List.append_assoc] at h
    cases before with
    | nil => exact ⟨[], source.toList, rfl, h.symm⟩
    | cons b bs =>
      obtain ⟨gap, c, more, text, rest, hcs, -, hextent, hrest, -⟩ :=
        exists_of_tokensAt_append h.symm
      refine ⟨gap ++ (c :: more ++ text), rest, by simp [hcs], ?_⟩
      rw [hrest, hextent, width_append, Nat.zero_add]
  obtain ⟨pre, cs, hsource, hcs⟩ := hsplit
  obtain ⟨gap, c, more, text, rest, rfl, hnext, hextent, -, hempty⟩ := exists_of_tokensAt_append hcs
  refine ⟨String.ofList (c :: more), String.ofList text, ?_, ?_, ?_⟩
  · rw [hextent, ← width_append, ← String.ofList_append]
    have htoList : source.toList = (pre ++ gap) ++ ((c :: more ++ text) ++ rest) := by
      simp [hsource]
    exact covers_of_toList htoList
  · intro n hn
    rw [hn] at hnext
    exact ofList_of_next_ident hnext
  · intro hus
    rw [hempty hus]

theorem covers_of_ident {source : String} {n : String} {s : Span} {us : Phrase α}
    (h : ⟨.ident n, s⟩ :: us <:+: tokens source) :
    ∃ rest, (extent (⟨.ident n, s⟩ :: us)).Covers source (n ++ rest) ∧ (us = [] → rest = "") := by
  obtain ⟨word, rest, hcovers, hword, hempty⟩ := exists_covers h
  rw [hword n rfl] at hcovers
  exact ⟨rest, hcovers, hempty⟩

theorem apart_tokensAt (pos : Nat) (cs : List Char) :
    Span.Apart ((tokensAt pos cs : Phrase α).map (·.span))
      ∧ ∀ t ∈ (tokensAt pos cs : Phrase α), pos ≤ t.span.start := by
  induction hn : cs.length using Nat.strong_induction_on generalizing pos cs with
  | h n ih =>
    subst hn
    cases hts : (tokensAt pos cs : Phrase α) with
    | nil => exact ⟨⟨by simp, List.Pairwise.nil⟩, by simp⟩
    | cons t ts =>
      obtain ⟨gap, c, more, rest, rfl, -, hspan, rfl⟩ := exists_of_tokensAt_cons hts
      have hlt : rest.length < (gap ++ (c :: more ++ rest)).length := by
        simp only [List.length_append, List.length_cons]
        omega
      obtain ⟨hapart, hle⟩ := ih rest.length hlt t.span.stop rest rfl
      have hwidth : t.span.start < t.span.stop := by
        have := c.utf8Size_pos
        rw [hspan, width]
        simp only
        omega
      have hstart : pos ≤ t.span.start := by
        rw [hspan]
        exact Nat.le_add_right _ _
      refine ⟨⟨?_, ?_⟩, ?_⟩
      · simpa [hwidth] using hapart.nonempty
      · rw [List.map_cons, List.pairwise_cons]
        exact ⟨by simpa using hle, hapart.ordered⟩
      · intro u hu
        rcases List.mem_cons.1 hu with rfl | hu
        · exact hstart
        · exact (hstart.trans hwidth.le).trans (hle u hu)

/-- Tokens stand one after the other. -/
theorem apart_tokens (source : String) :
    Span.Apart ((tokens source : Phrase α).map (·.span)) := (apart_tokensAt 0 source.toList).1

end Lexer

end Pinning
