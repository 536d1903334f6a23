import Mathlib.Algebra.Ring.Parity
import Mathlib.Data.List.DropRight
import Pinning.Proofs.Preamble
import Pinning.Proofs.Tiling

/-!
# Where a block comment ends

A star in a comment is read with the character after it. So the star of a closing mark is read with
its slash only if the stars in front of it are even in number. If they are odd, the last of them is
read with the star of the mark, and the comment goes on behind the slash
(`Lexer.commentBody_closing`, `Lexer.commentBody_missed`). What comes after the comment is the same
either way, but not where it starts (`Lexer.tokens_comment`).
-/

namespace Pinning

/-- What starts where the text does goes on to do so, and everything else is `n` further on. -/
def Relocation.stretch (n : Nat) : Relocation := ⟨fun a => if a = 0 then 0 else a + n, (· + n)⟩

theorem Span.relocate_stretch {s : Span} (h : s.start ≠ 0) (n : Nat) :
    s.relocate (.stretch n) = s.relocate (.shift n) := by
  simp only [relocate, Relocation.stretch, Relocation.shift, if_neg h]

namespace Lexer

open Pattern
open scoped Computability

variable {α : Type}

/-- How many stars stand at the end. -/
def endStars (cs : List Char) : Nat := (cs.rtakeWhile (· = '*')).length

/-- No closing mark stands in the text. -/
def Unclosed (cs : List Char) : Prop := ¬['*', '/'] <:+: cs

instance (cs : List Char) : Decidable (Unclosed cs) := inferInstanceAs (Decidable (¬_))

variable {c : Char} {cs t : List Char}

theorem Unclosed.tail (h : Unclosed (c :: cs)) : Unclosed cs := fun hcs => h (List.infix_cons hcs)

theorem endStars_append (front cs : List Char) :
    endStars (front ++ cs)
      = if endStars cs = cs.length then endStars front + cs.length else endStars cs := by
  unfold endStars List.rtakeWhile
  simp only [List.length_reverse, List.reverse_append, List.takeWhile_append]
  split_ifs <;> simp [Nat.add_comm]

theorem endStars_cons (hc : c ≠ '*') (cs : List Char) : endStars (c :: cs) = endStars cs := by
  have hnone : endStars [c] = 0 := by simp [endStars, List.rtakeWhile, hc]
  rw [← List.singleton_append, endStars_append, hnone]
  split_ifs <;> omega

/-- A star and the character after it leave an even number even. -/
theorem even_endStars_star (c : Char) (cs : List Char) :
    Even (endStars ('*' :: c :: cs)) ↔ Even (endStars cs) := by
  by_cases hc : c = '*'
  · subst hc
    have hstars : endStars ('*' :: '*' :: cs)
        = if endStars cs = cs.length then 2 + cs.length else endStars cs :=
      endStars_append ['*', '*'] cs
    rw [hstars]
    split_ifs with hall
    · rw [hall, Nat.even_add]
      exact iff_true_left (by decide)
    · exact Iff.rfl
  · have hle : endStars cs ≤ cs.length := (List.rtakeWhile_suffix _ cs).length_le
    rw [← List.singleton_append, endStars_append, endStars_cons hc, if_neg]
    rw [List.length_cons]
    omega

theorem cons_mem_steps (hc : c ≠ '*') (h : cs ∈ step∗) : c :: cs ∈ step∗ := by
  rw [← mul_one step∗] at h ⊢
  exact (cons_mem_steps_mul hc).2 (.inr h)

theorem star_cons_mem_steps (hc : c ≠ '/') (h : cs ∈ step∗) : '*' :: c :: cs ∈ step∗ := by
  rw [← mul_one step∗] at h ⊢
  exact star_cons_mem_steps_mul.2 (.inr ⟨hc, h⟩)

/-- A text without closing marks is made of steps, up to a last star that is one too many. -/
theorem mem_steps (h : Unclosed t) :
    (Even (endStars t) → t ∈ step∗) ∧ (¬Even (endStars t) → t ++ ['*'] ∈ step∗) := by
  induction t using commentBody.induct with
  | case1 cs => exact absurd ⟨[], cs, rfl⟩ h
  | case2 =>
    have hone : ¬Even (endStars ['*']) := by decide
    exact ⟨fun he => absurd he hone,
      fun _ => star_cons_mem_steps (by decide) (Language.nil_mem_kstar _)⟩
  | case3 c cs hc ih =>
    rw [even_endStars_star]
    obtain ⟨heven, hodd⟩ := ih h.tail.tail
    exact ⟨fun he => star_cons_mem_steps hc (heven he), fun ho => star_cons_mem_steps hc (hodd ho)⟩
  | case4 c cs _ hnil hcons ih =>
    have hc : c ≠ '*' := ne_star hnil hcons
    rw [endStars_cons hc]
    obtain ⟨heven, hodd⟩ := ih h.tail
    exact ⟨fun he => cons_mem_steps hc (heven he), fun ho => cons_mem_steps hc (hodd ho)⟩
  | case5 => exact ⟨fun _ => Language.nil_mem_kstar _, fun ho => absurd (by decide) ho⟩

theorem commentBody_closing (h : Unclosed t) (he : Even (endStars t)) (s : List Char) :
    commentBody (t ++ '*' :: '/' :: s) = (t.length + 2, true) := by
  rw [commentBody_of_steps ((mem_steps h).1 he), commentBody, Nat.add_comm]

theorem commentBody_missed (h : Unclosed t) (ho : ¬Even (endStars t)) (s : List Char) :
    commentBody (t ++ '*' :: '/' :: s)
      = ((commentBody s).1 + (t.length + 2), (commentBody s).2) := by
  have hsplit : t ++ '*' :: '/' :: s = (t ++ ['*']) ++ '/' :: s := by simp
  rw [hsplit, commentBody_of_steps ((mem_steps h).2 ho), commentBody_cons (by decide)]
  refine Prod.ext ?_ rfl
  simp only [List.length_append, List.length_singleton]
  omega

/-- A closing mark has two characters. -/
theorem two_le_commentBody (h : (commentBody cs).2 = true) : 2 ≤ (commentBody cs).1 := by
  induction cs using commentBody.induct with
  | case1 => exact Nat.le_refl 2
  | case2 => cases h
  | case3 c cs hc => exact commentBody_star hc cs ▸ Nat.le_add_left 2 _
  | case4 c cs _ hnil hcons ih =>
    have hc : c ≠ '*' := ne_star hnil hcons
    rw [commentBody_cons hc] at h ⊢
    exact (ih h).trans (Nat.le_succ _)
  | case5 => cases h

theorem width_pair {d : Char} (hc : c.utf8Size = 1) (hd : d.utf8Size = 1) (cs : List Char) :
    width (c :: d :: cs) = width cs + 2 := by
  rw [width, width, hc, hd]
  omega

variable [Scalar α]

/-- A comment is passed over, or is an unknown token as far as it is read. -/
theorem tokensAt_comment {taken after : List Char} {closes : Bool}
    (h : commentBody (taken ++ after) = (taken.length, closes)) :
    (tokensAt 0 ('/' :: '*' :: (taken ++ after)) : List (Spanned (Token α)))
      = (if closes then [] else [⟨.unknown, ⟨0, width taken + 2⟩⟩])
        ++ tokensAt (width taken + 2) after := by
  have hwidth : 0 + width ('/' :: '*' :: taken) = width taken + 2 := by
    rw [Nat.zero_add, width_pair rfl rfl]
  cases closes with
  | true =>
    have hread := tokensAt_of_blank ('*' :: taken) after (next_block (α := α) h) 0
    rw [hwidth] at hread
    exact hread
  | false =>
    have hread := @tokensAt_of_token α _ '/' ('*' :: taken) after _ (next_open h) 0
    rw [hwidth] at hread
    exact hread

theorem toList_comment (t s : String) : ("/*" ++ t ++ "*/" ++ s).toList
    = '/' :: '*' :: (t.toList ++ '*' :: '/' :: s.toList) := by
  simp

theorem tokens_comment_even {t : String} (h : Unclosed t.toList) (he : Even (endStars t.toList))
    (s : String) : (tokens ("/*" ++ t ++ "*/" ++ s) : List (Spanned (Token α)))
      = (tokens s).map (Spanned.relocate (.shift (t.utf8ByteSize + 4))) := by
  have hbody : t.toList ++ '*' :: '/' :: s.toList = (t.toList ++ ['*', '/']) ++ s.toList := by simp
  have htaken := commentBody_closing h he s.toList
  have hlength : (t.toList ++ ['*', '/']).length = t.toList.length + 2 := List.length_append
  have hwidth : width (t.toList ++ ['*', '/']) + 2 = 0 + (t.utf8ByteSize + 4) := by
    rw [width_append, width_toList, width_pair rfl rfl, Nat.zero_add]
    rfl
  rw [hbody, ← hlength] at htaken
  rw [tokens, tokens, toList_comment, hbody, tokensAt_comment htaken, hwidth, tokensAt_add]
  rfl

theorem tokens_comment_odd {t : String} (h : Unclosed t.toList) (ho : ¬Even (endStars t.toList))
    (s : String) : (tokens ("/*" ++ t ++ "*/" ++ s) : List (Spanned (Token α)))
      = (tokens ("/*" ++ s)).map (Spanned.relocate (.stretch (t.utf8ByteSize + 2))) := by
  obtain ⟨taken, after, hs, hlength, -⟩ := exists_body s.toList
  have htaken : commentBody (taken ++ after) = (taken.length, (commentBody s.toList).2) := by
    rw [← hs, ← hlength]
  have hmissed := commentBody_missed h ho s.toList
  have hbody : t.toList ++ '*' :: '/' :: s.toList
      = (t.toList ++ '*' :: '/' :: taken) ++ after := by simp [hs]
  have hall : (t.toList ++ '*' :: '/' :: taken).length
      = (commentBody s.toList).1 + (t.toList.length + 2) := by
    rw [hlength, List.length_append, List.length_cons, List.length_cons]
    omega
  have hwidth : width (t.toList ++ '*' :: '/' :: taken) = width taken + (t.utf8ByteSize + 2) := by
    rw [width_append, width_toList, width_pair rfl rfl]
    omega
  rw [hbody, ← hall] at hmissed
  have hopen : ("/*" ++ s).toList = '/' :: '*' :: (taken ++ after) := by simp [hs]
  -- What comes after the comment does not start where the text does.
  have hafter (n : Nat) : (tokensAt (width taken + 2) after : List (Spanned (Token α))).map
        (Spanned.relocate (.shift n))
      = (tokensAt (width taken + 2) after).map (Spanned.relocate (.stretch n)) := by
    refine List.map_congr_left fun u hu => ?_
    have hstart := (apart_tokensAt _ _).2 u hu
    rw [Spanned.relocate, Spanned.relocate, Span.relocate_stretch (by omega)]
  rw [tokens, tokens, toList_comment, hbody, hopen, tokensAt_comment hmissed,
    tokensAt_comment htaken, hwidth, Nat.add_right_comm, tokensAt_add, hafter, List.map_append]
  cases (commentBody s.toList).2 <;> rfl

/-- A comment is passed over up to its first closing mark if and only if the stars in front of the
mark are even in number. Then the tokens are those behind it, moved on by the length of the comment.
If the stars are odd the comment goes on behind the mark, and the tokens are those of a comment that
only starts there, moved on by what it leaves out. -/
theorem tokens_comment (t s : String) (h : Unclosed t.toList) :
    (Even (endStars t.toList) → (tokens ("/*" ++ t ++ "*/" ++ s) : List (Spanned (Token α)))
        = (tokens s).map (Spanned.relocate (.shift (t.utf8ByteSize + 4))))
    ∧ (Odd (endStars t.toList) → (tokens ("/*" ++ t ++ "*/" ++ s) : List (Spanned (Token α)))
        = (tokens ("/*" ++ s)).map (Spanned.relocate (.stretch (t.utf8ByteSize + 2))))
    ∧ ((next '/' ('*' :: (t.toList ++ '*' :: '/' :: s.toList)) : Lexeme α × Nat)
          = (.blank, t.toList.length + 3)
        ↔ Even (endStars t.toList)) := by
  refine ⟨fun he => tokens_comment_even h he s,
    fun ho => tokens_comment_odd h (Nat.not_even_iff_odd.2 ho) s,
    fun hnext => ?_, fun he => next_block (commentBody_closing h he s.toList)⟩
  by_contra ho
  have hmissed := commentBody_missed h ho s.toList
  cases hcloses : (commentBody s.toList).2 with
  | true =>
    rw [hcloses] at hmissed
    rw [next_block hmissed] at hnext
    have hlength := (Prod.mk.inj hnext).2
    have := two_le_commentBody hcloses
    omega
  | false =>
    rw [hcloses] at hmissed
    rw [next_open hmissed] at hnext
    cases hnext

/-- A comment that ends with one star more: the view behind it is not read. -/
theorem tokens_odd_comment :
    let t := "* card *"
    let s := " view card /* big */ pin card:"
    Unclosed t.toList ∧ Odd (endStars t.toList)
      ∧ (tokens ("/*" ++ t ++ "*/" ++ s) : List (Spanned (Token Rat)))
        = (tokens ("/*" ++ s)).map (Spanned.relocate (.stretch (t.utf8ByteSize + 2)))
      ∧ (tokens ("/*" ++ t ++ "*/" ++ s) : List (Spanned (Token Rat))).map (·.value)
        = [.keyword .pin, .ident "card", .mark .colon] := by
  intro t s
  have ht : Unclosed t.toList := by decide
  have ho : Odd (endStars t.toList) := by decide
  exact ⟨ht, ho, (tokens_comment t s ht).2.1 ho, by decide +kernel⟩

end Lexer

end Pinning
