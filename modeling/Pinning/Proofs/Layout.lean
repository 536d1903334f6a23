import Mathlib.Data.List.Basic
import Mathlib.Data.List.Forall2
import Mathlib.Data.List.TakeWhile
import Pinning.Script.Lexer

/-!
# The layout of a source

A source is the words that its tokens are written with, and gaps between them (`Layout`). Another
source with the same words and other gaps (`Layout.Relaid`) has the same tokens at the places of
these words (`Layout.Relaid.tokens`), as long as the other gaps are blank and none goes missing
where there was one.

Where a word ends is decided by at most two characters after it. In the other source these are the
same, or a gap or the end comes first (`Lexer.BreaksOff`), and neither can go on with a word.
-/

namespace Pinning

variable {α : Type}

namespace Lexer

theorem width_append (cs cs' : List Char) : width (cs ++ cs') = width cs + width cs' := by
  induction cs with
  | nil => exact (Nat.zero_add _).symm
  | cons c cs ih => rw [List.cons_append, width, width, ih, Nat.add_assoc]

/-- A text can be cut at a width in one way only. -/
theorem append_inj_of_width {cs ds cs' ds' : List Char} (h : cs ++ ds = cs' ++ ds')
    (hw : width cs = width cs') : cs = cs' ∧ ds = ds' := by
  induction cs generalizing cs' with
  | nil =>
    cases cs' with
    | nil => exact ⟨rfl, h⟩
    | cons c cs' =>
      have := c.utf8Size_pos
      rw [width, width] at hw
      omega
  | cons c cs ih =>
    cases cs' with
    | nil =>
      have := c.utf8Size_pos
      rw [width, width] at hw
      omega
    | cons c' cs' =>
      rw [List.cons_append, List.cons_append] at h
      obtain ⟨rfl, htail⟩ := List.cons_eq_cons.1 h
      rw [width, width] at hw
      obtain ⟨rfl, hd⟩ := ih htail (by omega)
      exact ⟨rfl, hd⟩

/-- White space and complete comments. -/
inductive Blank : List Char → Prop
  | nil : Blank []
  | char {c : Char} {cs : List Char} (h : isBlank c) (hs : Blank cs) : Blank (c :: cs)
  | line {body cs : List Char} (h : '\n' ∉ body) (hs : Blank cs) :
    Blank ('/' :: '/' :: (body ++ '\n' :: cs))
  | block {body cs : List Char} (h : commentBody body = (body.length, true)) (hs : Blank cs) :
    Blank ('/' :: '*' :: (body ++ cs))

/-- The same at the end of a source, where a line comment needs no end of the line. -/
inductive BlankEnd : List Char → Prop
  | blank {cs : List Char} (h : Blank cs) : BlankEnd cs
  | line {cs body : List Char} (hs : Blank cs) (h : '\n' ∉ body) :
    BlankEnd (cs ++ '/' :: '/' :: body)

theorem commentBody_star {c : Char} (hc : c ≠ '/') (cs : List Char) :
    commentBody ('*' :: c :: cs) = ((commentBody cs).1 + 2, (commentBody cs).2) := by
  rw [commentBody]
  exact hc

/-- A star is read together with what comes after it. -/
theorem ne_star {c : Char} {cs : List Char} (hnil : c = '*' → cs = [] → False)
    (hcons : ∀ d ds, c = '*' → cs = d :: ds → False) : c ≠ '*' := by
  rintro rfl
  cases cs with
  | nil => exact hnil rfl rfl
  | cons d ds => exact hcons d ds rfl rfl

theorem commentBody_cons {c : Char} (hc : c ≠ '*') (cs : List Char) :
    commentBody (c :: cs) = ((commentBody cs).1 + 1, (commentBody cs).2) := by
  rw [commentBody] <;> intros <;> contradiction

/-- A comment closes in the same place whatever comes after it. -/
theorem commentBody_append {body : List Char} (h : (commentBody body).2 = true) (cs : List Char) :
    commentBody (body ++ cs) = commentBody body := by
  induction body using commentBody.induct with
  | case1 => rfl
  | case2 => cases h
  | case3 c body hc ih =>
    rw [commentBody_star hc] at h ⊢
    rw [List.cons_append, List.cons_append, commentBody_star hc, ih h]
  | case4 c body _ hnil hcons ih =>
    have hc : c ≠ '*' := ne_star hnil hcons
    rw [commentBody_cons hc] at h ⊢
    rw [List.cons_append, commentBody_cons hc, ih h]
  | case5 => cases h

theorem commentBody_le (cs : List Char) : (commentBody cs).1 ≤ cs.length := by
  induction cs using commentBody.induct with
  | case1 => simp [commentBody]
  | case2 => simp [commentBody]
  | case3 c cs hc ih =>
    rw [commentBody_star hc]
    simpa using ih
  | case4 c cs _ hnil hcons ih =>
    rw [commentBody_cons (ne_star hnil hcons)]
    simpa using ih
  | case5 => simp [commentBody]

variable [Scalar α]

theorem next_of_isBlank {c : Char} (h : isBlank c) (rest : List Char) :
    (next c rest : Lexeme α × Nat) = (.blank, 0) := by
  unfold next
  rw [if_pos h]

theorem next_line (body : List Char) : (next '/' ('/' :: body) : Lexeme α × Nat)
    = (.blank, (body.takeWhile (· ≠ '\n')).length + 1) := rfl

theorem next_block {body : List Char} {n : Nat} (h : commentBody body = (n, true)) :
    (next '/' ('*' :: body) : Lexeme α × Nat) = (.blank, n + 1) := by
  rw [next, if_neg (by decide), if_neg (by decide), if_neg (by decide), if_pos rfl]
  simp only [h]

theorem tokensAt_of_blank {c : Char} (more rest : List Char)
    (h : (next c (more ++ rest) : Lexeme α × Nat) = (.blank, more.length)) (pos : Nat) :
    (tokensAt pos (c :: (more ++ rest)) : List (Spanned (Token α)))
      = tokensAt (pos + width (c :: more)) rest := by
  rw [tokensAt, h]
  simp only [List.take_left, List.drop_left, width, Nat.add_assoc]

theorem tokensAt_of_token {c : Char} {more rest : List Char} {t : Token α}
    (h : next c (more ++ rest) = (.token t, more.length)) (pos : Nat) :
    tokensAt pos (c :: (more ++ rest))
      = ⟨t, ⟨pos, pos + width (c :: more)⟩⟩ :: tokensAt (pos + width (c :: more)) rest := by
  rw [tokensAt, h]
  simp only [List.take_left, List.drop_left, width, Nat.add_assoc]

/-- Blank text has no tokens, whatever follows. -/
theorem tokensAt_blank {cs : List Char} (h : Blank cs) (pos : Nat) (rest : List Char) :
    (tokensAt pos (cs ++ rest) : List (Spanned (Token α))) = tokensAt (pos + width cs) rest := by
  induction h generalizing pos with
  | nil => rfl
  | @char c cs h hs ih =>
    have hnext := tokensAt_of_blank (α := α) [] (cs ++ rest) (next_of_isBlank h (cs ++ rest)) pos
    rw [List.cons_append]
    refine hnext.trans ?_
    rw [ih, width, width, width, Nat.add_zero, Nat.add_assoc]
  | @line body cs h hs ih =>
    have hbody : ∀ c ∈ body, decide (c ≠ '\n') = true := fun c hc =>
      decide_eq_true fun heq => h (heq ▸ hc)
    have hnext := next_line (α := α) (body ++ '\n' :: (cs ++ rest))
    rw [List.takeWhile_append_of_pos hbody, List.takeWhile_cons_of_neg (by simp),
      List.append_nil] at hnext
    have hline := tokensAt_of_blank ('/' :: body) ('\n' :: (cs ++ rest)) hnext pos
    have hend := tokensAt_of_blank (α := α) [] (cs ++ rest)
      (next_of_isBlank (c := '\n') rfl (cs ++ rest)) (pos + width ('/' :: '/' :: body))
    have htext : '/' :: '/' :: (body ++ '\n' :: cs) ++ rest
        = '/' :: ('/' :: body ++ '\n' :: ([] ++ (cs ++ rest))) := by simp
    have hwidth : width ('/' :: '/' :: (body ++ '\n' :: cs))
        = width ('/' :: '/' :: body) + width ['\n'] + width cs := by
      simp only [width, width_append]
      omega
    refine ((congrArg (tokensAt pos) htext).trans (hline.trans hend)).trans ?_
    rw [ih, hwidth, Nat.add_assoc, Nat.add_assoc, Nat.add_assoc]
  | @block body cs h hs ih =>
    have hbody : commentBody (body ++ (cs ++ rest)) = commentBody body :=
      commentBody_append (by rw [h]) (cs ++ rest)
    have hnext := next_block (α := α) (hbody.trans h)
    have hblock := tokensAt_of_blank ('*' :: body) (cs ++ rest) hnext pos
    have htext : '/' :: '*' :: (body ++ cs) ++ rest = '/' :: ('*' :: body ++ (cs ++ rest)) := by
      simp
    have hwidth : width ('/' :: '*' :: (body ++ cs)) = width ('/' :: '*' :: body) + width cs := by
      simp only [width, width_append]
      omega
    refine ((congrArg (tokensAt pos) htext).trans hblock).trans ?_
    rw [ih, hwidth, Nat.add_assoc]

theorem all_of_length_takeWhile {p : Char → Bool} {cs rest : List Char}
    (h : ((cs ++ rest).takeWhile p).length = cs.length) :
    (∀ c ∈ cs, p c) ∧ rest.takeWhile p = [] := by
  have heq : (cs ++ rest).takeWhile p = cs :=
    (List.prefix_of_prefix_length_le (List.takeWhile_prefix p) (List.prefix_append cs rest)
      (Nat.le_of_eq h)).eq_of_length h
  have hall : ∀ c ∈ cs, p c := fun c hc => List.mem_takeWhile_imp (heq ▸ hc)
  rw [List.takeWhile_append_of_pos hall] at heq
  exact ⟨hall, List.append_right_eq_self.1 heq⟩

/-- One text is another as far as it goes before blank text or the end. -/
inductive BreaksOff : List Char → List Char → Prop
  | ending {cs : List Char} : BreaksOff cs []
  | blank {cs cs' : List Char} {c : Char} (h : isBlank c ∨ c = '/') : BreaksOff cs (c :: cs')
  | cons {cs cs' : List Char} (c : Char) (h : BreaksOff cs cs') : BreaksOff (c :: cs) (c :: cs')

theorem BreaksOff.append {cs cs' : List Char} (h : BreaksOff cs cs') (ds : List Char) :
    BreaksOff (ds ++ cs) (ds ++ cs') := by
  induction ds with
  | nil => exact h
  | cons d ds ih => exact .cons d ih

theorem BreaksOff.takeWhile {p : Char → Bool} (hp : ∀ c, isBlank c ∨ c = '/' → p c = false)
    {cs cs' : List Char} (h : BreaksOff cs cs') (hcs : cs.takeWhile p = []) :
    cs'.takeWhile p = [] := by
  cases h with
  | ending => rfl
  | blank h => rw [List.takeWhile_cons_of_neg (by rw [hp _ h]; exact Bool.false_ne_true)]
  | cons c h =>
    by_cases hc : p c
    · rw [List.takeWhile_cons_of_pos hc] at hcs
      cases hcs
    · rw [List.takeWhile_cons_of_neg hc]

theorem Blank.breaksOff {gap : List Char} (h : Blank gap) (hne : gap ≠ []) (cs cs' : List Char) :
    BreaksOff cs (gap ++ cs') := by
  cases h with
  | nil => exact absurd rfl hne
  | char h => exact .blank (.inl h)
  | line | block => exact .blank (.inr rfl)

theorem BlankEnd.breaksOff {cs' : List Char} (h : BlankEnd cs') (cs : List Char) :
    BreaksOff cs cs' := by
  cases h with
  | blank h =>
    by_cases hne : cs' = []
    · subst hne
      exact .ending
    · rw [← List.append_nil cs']
      exact h.breaksOff hne cs []
  | @line gap body h hbody =>
    by_cases hne : gap = []
    · subst hne
      exact .blank (.inr rfl)
    · exact h.breaksOff hne cs _

theorem isBlank_iff {c : Char} : isBlank c ↔ c = ' ' ∨ c = '\t' ∨ c = '\n' ∨ c = '\r' := by
  simp [isBlank, or_assoc]

theorem isIdentRest_of_blank {c : Char} (h : isBlank c ∨ c = '/') : isIdentRest c = false := by
  rw [isBlank_iff] at h
  rcases h with (rfl | rfl | rfl | rfl) | rfl <;> rfl

theorem isDigit_of_blank {c : Char} (h : isBlank c ∨ c = '/') : c.isDigit = false := by
  rw [isBlank_iff] at h
  rcases h with (rfl | rfl | rfl | rfl) | rfl <;> rfl

theorem fraction_of_ne {c : Char} (h : c ≠ '.') (cs : List Char) : fraction (c :: cs) = [] := by
  unfold fraction
  split
  · rename_i heq
    exact absurd (List.cons_eq_cons.1 heq).1 h
  · rfl

theorem BreaksOff.fraction_eq_nil {cs cs' : List Char} (h : BreaksOff cs cs')
    (hcs : fraction cs = []) : fraction cs' = [] := by
  cases h with
  | ending => rfl
  | blank h =>
    refine fraction_of_ne ?_ _
    rintro rfl
    exact absurd h (by decide)
  | cons c h =>
    by_cases hc : c = '.'
    · subst hc
      exact h.takeWhile (fun _ => isDigit_of_blank) hcs
    · exact fraction_of_ne hc _

theorem exists_of_fraction_ne_nil {cs : List Char} (h : fraction cs ≠ []) :
    ∃ ds, cs = '.' :: (fraction cs ++ ds) ∧ (∀ c ∈ fraction cs, c.isDigit)
      ∧ ds.takeWhile Char.isDigit = [] := by
  unfold fraction at h ⊢
  split at h
  · rename_i rest
    refine ⟨rest.dropWhile Char.isDigit, ?_, fun _ => List.mem_takeWhile_imp, ?_⟩
    · rw [List.takeWhile_append_dropWhile]
    · exact List.takeWhile_eq_nil_iff.2 fun hl => List.dropWhile_get_zero_not _ _ hl
  · contradiction

theorem dropWhile_of_takeWhile {p : Char → Bool} {cs : List Char} (h : cs.takeWhile p = []) :
    cs.dropWhile p = cs := by
  have happend := List.takeWhile_append_dropWhile (p := p) (l := cs)
  rwa [h, List.nil_append] at happend

/-- A number goes as far in both texts. -/
theorem BreaksOff.digits {more cs cs' : List Char} (h : BreaksOff cs cs')
    (hlength : ((more ++ cs).takeWhile Char.isDigit).length
      + (if fraction ((more ++ cs).dropWhile Char.isDigit) = [] then 0
        else (fraction ((more ++ cs).dropWhile Char.isDigit)).length + 1) = more.length) :
    (more ++ cs').takeWhile Char.isDigit = (more ++ cs).takeWhile Char.isDigit
      ∧ fraction ((more ++ cs').dropWhile Char.isDigit)
        = fraction ((more ++ cs).dropWhile Char.isDigit) := by
  split_ifs at hlength with hplaces
  · obtain ⟨hall, hcs⟩ := all_of_length_takeWhile hlength
    have hcs' := h.takeWhile (fun _ => isDigit_of_blank) hcs
    rw [List.dropWhile_append_of_pos hall, dropWhile_of_takeWhile hcs] at hplaces
    rw [List.takeWhile_append_of_pos hall, List.takeWhile_append_of_pos hall, hcs, hcs',
      List.dropWhile_append_of_pos hall, List.dropWhile_append_of_pos hall,
      dropWhile_of_takeWhile hcs, dropWhile_of_takeWhile hcs', hplaces]
    exact ⟨rfl, h.fraction_eq_nil hplaces⟩
  · obtain ⟨ds, hds, hdigits, hrest⟩ := exists_of_fraction_ne_nil hplaces
    set whole := (more ++ cs).takeWhile Char.isDigit with hwhole
    set places := fraction ((more ++ cs).dropWhile Char.isDigit) with hfraction
    have hcut : more ++ cs = (whole ++ '.' :: places) ++ ds := by
      rw [List.append_assoc, List.cons_append, ← hds, List.takeWhile_append_dropWhile]
    obtain ⟨hmore, hcs⟩ := List.append_inj hcut (by simp [← hlength])
    have hwholes : ∀ c ∈ whole, c.isDigit := fun _ => List.mem_takeWhile_imp
    have hcs' := h.takeWhile (fun _ => isDigit_of_blank) (hcs ▸ hrest)
    have hnot : ¬Char.isDigit '.' := Bool.false_ne_true
    rw [hmore, List.append_assoc, List.takeWhile_append_of_pos hwholes,
      List.dropWhile_append_of_pos hwholes, List.cons_append, List.takeWhile_cons_of_neg hnot,
      List.dropWhile_cons_of_neg hnot, List.append_nil]
    refine ⟨rfl, ?_⟩
    change (places ++ cs').takeWhile Char.isDigit = places
    rw [List.takeWhile_append_of_pos hdigits, hcs', List.append_nil]

theorem next_of_breaksOff {c : Char} {more cs cs' : List Char} {t : Token α}
    (hnext : next c (more ++ cs) = (.token t, more.length)) (ht : t ≠ .unknown)
    (h : BreaksOff cs cs') : next c (more ++ cs') = (.token t, more.length) := by
  unfold next at hnext ⊢
  split_ifs at hnext ⊢ with hblank hident hdigit hslash
  · cases hnext
  · have hword : (more ++ cs').takeWhile isIdentRest = (more ++ cs).takeWhile isIdentRest := by
      obtain ⟨hall, hcs⟩ := all_of_length_takeWhile (Prod.mk.inj hnext).2
      rw [List.takeWhile_append_of_pos hall, List.takeWhile_append_of_pos hall, hcs,
        h.takeWhile (fun _ => isIdentRest_of_blank) hcs]
    rw [hword]
    exact hnext
  · obtain ⟨hwhole, hplaces⟩ := h.digits (Prod.mk.inj hnext).2
    rw [hwhole, hplaces]
    exact hnext
  · -- what starts with a slash is a comment or unknown
    split at hnext
    · cases hnext
    · split at hnext
      · cases hnext
      · exact absurd (Lexeme.token.inj (Prod.mk.inj hnext).1).symm ht
    · exact absurd (Lexeme.token.inj (Prod.mk.inj hnext).1).symm ht
  · obtain ⟨hmark, hlength⟩ := Prod.mk.inj hnext
    rw [hmark, hlength]

theorem tokensAt_blankEnd {cs : List Char} (h : BlankEnd cs) (pos : Nat) :
    (tokensAt pos cs : List (Spanned (Token α))) = [] := by
  cases h with
  | blank h =>
    rw [← List.append_nil cs, tokensAt_blank h, tokensAt]
  | @line cs body hs h =>
    have hbody : body.takeWhile (· ≠ '\n') = body :=
      List.takeWhile_eq_self_iff.2 fun c hc => decide_eq_true fun heq => h (heq ▸ hc)
    have hnext := next_line (α := α) body
    rw [hbody] at hnext
    have hline := tokensAt_of_blank ('/' :: body) [] (by rw [List.append_nil]; exact hnext)
      (pos + width cs)
    rw [List.append_nil] at hline
    rw [tokensAt_blank hs, hline, tokensAt]

theorem next_le (c : Char) (rest : List Char) :
    (next c rest : Lexeme α × Nat).2 ≤ rest.length := by
  unfold next
  split_ifs
  · exact Nat.zero_le _
  · exact (List.takeWhile_prefix _).length_le
  · have hrest : (rest.takeWhile Char.isDigit).length + (rest.dropWhile Char.isDigit).length
        = rest.length := by
      rw [← List.length_append, List.takeWhile_append_dropWhile]
    dsimp only
    split_ifs with hplaces
    · omega
    · obtain ⟨ds, hds, -⟩ := exists_of_fraction_ne_nil hplaces
      have hlength := congrArg List.length hds
      rw [List.length_cons, List.length_append] at hlength
      omega
  · split
    · exact Nat.succ_le_succ (List.takeWhile_prefix _).length_le
    · rename_i body
      have hle := commentBody_le body
      split <;> rename_i hbody <;> rw [hbody] at hle <;> exact Nat.succ_le_succ hle
    · exact Nat.zero_le _
  · exact Nat.zero_le _

theorem exists_of_next {c : Char} {rest : List Char} {x : Lexeme α} {n : Nat}
    (h : next c rest = (x, n)) : ∃ more rest', rest = more ++ rest' ∧ n = more.length := by
  have hle := next_le (α := α) c rest
  rw [h] at hle
  exact ⟨rest.take n, rest.drop n, (List.take_append_drop n rest).symm,
    (List.length_take_of_le hle).symm⟩

/-- A text with a first token is a gap, the word of the token and the text of the others. -/
theorem exists_of_tokensAt_cons {pos : Nat} {cs : List Char} {t : Spanned (Token α)}
    {ts : List (Spanned (Token α))} (h : tokensAt pos cs = t :: ts) :
    ∃ gap c more rest, cs = gap ++ (c :: more ++ rest)
      ∧ next c (more ++ rest) = (.token t.value, more.length)
      ∧ t.span = ⟨pos + width gap, pos + width gap + width (c :: more)⟩
      ∧ ts = tokensAt t.span.stop rest := by
  induction pos, cs using tokensAt.induct (α := α) with
  | case1 pos =>
    rw [tokensAt] at h
    cases h
  | case2 pos c rest n stop t' hnext _ =>
    obtain ⟨more, rest, rfl, rfl⟩ := exists_of_next hnext
    rw [tokensAt_of_token hnext] at h
    cases h
    exact ⟨[], c, more, rest, rfl, hnext, rfl, rfl⟩
  | case3 pos c rest n stop hnext ih =>
    obtain ⟨blank, rest, rfl, rfl⟩ := exists_of_next hnext
    have hstop : stop = pos + width (c :: blank) := by
      simp only [stop, List.take_left, width, Nat.add_assoc]
    rw [List.drop_left, hstop] at ih
    rw [tokensAt_of_blank blank rest hnext] at h
    obtain ⟨gap, d, more, rest, rfl, hnext', hspan, hts⟩ := ih h
    refine ⟨c :: blank ++ gap, d, more, rest, by simp, hnext', ?_, hts⟩
    rw [hspan, width_append, Nat.add_assoc]

end Lexer

open Lexer

/-- A word and the gap before it. -/
structure Piece where
  gap : List Char
  word : List Char

/-- Words with the gaps before them, and what comes after the last. -/
structure Layout where
  pieces : List Piece
  rest : List Char

namespace Layout

def textOf : List Piece → List Char → List Char
  | [], rest => rest
  | p :: ps, rest => p.gap ++ (p.word ++ textOf ps rest)

/-- The places of the words in a text that starts at `pos`. -/
def spansAt (pos : Nat) : List Piece → List Span
  | [] => []
  | p :: ps =>
    ⟨pos + width p.gap, pos + width p.gap + width p.word⟩
      :: spansAt (pos + width p.gap + width p.word) ps

def source (l : Layout) : String := String.ofList (textOf l.pieces l.rest)

def spans (l : Layout) : List Span := spansAt 0 l.pieces

/-- The same word after another gap that is blank, and not empty unless the gap was. -/
structure RelaidPiece (p p' : Piece) : Prop where
  word : p'.word = p.word
  blank : Blank p'.gap
  gap : p.gap ≠ [] → p'.gap ≠ []

/-- The same words with other gaps. -/
structure Relaid (l l' : Layout) : Prop where
  pieces : List.Forall₂ RelaidPiece l.pieces l'.pieces
  rest : BlankEnd l'.rest

theorem breaksOff {ps ps' : List Piece} (h : List.Forall₂ RelaidPiece ps ps')
    (rest : List Char) {rest' : List Char} (hrest : BlankEnd rest') :
    BreaksOff (textOf ps rest) (textOf ps' rest') := by
  induction h with
  | nil => exact hrest.breaksOff rest
  | @cons p p' ps ps' h hs ih =>
    rw [textOf, textOf, h.word]
    by_cases hgap : p'.gap = []
    · rw [hgap, not_imp_not.1 h.gap hgap]
      exact ih.append p.word
    · exact h.blank.breaksOff hgap _ _

variable [Scalar α]

theorem exists_pieces (pos : Nat) (cs : List Char) :
    ∃ ps rest, textOf ps rest = cs
      ∧ (tokensAt pos cs : List (Spanned (Token α))).map (·.span) = spansAt pos ps := by
  induction hn : cs.length using Nat.strong_induction_on generalizing pos cs with
  | h n ih =>
    subst hn
    cases hts : (tokensAt pos cs : List (Spanned (Token α))) with
    | nil => exact ⟨[], cs, rfl, rfl⟩
    | cons t ts =>
      obtain ⟨gap, c, more, rest, rfl, -, hspan, rfl⟩ := exists_of_tokensAt_cons hts
      have hlt : rest.length < (gap ++ (c :: more ++ rest)).length := by
        simp only [List.length_append, List.length_cons]
        omega
      obtain ⟨ps, rest, rfl, hspans⟩ := ih rest.length hlt t.span.stop rest rfl
      refine ⟨⟨gap, c :: more⟩ :: ps, rest, rfl, ?_⟩
      rw [List.map_cons, spansAt, hspans, hspan]

/-- The pieces of the source are where its tokens are. -/
def Fits (α : Type) [Scalar α] (l : Layout) : Prop :=
  (tokens l.source : List (Spanned (Token α))).map (·.span) = l.spans

variable (α) in
theorem exists_of_source (source : String) : ∃ l : Layout, l.source = source ∧ l.Fits α := by
  obtain ⟨ps, rest, htext, hspans⟩ := exists_pieces (α := α) 0 source.toList
  have hsource : (⟨ps, rest⟩ : Layout).source = source := by
    rw [Layout.source, htext, String.ofList_toList]
  exact ⟨⟨ps, rest⟩, hsource, by rw [Fits, hsource]; exact hspans⟩

theorem tokensAt_relaid {ps ps' : List Piece} (h : List.Forall₂ RelaidPiece ps ps')
    {rest rest' : List Char} (hrest : BlankEnd rest') {pos : Nat} (pos' : Nat)
    {ts : List (Spanned (Token α))} (hts : tokensAt pos (textOf ps rest) = ts)
    (hspans : ts.map (·.span) = spansAt pos ps) (hknown : ∀ t ∈ ts, t.value ≠ .unknown) :
    (tokensAt pos' (textOf ps' rest') : List (Spanned (Token α))).map (·.value) = ts.map (·.value)
      ∧ (tokensAt pos' (textOf ps' rest') : List (Spanned (Token α))).map (·.span)
        = spansAt pos' ps' := by
  induction h generalizing pos pos' ts with
  | nil =>
    rw [spansAt, List.map_eq_nil_iff] at hspans
    rw [textOf, tokensAt_blankEnd hrest, hspans]
    exact ⟨rfl, rfl⟩
  | @cons p p' ps ps' h hs ih =>
    obtain ⟨t, ts, rfl⟩ : ∃ t ts', ts = t :: ts' := by
      cases ts with
      | nil => cases hspans
      | cons t ts => exact ⟨t, ts, rfl⟩
    rw [List.map_cons, spansAt, List.cons_eq_cons] at hspans
    obtain ⟨hspan, hspans⟩ := hspans
    obtain ⟨gap, c, more, rest₁, htext, hnext, hspan₁, htail⟩ := exists_of_tokensAt_cons hts
    -- the first word stands where the first token does
    rw [hspan, Span.mk.injEq] at hspan₁
    obtain ⟨hgap, htext⟩ := append_inj_of_width htext (by omega)
    obtain ⟨hword, rfl⟩ := append_inj_of_width htext (by omega)
    have hnext' := next_of_breaksOff hnext (hknown t List.mem_cons_self) (breaksOff hs rest hrest)
    rw [hspan] at htail
    obtain ⟨hvalues', hspans'⟩ := ih (pos' + width p'.gap + width p'.word) htail.symm hspans
      fun u hu => hknown u (List.mem_cons_of_mem t hu)
    rw [textOf, tokensAt_blank h.blank, spansAt, List.map_cons, ← hvalues', ← hspans', h.word,
      hword, List.cons_append, tokensAt_of_token hnext', List.map_cons, List.map_cons]
    exact ⟨rfl, rfl⟩

/-- The same words have the same tokens, at their own places. -/
theorem Relaid.tokens {l l' : Layout} (h : l.Relaid l')
    (hfits : l.Fits α)
    (hknown : ∀ t ∈ (Lexer.tokens l.source : List (Spanned (Token α))), t.value ≠ .unknown) :
    (Lexer.tokens l'.source : List (Spanned (Token α))).map (·.value)
        = (Lexer.tokens l.source).map (·.value)
      ∧ l'.Fits α := by
  have htokens (l : Layout) : (Lexer.tokens l.source : List (Spanned (Token α)))
      = tokensAt 0 (textOf l.pieces l.rest) := by
    rw [Lexer.tokens, source, String.toList_ofList]
  rw [Fits, htokens] at hfits
  rw [htokens] at hknown
  rw [Fits, htokens, htokens]
  exact tokensAt_relaid h.pieces h.rest 0 rfl hfits hknown

end Layout

end Pinning
