import Pinning.Proofs.Patterns
import Pinning.Proofs.Slices

/-!
# Lexemes tile a source

At each place the lexer takes the longest text that matches a pattern (`Lexer.takesAt`). So a
source is cut into lexemes, one after the other and nothing left over (`Lexer.tokens_tile`): blanks
and complete comments, and the tokens, each of which is what its own text says (`Token.WrittenAs`).
-/

namespace Pinning

open Lexer Pattern
open scoped Computability

variable {α : Type} [Scalar α]

theorem Keyword.ofText?_eq_none {s : String} (h : ofText? s = none) (k : Keyword) :
    k.text ≠ s := by
  intro hk
  have hmem : k ∈ all := by cases k <;> decide
  simpa [hk] using List.find?_eq_none.1 h k hmem

theorem Mark.ofChar?_char (m : Mark) : ofChar? m.char = some m := by cases m <;> rfl

theorem Mark.char_of_ofChar? {m : Mark} {c : Char} (h : ofChar? c = some m) : m.char = c := by
  simpa using List.find?_some h

namespace Token

/-- How a token is written. -/
inductive WrittenAs : Token α → List Char → Prop
  | keyword (k : Keyword) : WrittenAs (.keyword k) k.text.toList
  | mark (m : Mark) : WrittenAs (.mark m) [m.char]
  | ident {w : List Char} (h : w ∈ name) (hk : w ∉ Pattern.keyword) :
    WrittenAs (.ident (String.ofList w)) w
  | whole {ds : List Char} (h : ds ∈ digits) :
    WrittenAs (.number (Scalar.ofDecimal (Decimal.digitsValue ds) 0)) ds
  | decimal {ds fs : List Char} (h : ds ∈ digits) (hf : fs ∈ digits) :
    WrittenAs (.number (Scalar.ofDecimal (Decimal.digitsValue (ds ++ fs)) fs.length))
      (ds ++ '.' :: fs)
  | unknown {w : List Char} (h : w ∉ lexeme) : WrittenAs .unknown w

end Token

namespace Lexer

/-- The text matches, and no longer one does at the place where it stands before `after`. -/
def Longest (L : Language Char) (w after : List Char) : Prop :=
  w ∈ L ∧ ∀ v ∈ L, v <+: w ++ after → v.length ≤ w.length

/-- A lexeme with its text. -/
structure Cut (α : Type) where
  text : List Char
  lexeme : Lexeme α

/-- What is cut off where `after` comes next. -/
inductive Taken (after : List Char) : Cut α → Prop
  | blank {c : Char} (h : isBlank c) : Taken after ⟨[c], .blank⟩
  | comment {w : List Char} (h : w ∈ comment) (longest : Longest lexeme w after) :
    Taken after ⟨w, .blank⟩
  | token {w : List Char} {t : Token α} (ht : t ≠ .unknown) (h : t.WrittenAs w)
    (longest : Longest lexeme w after) : Taken after ⟨w, .token t⟩
  /-- A character with which nothing starts. -/
  | stray {c : Char} (h : ∀ v ∈ lexeme, ¬ v <+: c :: after)
    (hopened : ∀ v ∈ opened, ¬ v <+: c :: after) : Taken after ⟨[c], .token .unknown⟩
  /-- A comment that does not close, as far as there are steps in it. -/
  | unclosed {w : List Char} (h : ∀ v ∈ lexeme, ¬ v <+: w ++ after)
    (longest : Longest opened w after) : Taken after ⟨w, .token .unknown⟩

/-! ## What is taken -/

variable {c : Char} {rest after w : List Char}

theorem longest_of_cons (hw : c :: w ∈ lexeme)
    (h : ∀ v, c :: v ∈ lexeme → v <+: w ++ after → v.length ≤ w.length) :
    Longest lexeme (c :: w) after := by
  refine ⟨hw, fun v hv hstart => ?_⟩
  rcases List.prefix_cons_iff.1 hstart with rfl | ⟨v, rfl, htail⟩
  · exact absurd hv nil_notMem_lexeme
  · exact Nat.succ_le_succ (h v hv htail)

theorem length_le_takeWhile {p : Char → Bool} {v cs : List Char} (h : v <+: cs)
    (hv : ∀ c ∈ v, p c) : v.length ≤ (cs.takeWhile p).length := by
  obtain ⟨t, rfl⟩ := h
  rw [List.takeWhile_append_of_pos hv, List.length_append]
  exact Nat.le_add_right _ _

theorem not_isBlank_of_isIdentStart (h : isIdentStart c) : ¬isBlank c := by
  rw [isBlank_iff]
  rintro (rfl | rfl | rfl | rfl) <;> cases h

theorem not_isBlank_of_isDigit (h : c.isDigit) : ¬isBlank c := by
  intro hblank
  rw [isDigit_of_blank (.inl hblank)] at h
  cases h

theorem not_isIdentStart_of_isDigit (h : c.isDigit) : ¬isIdentStart c := by
  intro hident
  rw [isDigit_of_isIdentStart hident] at h
  cases h

theorem next_of_isIdentStart (h : isIdentStart c) (rest : List Char) :
    (next c rest : Lexeme α × Nat)
      = (.token ((Keyword.ofText? (String.ofList (c :: rest.takeWhile isIdentRest))).elim
          (.ident (String.ofList (c :: rest.takeWhile isIdentRest))) .keyword),
        (rest.takeWhile isIdentRest).length) := by
  unfold next
  rw [if_neg (not_isBlank_of_isIdentStart h), if_pos h]

theorem next_of_isDigit (h : c.isDigit) {rest whole places : List Char}
    (hwhole : rest.takeWhile Char.isDigit = whole)
    (hplaces : fraction (rest.dropWhile Char.isDigit) = places) :
    (next c rest : Lexeme α × Nat)
      = (.token (.number (Scalar.ofDecimal (Decimal.digitsValue (c :: whole ++ places))
          places.length)), whole.length + if places = [] then 0 else places.length + 1) := by
  unfold next
  rw [if_neg (not_isBlank_of_isDigit h), if_neg (not_isIdentStart_of_isDigit h), if_pos h, hwhole,
    hplaces]

variable (α) in
/-- The lexer takes what there is to take. -/
def TakesAt (c : Char) (rest : List Char) : Prop :=
  ∃ (x : Lexeme α) (more after : List Char), rest = more ++ after
    ∧ next c rest = (x, more.length) ∧ Taken after ⟨c :: more, x⟩

/-- A name, or a keyword if it is one. -/
theorem takesAt_of_isIdentStart (h : isIdentStart c) (rest : List Char) : TakesAt α c rest := by
  refine ⟨_, rest.takeWhile isIdentRest, rest.dropWhile isIdentRest,
    List.takeWhile_append_dropWhile.symm, next_of_isIdentStart h rest, ?_⟩
  set more := rest.takeWhile isIdentRest
  have hname : c :: more ∈ name := cons_mem_name.2 ⟨h, fun d hd => List.mem_takeWhile_imp hd⟩
  have hlongest : Longest lexeme (c :: more) (rest.dropWhile isIdentRest) := by
    refine longest_of_cons (.inl (mem_word.2 (.inr (.inr (.inl hname))))) fun v hv hstart => ?_
    rw [List.takeWhile_append_dropWhile] at hstart
    rcases cons_mem_lexeme hv with ⟨-, hv⟩ | ⟨hdigit, -⟩ | ⟨rfl, -⟩ | ⟨m, rfl, -⟩
    · exact length_le_takeWhile hstart (cons_mem_name.1 hv).2
    · rw [isDigit_of_isIdentStart h] at hdigit
      cases hdigit
    · cases h
    · rw [isIdentStart_char] at h
      cases h
  cases hk : Keyword.ofText? (String.ofList (c :: more)) with
  | none =>
    refine .token (by simp) (.ident hname ?_) hlongest
    rintro ⟨k, hk'⟩
    exact Keyword.ofText?_eq_none hk k (by rw [hk', String.ofList_toList])
  | some k =>
    have hspelt : k.text = String.ofList (c :: more) := by simpa using List.find?_some hk
    have htext : k.text.toList = c :: more := by rw [hspelt, String.toList_ofList]
    exact .token (by simp) (htext ▸ .keyword k) hlongest

/-- The whole part of a number ends at the point, and the fraction is read behind it. -/
theorem read_decimal {ds fs : List Char} (hds : ∀ c ∈ ds, c.isDigit) (hfs : ∀ c ∈ fs, c.isDigit)
    (after : List Char) : (ds ++ '.' :: fs ++ after).takeWhile Char.isDigit = ds
      ∧ fraction ((ds ++ '.' :: fs ++ after).dropWhile Char.isDigit)
        = fs ++ after.takeWhile Char.isDigit := by
  have hpoint : ¬Char.isDigit '.' := Bool.false_ne_true
  rw [List.append_assoc, List.takeWhile_append_of_pos hds, List.dropWhile_append_of_pos hds,
    List.cons_append, List.takeWhile_cons_of_neg hpoint, List.dropWhile_cons_of_neg hpoint,
    fraction, List.append_nil, List.takeWhile_append_of_pos hfs]
  exact ⟨rfl, rfl⟩

/-- How many characters belong to a number after its first digit. -/
theorem length_le_of_number {v : List Char} (h : c :: v ∈ number) (hstart : v <+: rest) :
    v.length ≤ (rest.takeWhile Char.isDigit).length
      + if fraction (rest.dropWhile Char.isDigit) = [] then 0
        else (fraction (rest.dropWhile Char.isDigit)).length + 1 := by
  rcases mem_number.1 h with h | ⟨ds, hds, fs, hfs, h⟩
  · exact Nat.le_add_right_of_le (length_le_takeWhile hstart (cons_mem_digits.1 h).2)
  · obtain ⟨after, rfl⟩ := hstart
    obtain ⟨d, ds, rfl⟩ := List.exists_cons_of_ne_nil (mem_digits.1 hds).1
    obtain ⟨hfs_ne, hfs⟩ := mem_digits.1 hfs
    rw [List.cons_append] at h
    obtain ⟨rfl, rfl⟩ := List.cons_eq_cons.1 h
    obtain ⟨hwhole, hplaces⟩ := read_decimal (cons_mem_digits.1 hds).2 hfs after
    rw [hwhole, hplaces, if_neg (List.append_ne_nil_of_left_ne_nil hfs_ne _)]
    simp only [List.length_append, List.length_cons]
    omega

/-- No lexeme is longer than a number that takes all that can belong to one. -/
theorem longest_number (h : c.isDigit) (hw : c :: w ∈ number) (hrest : rest = w ++ after)
    (hlength : w.length = (rest.takeWhile Char.isDigit).length
      + if fraction (rest.dropWhile Char.isDigit) = [] then 0
        else (fraction (rest.dropWhile Char.isDigit)).length + 1) :
    Longest lexeme (c :: w) after := by
  refine longest_of_cons (.inl (mem_word.2 (.inr (.inr (.inr hw))))) fun v hv hstart => ?_
  rcases cons_mem_lexeme hv with ⟨hident, -⟩ | ⟨-, hv⟩ | ⟨rfl, -⟩ | ⟨m, rfl, -⟩
  · exact absurd hident (not_isIdentStart_of_isDigit h)
  · rw [hlength]
    exact length_le_of_number hv (hrest ▸ hstart)
  · cases h
  · rw [isDigit_char] at h
    cases h

theorem takesAt_of_isDigit (h : c.isDigit) (rest : List Char) : TakesAt α c rest := by
  have hnext : (next c rest : Lexeme α × Nat) = _ := next_of_isDigit h rfl rfl
  set whole := rest.takeWhile Char.isDigit with hwhole
  set places := fraction (rest.dropWhile Char.isDigit) with hplaces
  have hwholes : c :: whole ∈ digits := cons_mem_digits.2 ⟨h, fun d hd => List.mem_takeWhile_imp hd⟩
  by_cases hnil : places = []
  · have hrest : rest = whole ++ rest.dropWhile Char.isDigit :=
      List.takeWhile_append_dropWhile.symm
    rw [if_pos hnil] at hnext
    refine ⟨_, whole, _, hrest, hnext, .token (by simp) ?_
      (longest_number h (mem_number.2 (.inl hwholes)) hrest ?_)⟩
    · rw [hnil, List.append_nil]
      exact .whole hwholes
    · rw [if_pos hnil, hwhole, Nat.add_zero]
  · obtain ⟨after, hpoint, hdigits, -⟩ := exists_of_fraction_ne_nil hnil
    have hrest : rest = (whole ++ '.' :: places) ++ after := by
      rw [List.append_assoc, List.cons_append, ← hpoint, List.takeWhile_append_dropWhile]
    have hfs : places ∈ digits := mem_digits.2 ⟨hnil, hdigits⟩
    have hdecimal : c :: (whole ++ '.' :: places) ∈ number :=
      mem_number.2 (.inr ⟨_, hwholes, _, hfs, rfl⟩)
    have hlength : (whole ++ '.' :: places).length = whole.length + (places.length + 1) := by
      rw [List.length_append, List.length_cons]
    rw [if_neg hnil, ← hlength] at hnext
    refine ⟨_, whole ++ '.' :: places, after, hrest, hnext, .token (by simp)
      (.decimal hwholes hfs) (longest_number h hdecimal hrest ?_)⟩
    rw [if_neg hnil, hlength]

theorem next_open {body : List Char} {n : Nat} (h : commentBody body = (n, false)) :
    (next '/' ('*' :: body) : Lexeme α × Nat) = (.token .unknown, n + 1) := by
  rw [next, if_neg (by decide), if_neg (by decide), if_neg (by decide), if_pos rfl]
  simp only [h]

theorem comment_of_slash {v : List Char} (h : '/' :: v ∈ lexeme) : '/' :: v ∈ comment := by
  rcases cons_mem_lexeme h with ⟨h, -⟩ | ⟨h, -⟩ | ⟨-, h⟩ | ⟨m, h, -⟩
  · cases h
  · cases h
  · exact h
  · exact absurd h.symm (char_ne_slash m)

theorem body_of_line {v : List Char} (h : '/' :: '/' :: v ∈ comment) : '\n' ∉ v := by
  rcases h with h | h
  · obtain ⟨body, hbody, h⟩ := mem_lineComment.1 h
    cases h
    exact hbody
  · obtain ⟨body, -, h⟩ := mem_blockComment.1 h
    cases h

theorem body_of_block {v : List Char} (h : '/' :: '*' :: v ∈ comment) :
    commentBody v = (v.length, true) := by
  rcases h with h | h
  · obtain ⟨body, -, h⟩ := mem_lineComment.1 h
    cases h
  · obtain ⟨body, hbody, h⟩ := mem_blockComment.1 h
    cases h
    exact hbody

/-- A line comment goes up to the end of its line. -/
theorem takesAt_line (body : List Char) : TakesAt α '/' ('/' :: body) := by
  refine ⟨.blank, '/' :: body.takeWhile (· ≠ '\n'), body.dropWhile (· ≠ '\n'), ?_,
    next_line body, ?_⟩
  · rw [List.cons_append, List.takeWhile_append_dropWhile]
  have hbody : '\n' ∉ body.takeWhile (· ≠ '\n') := fun h => by simpa using List.mem_takeWhile_imp h
  have hcomment : '/' :: '/' :: body.takeWhile (· ≠ '\n') ∈ comment :=
    .inl (mem_lineComment.2 ⟨_, hbody, rfl⟩)
  refine .comment hcomment (longest_of_cons (.inr hcomment) fun v hv hstart => ?_)
  rw [List.cons_append, List.takeWhile_append_dropWhile] at hstart
  rcases List.prefix_cons_iff.1 hstart with rfl | ⟨v, rfl, htail⟩
  · exact Nat.zero_le _
  · refine Nat.succ_le_succ (length_le_takeWhile htail fun c hc => decide_eq_true ?_)
    rintro rfl
    exact body_of_line (comment_of_slash hv) hc

/-- What matches a pattern where a block comment starts is the comment up to where it closes. -/
theorem commentBody_of_lexeme {body v : List Char} (hv : v ∈ lexeme)
    (hstart : v <+: '/' :: '*' :: body) : commentBody body = (v.length - 2, true) := by
  rcases List.prefix_cons_iff.1 hstart with rfl | ⟨u, rfl, hu⟩
  · exact absurd hv nil_notMem_lexeme
  have hcomment := comment_of_slash hv
  rcases List.prefix_cons_iff.1 hu with rfl | ⟨u, rfl, t, rfl⟩
  · rcases hcomment with h | h
    · obtain ⟨body, -, h⟩ := mem_lineComment.1 h
      cases h
    · obtain ⟨body, -, h⟩ := mem_blockComment.1 h
      cases h
  · have hbody := body_of_block hcomment
    rw [commentBody_append (by rw [hbody]), hbody]
    rfl

/-- A block comment that closes is taken as a whole, one that does not as far as it has steps. -/
theorem takesAt_block (body : List Char) : TakesAt α '/' ('*' :: body) := by
  obtain ⟨taken, after, rfl, hlength, htaken⟩ := exists_body body
  cases hcloses : (commentBody (taken ++ after)).2 with
  | true =>
    rw [hcloses, if_pos rfl] at htaken
    have hcomment : '/' :: '*' :: taken ∈ comment :=
      .inr (mem_blockComment.2 ⟨taken, mem_closed_iff.1 htaken, rfl⟩)
    refine ⟨.blank, '*' :: taken, after, rfl, next_block (Prod.ext hlength hcloses),
      .comment hcomment ⟨.inr hcomment, fun v hv hstart => ?_⟩⟩
    have hbody : (commentBody (taken ++ after)).1 = v.length - 2 :=
      congrArg Prod.fst (commentBody_of_lexeme hv hstart)
    simp only [List.length_cons]
    omega
  | false =>
    rw [hcloses, if_neg Bool.false_ne_true, mul_one] at htaken
    refine ⟨.token .unknown, '*' :: taken, after, rfl, next_open (Prod.ext hlength hcloses),
      .unclosed (fun v hv hstart => ?_) ⟨mem_opened.2 ⟨taken, htaken, rfl⟩, fun v hv hstart => ?_⟩⟩
    · have hbody : (commentBody (taken ++ after)).2 = true :=
        congrArg Prod.snd (commentBody_of_lexeme hv hstart)
      rw [hcloses] at hbody
      cases hbody
    · obtain ⟨steps, hsteps, rfl⟩ := mem_opened.1 hv
      obtain ⟨t, ht⟩ := hstart
      have hbody : steps ++ t = taken ++ after := by simpa using ht
      rw [← hbody, commentBody_of_steps hsteps] at hlength
      simp only [List.length_cons]
      omega

theorem takesAt_slash (rest : List Char) : TakesAt α '/' rest := by
  by_cases hmark : rest.head? = some '/' ∨ rest.head? = some '*'
  · obtain ⟨d, body, rfl⟩ : ∃ d body, rest = d :: body := by cases rest <;> simp at hmark ⊢
    rcases hmark with h | h <;> cases h
    · exact takesAt_line body
    · exact takesAt_block body
  · -- No comment starts here, and nothing else starts with a slash.
    have hstray (d : Char) (v : List Char) (hd : d = '/' ∨ d = '*') :
        ¬ '/' :: d :: v <+: '/' :: rest := by
      rintro ⟨t, ht⟩
      obtain rfl := (List.cons_eq_cons.1 ht).2
      exact hmark (hd.imp (congrArg some) (congrArg some))
    refine ⟨.token .unknown, [], rest, rfl, ?_,
      .stray (fun v hv hstart => ?_) fun v hv hstart => ?_⟩
    · rw [next, if_neg (by decide), if_neg (by decide), if_neg (by decide), if_pos rfl]
      · rfl
      · rintro body rfl
        exact hmark (.inl rfl)
      · rintro body rfl
        exact hmark (.inr rfl)
    · rcases List.prefix_cons_iff.1 hstart with rfl | ⟨u, rfl, -⟩
      · exact nil_notMem_lexeme hv
      · rcases comment_of_slash hv with h | h
        · obtain ⟨body, -, h⟩ := mem_lineComment.1 h
          exact hstray '/' body (.inl rfl) (h ▸ hstart)
        · obtain ⟨body, -, h⟩ := mem_blockComment.1 h
          exact hstray '*' body (.inr rfl) (h ▸ hstart)
    · obtain ⟨body, -, rfl⟩ := mem_opened.1 hv
      exact hstray '*' body (.inr rfl) hstart

theorem takesAt_of_other (hblank : ¬isBlank c) (hident : ¬isIdentStart c) (hdigit : ¬c.isDigit)
    (hslash : c ≠ '/') (rest : List Char) : TakesAt α c rest := by
  have hmark {v : List Char} (hv : v ∈ lexeme) (hstart : v <+: c :: rest) :
      ∃ m : Mark, c = m.char ∧ v = [c] := by
    rcases List.prefix_cons_iff.1 hstart with rfl | ⟨u, rfl, -⟩
    · exact absurd hv nil_notMem_lexeme
    · rcases cons_mem_lexeme hv with ⟨h, -⟩ | ⟨h, -⟩ | ⟨h, -⟩ | ⟨m, h, rfl⟩
      · exact absurd h hident
      · exact absurd h hdigit
      · exact absurd h hslash
      · exact ⟨m, h, rfl⟩
  refine ⟨.token ((Mark.ofChar? c).elim .unknown .mark), [], rest, rfl, ?_, ?_⟩
  · unfold next
    rw [if_neg hblank, if_neg hident, if_neg hdigit, if_neg hslash]
    rfl
  · cases hm : Mark.ofChar? c with
    | none =>
      refine .stray (fun v hv hstart => ?_) fun v hv hstart => ?_
      · obtain ⟨m, rfl, -⟩ := hmark hv hstart
        rw [Mark.ofChar?_char] at hm
        cases hm
      · obtain ⟨body, -, rfl⟩ := mem_opened.1 hv
        obtain ⟨t, ht⟩ := hstart
        exact hslash (List.cons_eq_cons.1 ht).1.symm
    | some m =>
      obtain rfl := Mark.char_of_ofChar? hm
      refine .token (by simp) (.mark m)
        ⟨.inl (mem_word.2 (.inr (.inl ⟨m, rfl⟩))), fun v hv hstart => ?_⟩
      obtain ⟨-, -, rfl⟩ := hmark hv hstart
      exact le_rfl

theorem takesAt (c : Char) (rest : List Char) : TakesAt α c rest := by
  by_cases hblank : isBlank c
  · exact ⟨.blank, [], rest, rfl, next_of_isBlank hblank rest, .blank hblank⟩
  by_cases hident : isIdentStart c
  · exact takesAt_of_isIdentStart hident rest
  by_cases hdigit : c.isDigit
  · exact takesAt_of_isDigit hdigit rest
  by_cases hslash : c = '/'
  · exact hslash ▸ takesAt_slash rest
  exact takesAt_of_other hblank hident hdigit hslash rest

end Lexer

namespace Token.WrittenAs

variable {t t' : Token α} {w : List Char}

theorem mem_lexeme (h : t.WrittenAs w) (ht : t ≠ .unknown) : w ∈ lexeme := by
  refine .inl (mem_word.2 ?_)
  cases h with
  | keyword k => exact .inl ⟨k, rfl⟩
  | mark m => exact .inr (.inl ⟨m, rfl⟩)
  | ident h => exact .inr (.inr (.inl h))
  | whole h => exact .inr (.inr (.inr (mem_number.2 (.inl h))))
  | decimal h hf => exact .inr (.inr (.inr (mem_number.2 (.inr ⟨_, h, _, hf, rfl⟩))))
  | unknown => exact absurd rfl ht

/-- A text that stands alone is read as the token that is written so. -/
theorem next_alone {c : Char} {more : List Char} (h : t.WrittenAs (c :: more))
    (ht : t ≠ .unknown) : next c more = (.token t, more.length) := by
  generalize hw : c :: more = w at h
  cases h with
  | keyword k => cases k <;> cases hw <;> rfl
  | mark m => cases m <;> cases hw <;> rfl
  | ident h hk =>
    subst hw
    obtain ⟨hstart, hrest⟩ := cons_mem_name.1 h
    rw [next_of_isIdentStart hstart, List.takeWhile_eq_self_iff.2 hrest]
    cases hofText : Keyword.ofText? (String.ofList (c :: more)) with
    | none => rfl
    | some k =>
      have hspelt : k.text = String.ofList (c :: more) := by simpa using List.find?_some hofText
      exact absurd ⟨k, by rw [hspelt, String.toList_ofList]⟩ hk
  | whole h =>
    subst hw
    obtain ⟨hdigit, hmore⟩ := cons_mem_digits.1 h
    rw [next_of_isDigit hdigit (List.takeWhile_eq_self_iff.2 hmore)
      (congrArg fraction (List.dropWhile_eq_nil_iff.2 hmore))]
    simp [fraction]
  | @decimal ds fs h hf =>
    obtain ⟨d, ds, rfl⟩ := List.exists_cons_of_ne_nil (mem_digits.1 h).1
    obtain ⟨hne, hfs⟩ := mem_digits.1 hf
    obtain ⟨hdigit, hds⟩ := cons_mem_digits.1 h
    rw [List.cons_append] at hw
    obtain ⟨rfl, rfl⟩ := List.cons_eq_cons.1 hw
    have hread := read_decimal hds hfs []
    rw [List.append_nil, List.takeWhile_nil, List.append_nil] at hread
    rw [next_of_isDigit hdigit hread.1 hread.2, if_neg hne, List.length_append, List.length_cons]
  | unknown => exact absurd rfl ht

/-- Kind and value of a token are decided by its text alone. -/
theorem unique (h : t.WrittenAs w) (h' : t'.WrittenAs w) : t = t' := by
  have hunknown {u : Token α} (hu : u.WrittenAs w) (hw : w ∉ lexeme) : u = .unknown :=
    Classical.byContradiction fun hne => hw (hu.mem_lexeme hne)
  by_cases hw : w ∈ lexeme
  · have hknown {u : Token α} (hu : u.WrittenAs w) : u ≠ .unknown := by
      rintro rfl
      cases hu with
      | unknown hnot => exact hnot hw
    cases w with
    | nil => exact absurd hw nil_notMem_lexeme
    | cons c more =>
      have heq := (h.next_alone (hknown h)).symm.trans (h'.next_alone (hknown h'))
      exact Lexeme.token.inj (Prod.mk.inj heq).1
  · rw [hunknown h hw, hunknown h' hw]

end Token.WrittenAs

namespace Lexer

/-! ## A whole source -/

namespace Cut

def textOf (cuts : List (Cut α)) : List Char := cuts.flatMap text

/-- The tokens among lexemes, at their places in a text that starts at `pos`. -/
def tokensOf (pos : Nat) : List (Cut α) → List (Spanned (Token α))
  | [] => []
  | ⟨w, .token t⟩ :: cuts => ⟨t, ⟨pos, pos + width w⟩⟩ :: tokensOf (pos + width w) cuts
  | ⟨w, .blank⟩ :: cuts => tokensOf (pos + width w) cuts

/-- Each lexeme is what is taken where it stands. -/
def Tile (cuts : List (Cut α)) : Prop :=
  ∀ before x after, cuts = before ++ x :: after → Taken (textOf after) x

variable {cuts : List (Cut α)}

omit [Scalar α] in
theorem textOf_cons (x : Cut α) (cuts : List (Cut α)) :
    textOf (x :: cuts) = x.text ++ textOf cuts := rfl

theorem Tile.cons {x : Cut α} (hx : Taken (textOf cuts) x) (h : Tile cuts) : Tile (x :: cuts) := by
  intro before y after heq
  cases before with
  | nil =>
    obtain ⟨rfl, rfl⟩ := List.cons_eq_cons.1 heq
    exact hx
  | cons b before => exact h before y after (List.cons_eq_cons.1 heq).2

omit [Scalar α] in
/-- A token stands where its lexeme does. -/
theorem exists_of_mem_tokensOf {pos : Nat} {t : Spanned (Token α)} (h : t ∈ tokensOf pos cuts) :
    ∃ before w after, cuts = before ++ ⟨w, .token t.value⟩ :: after
      ∧ t.span = ⟨pos + width (textOf before), pos + width (textOf before) + width w⟩ := by
  induction cuts generalizing pos with
  | nil => cases h
  | cons x cuts ih =>
    obtain ⟨w, x⟩ := x
    -- Behind the first lexeme every place is further on by its width.
    have hlater (hmem : t ∈ tokensOf (pos + width w) cuts) :
        ∃ before u after, ⟨w, x⟩ :: cuts = before ++ ⟨u, .token t.value⟩ :: after
          ∧ t.span = ⟨pos + width (textOf before), pos + width (textOf before) + width u⟩ := by
      obtain ⟨before, u, after, rfl, hspan⟩ := ih hmem
      refine ⟨⟨w, x⟩ :: before, u, after, rfl, ?_⟩
      rw [hspan, textOf_cons, width_append, Nat.add_assoc pos]
    cases x with
    | blank => exact hlater h
    | token t' =>
      rcases List.mem_cons.1 h with rfl | hmem
      · exact ⟨[], w, cuts, rfl, rfl⟩
      · exact hlater hmem

end Cut

theorem exists_cuts (pos : Nat) (cs : List Char) : ∃ cuts : List (Cut α),
    Cut.textOf cuts = cs ∧ tokensAt pos cs = Cut.tokensOf pos cuts ∧ Cut.Tile cuts := by
  induction hn : cs.length using Nat.strong_induction_on generalizing pos cs with
  | h n ih =>
    subst hn
    cases cs with
    | nil => exact ⟨[], rfl, by rw [tokensAt, Cut.tokensOf], fun _ _ _ h => by simp at h⟩
    | cons c rest =>
      obtain ⟨x, more, after, rfl, hnext, htaken⟩ := takesAt (α := α) c rest
      have hlt : after.length < (c :: (more ++ after)).length := by
        rw [List.length_cons, List.length_append]
        omega
      obtain ⟨cuts, rfl, htokens, htile⟩ := ih _ hlt (pos + width (c :: more)) after rfl
      refine ⟨⟨c :: more, x⟩ :: cuts, rfl, ?_, htile.cons htaken⟩
      cases x with
      | token t => rw [tokensAt_of_token hnext, Cut.tokensOf, htokens]
      | blank => rw [tokensAt_of_blank _ _ hnext, Cut.tokensOf, htokens]

/-- A token that is cut off is what its text says. -/
theorem Taken.writtenAs {after w : List Char} {t : Token α}
    (h : Taken after ⟨w, .token t⟩) : t.WrittenAs w := by
  cases h with
  | token _ h => exact h
  | stray h => exact .unknown fun hw => h _ hw (List.cons_prefix_cons.2 ⟨rfl, List.nil_prefix⟩)
  | unclosed h => exact .unknown fun hw => h _ hw (List.prefix_append _ _)

/-- The lexer tiles a source. It is cut into lexemes, nothing left over: each is what is taken where
it stands, a blank, a complete comment or a token, and is the longest text that matches any pattern
there. The tokens are those among them in their order, none empty and none reaching into the next;
each covers a text of the source that alone says which token it is. -/
theorem tokens_tile (source : String) :
    (∃ cuts : List (Cut α), Cut.textOf cuts = source.toList ∧ Cut.Tile cuts
      ∧ tokens source = Cut.tokensOf 0 cuts)
    ∧ Span.Apart ((tokens source : List (Spanned (Token α))).map (·.span))
    ∧ (∀ t ∈ (tokens source : List (Spanned (Token α))), ∃ text : String,
        t.span.Covers source text ∧ t.value.WrittenAs text.toList)
    ∧ ∀ (w : List Char) (t t' : Token α), t.WrittenAs w → t'.WrittenAs w → t = t' := by
  obtain ⟨cuts, htext, htokens, htile⟩ := exists_cuts (α := α) 0 source.toList
  refine ⟨⟨cuts, htext, htile, htokens⟩, apart_tokens source, fun t ht => ?_,
    fun w t t' h h' => h.unique h'⟩
  rw [tokens, htokens] at ht
  obtain ⟨before, w, after, rfl, hspan⟩ := Cut.exists_of_mem_tokensOf ht
  have hsource : source.toList = Cut.textOf before ++ (w ++ Cut.textOf after) := by
    rw [← htext, Cut.textOf, List.flatMap_append]
    rfl
  refine ⟨String.ofList w, ?_, ?_⟩
  · rw [hspan, Nat.zero_add]
    exact covers_of_toList hsource
  · rw [String.toList_ofList]
    exact (htile _ _ _ rfl).writtenAs

end Lexer

end Pinning
