import Mathlib.Computability.Language
import Pinning.Proofs.Layout

/-!
# The patterns of lexemes

The texts that tokens and comments are written with, as languages over characters (`Pattern.word`,
`Pattern.comment`). Which pattern a text can match is decided by its first character
(`Pattern.cons_mem_lexeme`), and the body of a block comment is read in the same steps by its
pattern and by the lexer (`Pattern.mem_closed_iff`).
-/

namespace Pinning

open Lexer
open scoped Computability

namespace Pattern

/-- One character of a class. -/
def one (p : Char → Bool) : Language Char := {w | ∃ c, p c ∧ w = [c]}

/-- A fixed text. -/
def fixed (s : String) : Language Char := {s.toList}

def keyword : Language Char := {w | ∃ k : Keyword, w = k.text.toList}

def mark : Language Char := {w | ∃ m : Mark, w = [m.char]}

def name : Language Char := one isIdentStart * (one isIdentRest)∗

def digits : Language Char := one Char.isDigit * (one Char.isDigit)∗

/-- Digits, and a fraction if a point and further digits follow. -/
def number : Language Char := digits * (1 + fixed "." * digits)

def lineComment : Language Char := fixed "//" * (one (· ≠ '\n'))∗

/-- A step inside a block comment: a character other than a star, or a star and a character after it
other than a slash. -/
def step : Language Char := one (· ≠ '*') + fixed "*" * one (· ≠ '/')

/-- A block comment as far as it is open. -/
def opened : Language Char := fixed "/*" * step∗

def blockComment : Language Char := opened * fixed "*/"

/-- What a token can be written with. -/
def word : Language Char := keyword + mark + name + number

def comment : Language Char := lineComment + blockComment

def lexeme : Language Char := word + comment

variable {p : Char → Bool} {c : Char} {cs w : List Char} {L : Language Char}

theorem nil_notMem_one_mul : [] ∉ one p * L := by
  rintro ⟨_, ⟨c, -, rfl⟩, _, -, h⟩
  cases h

theorem cons_mem_one_mul : c :: cs ∈ one p * L ↔ p c ∧ cs ∈ L := by
  constructor
  · rintro ⟨_, ⟨d, hd, rfl⟩, v, hv, h⟩
    cases h
    exact ⟨hd, hv⟩
  · rintro ⟨hc, hcs⟩
    exact ⟨[c], ⟨c, hc, rfl⟩, cs, hcs, rfl⟩

theorem mem_fixed_mul {s : String} : w ∈ fixed s * L ↔ ∃ v ∈ L, w = s.toList ++ v := by
  constructor
  · rintro ⟨_, rfl, v, hv, rfl⟩
    exact ⟨v, hv, rfl⟩
  · rintro ⟨v, hv, rfl⟩
    exact ⟨_, rfl, v, hv, rfl⟩

theorem mem_one_star : w ∈ (one p)∗ ↔ ∀ c ∈ w, p c := by
  constructor
  · rintro ⟨L, rfl, hL⟩ c hc
    obtain ⟨_, hv, hc⟩ := List.mem_flatten.1 hc
    obtain ⟨d, hd, rfl⟩ := hL _ hv
    rwa [List.mem_singleton.1 hc]
  · intro h
    refine ⟨w.map ([·]), by simp [List.flatten_eq_flatMap, List.flatMap_map], fun v hv => ?_⟩
    obtain ⟨c, hc, rfl⟩ := List.mem_map.1 hv
    exact ⟨c, h c hc, rfl⟩

theorem cons_mem_name : c :: cs ∈ name ↔ isIdentStart c ∧ ∀ d ∈ cs, isIdentRest d := by
  rw [name, cons_mem_one_mul, mem_one_star]

theorem cons_mem_digits : c :: cs ∈ digits ↔ c.isDigit ∧ ∀ d ∈ cs, d.isDigit := by
  rw [digits, cons_mem_one_mul, mem_one_star]

theorem mem_digits : w ∈ digits ↔ w ≠ [] ∧ ∀ c ∈ w, c.isDigit := by
  cases w with
  | nil => simp [digits, nil_notMem_one_mul]
  | cons c cs => simp [cons_mem_digits]

theorem mem_number :
    w ∈ number ↔ w ∈ digits ∨ ∃ ds ∈ digits, ∃ fs ∈ digits, w = ds ++ '.' :: fs := by
  rw [number, mul_add, mul_one, Language.mem_add]
  refine or_congr_right ⟨?_, ?_⟩
  · rintro ⟨ds, hds, _, hpoint, rfl⟩
    obtain ⟨fs, hfs, rfl⟩ := mem_fixed_mul.1 hpoint
    exact ⟨ds, hds, fs, hfs, rfl⟩
  · rintro ⟨ds, hds, fs, hfs, rfl⟩
    exact ⟨ds, hds, '.' :: fs, mem_fixed_mul.2 ⟨fs, hfs, rfl⟩, rfl⟩

theorem mem_lineComment : w ∈ lineComment ↔ ∃ body, '\n' ∉ body ∧ w = '/' :: '/' :: body := by
  simp only [lineComment, mem_fixed_mul, mem_one_star, decide_eq_true_eq]
  exact exists_congr fun body =>
    and_congr_left' ⟨fun h hn => h _ hn rfl, fun h c hc hn => h (hn ▸ hc)⟩

/-- Reading a step goes on with the same reading. -/
theorem mem_steps_mul : w ∈ step∗ * L ↔ w ∈ L ∨ ∃ u ∈ step, ∃ v ∈ step∗ * L, w = u ++ v := by
  have hunfold : step∗ * L = L + step * (step∗ * L) := by
    rw [← mul_assoc, ← one_add_mul, Language.one_add_self_mul_kstar_eq_kstar]
  conv_lhs => rw [hunfold]
  rw [Language.mem_add, Language.mem_mul]
  exact or_congr_right ⟨fun ⟨u, hu, v, hv, h⟩ => ⟨u, hu, v, hv, h.symm⟩,
    fun ⟨u, hu, v, hv, h⟩ => ⟨u, hu, v, hv, h.symm⟩⟩

theorem mem_step : w ∈ step ↔ (∃ c, c ≠ '*' ∧ w = [c]) ∨ ∃ c, c ≠ '/' ∧ w = ['*', c] := by
  have hone (d : Char) : w ∈ one (· ≠ d) ↔ ∃ c, c ≠ d ∧ w = [c] := by
    exact exists_congr fun c => and_congr_left' decide_eq_true_iff
  rw [step, Language.mem_add, hone]
  refine or_congr_right (mem_fixed_mul.trans ⟨?_, ?_⟩)
  · rintro ⟨_, ⟨c, hc, rfl⟩, rfl⟩
    exact ⟨c, of_decide_eq_true hc, rfl⟩
  · rintro ⟨c, hc, rfl⟩
    exact ⟨[c], ⟨c, decide_eq_true hc, rfl⟩, rfl⟩

theorem nil_mem_steps_mul : [] ∈ step∗ * L ↔ [] ∈ L := by
  rw [mem_steps_mul, or_iff_left]
  rintro ⟨u, hu, v, -, h⟩
  obtain ⟨rfl, -⟩ := List.append_eq_nil_iff.1 h.symm
  rcases mem_step.1 hu with ⟨c, -, h⟩ | ⟨c, -, h⟩ <;> cases h

theorem star_mem_steps_mul : ['*'] ∈ step∗ * L ↔ ['*'] ∈ L := by
  rw [mem_steps_mul, or_iff_left]
  rintro ⟨u, hu, v, -, h⟩
  rcases mem_step.1 hu with ⟨c, hc, rfl⟩ | ⟨c, -, rfl⟩
  · cases h
    exact hc rfl
  · cases h

theorem cons_mem_steps_mul (hc : c ≠ '*') :
    c :: cs ∈ step∗ * L ↔ c :: cs ∈ L ∨ cs ∈ step∗ * L := by
  rw [mem_steps_mul]
  refine or_congr_right ⟨?_, fun h => ⟨[c], mem_step.2 (.inl ⟨c, hc, rfl⟩), cs, h, rfl⟩⟩
  rintro ⟨u, hu, v, hv, h⟩
  rcases mem_step.1 hu with ⟨d, -, rfl⟩ | ⟨d, -, rfl⟩
  · cases h
    exact hv
  · cases h
    exact absurd rfl hc

theorem star_cons_mem_steps_mul :
    '*' :: c :: cs ∈ step∗ * L ↔ '*' :: c :: cs ∈ L ∨ c ≠ '/' ∧ cs ∈ step∗ * L := by
  rw [mem_steps_mul]
  refine or_congr_right ⟨?_, ?_⟩
  · rintro ⟨u, hu, v, hv, h⟩
    rcases mem_step.1 hu with ⟨d, hd, rfl⟩ | ⟨d, hd, rfl⟩
    · cases h
      exact absurd rfl hd
    · cases h
      exact ⟨hd, hv⟩
  · rintro ⟨hc, hcs⟩
    exact ⟨['*', c], mem_step.2 (.inr ⟨c, hc, rfl⟩), cs, hcs, rfl⟩

/-- The lexer reads through the steps of a comment. -/
theorem commentBody_of_steps (h : w ∈ step∗) (cs : List Char) :
    commentBody (w ++ cs) = ((commentBody cs).1 + w.length, (commentBody cs).2) := by
  obtain ⟨steps, rfl, hsteps⟩ := h
  induction steps with
  | nil => rfl
  | cons u steps ih =>
    have ih := ih fun v hv => hsteps v (List.mem_cons_of_mem u hv)
    rw [List.flatten_cons, List.append_assoc]
    rcases mem_step.1 (hsteps u List.mem_cons_self) with ⟨c, hc, rfl⟩ | ⟨c, hc, rfl⟩
    · rw [List.singleton_append, commentBody_cons hc, ih, List.singleton_append, List.length_cons,
        Nat.add_assoc]
    · rw [List.cons_append, List.singleton_append, commentBody_star hc, ih, List.cons_append,
        List.singleton_append, List.length_cons, List.length_cons, Nat.add_assoc]

/-- The body of a closed comment is one that the lexer takes as a whole. -/
theorem mem_closed_iff : w ∈ step∗ * fixed "*/" ↔ commentBody w = (w.length, true) := by
  have hfixed (v : List Char) : v ∈ fixed "*/" ↔ v = ['*', '/'] := Iff.rfl
  induction w using commentBody.induct with
  | case1 cs =>
    simp [star_cons_mem_steps_mul, hfixed, commentBody]
  | case2 => simp [star_mem_steps_mul, hfixed, commentBody]
  | case3 c cs hslash ih =>
    have hc : c ≠ '/' := hslash
    simp [star_cons_mem_steps_mul, commentBody_star hc, ih, hfixed, hc, Prod.ext_iff]
  | case4 c cs _ hnil hcons ih =>
    have hc : c ≠ '*' := ne_star hnil hcons
    simp [cons_mem_steps_mul hc, commentBody_cons hc, ih, hfixed, hc, Prod.ext_iff]
  | case5 => simp [nil_mem_steps_mul, hfixed, commentBody]

/-- What the lexer takes of a comment's body are steps, with a closing mark if it closes. -/
theorem exists_body (cs : List Char) : ∃ body after, cs = body ++ after
    ∧ (commentBody cs).1 = body.length
    ∧ body ∈ step∗ * (if (commentBody cs).2 then fixed "*/" else 1) := by
  induction cs using commentBody.induct with
  | case1 cs => exact ⟨['*', '/'], cs, rfl, rfl, star_cons_mem_steps_mul.2 (.inl rfl)⟩
  | case2 => exact ⟨[], ['*'], rfl, rfl, nil_mem_steps_mul.2 rfl⟩
  | case3 c cs hc ih =>
    obtain ⟨body, after, rfl, hlength, hbody⟩ := ih
    rw [commentBody_star hc, hlength]
    exact ⟨'*' :: c :: body, after, rfl, rfl, star_cons_mem_steps_mul.2 (.inr ⟨hc, hbody⟩)⟩
  | case4 c cs _ hnil hcons ih =>
    have hc : c ≠ '*' := ne_star hnil hcons
    obtain ⟨body, after, rfl, hlength, hbody⟩ := ih
    rw [commentBody_cons hc, hlength]
    exact ⟨c :: body, after, rfl, rfl, (cons_mem_steps_mul hc).2 (.inr hbody)⟩
  | case5 => exact ⟨[], [], rfl, rfl, nil_mem_steps_mul.2 rfl⟩

theorem mem_opened : w ∈ opened ↔ ∃ body ∈ step∗, w = '/' :: '*' :: body := mem_fixed_mul

theorem mem_blockComment :
    w ∈ blockComment ↔ ∃ body, commentBody body = (body.length, true) ∧ w = '/' :: '*' :: body := by
  rw [blockComment, opened, mul_assoc, mem_fixed_mul]
  exact exists_congr fun body => and_congr_left' mem_closed_iff

theorem number_eq :
    number = one Char.isDigit * ((one Char.isDigit)∗ * (1 + fixed "." * digits)) := by
  rw [number, digits, mul_assoc]

theorem mem_word : w ∈ word ↔ w ∈ keyword ∨ w ∈ mark ∨ w ∈ name ∨ w ∈ number := by
  simp only [word, Language.mem_add, or_assoc]

theorem nil_notMem_lexeme : [] ∉ lexeme := by
  rintro (h | h | h)
  · rcases mem_word.1 h with ⟨k, h⟩ | ⟨m, h⟩ | h | h
    · cases k <;> cases h
    · cases h
    · exact nil_notMem_one_mul h
    · exact nil_notMem_one_mul (number_eq ▸ h)
  · obtain ⟨body, -, h⟩ := mem_lineComment.1 h
    cases h
  · obtain ⟨body, -, h⟩ := mem_blockComment.1 h
    cases h

/-- A keyword could be a name. -/
theorem mem_name_of_mem_keyword (h : w ∈ keyword) : w ∈ name := by
  obtain ⟨k, rfl⟩ := h
  cases k <;> exact cons_mem_name.2 ⟨rfl, List.all_eq_true.1 rfl⟩

/-- The first character of a lexeme says which pattern it matches. -/
theorem cons_mem_lexeme (h : c :: cs ∈ lexeme) :
    (isIdentStart c ∧ c :: cs ∈ name) ∨ (c.isDigit ∧ c :: cs ∈ number)
      ∨ (c = '/' ∧ c :: cs ∈ comment) ∨ ∃ m : Mark, c = m.char ∧ cs = [] := by
  rcases h with h | h
  · rcases mem_word.1 h with h | ⟨m, h⟩ | h | h
    · have hname := mem_name_of_mem_keyword h
      exact .inl ⟨(cons_mem_name.1 hname).1, hname⟩
    · exact .inr (.inr (.inr ⟨m, List.cons_eq_cons.1 h⟩))
    · exact .inl ⟨(cons_mem_name.1 h).1, h⟩
    · exact .inr (.inl ⟨(cons_mem_one_mul.1 (number_eq ▸ h)).1, h⟩)
  · refine .inr (.inr (.inl ⟨?_, h⟩))
    rcases h with h | h
    · obtain ⟨body, -, h⟩ := mem_lineComment.1 h
      exact (List.cons_eq_cons.1 h).1
    · obtain ⟨body, -, h⟩ := mem_blockComment.1 h
      exact (List.cons_eq_cons.1 h).1

theorem isDigit_of_isIdentStart (h : isIdentStart c) : c.isDigit = false := by
  rw [isIdentStart, Bool.or_eq_true] at h
  rcases h with h | h
  · -- Every letter comes after every digit.
    have h : (decide (65 ≤ c.val ∧ c.val ≤ 90)
        || decide (97 ≤ c.val) && decide (c.val ≤ 122)) = true := h
    simp only [Bool.or_eq_true, Bool.and_eq_true, decide_eq_true_eq, UInt32.le_iff_toNat_le] at h
    have hletter : 65 ≤ c.toNat := h.elim (·.1) fun h => (by decide : 65 ≤ 97).trans h.1
    rw [Bool.eq_false_iff, ne_eq, Char.isDigit_iff_toNat]
    intro hdigit
    exact absurd (hletter.trans hdigit.2) (by decide)
  · rw [of_decide_eq_true h]
    rfl

theorem isIdentStart_char (m : Mark) : isIdentStart m.char = false := by cases m <;> rfl

theorem isDigit_char (m : Mark) : m.char.isDigit = false := by cases m <;> rfl

theorem char_ne_slash (m : Mark) : m.char ≠ '/' := by cases m <;> decide

end Pattern

end Pinning
