import Mathlib.Data.List.Basic
import Pinning.Proofs.Pointing
import Pinning.Scene.Diagnosis

/-!
# The place that is printed for an error

An error stands at a number of bytes, and the place that is printed for it is that many characters
into the source. The two are the same if and only if the text before the error is ASCII
(`Lexer.width_eq_length_iff`), and places follow each other as offsets do
(`Location.precedes_of_lt`). So the place that is printed is the right one or a later one, and which
of the two is decided by that text (`RunError.location_printed`).
-/

namespace Pinning

variable {α : Type}

open Grammar

/-- Every character takes one byte. -/
def Ascii (s : String) : Prop := ∀ c ∈ s.toList, c.val ≤ 127

instance (s : String) : Decidable (Ascii s) :=
  List.decidableBAll (fun c : Char => c.val ≤ 127) s.toList

namespace Lexer

theorem length_le_width (cs : List Char) : cs.length ≤ width cs := by
  induction cs with
  | nil => exact Nat.le_refl 0
  | cons c cs ih =>
    have := c.utf8Size_pos
    rw [width, List.length_cons]
    omega

theorem width_eq_length_iff {cs : List Char} : width cs = cs.length ↔ ∀ c ∈ cs, c.val ≤ 127 := by
  induction cs with
  | nil => simp [width]
  | cons c cs ih =>
    have hle := length_le_width cs
    have hpos := c.utf8Size_pos
    rw [width, List.length_cons, List.forall_mem_cons, ← ih, ← Char.utf8Size_eq_one_iff]
    omega

end Lexer

theorem ascii_iff {s : String} : Ascii s ↔ s.utf8ByteSize = s.length := by
  rw [← String.length_toList, ← Lexer.width_toList, Lexer.width_eq_length_iff, Ascii]

theorem length_lt_utf8ByteSize {s : String} (h : ¬Ascii s) : s.length < s.utf8ByteSize := by
  have hle := Lexer.length_le_width s.toList
  rw [String.length_toList, Lexer.width_toList] at hle
  exact hle.lt_of_ne fun heq => h (ascii_iff.2 heq.symm)

namespace Location

/-- On an earlier line, or further left. -/
def Precedes (l l' : Location) : Prop := l.line < l'.line ∨ l.line = l'.line ∧ l.column < l'.column

theorem Precedes.ne {l l' : Location} (h : l.Precedes l') : l ≠ l' := by
  rintro rfl
  rcases h with h | ⟨-, h⟩ <;> exact Nat.lt_irrefl _ h

variable {source : String} {n n' : Nat} {l l' : Location}

theorem exists_ofOffset? (h : n ≤ source.length) : ∃ l, ofOffset? source n = some l :=
  ⟨_, if_pos h⟩

theorem ofOffset?_eq_none : ofOffset? source n = none ↔ source.length < n := by
  unfold ofOffset?
  split_ifs with h
  · exact iff_of_false (by simp) (Nat.not_lt.2 h)
  · exact iff_of_true rfl (Nat.lt_of_not_le h)

/-- A later character has a later place. -/
theorem precedes_of_lt (h : ofOffset? source n = some l) (h' : ofOffset? source n' = some l')
    (hlt : n < n') : l.Precedes l' := by
  unfold ofOffset? at h h'
  split_ifs at h h'
  cases h
  cases h'
  set starts := laterStarts 0 source.toList
  have hsub : (starts.filter (· ≤ n)).Sublist (starts.filter (· ≤ n')) :=
    List.monotone_filter_right _ fun s hs => decide_eq_true ((of_decide_eq_true hs).trans hlt.le)
  rcases hsub.length_le.lt_or_eq with hless | hsame
  · exact .inl (Nat.succ_lt_succ hless)
  · -- On one line both columns are counted from the same start.
    refine .inr ⟨congrArg (· + 1) hsame, ?_⟩
    have hstarts := hsub.eq_of_length hsame
    have hle : (starts.filter (· ≤ n)).getLastD 0 ≤ n := by
      rw [List.getLastD_eq_getLast?]
      cases hlast : (starts.filter (· ≤ n)).getLast? with
      | none => exact Nat.zero_le n
      | some s => exact of_decide_eq_true (List.mem_filter.1 (List.mem_of_getLast? hlast)).2
    simp only [← hstarts]
    omega

theorem repr_injective : Function.Injective Nat.repr := by
  intro m n h
  have hdigits := congrArg (fun s => Nat.ofDigitChars 10 s.toList 0) h
  simpa using hdigits

theorem colon_notMem_repr (n : Nat) : ':' ∉ n.repr.toList := by
  rw [Nat.toList_repr]
  intro h
  cases Nat.isDigit_of_mem_toDigits (by decide) (by decide) h

/-- A place is read off what is printed for it. -/
theorem text_injective : Function.Injective text := by
  intro l l' h
  have htext : l.line.repr.toList ++ ':' :: l.column.repr.toList
      = l'.line.repr.toList ++ ':' :: l'.column.repr.toList := by
    simpa [text, ← String.toList_inj] using h
  obtain ⟨hline, -, hcolumn⟩ :=
    (List.append_cons_inj_of_notMem (colon_notMem_repr _) (colon_notMem_repr _)).1 htext
  have hline := repr_injective (String.toList_inj.1 hline)
  have hcolumn := repr_injective (String.toList_inj.1 hcolumn)
  cases l
  cases l'
  cases hline
  cases hcolumn
  rfl

end Location

theorem SceneError.Blames.span_eq {e : SceneError} {p : Part α} (h : e.Blames p) :
    e.span = p.span := by
  cases h <;> rfl

/-- What comes after a part of a source. -/
theorem Span.Covers.exists_rest {s : Span} {source text : String} (h : s.Covers source text) :
    ∃ rest, Covers ⟨s.stop, source.utf8ByteSize⟩ source rest := by
  obtain ⟨before, after, rfl, rfl⟩ := h
  exact ⟨after, before ++ text, "", by rw [String.append_empty], rfl⟩

section

variable [Scalar α] {source : String}

theorem Lexer.exists_covers_of_mem {t : Spanned (Token α)} (h : t ∈ tokens source) :
    ∃ text, t.span.Covers source text := by
  obtain ⟨pre, post, hts⟩ := List.append_of_mem h
  have hinfix : [t] <:+: tokens source :=
    ⟨pre, post, by rw [hts, List.append_assoc, List.singleton_append]⟩
  obtain ⟨word, rest, hcovers, -, -⟩ := exists_covers hinfix
  exact ⟨word ++ rest, hcovers⟩

/-- A syntax error stands at a token, or goes from the last one to the end. -/
theorem Script.exists_covers_of_parse_error {e : SyntaxError α} (h : parse source = .error e) :
    ∃ text, e.span.Covers source text := by
  obtain ⟨pre, s, -, -, hplace⟩ := Parser.exists_of_run_error h
  rcases hplace with ⟨t, post, hts, -, hspan, -⟩ | ⟨hts, -, hspan, -⟩
  · rw [hspan]
    exact Lexer.exists_covers_of_mem (hts ▸ List.mem_append_right pre List.mem_cons_self)
  · rw [hspan]
    cases hlast : pre.getLast? with
    | none => exact ⟨source, "", "", by simp, by simp⟩
    | some t =>
      obtain ⟨text, hcovers⟩ := Lexer.exists_covers_of_mem (hts ▸ List.mem_of_getLast? hlast)
      exact hcovers.exists_rest

/-- Every error stands at a text of the source. -/
theorem RunError.exists_covers {config : Config α} {process : Direction} {e : RunError α}
    (h : (runSource source config process).result = .error e) :
    ∃ text, e.span.Covers source text := by
  cases hparse : Script.parse (α := α) source with
  | error e' =>
    simp only [runSource, hparse] at h
    cases h
    exact Script.exists_covers_of_parse_error hparse
  | ok script =>
    cases e with
    | syntactic e =>
      simp only [runSource, hparse] at h
      cases hr : (script.run config process).result <;> rw [hr] at h <;> cases h
    | scene e =>
      obtain ⟨p, hp, hblames⟩ :=
        script.failsAt_run config process e (Script.run_of_runSource_error hparse h)
      obtain ⟨ts, hts, hpart⟩ := (Script.isScript_of_parse hparse).exists_phrase hp
      obtain ⟨text, hcovers⟩ := hpart.exists_covers hts
      have hspan : (scene e : RunError α).span = p.span := hblames.span_eq
      exact ⟨text, hspan ▸ hcovers⟩

end

namespace RunError

variable {source : String} {e : RunError α}

/-- What an error marks is what it stands at, read as numbers of characters. -/
theorem location?_eq {text : String} (h : e.span.Covers source text) : e.location? source
    = if e.span.stop ≤ source.length + 1 then Location.ofOffset? source e.span.start else none := by
  obtain ⟨before, after, rfl, hspan⟩ := h
  have hmark : e.mark (before ++ text ++ after) = e.span := by
    rw [mark, hspan]
    simp only [String.utf8ByteSize_append, Span.mk.injEq]
    omega
  rw [location?, hmark]

/-- The place that is printed for an error is that of the character at which it starts if and only
if the text before it is ASCII, and otherwise a later one. None is printed if and only if the error
starts at more bytes than the source has characters, or stops at more than one further on. -/
theorem location_printed [Scalar α] (source filename : String) (config : Config α)
    (process : Direction) (e : RunError α)
    (h : (runSource source config process).result = .error e) :
    ∃ before after place, source = before ++ after ∧ e.span.start = before.utf8ByteSize
      ∧ Location.ofOffset? source before.length = some place
      ∧ ((e.diagnose source filename).location = none
        ↔ source.length < e.span.start ∨ source.length + 1 < e.span.stop)
      ∧ ∀ shown, (e.diagnose source filename).location = some shown →
        (shown = filename ++ ":" ++ place.text ↔ Ascii before)
        ∧ (¬Ascii before →
          ∃ later, shown = filename ++ ":" ++ later.text ∧ place.Precedes later) := by
  obtain ⟨text, hcovers⟩ := exists_covers h
  have hlocation := location?_eq hcovers
  obtain ⟨before, after, hsource, hspan⟩ := hcovers
  have hstart : e.span.start = before.utf8ByteSize := by rw [hspan]
  have hbefore : before.length ≤ source.length := by
    rw [hsource, String.length_append, String.length_append, Nat.add_assoc]
    exact Nat.le_add_right _ _
  obtain ⟨place, hplace⟩ := Location.exists_ofOffset? hbefore
  refine ⟨before, text ++ after, place, ?_, hstart, hplace, ?_, fun shown hshown => ?_⟩
  · rw [hsource, String.append_assoc]
  · rw [diagnose, Option.map_eq_none_iff, hlocation]
    split_ifs with hstop
    · rw [Location.ofOffset?_eq_none]
      omega
    · exact iff_of_true rfl (.inr (Nat.lt_of_not_le hstop))
  · obtain ⟨l, hl, rfl⟩ := Option.map_eq_some_iff.1 hshown
    have hat : Location.ofOffset? source before.utf8ByteSize = some l := by
      rw [hlocation, hstart] at hl
      split_ifs at hl
      exact hl
    have hlater (hascii : ¬Ascii before) : place.Precedes l :=
      Location.precedes_of_lt hplace hat (length_lt_utf8ByteSize hascii)
    refine ⟨⟨fun htext => ?_, fun hascii => ?_⟩, fun hascii => ⟨l, rfl, hlater hascii⟩⟩
    · by_contra hascii
      exact (hlater hascii).ne (Location.text_injective ((String.append_right_inj _).1 htext)).symm
    · rw [ascii_iff.1 hascii, hplace] at hat
      cases hat
      rfl

/-- A failure that passes a check. -/
theorem exists_error {ε β : Type} {x : Except ε β} {check : ε → Bool}
    (h : (match x with | .error e => check e | .ok _ => false) = true) :
    ∃ e, x = .error e ∧ check e = true := by
  cases x with
  | error e => exact ⟨e, rfl, h⟩
  | ok b => cases h

/-- A name behind a comment with two letters of two bytes is found two columns too far. -/
theorem misspelt_name_is_found_later :
    let source := "view card\npin /* größer */ crad: fit_size()"
    ∃ e : RunError Rat, (runSource source .standard .ltr).result = .error e
      ∧ ∃ before after place, source = before ++ after ∧ e.span.start = before.utf8ByteSize
        ∧ Location.ofOffset? source before.length = some place
        ∧ ∃ later : Location, "demo.pin:2:20" = "demo.pin" ++ ":" ++ later.text
          ∧ place.Precedes later := by
  intro source
  obtain ⟨e, he, hcheck⟩ : ∃ e, (runSource (α := Rat) source .standard .ltr).result = .error e
      ∧ decide (e.span.start = 29
        ∧ (e.diagnose source "demo.pin").location = some "demo.pin:2:20") :=
    exists_error (by decide +kernel)
  obtain ⟨hstart₀, hshown⟩ := of_decide_eq_true hcheck
  obtain ⟨before, after, place, hsource, hstart, hplace, -, hprinted⟩ :=
    location_printed source "demo.pin" .standard .ltr e he
  obtain ⟨-, hlater⟩ := hprinted _ hshown
  have htext : before.toList ++ after.toList
      = "view card\npin /* größer */ ".toList ++ "crad: fit_size()".toList := by
    rw [← String.toList_append, ← hsource]
    decide +kernel
  have hwidth : Lexer.width before.toList = Lexer.width "view card\npin /* größer */ ".toList := by
    rw [Lexer.width_toList, ← hstart, hstart₀]
    rfl
  have hascii : ¬Ascii before := by
    rw [String.toList_inj.1 (Lexer.append_inj_of_width htext hwidth).1]
    decide
  exact ⟨e, he, before, after, place, hsource, hstart, hplace, hlater hascii⟩

/-- The end of what is marked is counted in characters as well: with letters of two bytes behind it,
an error may have no place although the text before it is ASCII. -/
theorem unmarked_end :
    let source := "view // ééé"
    ∃ e : RunError Rat, (runSource source .standard .ltr).result = .error e
      ∧ source = "view" ++ " // ééé" ∧ e.span.start = "view".utf8ByteSize ∧ Ascii "view"
      ∧ e.span.start ≤ source.length ∧ (e.diagnose source "demo.pin").location = none := by
  intro source
  obtain ⟨e, he, hcheck⟩ : ∃ e, (runSource (α := Rat) source .standard .ltr).result = .error e
      ∧ decide (e.span.start = 4 ∧ (e.diagnose source "demo.pin").location = none) :=
    exists_error (by decide +kernel)
  obtain ⟨hstart, hnone⟩ := of_decide_eq_true hcheck
  exact ⟨e, he, rfl, hstart, by decide, by rw [hstart]; decide, hnone⟩

end RunError

end Pinning
