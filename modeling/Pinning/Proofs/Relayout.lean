import Pinning.Proofs.Layout
import Pinning.Proofs.Parsing
import Pinning.Proofs.Placement
import Pinning.Scalar.Rational

/-!
# The layout of a source does not matter

Tokens can be numbered instead of placed (`numbered`). A source is then read and run as its numbered
tokens are, with the places of the tokens put for their numbers. So two sources with the same tokens
have the same syntax tree but for places (`Script.parse_sameTree`), and they come to the same report
or to the same error, at places with the same numbers (`runSource_sameResult`). With what is known
of the tokens of a source that is laid out anew this is `Layout.runSource_relaid`.
-/

namespace Pinning

variable {α : Type}

open Grammar

/-- Tokens with their numbers as places. -/
def numbered (vs : List (Token α)) : Phrase α := vs.mapIdx fun i v => ⟨v, ⟨i, i⟩⟩

namespace Relocation

/-- The places of tokens for their numbers. -/
def onto (ts : Phrase α) : Relocation where
  start i := ts[i]?.elim 0 (·.span.start)
  stop i := ts[i]?.elim 0 (·.span.stop)

/-- Numbers past the last are put back to it. -/
def clip (n : Nat) : Relocation := ⟨fun i => min i (n - 1), fun i => min i (n - 1)⟩

end Relocation

theorem relocate_numbered (ts : Phrase α) :
    (numbered (ts.map (·.value))).map (Spanned.relocate (.onto ts)) = ts := by
  refine List.ext_getElem? fun i => ?_
  rw [numbered, List.getElem?_map, List.getElem?_mapIdx, List.getElem?_map]
  cases h : ts[i]? with
  | none => rfl
  | some t => simp [Spanned.relocate, Span.relocate, Relocation.onto, h]

theorem getElem?_numbered {vs : List (Token α)} {i : Nat} {t : Spanned (Token α)}
    (h : (numbered vs)[i]? = some t) : i < vs.length ∧ t.span = ⟨i, i⟩ := by
  rw [numbered, List.getElem?_mapIdx] at h
  obtain ⟨v, hv, rfl⟩ := Option.map_eq_some_iff.1 h
  exact ⟨(List.getElem?_eq_some_iff.1 hv).1, rfl⟩

theorem stop_extent_numbered (ts : Phrase α) :
    (extent ts).stop = (Relocation.onto ts).stop
      ((numbered (ts.map (·.value))).getLast?.elim 0 (·.span.stop)) := by
  rcases List.eq_nil_or_concat ts with rfl | ⟨ts, t, rfl⟩
  · rfl
  · simp [extent, numbered, List.mapIdx_append, Relocation.onto]

theorem clip_numbered (vs : List (Token α)) :
    (numbered vs).map (Spanned.relocate (.clip vs.length)) = numbered vs := by
  refine List.ext_getElem? fun i => ?_
  rw [numbered, List.getElem?_map, List.getElem?_mapIdx]
  cases h : vs[i]? with
  | none => rfl
  | some v =>
    have hi : i < vs.length := (List.getElem?_eq_some_iff.1 h).1
    have hmin : min i (vs.length - 1) = i := by omega
    simp [Spanned.relocate, Span.relocate, Relocation.clip, hmin]

theorem exists_mem_zip {ts ts' : Phrase α} (h : ts'.length = ts.length) {i : Nat}
    (hi : i < ts.length) : ∃ p ∈ ts.zip ts', ts[i]? = some p.1 ∧ ts'[i]? = some p.2 := by
  refine ⟨(ts[i], ts'.get ⟨i, h ▸ hi⟩), ?_, List.getElem?_eq_getElem hi,
    List.getElem?_eq_getElem (h ▸ hi)⟩
  exact List.mem_of_getElem? (i := i) (by simp [hi, h])

namespace Parser

variable [Neg α]

/-- Where reading starts does not matter, since a source without tokens is a script. -/
theorem run_start (length pos pos' : Nat) (ts : Phrase α) :
    run length pos {} ts = run length pos' {} ts := by
  cases ts <;> rfl

theorem run_map_relocate (r : Relocation) (length length' : Nat) (ts : Phrase α) :
    run length' 0 {} (ts.map (Spanned.relocate r))
      = ((run length 0 {} ts).map (Script.relocate r)).mapError
          (SyntaxError.relocate r length') := by
  rw [run_start length' 0 (r.stop 0)]
  exact run_relocate r length length' 0 {} ts

end Parser

namespace SceneError

theorem relocate_span (r : Relocation) (e : SceneError) :
    (e.relocate r).span = e.span.relocate r := by
  cases e <;> rfl

theorem relocate_const (r r' : Relocation) (e : SceneError) :
    (e.relocate r).relocate (.const (e.span.relocate r')) = e.relocate r' := by
  cases e <;> rfl

end SceneError

variable [Scalar α]

/-- Numbered tokens that are read as a script fail, if at all, at one of these numbers. -/
theorem Script.run_numbered {vs : List (Token α)} {script : Script α}
    (h : Parser.run 0 0 {} (numbered vs) = .ok script) {config : Config α} {process : Direction}
    {e : SceneError} (he : (script.run config process).result = .error e) :
    e.span.start < vs.length ∧ e.span.stop < vs.length := by
  -- To clip the numbers changes nothing, the error included.
  have hclip := Parser.run_map_relocate (.clip vs.length) 0 0 (numbered vs)
  rw [clip_numbered, h] at hclip
  have hscript : script = script.relocate (.clip vs.length) := Except.ok.inj hclip
  have hrun := congrArg Outcome.result (script.relocate_run (.clip vs.length) config process)
  rw [← hscript, Outcome.relocate, he] at hrun
  have hspan := congrArg SceneError.span (Except.error.inj hrun)
  rw [SceneError.relocate_span] at hspan
  have hne : vs.length ≠ 0 := by
    intro hzero
    obtain rfl := List.length_eq_zero_iff.1 hzero
    cases h
    cases he
  rw [hspan]
  constructor <;>
  · simp only [Span.relocate, Relocation.clip]
    omega

variable (α) in
/-- Places in two sources that correspond: from the start of a token to the end of a token, or from
the end of the last token to the end of the source. -/
inductive Corresponding (source source' : String) : Span → Span → Prop
  | tokens {a b : Spanned (Token α) × Spanned (Token α)}
    (ha : a ∈ (Lexer.tokens source).zip (Lexer.tokens source'))
    (hb : b ∈ (Lexer.tokens source).zip (Lexer.tokens source')) :
    Corresponding source source' ⟨a.1.span.start, b.1.span.stop⟩ ⟨a.2.span.start, b.2.span.stop⟩
  | ending :
    Corresponding source source'
      ⟨(extent (Lexer.tokens source : Phrase α)).stop, source.utf8ByteSize⟩
      ⟨(extent (Lexer.tokens source' : Phrase α)).stop, source'.utf8ByteSize⟩

/-- The same report, or the same error at corresponding places. -/
inductive SameResult (source source' : String) :
    Except (RunError α) (Report α) → Except (RunError α) (Report α) → Prop
  | report (r : Report α) : SameResult source source' (.ok r) (.ok r)
  | syntactic {s s' : Span} (h : Corresponding α source source' s s') (found : Option (Token α))
    (expected : List Terminal) :
    SameResult source source' (.error (.syntactic ⟨s, found, expected⟩))
      (.error (.syntactic ⟨s', found, expected⟩))
  | scene {e : SceneError} {s' : Span} (h : Corresponding α source source' e.span s') :
    SameResult source source' (.error (.scene e)) (.error (.scene (e.relocate (.const s'))))

section SameTokens

variable {source source' : String}
  (hvalues : (Lexer.tokens source' : Phrase α).map (·.value) = (Lexer.tokens source).map (·.value))

include hvalues

theorem Corresponding.of_numbers {s : Span}
    (hstart : s.start < (Lexer.tokens source : Phrase α).length)
    (hstop : s.stop < (Lexer.tokens source : Phrase α).length) :
    Corresponding α source source' (s.relocate (.onto (Lexer.tokens source : Phrase α)))
      (s.relocate (.onto (Lexer.tokens source' : Phrase α))) := by
  have hlength := congrArg List.length hvalues
  rw [List.length_map, List.length_map] at hlength
  obtain ⟨a, ha, hfst, hsnd⟩ := exists_mem_zip hlength hstart
  obtain ⟨b, hb, hfst', hsnd'⟩ := exists_mem_zip hlength hstop
  simp only [Span.relocate, Relocation.onto, hfst, hsnd, hfst', hsnd']
  exact .tokens ha hb

/-- Numbered tokens that are not read as a script fail at one of them, or after the last. -/
theorem Corresponding.of_run_numbered {e : SyntaxError α}
    (he : Parser.run 0 0 {} (numbered ((Lexer.tokens source : Phrase α).map (·.value)))
      = .error e) :
    Corresponding α source source'
      (e.relocate (.onto (Lexer.tokens source : Phrase α)) source.utf8ByteSize).span
      (e.relocate (.onto (Lexer.tokens source' : Phrase α)) source'.utf8ByteSize).span := by
  obtain ⟨pre, s, -, -, hplace⟩ := Parser.exists_of_run_error he
  rcases hplace with ⟨t, post, htokens, -, hspan, hfound⟩ | ⟨htokens, -, hspan, hfound⟩
  · have ht : (numbered ((Lexer.tokens source : Phrase α).map (·.value)))[pre.length]?
        = some t := by
      rw [htokens, List.getElem?_append_right (Nat.le_refl _), Nat.sub_self]
      rfl
    obtain ⟨hlt, hi⟩ := getElem?_numbered ht
    rw [List.length_map] at hlt
    simp only [SyntaxError.relocate, hfound, hspan, hi]
    exact .of_numbers hvalues hlt hlt
  · have hstop := stop_extent_numbered (Lexer.tokens source : Phrase α)
    have hstop' := stop_extent_numbered (Lexer.tokens source' : Phrase α)
    rw [htokens] at hstop
    rw [hvalues, htokens] at hstop'
    simp only [SyntaxError.relocate, hfound, hspan]
    rw [← hstop, ← hstop']
    exact .ending

/-- Sources with the same tokens have the same syntax tree, but for places. -/
theorem Script.parse_sameTree :
    (Script.parse source' : Except (SyntaxError α) (Script α)).toOption.map
        (Script.relocate .nowhere)
      = (Script.parse source).toOption.map (Script.relocate .nowhere) := by
  have hplaceless (length : Nat) (ts : Phrase α) :
      (Parser.run length 0 {} ts).toOption.map (Script.relocate .nowhere)
        = (Parser.run 0 0 {} ((ts.map (·.value)).map fun v => ⟨v, ⟨0, 0⟩⟩)).toOption := by
    have hts : (ts.map (·.value)).map (fun v => (⟨v, ⟨0, 0⟩⟩ : Spanned (Token α)))
        = ts.map (Spanned.relocate .nowhere) := List.map_map
    rw [hts, Parser.run_map_relocate .nowhere length]
    cases Parser.run length 0 {} ts <;> rfl
  rw [parse, parse, hplaceless, hplaceless, hvalues]

/-- Sources with the same tokens come to the same. -/
theorem runSource_sameResult (config : Config α) (process : Direction) :
    SameResult source source' (runSource source config process).result
        (runSource source' config process).result
      ∧ (runSource source' config process).log = (runSource source config process).log := by
  have hparse (source : String) : (Script.parse source : Except (SyntaxError α) (Script α))
      = ((Parser.run 0 0 {} (numbered ((Lexer.tokens source : Phrase α).map (·.value)))).map
          (Script.relocate (.onto (Lexer.tokens source : Phrase α)))).mapError
            (SyntaxError.relocate (.onto (Lexer.tokens source : Phrase α))
              source.utf8ByteSize) := by
    rw [← Parser.run_map_relocate, relocate_numbered]
    rfl
  unfold runSource
  rw [hparse source, hparse source', hvalues]
  cases h : Parser.run 0 0 {} (numbered ((Lexer.tokens source : Phrase α).map (·.value))) with
  | error e => exact ⟨.syntactic (.of_run_numbered hvalues h) e.found e.expected, rfl⟩
  | ok script =>
    simp only [Except.map, Except.mapError]
    rw [script.relocate_run, script.relocate_run]
    refine ⟨?_, rfl⟩
    cases hresult : (script.run config process).result with
    | ok report =>
      simp only [Outcome.relocate, hresult]
      exact .report report
    | error e =>
      obtain ⟨hstart, hstop⟩ := Script.run_numbered h hresult
      rw [List.length_map] at hstart hstop
      have hplaces := Corresponding.of_numbers hvalues hstart hstop
      rw [← SceneError.relocate_span] at hplaces
      have hscene := SameResult.scene hplaces
      rw [SceneError.relocate_const] at hscene
      simp only [Outcome.relocate, hresult]
      exact hscene

end SameTokens

/-- The layout of a source does not change what comes of it. Every source has a layout, and another
source with the same words and other gaps has the same tokens at these words, the same syntax tree
but for places, and the same report or the same error at corresponding places. -/
theorem Layout.runSource_relaid {source : String}
    (hknown : ∀ t ∈ (Lexer.tokens source : Phrase α), t.value ≠ .unknown) :
    (∃ l : Layout, l.source = source ∧ l.Fits α)
      ∧ ∀ l l' : Layout, l.source = source → l.Fits α → l.Relaid l' →
        (Lexer.tokens l'.source : Phrase α).map (·.value) = (Lexer.tokens source).map (·.value)
        ∧ l'.Fits α
        ∧ (Script.parse l'.source : Except (SyntaxError α) (Script α)).toOption.map
            (Script.relocate .nowhere)
          = (Script.parse source).toOption.map (Script.relocate .nowhere)
        ∧ ∀ (config : Config α) (process : Direction),
          SameResult source l'.source (runSource source config process).result
              (runSource l'.source config process).result
            ∧ (runSource l'.source config process).log = (runSource source config process).log := by
  refine ⟨exists_of_source α source, ?_⟩
  rintro l l' rfl hfits hrelaid
  obtain ⟨hvalues, hfits'⟩ := hrelaid.tokens hfits hknown
  exact ⟨hvalues, hfits', Script.parse_sameTree hvalues, runSource_sameResult hvalues⟩

theorem Layout.view_between_comments_runs_alike :
    SameResult (α := Rat) "view a" "/* */view\n\ta// end" (runSource "view a" .standard .ltr).result
      (runSource "/* */view\n\ta// end" .standard .ltr).result := by
  have hknown : ∀ t ∈ (Lexer.tokens "view a" : Phrase Rat), t.value ≠ .unknown := by
    decide +kernel
  let view : List Char := ['v', 'i', 'e', 'w']
  let l : Layout := ⟨[⟨[], view⟩, ⟨[' '], ['a']⟩], []⟩
  let l' : Layout :=
    ⟨[⟨['/', '*', ' ', '*', '/'], view⟩, ⟨['\n', '\t'], ['a']⟩], ['/', '/', ' ', 'e', 'n', 'd']⟩
  have hsource : l.source = "view a" := by decide +kernel
  have hsource' : l'.source = "/* */view\n\ta// end" := by decide +kernel
  have hfits : l.Fits Rat := by
    rw [Layout.Fits, hsource]
    decide +kernel
  have hrelaid : l.Relaid l' := by
    refine ⟨.cons ⟨rfl, ?_, fun _ => nofun⟩ (.cons ⟨rfl, ?_, fun _ => nofun⟩ .nil), ?_⟩
    · exact @Lexer.Blank.block [' ', '*', '/'] [] rfl .nil
    · exact .char rfl (.char rfl .nil)
    · exact @Lexer.BlankEnd.line [] [' ', 'e', 'n', 'd'] .nil (by decide)
  obtain ⟨-, -, -, hrun⟩ := (Layout.runSource_relaid hknown).2 l l' hsource hfits hrelaid
  have hresult := (hrun .standard .ltr).1
  rw [hsource'] at hresult
  exact hresult

end Pinning
