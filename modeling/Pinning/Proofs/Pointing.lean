import Pinning.Proofs.Blame
import Pinning.Proofs.Parsing

/-!
# Spans are faithful

The tokens of a source derive its script, so each part of the script has tokens of its own, and its
span is their extent: it covers what it was read from, encloses the spans of its own parts, and keeps
them apart. As errors point at parts, the place of an error shows the name that is wrong, or begins
with it (`Script.spans_faithful`).
-/

namespace Pinning

variable {α : Type}

open Grammar

/-- The place of an error shows what is wrong: the name itself, or what begins with the name of the
node that is missing, or the whole call of the directive. -/
def SceneError.PointsInto (source : String) (script : Script α) : SceneError → Prop
  | .duplicateView name span | .unknownModifier name _ span | .unknownDirective name span _
  | .badDirection name span => span.Covers source name
  | .unknownNode name span _ => ∃ rest, span.Covers source (name ++ rest)
  | .badArguments directive _ span => ∃ c rest, script.Has (.call c) ∧ c.name.value = directive
      ∧ c.span = span ∧ span.Covers source (directive ++ rest)

variable [Scalar α] {source : String} {ts : Phrase α}

theorem Script.isScript_of_parse {script : Script α} (h : Script.parse source = .ok script) :
    IsScript (Lexer.tokens source) script :=
  IsScript.iff_steps.2 (Parser.run_eq_ok_iff.1 h)

/-- A source that is a script fails as the script does. -/
theorem Script.run_of_runSource_error {script : Script α} (hparse : Script.parse source = .ok script)
    {config : Config α} {process : Direction} {e : SceneError}
    (h : (runSource source config process).result = .error (.scene e)) :
    (script.run config process).result = .error e := by
  simp only [runSource, hparse] at h
  cases hr : (script.run config process).result with
  | ok r =>
    rw [hr] at h
    cases h
  | error e' =>
    rw [hr] at h
    cases h
    rfl

/-- A phrase covers a text of the source. -/
theorem IsPart.exists_covers {p : Part α} (h : IsPart ts p) (hts : ts <:+: Lexer.tokens source) :
    ∃ text, p.span.Covers source text := by
  obtain ⟨hne, hspan⟩ := h.span_eq
  obtain ⟨t, us, rfl⟩ := List.exists_cons_of_ne_nil hne
  obtain ⟨word, rest, hcovers, -, -⟩ := Lexer.exists_covers hts
  exact ⟨word ++ rest, hspan ▸ hcovers⟩

/-- A name covers itself. -/
theorem IsPart.covers_text {name : Spanned String} (h : IsPart ts (.text name))
    (hts : ts <:+: Lexer.tokens source) : name.span.Covers source name.value := by
  cases h
  obtain ⟨rest, hcovers, hempty⟩ := Lexer.covers_of_ident hts
  rwa [hempty rfl, String.append_empty] at hcovers

/-- What an error is about is where the error says. -/
theorem SceneError.Blames.pointsInto {script : Script α} {e : SceneError} {p : Part α}
    (he : e.Blames p) (hp : script.Has p) (h : IsPart ts p) (hts : ts <:+: Lexer.tokens source) :
    e.PointsInto source script := by
  cases he with
  | view | modifier | directive | direction => exact h.covers_text hts
  | target name known => exact ⟨"", by rw [String.append_empty]; exact h.covers_text hts⟩
  | name span node known =>
    cases h
    obtain ⟨rest, hcovers, -⟩ := Lexer.covers_of_ident hts
    exact ⟨rest, hcovers⟩
  | member span node member known =>
    cases h
    obtain ⟨rest, hcovers, -⟩ := Lexer.covers_of_ident hts
    exact ⟨rest, hcovers⟩
  | arguments c usage =>
    cases h with
    | mk name h =>
      obtain ⟨rest, hcovers, -⟩ := Lexer.covers_of_ident hts
      exact ⟨_, rest, hp, rfl, rfl, hcovers⟩

/-- Spans are faithful. Every part of a script that is read from a source stands in it from the first
of its tokens to the last: a name covers itself, a part encloses its own parts, and these are apart.
So where a run fails, the place of the error covers the name that is wrong, begins with the name of
the view that is missing, or is the whole call of the directive. -/
theorem Script.spans_faithful (source : String) (script : Script α)
    (hparse : Script.parse source = .ok script) :
    (∀ p, script.Has p →
      (∃ ts, ts ≠ [] ∧ ts <:+: Lexer.tokens source ∧ IsPart ts p ∧ p.span = extent ts)
      ∧ (∃ text, p.span.Covers source text)
      ∧ (∀ name, p = .text name → p.span.Covers source name.value)
      ∧ (∀ q ∈ p.parts, p.span.Encloses q.span)
      ∧ Span.Apart (p.parts.map Part.span))
    ∧ Span.Apart (script.statements.map Statement.span)
    ∧ ∀ (config : Config α) (process : Direction) (e : SceneError),
      (runSource source config process).result = .error (.scene e) →
      e.PointsInto source script := by
  have hscript : IsScript (Lexer.tokens source) script := isScript_of_parse hparse
  have hapart := Lexer.apart_tokens (α := α) source
  have hparts : ∀ (us : Phrase α) (p : Part α), IsPart us p → us ≠ [] ∧ p.span = extent us :=
    fun _ _ h => h.span_eq
  refine ⟨fun p hp => ?_, ?_, fun config process e he => ?_⟩
  · obtain ⟨ts, hts, hpart⟩ := hscript.exists_phrase hp
    obtain ⟨hne, hspan⟩ := hpart.span_eq
    have htokens := hapart.sublist (hts.sublist.map (·.span))
    refine ⟨⟨ts, hne, hts, hpart, hspan⟩, hpart.exists_covers hts, ?_, ?_, ?_⟩
    · rintro name rfl
      exact hpart.covers_text hts
    · intro q hq
      obtain ⟨us, hus, hq⟩ := hpart.inOrder.exists_infix hq
      obtain ⟨husne, hqspan⟩ := hq.span_eq
      rw [hspan, hqspan]
      exact extent_encloses htokens hus husne
    · exact hpart.inOrder.apart hparts htokens
  · have hspans : script.statements.map Statement.span
        = (script.statements.map Statement.part).map Part.span := by
      rw [List.map_map]
      exact List.map_congr_left fun st _ => st.span_part.symm
    rw [hspans]
    exact hscript.inOrder.apart hparts hapart
  · have hrun := run_of_runSource_error hparse he
    obtain ⟨p, hp, hblames⟩ := script.failsAt_run config process e hrun
    obtain ⟨ts, hts, hpart⟩ := hscript.exists_phrase hp
    exact hblames.pointsInto hp hpart hts

/-- A misspelt name, and the edge after it, behind comments with letters of two bytes. -/
theorem Script.misspelt_edge :
    let source := "view card // größer\npin card: top(/* å */ crad.bottom)"
    let e : SceneError := .ofNode "crad" ⟨45, 56⟩ ["card"]
    ∃ script : Script Rat, Script.parse source = .ok script
      ∧ (∀ p, script.Has p → ∃ text, p.span.Covers source text)
      ∧ (runSource (α := Rat) source .standard .ltr).result = .error (.scene e)
      ∧ e.PointsInto source script := by
  intro source e
  have herror : (match (runSource (α := Rat) source .standard .ltr).result with
      | .error (.scene e') => decide (e' = e)
      | _ => false) = true := by decide +kernel
  have hrun : (runSource (α := Rat) source .standard .ltr).result = .error (.scene e) := by
    split at herror
    · rename_i e' he'
      rw [he', of_decide_eq_true herror]
    · cases herror
  cases hparse : Script.parse (α := Rat) source with
  | error e' => simp [runSource, hparse] at hrun
  | ok script =>
    obtain ⟨hparts, -, herrors⟩ := spans_faithful source script hparse
    exact ⟨script, rfl, fun p hp => (hparts p hp).2.1, hrun, herrors .standard .ltr e hrun⟩

end Pinning
