import Pinning.Proofs.Recognition
import Pinning.Scalar.Rational

/-!
# Reading is deciding the grammar

Running the parser is taking the tokens one by one (`Parser.run_eq_ok_iff`), so a source is read
as a script exactly where its tokens derive that script (`Script.parse_eq_ok_iff`), and the tokens
derive no other: what a phrase derives is what the parser comes to, and there is only one run.
-/

namespace Pinning

variable {α : Type}

open Grammar

namespace Parser

section

variable [Neg α]

/-- All that the error lists where nothing more can be taken. -/
def State.expected (s : State α) : List Terminal := Terminal.all.filter s.accepts

variable {length pos : Nat} {s : State α} {ts : Phrase α}

theorem run_cons_of_step {s' : State α} {t : Spanned (Token α)} (h : s.step? t = some s') :
    run length pos s (t :: ts) = run length t.span.stop s' ts := by
  rw [run, h]

theorem run_eq_ok_iff {script : Script α} :
    run length pos s ts = .ok script ↔ ∃ s', s.steps? ts = some s' ∧ s'.script? = some script := by
  induction ts generalizing pos s with
  | nil =>
    simp only [run, State.steps?_nil, Option.some.injEq, exists_eq_left']
    cases s.script? <;> simp
  | cons t ts ih =>
    rw [State.steps?_cons]
    cases h : s.step? t with
    | none => simp [run, h]
    | some s₁ => rw [run_cons_of_step h, ih, Option.bind_some]

/-- A run fails at a token that cannot be taken, or after all of them, where no script may end. -/
theorem exists_of_run_error {e : SyntaxError α} (h : run length pos s ts = .error e) :
    ∃ pre s', s.steps? pre = some s' ∧ e.expected = s'.expected ∧
      ((∃ t post, ts = pre ++ t :: post ∧ s'.step? t = none ∧ e.span = t.span
          ∧ e.found = some t.value)
        ∨ ts = pre ∧ s'.script? = none ∧ e.span = ⟨pre.getLast?.elim pos (·.span.stop), length⟩
          ∧ e.found = none) := by
  induction ts generalizing pos s with
  | nil =>
    rw [run] at h
    cases hs : s.script? with
    | none =>
      rw [hs] at h
      cases h
      exact ⟨[], s, rfl, rfl, .inr ⟨rfl, hs, rfl, rfl⟩⟩
    | some script =>
      rw [hs] at h
      cases h
  | cons t ts ih =>
    cases hs : s.step? t with
    | none =>
      rw [run, hs] at h
      cases h
      exact ⟨[], s, rfl, rfl, .inl ⟨t, ts, rfl, hs, rfl, rfl⟩⟩
    | some s₁ =>
      rw [run_cons_of_step hs] at h
      obtain ⟨pre, s', hs', hexpected, hplace⟩ := ih h
      refine ⟨t :: pre, s', ?_, hexpected, ?_⟩
      · rw [State.steps?_cons, hs]
        exact hs'
      · rcases hplace with ⟨u, post, rfl, hplace⟩ | ⟨rfl, hscript, hspan, hfound⟩
        · exact .inl ⟨u, post, rfl, hplace⟩
        · refine .inr ⟨rfl, hscript, ?_, hfound⟩
          rw [hspan, List.getLast?_cons]
          cases ts.getLast? <;> rfl

end

end Parser

namespace Grammar.IsScript

variable [Neg α] {ts : Phrase α} {script script' : Script α}

theorem unique (h : IsScript ts script) (h' : IsScript ts script') : script = script' := by
  obtain ⟨s, hs, hscript⟩ := Parser.State.exists_steps_of_isScript h
  obtain ⟨s', hs', hscript'⟩ := Parser.State.exists_steps_of_isScript h'
  cases hs.symm.trans hs'
  exact Option.some.inj (hscript.symm.trans hscript')

theorem iff_steps :
    IsScript ts script ↔ ∃ s, ({} : Parser.State α).steps? ts = some s ∧ s.script? = some script :=
  ⟨Parser.State.exists_steps_of_isScript, fun ⟨_, hs, h⟩ => Parser.State.isScript_of_steps hs h⟩

end Grammar.IsScript

/-- A source is read as a script exactly where the grammar derives that from its tokens, and the
grammar derives at most one script from any tokens. -/
theorem Script.parse_eq_ok_iff [Scalar α] :
    (∀ (source : String) (script : Script α),
      Script.parse source = .ok script ↔ IsScript (Lexer.tokens source) script)
    ∧ ∀ (ts : Phrase α) (script script' : Script α),
      IsScript ts script → IsScript ts script' → script = script' := by
  constructor
  · intro source script
    rw [Script.parse, Parser.run_eq_ok_iff, IsScript.iff_steps]
  · intro ts script script' h h'
    exact h.unique h'

theorem Script.badge_above_card_reads_one_way :
    ∃ script : Script Rat, ∀ script',
      IsScript (Lexer.tokens "pin badge: left(-5%).above([card, menu.top], x: 1,)") script'
        ↔ script' = script := by
  have hok : (Script.parse (α := Rat) "pin badge: left(-5%).above([card, menu.top], x: 1,)"
      ).toOption.isSome := by decide +kernel
  cases hparse : Script.parse (α := Rat) "pin badge: left(-5%).above([card, menu.top], x: 1,)" with
  | error e => simp [hparse, Except.toOption] at hok
  | ok script =>
    have h := (Script.parse_eq_ok_iff.1 _ _).1 hparse
    refine ⟨script, fun script' => ⟨fun h' => Script.parse_eq_ok_iff.2 _ _ _ h' h, ?_⟩⟩
    rintro rfl
    exact h

end Pinning
