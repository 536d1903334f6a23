import Pinning.Proofs.Parsing
import Pinning.Proofs.Relocation
import Pinning.Scalar.Double
import Pinning.Scalar.Rational

/-!
# Where reading fails

No state of the parser is a dead end: open lists, arguments and calls can be closed, views too, and
a number or a name can be put wherever one has to follow (`Parser.State.completes`). The tokens that
can be taken are therefore those that some script begins with (`Grammar.viable_iff_steps`), and the
parser stops where the tokens before can go on to a script and those with the next one cannot. What
it lists as expected is what can go on from there (`Script.parse_error_at_viable_prefix`).
-/

namespace Pinning

variable {α : Type}

open Grammar

namespace Parser.State

variable [Neg α]

/-- A script can be reached from here. -/
def Completes (s : State α) : Prop :=
  ∃ us s' script, s.steps? us = some s' ∧ s'.script? = some script

variable {s s' : State α}

theorem Completes.of_script {script : Script α} (h : s.script? = some script) : s.Completes :=
  ⟨[], s, script, rfl, h⟩

/-- Some token leads on to a state from which a script can be reached. -/
theorem Completes.of_token (h' : s'.Completes) (v : Token α)
    (h : s.extend? ⟨v, ⟨0, 0⟩⟩ = some s') : s.Completes := by
  obtain ⟨us, s'', script, hs, hscript⟩ := h'
  refine ⟨⟨v, ⟨0, 0⟩⟩ :: us, s'', script, ?_, hscript⟩
  rw [(extend?_eq_some_iff.1 h).steps?]
  exact hs

theorem completes_called (done : List (Statement α)) (p : OpenPin α) (stop : Nat) :
    (⟨done, .called p stop⟩ : State α).Completes := .of_script rfl

theorem completes_within (done : List (Statement α)) (parents : List (OpenView α)) :
    (within done parents).Completes := by
  cases parents with
  | nil => exact .of_script rfl
  | cons p ps =>
    induction ps generalizing done p with
    | nil => exact .of_token (.of_script rfl) (.mark .braceClose) rfl
    | cons q qs ih => exact .of_token (ih done _) (.mark .braceClose) rfl

/-- Modifiers are closed, and an empty list of children is put after the name or them. -/
theorem completes_view (x : α) (done : List (Statement α)) (phase : ViewPhase α)
    (parents : List (OpenView α)) : (⟨done, .view phase parents⟩ : State α).Completes := by
  have named (v) : (⟨done, .view (.named v) parents⟩ : State α).Completes :=
    .of_token (completes_within done (v :: parents)) (.mark .braceOpen) rfl
  have modified (v stop) : (⟨done, .view (.modified v stop) parents⟩ : State α).Completes :=
    .of_token (completes_within done (v :: parents)) (.mark .braceOpen) rfl
  have modifier (v) : (⟨done, .view (.modifier v) parents⟩ : State α).Completes :=
    .of_token (modified v 0) (.mark .bracketClose) rfl
  have colon (v key) : (⟨done, .view (.colon v key) parents⟩ : State α).Completes :=
    .of_token (modifier _) (.number x) rfl
  cases phase with
  | keyword start => exact .of_token (named _) (.ident "") rfl
  | named v => exact named v
  | modifiers v => exact .of_token (modified v 0) (.mark .bracketClose) rfl
  | key v key => exact .of_token (colon v key) (.mark .colon) rfl
  | colon v key => exact colon v key
  | minus v key start => exact .of_token (modifier _) (.number x) rfl
  | modifier v => exact modifier v
  | modified v stop => exact modified v stop
  | children v => exact completes_within done (v :: parents)

/-- Where the innermost list may end, all lists around it can be closed, and then the call. -/
theorem completes_of_closed (done : List (Statement α)) (p : OpenPin α) (name : Spanned String)
    {o : OpenArgs α} {items : List (Arg α)} (h : o.closed? = some items) :
    (⟨done, .args p name o⟩ : State α).Completes := by
  induction hl : o.lists generalizing o items with
  | nil =>
    have hargs : o.args? = some items := by rw [OpenArgs.args?, hl, ← h]; rfl
    have hcalled := completes_called done
      { p with calls := p.calls ++ [⟨⟨name.span.start, 0⟩, name, items⟩] } 0
    have hclose := Extends.parenClose done p name hargs ⟨0, 0⟩
    exact .of_token hcalled (.mark .parenClose) (extend?_eq_some_iff.2 hclose)
  | cons l ls ih =>
    have hlist := ih (o := ⟨.complete (.list ⟨l.start, 0⟩ items), l.keys, l.items, ls⟩) rfl rfl
    have hclose := Extends.arg done p name (.close hl h ⟨0, 0⟩)
    exact .of_token hlist (.mark .bracketClose) (extend?_eq_some_iff.2 hclose)

theorem completes_args (x : α) (done : List (Statement α)) (p : OpenPin α) (name : Spanned String)
    (o : OpenArgs α) : (⟨done, .args p name o⟩ : State α).Completes := by
  obtain ⟨phase, keys, items, lists⟩ := o
  cases phase with
  | keyed | minus => exact .of_token (completes_of_closed done p name rfl) (.number x) rfl
  | dot n => exact .of_token (completes_of_closed done p name rfl) (.ident "") rfl
  | ready | number | word | complete => exact completes_of_closed done p name rfl

/-- There are no dead ends. -/
theorem completes (x : α) (s : State α) : s.Completes := by
  obtain ⟨done, pending⟩ := s
  have call (p name) : (⟨done, .call p name⟩ : State α).Completes :=
    .of_token (completes_args x done p name {}) (.mark .parenOpen) rfl
  have chain (p) : (⟨done, .chain p⟩ : State α).Completes := .of_token (call p _) (.ident "") rfl
  have target (start name) : (⟨done, .target start name⟩ : State α).Completes :=
    .of_token (chain _) (.mark .colon) rfl
  cases pending with
  | none => exact completes_within done []
  | direction start => exact .of_token (completes_within _ []) (.ident "") rfl
  | pin start => exact .of_token (target start _) (.ident "") rfl
  | target start name => exact target start name
  | chain p => exact chain p
  | call p name => exact call p name
  | args p name o => exact completes_args x done p name o
  | called p stop => exact completes_called done p stop
  | view phase parents => exact completes_view x done phase parents

theorem Extends.value_ne_unknown {t : Spanned (Token α)} (h : s.Extends t s') :
    t.value ≠ .unknown := by
  cases h with
  | arg _ _ _ h => cases h <;> nofun
  | view _ _ h => cases h <;> nofun
  | _ => nofun

theorem extend?_unknown (s : State α) (p : Span) : s.extend? ⟨.unknown, p⟩ = none := by
  rw [Option.eq_none_iff_forall_ne_some]
  intro s' h
  exact (extend?_eq_some_iff.1 h).value_ne_unknown rfl

/-- What is no token is taken nowhere. -/
theorem step?_unknown (s : State α) (p : Span) : s.step? ⟨.unknown, p⟩ = none := by
  rw [step?, extend?_unknown]
  exact Option.bind_eq_none_iff.2 fun s' _ => extend?_unknown s' p

end Parser.State

namespace Grammar

variable [Neg α] {ts : Phrase α}

/-- Some script begins with these tokens. -/
def Viable (ts : Phrase α) : Prop := ∃ us script, IsScript (ts ++ us) script

theorem viable_iff_steps (x : α) :
    Viable ts ↔ ∃ s, ({} : Parser.State α).steps? ts = some s := by
  constructor
  · rintro ⟨us, script, h⟩
    obtain ⟨s, hs, -⟩ := IsScript.iff_steps.1 h
    rw [Parser.State.steps?_append] at hs
    obtain ⟨s', hs', -⟩ := Option.bind_eq_some_iff.1 hs
    exact ⟨s', hs'⟩
  · rintro ⟨s, hs⟩
    obtain ⟨us, s', script, hs', hscript⟩ := s.completes x
    refine ⟨us, script, IsScript.iff_steps.2 ⟨s', ?_, hscript⟩⟩
    rw [Parser.State.steps?_append, hs]
    exact hs'

theorem isScript_iff_script? {s : Parser.State α} (hs : ({} : Parser.State α).steps? ts = some s) :
    (∃ script, IsScript ts script) ↔ s.script?.isSome := by
  simp only [IsScript.iff_steps, hs, Option.some.injEq, exists_eq_left', Option.isSome_iff_exists]

theorem viable_concat_iff (x : α) {s : Parser.State α}
    (hs : ({} : Parser.State α).steps? ts = some s) (t : Spanned (Token α)) :
    Viable (ts ++ [t]) ↔ (s.step? t).isSome := by
  rw [viable_iff_steps x, Parser.State.steps?_append, hs, Option.bind_some,
    Parser.State.steps?_cons]
  cases s.step? t <;> simp

end Grammar

/-- The token that a listed text is; none is the end of the input. -/
def Terminal.token? : Terminal → Option (Token α)
  | mark m => some (.mark m)
  | keyword k => some (.keyword k)
  | endOfInput => none

/-- Tokens that are neither names nor numbers. -/
def Token.IsFixed : Token α → Prop
  | ident _ | number _ => False
  | keyword _ | mark _ | unknown => True

theorem Terminal.mem_all (x : Terminal) : x ∈ all := by
  cases x with
  | mark m => cases m <;> decide
  | keyword k => cases k <;> decide
  | endOfInput => decide

theorem Terminal.token?_eq_some_iff {x : Terminal} {t : Token α} :
    x.token? = some t
      ↔ (∃ m, x = .mark m ∧ t = .mark m) ∨ ∃ k, x = .keyword k ∧ t = .keyword k := by
  cases x <;> simp [token?, eq_comm]

namespace Parser.State

variable [Neg α] {ts : Phrase α} {s : State α}

theorem mem_expected {x : Terminal} : x ∈ s.expected ↔ s.accepts x := by
  simp [expected, Terminal.mem_all]

/-- What is listed where the parser stands is what viable tokens can go on with. -/
theorem expected_iff_viable (x : α) (hs : ({} : State α).steps? ts = some s) {t : Token α}
    (ht : t.IsFixed) (p : Span) :
    (∃ y ∈ s.expected, y.token? = some t) ↔ Viable (ts ++ [⟨t, p⟩]) := by
  rw [viable_concat_iff x hs, s.isSome_step? t p ⟨0, 0⟩]
  simp only [mem_expected, Terminal.token?_eq_some_iff]
  cases t with
  | keyword k => simp [accepts]
  | mark m => simp [accepts]
  | unknown => simp [step?_unknown]
  | ident | number => exact ht.elim

end Parser.State

variable [Scalar α]

/-- A source that is no script fails after the longest part of it that some script begins with: at
the next token, or between the last token and the end of the source. The fixed tokens that are
listed as expected are those that some script goes on with. -/
theorem Script.parse_error_at_viable_prefix {source : String} {e : SyntaxError α}
    (h : Script.parse source = .error e) :
    ∃ pre : Phrase α, Viable pre
      ∧ ((∃ t post, Lexer.tokens source = pre ++ t :: post ∧ ¬Viable (pre ++ [t])
            ∧ e.span = t.span ∧ e.found = some t.value)
          ∨ Lexer.tokens source = pre ∧ (¬∃ script, IsScript pre script)
            ∧ e.span = ⟨(extent pre).stop, source.utf8ByteSize⟩ ∧ e.found = none)
      ∧ (∀ t : Token α, t.IsFixed → ∀ p : Span,
          (∃ x ∈ e.expected, x.token? = some t) ↔ Viable (pre ++ [⟨t, p⟩]))
      ∧ (.endOfInput ∈ e.expected ↔ ∃ script, IsScript pre script) := by
  obtain ⟨pre, s, hs, hexpected, hplace⟩ := Parser.exists_of_run_error h
  refine ⟨pre, (viable_iff_steps 0).2 ⟨s, hs⟩, ?_, ?_, ?_⟩
  · rcases hplace with ⟨t, post, htokens, hstep, hspan, hfound⟩ | ⟨htokens, hscript, hspan, hfound⟩
    · refine .inl ⟨t, post, htokens, ?_, hspan, hfound⟩
      rw [viable_concat_iff 0 hs, hstep]
      exact Bool.false_ne_true
    · refine .inr ⟨htokens, ?_, hspan, hfound⟩
      rw [isScript_iff_script? hs, hscript]
      exact Bool.false_ne_true
  · intro t ht p
    rw [hexpected]
    exact Parser.State.expected_iff_viable 0 hs ht p
  · rw [hexpected, Parser.State.mem_expected, isScript_iff_script? hs]
    rfl

theorem Script.pin_needs_colon :
    Script.parse (α := Rat) "pin badge left"
        = .error ⟨⟨10, 14⟩, some (.ident "left"), [.mark .colon]⟩
      ∧ ∃ pre : Phrase Rat, Viable pre
        ∧ ∀ t : Token Rat, t.IsFixed → ∀ p : Span,
          (∃ x ∈ [Terminal.mark .colon], x.token? = some t) ↔ Viable (pre ++ [⟨t, p⟩]) := by
  have htokens : (Lexer.tokens "pin badge left" : Phrase Rat)
      = [⟨.keyword .pin, ⟨0, 3⟩⟩, ⟨.ident "badge", ⟨4, 9⟩⟩, ⟨.ident "left", ⟨10, 14⟩⟩] := by
    decide +kernel
  have hparse : Script.parse (α := Rat) "pin badge left"
      = .error ⟨⟨10, 14⟩, some (.ident "left"), [.mark .colon]⟩ := by
    rw [Script.parse, htokens]
    rfl
  obtain ⟨pre, hpre, -, hexpected, -⟩ := Script.parse_error_at_viable_prefix hparse
  exact ⟨hparse, pre, hpre, hexpected⟩

/-- Where a source ends too early, the error starts at the end of the last token. -/
theorem Script.view_without_name_error_starts_early :
    ∃ e : SyntaxError Float, Script.parse "view " = .error e
      ∧ Viable (Lexer.tokens "view " : Phrase Float)
      ∧ (¬∃ script, IsScript (Lexer.tokens "view " : Phrase Float) script)
      ∧ e.span ≠ ⟨"view ".utf8ByteSize, "view ".utf8ByteSize⟩ := by
  have htokens : (Lexer.tokens "view " : Phrase Float) = [⟨.keyword .view, ⟨0, 4⟩⟩] := by
    decide +kernel
  have hsteps : ({} : Parser.State Float).steps? [⟨.keyword .view, ⟨0, 4⟩⟩]
      = some ⟨[], .view (.keyword 0) []⟩ := rfl
  rw [Script.parse, htokens, isScript_iff_script? hsteps]
  exact ⟨_, rfl, (viable_iff_steps 0).2 ⟨_, hsteps⟩, Bool.false_ne_true, by decide⟩

end Pinning
