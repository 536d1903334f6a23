import Pinning.Script.Parser

/-!
# The steps of the parser

The parser as a table: what may be read where, and what has been read then. There is one rule for
each way to go on with arguments (`OpenArgs.Step`), with a view (`ViewPhase.Next`) and with a
statement (`Parser.State.Extends`), and the parser takes just these
(`OpenArgs.step?_eq_some_iff`, `Parser.State.extend?_eq_some_iff`).
-/

namespace Pinning

variable {α : Type}

namespace OpenArgs

/-- An argument may start here. -/
def Starts (o : OpenArgs α) : Prop := o.phase = .ready ∨ o.phase = .keyed

/-- The steps inside the arguments of a call. -/
inductive Step [Neg α] : OpenArgs α → Spanned (Token α) → OpenArgs α → Prop
  | minus {o : OpenArgs α} (ho : o.Starts) (s : Span) :
    Step o ⟨.mark .minus, s⟩ { o with phase := .minus s.start }
  | number {o : OpenArgs α} (ho : o.Starts) (v : α) (s : Span) :
    Step o ⟨.number v, s⟩ { o with phase := .number s v }
  | word {o : OpenArgs α} (ho : o.Starts) (n : Spanned String) :
    Step o ⟨.ident n.value, n.span⟩ { o with phase := .word n }
  | list {o : OpenArgs α} (ho : o.Starts) (s : Span) :
    Step o ⟨.mark .bracketOpen, s⟩ { lists := ⟨o.keys, s.start, o.items⟩ :: o.lists }
  | negative {o : OpenArgs α} {start : Nat} (ho : o.phase = .minus start) (v : α) (s : Span) :
    Step o ⟨.number v, s⟩ { o with phase := .number ⟨start, s.stop⟩ (-v) }
  | percent {o : OpenArgs α} {p : Span} {v : α} (ho : o.phase = .number p v) (s : Span) :
    Step o ⟨.mark .percent, s⟩ { o with phase := .complete (.percent ⟨p.start, s.stop⟩ v) }
  | key {o : OpenArgs α} {n : Spanned String} (ho : o.phase = .word n) (s : Span) :
    Step o ⟨.mark .colon, s⟩ { o with phase := .keyed, keys := n :: o.keys }
  | dot {o : OpenArgs α} {n : Spanned String} (ho : o.phase = .word n) (s : Span) :
    Step o ⟨.mark .dot, s⟩ { o with phase := .dot n }
  | member {o : OpenArgs α} {n : Spanned String} (ho : o.phase = .dot n) (m : Spanned String) :
    Step o ⟨.ident m.value, m.span⟩
      { o with phase := .complete (.member ⟨n.span.start, m.span.stop⟩ n.value m.value) }
  | comma {o : OpenArgs α} {arg : Arg α} (h : o.current? = some arg) (s : Span) :
    Step o ⟨.mark .comma, s⟩ { items := o.items ++ [arg], lists := o.lists }
  | close {o : OpenArgs α} {l : OpenList α} {ls : List (OpenList α)} {items : List (Arg α)}
    (hl : o.lists = l :: ls) (h : o.closed? = some items) (s : Span) :
    Step o ⟨.mark .bracketClose, s⟩
      { phase := .complete (.list ⟨l.start, s.stop⟩ items)
        keys := l.keys, items := l.items, lists := ls }

variable {o o' : OpenArgs α} {t : Spanned (Token α)}

theorem closed?_of_ne_ready (h : o.phase ≠ .ready) :
    o.closed? = o.current?.map fun arg => o.items ++ [arg] := by
  unfold closed?
  split
  · contradiction
  · rfl

theorem closed?_of_current {arg : Arg α} (h : o.current? = some arg) :
    o.closed? = some (o.items ++ [arg]) := by
  have hp : o.phase ≠ .ready := by
    intro hp
    rw [current?, hp] at h
    cases h
  rw [closed?_of_ne_ready hp, h, Option.map_some]

variable [Neg α]

/-- Where an argument may end, nothing goes on with it but what its own form allows. -/
theorem continue?_of_current {arg : Arg α} (h : o.current? = some arg) {m : Mark} (s : Span)
    (hm : m ≠ .percent ∧ m ≠ .colon ∧ m ≠ .dot) : o.continue? ⟨.mark m, s⟩ = none := by
  obtain ⟨hpercent, hcolon, hdot⟩ := hm
  cases hp : o.phase with
  | number s v | word n | complete arg => cases m <;> simp_all [continue?]
  | ready | keyed | minus | dot => simp [current?, hp] at h

theorem continue?_of_closed {items : List (Arg α)} (h : o.closed? = some items) (s : Span) :
    o.continue? ⟨.mark .bracketClose, s⟩ = none := by
  by_cases hp : o.phase = .ready
  · simp only [continue?, hp, open?]
  · rw [closed?_of_ne_ready hp] at h
    obtain ⟨arg, harg, -⟩ := Option.map_eq_some_iff.1 h
    exact continue?_of_current harg s (by decide)

theorem step?_of_open (ho : o.Starts) (h : o.open? t = some o') : o.step? t = some o' := by
  have hc : o.continue? t = o.open? t := by
    rcases ho with hp | hp <;> simp only [continue?, hp]
  rw [step?, hc, h, Option.some_or]

theorem step_of_open (ho : o.Starts) (h : o.open? t = some o') : o.Step t o' := by
  obtain ⟨value, span⟩ := t
  unfold open? at h
  split at h <;> cases h
  · cases ‹_ = Token.mark .minus›
    exact .minus ho span
  · cases ‹_ = Token.number _›
    exact .number ho _ span
  · cases ‹_ = Token.ident _›
    exact .word ho ⟨_, span⟩
  · cases ‹_ = Token.mark .bracketOpen›
    exact .list ho span

theorem step_of_continue (h : o.continue? t = some o') : o.Step t o' := by
  obtain ⟨value, span⟩ := t
  unfold continue? at h
  split at h
  · exact step_of_open (.inl ‹_›) h
  · exact step_of_open (.inr ‹_›) h
  all_goals cases h
  · cases ‹_ = Token.number _›
    exact .negative ‹_› _ span
  · cases ‹_ = Token.mark .percent›
    exact .percent ‹_› span
  · cases ‹_ = Token.mark .colon›
    exact .key ‹_› span
  · cases ‹_ = Token.mark .dot›
    exact .dot ‹_› span
  · cases ‹_ = Token.ident _›
    exact .member ‹_› ⟨_, span⟩

theorem step_of_finish (h : o.finish? t = some o') : o.Step t o' := by
  obtain ⟨value, span⟩ := t
  unfold finish? at h
  split at h
  · cases ‹_ = Token.mark .comma›
    obtain ⟨arg, harg, rfl⟩ := Option.map_eq_some_iff.1 h
    exact .comma harg span
  · cases ‹_ = Token.mark .bracketClose›
    obtain ⟨items, hitems, rfl⟩ := Option.map_eq_some_iff.1 h
    exact .close ‹_› hitems span
  · cases h

theorem step?_eq_some_iff : o.step? t = some o' ↔ o.Step t o' := by
  constructor
  · intro h
    rcases Option.or_eq_some_iff.1 h with h | ⟨-, h⟩
    · exact step_of_continue h
    · exact step_of_finish h
  · intro h
    cases h with
    | minus ho | number ho | word ho | list ho => exact step?_of_open ho rfl
    | negative ho | percent ho | key ho | dot ho | member ho =>
      simp only [step?, continue?, ho, Option.some_or]
    | comma h s =>
      rw [step?, continue?_of_current h s (by decide)]
      simp only [finish?, h, Option.none_or, Option.map_some]
    | close hl h s =>
      rw [step?, continue?_of_closed h s]
      simp only [finish?, hl, h, Option.none_or, Option.map_some]

/-- No argument goes on with a closing parenthesis. -/
theorem step?_parenClose (o : OpenArgs α) (s : Span) : o.step? ⟨.mark .parenClose, s⟩ = none := by
  cases hp : o.phase <;> simp [step?, continue?, open?, finish?, hp]

end OpenArgs

/-- The steps inside one view, up to its children. -/
inductive ViewPhase.Next [Neg α] : ViewPhase α → Spanned (Token α) → ViewPhase α → Prop
  | name (start : Nat) (n : Spanned String) :
    Next (.keyword start) ⟨.ident n.value, n.span⟩ (.named { start, name := n })
  | bracketOpen (v : OpenView α) (s : Span) :
    Next (.named v) ⟨.mark .bracketOpen, s⟩ (.modifiers v)
  | key (v : OpenView α) (k : Spanned String) :
    Next (.modifiers v) ⟨.ident k.value, k.span⟩ (.key v k)
  | colon (v : OpenView α) (k : Spanned String) (s : Span) :
    Next (.key v k) ⟨.mark .colon, s⟩ (.colon v k)
  | plain (v : OpenView α) (k : Spanned String) (x : α) (s : Span) :
    Next (.colon v k) ⟨.number x, s⟩ (.modifier (v.addModifier k ⟨x, s⟩))
  | minus (v : OpenView α) (k : Spanned String) (s : Span) :
    Next (.colon v k) ⟨.mark .minus, s⟩ (.minus v k s.start)
  | negative (v : OpenView α) (k : Spanned String) (start : Nat) (x : α) (s : Span) :
    Next (.minus v k start) ⟨.number x, s⟩ (.modifier (v.addModifier k ⟨-x, ⟨start, s.stop⟩⟩))
  | comma (v : OpenView α) (s : Span) : Next (.modifier v) ⟨.mark .comma, s⟩ (.modifiers v)
  | bracketClose (v : OpenView α) (s : Span) :
    Next (.modifier v) ⟨.mark .bracketClose, s⟩ (.modified v s.stop)
  /-- Without modifiers, or after a comma. -/
  | bracketCloseEarly (v : OpenView α) (s : Span) :
    Next (.modifiers v) ⟨.mark .bracketClose, s⟩ (.modified v s.stop)
  | braceOpen {phase : ViewPhase α} {v : OpenView α}
    (h : phase = .named v ∨ ∃ stop, phase = .modified v stop) (s : Span) :
    Next phase ⟨.mark .braceOpen, s⟩ (.children v)

theorem ViewPhase.not_next_children [Neg α] (v : OpenView α) (t : Spanned (Token α))
    (phase : ViewPhase α) : ¬ (ViewPhase.children v).Next t phase := by
  intro h
  cases h with
  | braceOpen h => rcases h with h | ⟨stop, h⟩ <;> cases h

namespace Parser.State

/-- The steps that go on with the open statement, or open one where none is. -/
inductive Extends [Neg α] : State α → Spanned (Token α) → State α → Prop
  | openDirection (done : List (Statement α)) (s : Span) :
    Extends ⟨done, .none⟩ ⟨.keyword .direction, s⟩ ⟨done, .direction s.start⟩
  | openPin (done : List (Statement α)) (s : Span) :
    Extends ⟨done, .none⟩ ⟨.keyword .pin, s⟩ ⟨done, .pin s.start⟩
  | openView (done : List (Statement α)) (s : Span) :
    Extends ⟨done, .none⟩ ⟨.keyword .view, s⟩ ⟨done, .view (.keyword s.start) []⟩
  | direction (done : List (Statement α)) (start : Nat) (n : Spanned String) :
    Extends ⟨done, .direction start⟩ ⟨.ident n.value, n.span⟩
      ⟨done ++ [.direction ⟨start, n.span.stop⟩ n], .none⟩
  | target (done : List (Statement α)) (start : Nat) (n : Spanned String) :
    Extends ⟨done, .pin start⟩ ⟨.ident n.value, n.span⟩ ⟨done, .target start n⟩
  | colon (done : List (Statement α)) (start : Nat) (name : Spanned String) (s : Span) :
    Extends ⟨done, .target start name⟩ ⟨.mark .colon, s⟩ ⟨done, .chain ⟨start, name, []⟩⟩
  | callName (done : List (Statement α)) (p : OpenPin α) (n : Spanned String) :
    Extends ⟨done, .chain p⟩ ⟨.ident n.value, n.span⟩ ⟨done, .call p n⟩
  | parenOpen (done : List (Statement α)) (p : OpenPin α) (name : Spanned String) (s : Span) :
    Extends ⟨done, .call p name⟩ ⟨.mark .parenOpen, s⟩ ⟨done, .args p name {}⟩
  | arg (done : List (Statement α)) (p : OpenPin α) (name : Spanned String) {o o' : OpenArgs α}
    {t : Spanned (Token α)} (h : o.Step t o') :
    Extends ⟨done, .args p name o⟩ t ⟨done, .args p name o'⟩
  | parenClose (done : List (Statement α)) (p : OpenPin α) (name : Spanned String)
    {o : OpenArgs α} {args : List (Arg α)} (h : o.args? = some args) (s : Span) :
    Extends ⟨done, .args p name o⟩ ⟨.mark .parenClose, s⟩
      ⟨done, .called { p with calls := p.calls ++ [⟨⟨name.span.start, s.stop⟩, name, args⟩] }
        s.stop⟩
  | dot (done : List (Statement α)) (p : OpenPin α) (stop : Nat) (s : Span) :
    Extends ⟨done, .called p stop⟩ ⟨.mark .dot, s⟩ ⟨done, .chain p⟩
  | view (done : List (Statement α)) (parents : List (OpenView α)) {phase phase' : ViewPhase α}
    {t : Spanned (Token α)} (h : phase.Next t phase') :
    Extends ⟨done, .view phase parents⟩ t ⟨done, .view phase' parents⟩
  | child (done : List (Statement α)) (v : OpenView α) (parents : List (OpenView α)) (s : Span) :
    Extends ⟨done, .view (.children v) parents⟩ ⟨.keyword .view, s⟩
      ⟨done, .view (.keyword s.start) (v :: parents)⟩
  | braceClose (done : List (Statement α)) (v : OpenView α) (parents : List (OpenView α))
    (s : Span) :
    Extends ⟨done, .view (.children v) parents⟩ ⟨.mark .braceClose, s⟩
      (completeView ⟨done, .view (.children v) parents⟩ (v.close s.stop) parents)

variable [Neg α] {s s' : State α} {t : Spanned (Token α)}

theorem extends_of_extendView {done : List (Statement α)} {phase : ViewPhase α}
    {parents : List (OpenView α)}
    (h : (⟨done, .view phase parents⟩ : State α).extendView? t parents phase = some s') :
    Extends ⟨done, .view phase parents⟩ t s' := by
  obtain ⟨value, span⟩ := t
  cases phase with
  | keyword start =>
    simp only [extendView?] at h
    split at h <;> cases h
    exact .view done parents (.name start ⟨_, span⟩)
  | named v =>
    simp only [extendView?] at h
    split at h <;> cases h
    · exact .view done parents (.bracketOpen v span)
    · exact .view done parents (.braceOpen (.inl rfl) span)
  | modifiers v =>
    simp only [extendView?] at h
    split at h <;> cases h
    · exact .view done parents (.key v ⟨_, span⟩)
    · exact .view done parents (.bracketCloseEarly v span)
  | key v k =>
    simp only [extendView?] at h
    split at h <;> cases h
    exact .view done parents (.colon v k span)
  | colon v k =>
    simp only [extendView?] at h
    split at h <;> cases h
    · exact .view done parents (.plain v k _ span)
    · exact .view done parents (.minus v k span)
  | minus v k start =>
    simp only [extendView?] at h
    split at h <;> cases h
    exact .view done parents (.negative v k start _ span)
  | modifier v =>
    simp only [extendView?] at h
    split at h <;> cases h
    · exact .view done parents (.comma v span)
    · exact .view done parents (.bracketClose v span)
  | modified v stop =>
    simp only [extendView?] at h
    split at h <;> cases h
    exact .view done parents (.braceOpen (.inr ⟨stop, rfl⟩) span)
  | children v =>
    simp only [extendView?] at h
    split at h <;> cases h
    · exact .child done v parents span
    · exact .braceClose done v parents span

theorem extends_of_extend (h : s.extend? t = some s') : s.Extends t s' := by
  obtain ⟨done, pending⟩ := s
  obtain ⟨value, span⟩ := t
  cases pending with
  | none =>
    simp only [extend?, begin?] at h
    split at h <;> cases h
    · exact .openDirection done span
    · exact .openPin done span
    · exact .openView done span
  | direction start =>
    simp only [extend?] at h
    split at h <;> cases h
    exact .direction done start ⟨_, span⟩
  | pin start =>
    simp only [extend?] at h
    split at h <;> cases h
    exact .target done start ⟨_, span⟩
  | target start name =>
    simp only [extend?] at h
    split at h <;> cases h
    exact .colon done start name span
  | chain p =>
    simp only [extend?] at h
    split at h <;> cases h
    exact .callName done p ⟨_, span⟩
  | call p name =>
    simp only [extend?] at h
    split at h <;> cases h
    exact .parenOpen done p name span
  | args p name o =>
    simp only [extend?] at h
    split at h
    · cases h
      exact .arg done p name (OpenArgs.step?_eq_some_iff.1 ‹_›)
    · split at h <;> cases h
      exact .parenClose done p name ‹_› span
  | called p stop =>
    simp only [extend?] at h
    split at h <;> cases h
    exact .dot done p stop span
  | view phase parents => exact extends_of_extendView h

theorem extend?_eq_some_iff : s.extend? t = some s' ↔ s.Extends t s' := by
  refine ⟨extends_of_extend, fun h => ?_⟩
  cases h with
  | arg done p name h => simp only [extend?, OpenArgs.step?_eq_some_iff.2 h]
  | parenClose done p name h s => simp only [extend?, OpenArgs.step?_parenClose, h]
  | view done parents h =>
    cases h with
    | braceOpen h s => rcases h with rfl | ⟨stop, rfl⟩ <;> rfl
    | _ => rfl
  | _ => rfl

end Parser.State

end Pinning
