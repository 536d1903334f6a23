import Pinning.Proofs.Grammar
import Pinning.Proofs.Transitions

/-!
# What is derived is accepted

A phrase of the grammar leads the parser from wherever it may stand to where what it stands for is
complete, or would be after the next token: an argument wherever one may start
(`OpenArgs.takes_of_isArg`), a view wherever one may stand (`Parser.State.takes_of_isView`), and
statements from between two statements to between two statements. A chain of calls or a view may
still go on when its phrase is over, so one says of a state only what it is once that is settled
(`Parser.State.Closes`); no token that can come next goes on with what is complete
(`Parser.State.extend?_eq_none`), which makes this enough for whatever follows.
-/

namespace Pinning

variable {α : Type}

open Grammar

namespace OpenArgs

variable [Neg α]

/-- The state after several tokens. -/
def steps? (o : OpenArgs α) (ts : Phrase α) : Option (OpenArgs α) :=
  ts.foldlM (fun o t => o.step? t) o

@[simp] theorem steps?_nil (o : OpenArgs α) : o.steps? [] = some o := rfl

theorem steps?_cons (o : OpenArgs α) (t : Spanned (Token α)) (ts : Phrase α) :
    o.steps? (t :: ts) = (o.step? t).bind fun o' => o'.steps? ts := List.foldlM_cons

theorem steps?_append (o : OpenArgs α) (ts us : Phrase α) :
    o.steps? (ts ++ us) = (o.steps? ts).bind fun o' => o'.steps? us := List.foldlM_append

theorem Step.steps? {o o' : OpenArgs α} {t : Spanned (Token α)} (h : o.Step t o') (ts : Phrase α) :
    o.steps? (t :: ts) = o'.steps? ts := by
  rw [steps?_cons, step?_eq_some_iff.2 h, Option.bind_some]

variable {o : OpenArgs α}

/-- A phrase that is taken as an argument wherever one may start. -/
def Takes (ts : Phrase α) (arg : Arg α) : Prop :=
  ∀ o : OpenArgs α, o.Starts →
    ∃ o', o.steps? ts = some o' ∧ o'.items = o.items ∧ o'.lists = o.lists
      ∧ o'.current? = some (underKeys o.keys arg)

theorem steps?_number {ts : Phrase α} {v : α} (h : IsNumber ts v) (ho : o.Starts) :
    o.steps? ts = some { o with phase := .number (extent ts) v } := by
  cases h with
  | plain v s => exact (Step.number ho v s).steps? []
  | negative s v s' => exact (Step.minus ho s).steps? [⟨.number v, s'⟩]

/-- Arguments one after the other are added to those that are complete. -/
theorem steps?_joined {ts : Phrase α} {args : List (Arg α)} (h : Joined Takes .comma ts args)
    (items : List (Arg α)) (lists : List (OpenList α)) :
    ∃ o' init last, steps? { items, lists } ts = some o' ∧ o'.lists = lists
      ∧ args = init ++ [last] ∧ o'.items = items ++ init ∧ o'.current? = some last := by
  induction h generalizing items with
  | one h =>
    obtain ⟨o', hs, hi, hl, hc⟩ := h { items, lists } (.inl rfl)
    exact ⟨o', [], _, hs, hl, rfl, by rw [hi, List.append_nil], hc⟩
  | @more ts us arg args h s hs ih =>
    obtain ⟨o₁, hs₁, hi₁, hl₁, hc₁⟩ := h { items, lists } (.inl rfl)
    obtain ⟨o', init, last, hs', hl', rfl, hi', hc'⟩ := ih (items ++ [arg])
    refine ⟨o', arg :: init, last, ?_, hl', rfl, by simp [hi'], hc'⟩
    rw [steps?_append, hs₁, Option.bind_some, (Step.comma hc₁ s).steps?, hi₁, hl₁]
    exact hs'

theorem steps?_listed {ts : Phrase α} {args : List (Arg α)} (h : Listed Takes ts args)
    (lists : List (OpenList α)) :
    ∃ o', steps? { lists } ts = some o' ∧ o'.lists = lists ∧ o'.closed? = some args := by
  cases h with
  | empty => exact ⟨_, rfl, rfl, rfl⟩
  | plain h =>
    obtain ⟨o', init, last, hs, hl, rfl, hi, hc⟩ := steps?_joined h [] lists
    exact ⟨o', hs, hl, by rw [closed?_of_current hc, hi, List.nil_append]⟩
  | trailing h s =>
    obtain ⟨o', init, last, hs, hl, rfl, hi, hc⟩ := steps?_joined h [] lists
    refine ⟨{ items := init ++ [last], lists }, ?_, rfl, rfl⟩
    rw [steps?_append, hs, Option.bind_some, (Step.comma hc s).steps?, hi, hl]
    rfl

theorem takes_of_isArg {ts : Phrase α} {arg : Arg α} (h : IsArg ts arg) : Takes ts arg := by
  induction hn : ts.length using Nat.strong_induction_on generalizing ts arg with
  | h n ih =>
    subst hn
    have takes : ∀ {us : Phrase α} {x : Arg α}, us.length < ts.length → IsArg us x → Takes us x :=
      fun hlt hx => ih _ hlt hx rfl
    intro o ho
    cases h with
    | number h => exact ⟨_, steps?_number h ho, rfl, rfl, rfl⟩
    | percent h s =>
      refine ⟨{ o with phase := .complete (.percent (extent (_ ++ [⟨.mark .percent, s⟩])) _) }, ?_,
        rfl, rfl, rfl⟩
      rw [steps?_append, steps?_number h ho]
      cases h <;> rfl
    | named key s h =>
      obtain ⟨o', hs, hi, hl, hc⟩ := takes (by simp only [List.length_cons]; omega) h
        { o with phase := .keyed, keys := key :: o.keys } (.inr rfl)
      refine ⟨o', ?_, hi, hl, ?_⟩
      · rw [(Step.word ho key).steps?]
        exact hs
      · rw [hc, underKeys, List.foldl_cons, h.span_eq, extent_cons_cons h.ne_nil]
        rfl
    | @list _ args h =>
      cases h with
      | @mk us _ s h s' =>
        have hlt : us.length < (⟨.mark .bracketOpen, s⟩ :: (us ++ [⟨.mark .bracketClose, s'⟩]) :
            Phrase α).length := by
          simp only [List.length_cons, List.length_append]
          omega
        obtain ⟨o', hs, hl, hc⟩ := steps?_listed
          (h.imp fun vs x hle hx => takes (hle.trans_lt hlt) hx)
          (⟨o.keys, s.start, o.items⟩ :: o.lists)
        refine ⟨{ o with phase := .complete (.list ⟨s.start, s'.stop⟩ args) }, ?_, rfl, rfl, ?_⟩
        · rw [(Step.list ho s).steps?, steps?_append, hs, Option.bind_some,
            (Step.close hl hc s').steps?]
          rfl
        · rw [extent_cons_concat]
          rfl
    | name n => exact ⟨_, (Step.word ho n).steps? [], rfl, rfl, rfl⟩
    | member n s m =>
      refine ⟨{ o with phase := .complete (.member ⟨n.span.start, m.span.stop⟩ n.value m.value) },
        ?_, rfl, rfl, rfl⟩
      rw [(Step.word ho n).steps?]
      rfl

theorem steps?_args {ts : Phrase α} {args : List (Arg α)} (h : Listed IsArg ts args) :
    ∃ o', steps? {} ts = some o' ∧ o'.args? = some args := by
  obtain ⟨o', hs, hl, hc⟩ := steps?_listed (h.imp fun us x _ hx => takes_of_isArg hx) []
  refine ⟨o', hs, ?_⟩
  rw [args?, hl, hc]
  rfl

end OpenArgs

namespace Parser.State

variable [Neg α]

/-- The state after several tokens. -/
def steps? (s : State α) (ts : Phrase α) : Option (State α) := ts.foldlM (fun s t => s.step? t) s

@[simp] theorem steps?_nil (s : State α) : s.steps? [] = some s := rfl

theorem steps?_cons (s : State α) (t : Spanned (Token α)) (ts : Phrase α) :
    s.steps? (t :: ts) = (s.step? t).bind fun s' => s'.steps? ts := List.foldlM_cons

theorem steps?_append (s : State α) (ts us : Phrase α) :
    s.steps? (ts ++ us) = (s.steps? ts).bind fun s' => s'.steps? us := List.foldlM_append

theorem Extends.step? {s s' : State α} {t : Spanned (Token α)} (h : s.Extends t s') :
    s.step? t = some s' := by
  rw [State.step?, extend?_eq_some_iff.2 h]

theorem Extends.steps? {s s' : State α} {t : Spanned (Token α)} (h : s.Extends t s')
    (ts : Phrase α) : s.steps? (t :: ts) = s'.steps? ts := by
  rw [steps?_cons, h.step?, Option.bind_some]

variable (done : List (Statement α))

theorem steps?_args (p : OpenPin α) (name : Spanned String) {ts : Phrase α} {o o' : OpenArgs α}
    (h : o.steps? ts = some o') :
    (⟨done, .args p name o⟩ : State α).steps? ts = some ⟨done, .args p name o'⟩ := by
  induction ts generalizing o with
  | nil =>
    cases h
    rfl
  | cons t ts ih =>
    rw [OpenArgs.steps?_cons] at h
    obtain ⟨o₁, h₁, h'⟩ := Option.bind_eq_some_iff.1 h
    rw [(Extends.arg done p name (OpenArgs.step?_eq_some_iff.1 h₁)).steps?]
    exact ih h'

theorem steps?_call {ts : Phrase α} {c : Call α} (h : IsCall ts c) (p : OpenPin α) :
    (⟨done, .chain p⟩ : State α).steps? ts
      = some ⟨done, .called { p with calls := p.calls ++ [c] } (extent ts).stop⟩ := by
  cases h with
  | @mk name _ args h =>
    cases h with
    | mk s h s' =>
      obtain ⟨o, ho, hargs⟩ := OpenArgs.steps?_args h
      rw [(Extends.callName done p name).steps?, (Extends.parenOpen done p name s).steps?,
        steps?_append, steps?_args done p name ho, Option.bind_some,
        (Extends.parenClose done p name hargs s').steps?, ← List.cons_append, extent_cons_concat]
      rfl

theorem steps?_chain {ts : Phrase α} {cs : List (Call α)} (h : Joined IsCall .dot ts cs)
    (p : OpenPin α) : (⟨done, .chain p⟩ : State α).steps? ts
      = some ⟨done, .called { p with calls := p.calls ++ cs } (extent ts).stop⟩ := by
  induction h generalizing p with
  | one h => exact steps?_call done h p
  | @more ts us c cs h s hs ih =>
    have hne : us ≠ [] := hs.ne_nil fun _ _ => IsCall.ne_nil
    rw [steps?_append, steps?_call done h, Option.bind_some, (Extends.dot done _ _ s).steps?,
      stop_extent_append (List.cons_ne_nil _ us), extent_cons hne]
    refine (ih _).trans ?_
    rw [List.append_assoc]
    rfl

/-- The state inside the views of a list, the innermost first, or between statements. -/
def within : List (OpenView α) → State α
  | [] => ⟨done, .none⟩
  | p :: ps => ⟨done, .view (.children p) ps⟩

/-- The state after a view inside others. -/
def withView (v : View α) (parents : List (OpenView α)) : State α :=
  (within done []).completeView v parents

/-- One state is another but for what might still go on. -/
def Closes (s s' : State α) : Prop := s = s' ∨ s.settle = some s'

variable {done}

omit [Neg α] in
/-- What is closed does not close again. -/
theorem settle_settle {s s' : State α} (h : s.settle = some s') : s'.settle = none := by
  obtain ⟨done, pending⟩ := s
  cases pending with
  | called p stop =>
    cases h
    rfl
  | view phase parents =>
    obtain ⟨v, -, rfl⟩ := Option.map_eq_some_iff.1 h
    cases parents <;> rfl
  | _ => cases h

/-- Between views and statements only keywords and closing braces can stand. -/
theorem keyword_or_braceClose {s s' s'' : State α} {t : Spanned (Token α)}
    (h : s.settle = some s') (ht : s'.extend? t = some s'') :
    (∃ k, t.value = .keyword k) ∨ t.value = .mark .braceClose := by
  have hwithin : ∀ parents : List (OpenView α),
      (within s'.done parents).extend? t = some s'' →
        (∃ k, t.value = .keyword k) ∨ t.value = .mark .braceClose := by
    rintro (_ | ⟨p, ps⟩) hx
    · cases extend?_eq_some_iff.1 hx <;> exact .inl ⟨_, rfl⟩
    · cases extend?_eq_some_iff.1 hx with
      | view _ _ h => exact absurd h (ViewPhase.not_next_children p t _)
      | child => exact .inl ⟨_, rfl⟩
      | braceClose => exact .inr rfl
  obtain ⟨done, pending⟩ := s
  cases pending with
  | called p stop =>
    cases h
    exact hwithin [] ht
  | view phase parents =>
    obtain ⟨v, -, rfl⟩ := Option.map_eq_some_iff.1 h
    cases parents with
    | nil => exact hwithin [] ht
    | cons p ps => exact hwithin (p.addChild v :: ps) ht
  | _ => cases h

/-- What goes on after something has been closed could not have gone on with that. -/
theorem extend?_eq_none {s s' s'' : State α} {t : Spanned (Token α)} (h : s.settle = some s')
    (ht : s'.extend? t = some s'') : s.extend? t = none := by
  have hcases := keyword_or_braceClose h ht
  obtain ⟨done, pending⟩ := s
  cases pending with
  | called p stop => rcases hcases with ⟨k, hk⟩ | hk <;> simp only [extend?, hk]
  | view phase parents =>
    obtain ⟨v, hv, -⟩ := Option.map_eq_some_iff.1 h
    cases phase with
    | named | modified => rcases hcases with ⟨k, hk⟩ | hk <;> simp only [extend?, extendView?, hk]
    | _ => cases hv
  | _ => cases h

theorem Closes.step {s s' s'' : State α} {t : Spanned (Token α)} (h : s.Closes s')
    (ht : s'.step? t = some s'') : s.step? t = some s'' := by
  rcases h with rfl | h
  · exact ht
  · have ht' : s'.extend? t = some s'' := by
      rw [step?, settle_settle h] at ht
      cases hx : s'.extend? t with
      | none =>
        rw [hx] at ht
        cases ht
      | some x =>
        rw [hx] at ht
        exact ht
    rw [step?, extend?_eq_none h ht', h]
    exact ht'

theorem Closes.steps {s s₁ s' s₂ : State α} {ts : Phrase α} (h : s.Closes s₁)
    (hs : s₁.steps? ts = some s') (h' : s'.Closes s₂) :
    ∃ s'', s.steps? ts = some s'' ∧ s''.Closes s₂ := by
  cases ts with
  | nil =>
    cases hs
    refine ⟨s, rfl, ?_⟩
    rcases h with rfl | h
    · exact h'
    · rcases h' with rfl | h'
      · exact .inr h
      · rw [settle_settle h] at h'
        cases h'
  | cons t ts =>
    rw [steps?_cons] at hs
    obtain ⟨x, hx, hs⟩ := Option.bind_eq_some_iff.1 hs
    exact ⟨s', by rw [steps?_cons, h.step hx]; exact hs, h'⟩

section Modifiers

variable (parents : List (OpenView α))

theorem steps?_modifier {ts : Phrase α} {m : Modifier α} (h : IsModifier ts m) (v : OpenView α) :
    (⟨done, .view (.modifiers v) parents⟩ : State α).steps? ts
      = some ⟨done, .view (.modifier { v with modifiers := v.modifiers ++ [m] }) parents⟩ := by
  cases h with
  | mk key s h =>
    cases h with
    | plain x s => rfl
    | negative s x s' => rfl

theorem steps?_modifiers {ts : Phrase α} {ms : List (Modifier α)}
    (h : Joined IsModifier .comma ts ms) (v : OpenView α) :
    (⟨done, .view (.modifiers v) parents⟩ : State α).steps? ts
      = some ⟨done, .view (.modifier { v with modifiers := v.modifiers ++ ms }) parents⟩ := by
  induction h generalizing v with
  | one h => exact steps?_modifier parents h v
  | more h s hs ih =>
    rw [steps?_append, steps?_modifier parents h, Option.bind_some,
      (Extends.view done parents (.comma _ s)).steps?]
    refine (ih _).trans ?_
    rw [List.append_assoc]
    rfl

/-- Where a view may end, with all that is known of it. -/
def MayEnd (phase : ViewPhase α) (v : OpenView α) (stop : Nat) : Prop :=
  phase = .named v ∧ v.name.span.stop = stop ∨ phase = .modified v stop

variable (done) in
theorem steps?_modifierBlock {ts : Phrase α} {ms : List (Modifier α)}
    (h : Optional (Enclosed (Listed IsModifier) .bracketOpen .bracketClose) ts ms)
    (start : Nat) (name : Spanned String) :
    ∃ phase, (⟨done, .view (.named { start, name }) parents⟩ : State α).steps? ts
        = some ⟨done, .view phase parents⟩
      ∧ MayEnd phase { start, name, modifiers := ms }
          (extent (⟨.ident name.value, name.span⟩ :: ts)).stop := by
  cases h with
  | absent => exact ⟨_, rfl, .inl ⟨rfl, rfl⟩⟩
  | present h =>
    cases h with
    | mk s h s' =>
      refine ⟨.modified { start, name, modifiers := ms } s'.stop, ?_, .inr ?_⟩
      · rw [(Extends.view done parents (.bracketOpen _ s)).steps?, steps?_append]
        cases h with
        | empty => rfl
        | plain h =>
          refine (congrArg (Option.bind · _) (steps?_modifiers parents h _)).trans ?_
          rfl
        | trailing h c =>
          rw [steps?_append]
          refine (congrArg (fun x => (Option.bind x _).bind _)
            (steps?_modifiers parents h _)).trans ?_
          rfl
      · rw [← List.cons_append, ← List.cons_append, extent, List.getLast?_concat]
        rfl

end Modifiers

/-- A phrase that is taken as a view wherever one may stand. -/
def Takes (ts : Phrase α) (v : View α) : Prop :=
  ∀ (done : List (Statement α)) (parents : List (OpenView α)),
    ∃ s, (within done parents).steps? ts = some s ∧ s.Closes (withView done v parents)

theorem steps?_children {ts : Phrase α} {vs : List (View α)} (h : Many Takes ts vs)
    (done : List (Statement α)) (p : OpenView α) (ps : List (OpenView α)) :
    ∃ s, (within done (p :: ps)).steps? ts = some s
      ∧ s.Closes (within done ({ p with children := p.children ++ vs } :: ps)) := by
  induction h generalizing p with
  | nil => exact ⟨_, rfl, .inl (by rw [List.append_nil])⟩
  | @cons ts us v vs h hs ih =>
    obtain ⟨s₁, hs₁, hc₁⟩ := h done (p :: ps)
    obtain ⟨s₂, hs₂, hc₂⟩ := ih (p.addChild v)
    obtain ⟨s, hs, hc⟩ := hc₁.steps hs₂ hc₂
    refine ⟨s, ?_, ?_⟩
    · rw [steps?_append, hs₁]
      exact hs
    · simpa [OpenView.addChild] using hc

theorem extends_braceOpen {phase : ViewPhase α} {v : OpenView α} {stop : Nat}
    (h : MayEnd phase v stop) (s : Span) (parents : List (OpenView α)) :
    (⟨done, .view phase parents⟩ : State α).Extends ⟨.mark .braceOpen, s⟩
      (within done (v :: parents)) := by
  refine .view done parents (.braceOpen ?_ s)
  rcases h with ⟨rfl, -⟩ | rfl
  · exact .inl rfl
  · exact .inr ⟨stop, rfl⟩

omit [Neg α] in
theorem closes_of_mayEnd {phase : ViewPhase α} {v : OpenView α} {stop : Nat}
    (h : MayEnd phase v stop) (parents : List (OpenView α)) :
    (⟨done, .view phase parents⟩ : State α).Closes (withView done (v.close stop) parents) := by
  right
  rcases h with ⟨rfl, rfl⟩ | rfl <;> cases parents <;> rfl

theorem takes_of_isView {ts : Phrase α} {v : View α} (h : IsView ts v) : Takes ts v := by
  induction hn : ts.length using Nat.strong_induction_on generalizing ts v with
  | h n ih =>
    subst hn
    intro done parents
    cases h with
    | @mk s name ts us modifiers children hm hc =>
      obtain ⟨phase, hphase, hend⟩ :=
        steps?_modifierBlock done parents hm s.start name
      have hhead : (within done parents).steps?
          (⟨.keyword .view, s⟩ :: ⟨.ident name.value, name.span⟩ :: ts)
            = some ⟨done, .view phase parents⟩ := by
        have hname := Extends.view done parents (.name s.start name)
        cases parents with
        | nil => rw [within, (Extends.openView done s).steps?, hname.steps?, hphase]
        | cons p ps => rw [within, (Extends.child done p ps s).steps?, hname.steps?, hphase]
      rw [← List.cons_append, ← List.cons_append, steps?_append, hhead, Option.bind_some]
      cases hc with
      | absent =>
        refine ⟨_, rfl, ?_⟩
        rw [List.append_nil, extent_cons (List.cons_ne_nil _ ts)]
        exact closes_of_mayEnd hend parents
      | present hc =>
        cases hc with
        | @mk us _ b hvs b' =>
          have hlt : us.length < (⟨.keyword .view, s⟩ :: ⟨.ident name.value, name.span⟩ ::
              (ts ++ ⟨.mark .braceOpen, b⟩ :: (us ++ [⟨.mark .braceClose, b'⟩])) :
                Phrase α).length := by
            simp only [List.length_cons, List.length_append]
            omega
          obtain ⟨s₁, hs₁, hc₁⟩ := steps?_children
            (hvs.imp fun vs x hle hx => ih _ (hle.trans_lt hlt) hx rfl) done
            { start := s.start, name, modifiers } parents
          refine ⟨_, ?_, .inl rfl⟩
          have hclose := hc₁.step (Extends.braceClose done _ parents b').step?
          rw [(extends_braceOpen hend b parents).steps?, steps?_append, hs₁, Option.bind_some,
            steps?_cons, hclose]
          have hextent : extent (⟨.keyword .view, s⟩ :: ⟨.ident name.value, name.span⟩ :: ts
              ++ ⟨.mark .braceOpen, b⟩ :: (us ++ [⟨.mark .braceClose, b'⟩]))
                = ⟨s.start, b'.stop⟩ :=
            (extent_cons_append (List.cons_ne_nil _ _) _
              (⟨.ident name.value, name.span⟩ :: ts)).trans (by rw [extent_cons_concat])
          rw [hextent]
          cases parents <;> rfl

theorem steps?_statement {ts : Phrase α} {st : Statement α} (h : IsStatement ts st)
    (done : List (Statement α)) :
    ∃ s, (within done []).steps? ts = some s ∧ s.Closes (within (done ++ [st]) []) := by
  cases h with
  | direction s name => exact ⟨_, rfl, .inl rfl⟩
  | @pin s target c ts calls h =>
    refine ⟨⟨done, .called ⟨s.start, target, calls⟩ (extent ts).stop⟩, ?_, .inr ?_⟩
    · rw [within, (Extends.openPin done s).steps?, (Extends.target done s.start target).steps?,
        (Extends.colon done s.start target c).steps?]
      exact steps?_chain done h ⟨s.start, target, []⟩
    · have hne : ts ≠ [] := h.ne_nil fun _ _ => IsCall.ne_nil
      have hextent : extent (⟨.keyword .pin, s⟩ :: ⟨.ident target.value, target.span⟩
          :: ⟨.mark .colon, c⟩ :: ts) = ⟨s.start, (extent ts).stop⟩ :=
        extent_cons_append hne _ [⟨.ident target.value, target.span⟩, ⟨.mark .colon, c⟩]
      rw [hextent]
      rfl
  | view h => exact takes_of_isView h done []

theorem steps?_statements {ts : Phrase α} {sts : List (Statement α)} (h : Many IsStatement ts sts)
    (done : List (Statement α)) :
    ∃ s, (within done []).steps? ts = some s ∧ s.Closes (within (done ++ sts) []) := by
  induction h generalizing done with
  | nil => exact ⟨_, rfl, .inl (by rw [List.append_nil])⟩
  | cons h hs ih =>
    obtain ⟨s₁, hs₁, hc₁⟩ := steps?_statement h done
    obtain ⟨s₂, hs₂, hc₂⟩ := ih (done ++ [_])
    obtain ⟨s, hs, hc⟩ := hc₁.steps hs₂ hc₂
    refine ⟨s, ?_, by simpa using hc⟩
    rw [steps?_append, hs₁]
    exact hs

omit [Neg α] in
theorem Closes.script? {s : State α} {sts : List (Statement α)} (h : s.Closes (within sts [])) :
    s.script? = some ⟨sts⟩ := by
  rcases h with rfl | h
  · rfl
  · simp only [State.script?, h]
    rfl

/-- What the grammar derives is taken as it derives it. -/
theorem exists_steps_of_isScript {ts : Phrase α} {script : Script α} (h : IsScript ts script) :
    ∃ s, ({} : State α).steps? ts = some s ∧ s.script? = some script := by
  obtain ⟨s, hs, hc⟩ := steps?_statements h []
  exact ⟨s, hs, hc.script?⟩

end Parser.State

end Pinning
