import Pinning.Proofs.Acceptance

/-!
# What is accepted is derived

Each state of the parser stands for a phrase that is in part derived already: complete statements,
then the open one with the complete parts of it (`State.Reads`). A step adds its token to that
phrase, and where a script may end the phrase is one of the grammar.
-/

namespace Pinning

variable {α β : Type}

namespace Grammar

theorem extent_concat {ts : Phrase α} (h : ts ≠ []) (t : Spanned (Token α)) :
    extent (ts ++ [t]) = ⟨(extent ts).start, t.span.stop⟩ := by
  simp [extent, List.head?_append, List.head?_eq_some_head h]

/-- A phrase and a mark after it. -/
inductive Followed (P : Rule α β) (m : Mark) : Rule α β
  | mk {ts : Phrase α} {x : β} (h : P ts x) (s : Span) : Followed P m (ts ++ [⟨.mark m, s⟩]) x

/-- Any number, the last first. -/
inductive Stacked (P : Rule α β) : Rule α (List β)
  | nil : Stacked P [] []
  | push {ts us : Phrase α} {x : β} {xs : List β} (hs : Stacked P ts xs) (h : P us x) :
    Stacked P (ts ++ us) (x :: xs)

section Repetition

variable {P : Rule α β} {m : Mark} {ts us : Phrase α} {x : β} {xs : List β}

theorem Many.snoc (hs : Many P ts xs) (h : P us x) : Many P (ts ++ us) (xs ++ [x]) := by
  induction hs with
  | nil => simpa using Many.cons h .nil
  | cons h' hs ih =>
    rw [List.append_assoc]
    exact .cons h' ih

theorem Many.joined (hs : Many (Followed P m) ts xs) (h : P us x) :
    Joined P m (ts ++ us) (xs ++ [x]) := by
  induction hs with
  | nil => exact .one h
  | cons h' hs ih =>
    cases h' with
    | mk h' s =>
      rw [List.append_assoc, List.append_assoc]
      exact .more h' s ih

theorem Joined.many (hs : Joined P m ts xs) (s : Span) :
    Many (Followed P m) (ts ++ [⟨.mark m, s⟩]) xs := by
  induction hs with
  | one h => simpa using Many.cons (.mk h s) .nil
  | more h s' hs ih =>
    rw [List.append_assoc, List.cons_append, List.append_cons]
    exact .cons (.mk h s') ih

theorem Many.listed (hs : Many (Followed P .comma) ts xs) : Listed P ts xs := by
  induction hs with
  | nil => exact .empty
  | cons h hs ih =>
    cases h with
    | mk h s =>
      rw [List.append_assoc]
      cases ih with
      | empty => exact .trailing (.one h) s
      | plain ih => exact .plain (.more h s ih)
      | trailing ih s' =>
        have := Listed.trailing (.more h s ih) s'
        rwa [List.append_assoc] at this

end Repetition

/-- A key in front of an argument. -/
inductive IsKey : Rule α (Spanned String)
  | mk (key : Spanned String) (s : Span) :
    IsKey [⟨.ident key.value, key.span⟩, ⟨.mark .colon, s⟩] key

theorem IsArg.underKeys [Neg α] {ts us : Phrase α} {keys : List (Spanned String)} {arg : Arg α}
    (hs : Stacked IsKey ts keys) (h : IsArg us arg) :
    IsArg (ts ++ us) (OpenArgs.underKeys keys arg) := by
  induction hs generalizing us arg with
  | nil => exact h
  | @push _ _ key _ hs hk ih =>
    cases hk with
    | mk _ s =>
      have hnamed := IsArg.named key s h
      rw [extent_cons_cons h.ne_nil, ← h.span_eq] at hnamed
      rw [List.append_assoc]
      exact ih hnamed

end Grammar

open Grammar

variable [Neg α]

namespace OpenArgs

/-- What has been read of an argument after its keys. -/
inductive ReadsPhase : Rule α (ArgPhase α)
  | ready : ReadsPhase [] .ready
  | keyed : ReadsPhase [] .keyed
  | minus (s : Span) : ReadsPhase [⟨.mark .minus, s⟩] (.minus s.start)
  | number {ts : Phrase α} {v : α} (h : IsNumber ts v) : ReadsPhase ts (.number (extent ts) v)
  | word (n : Spanned String) : ReadsPhase [⟨.ident n.value, n.span⟩] (.word n)
  | dot (n : Spanned String) (s : Span) :
    ReadsPhase [⟨.ident n.value, n.span⟩, ⟨.mark .dot, s⟩] (.dot n)
  | complete {ts : Phrase α} {arg : Arg α} (h : IsArg ts arg) : ReadsPhase ts (.complete arg)

/-- The arguments before a list and its opening bracket. -/
inductive ReadsList : Rule α (OpenList α)
  | mk {ts us : Phrase α} {items : List (Arg α)} {keys : List (Spanned String)}
    (hi : Many (Followed IsArg .comma) ts items) (hk : Stacked IsKey us keys) (s : Span) :
    ReadsList (ts ++ (us ++ [⟨.mark .bracketOpen, s⟩])) ⟨keys, s.start, items⟩

inductive Reads : Rule α (OpenArgs α)
  | mk {ts us vs ws : Phrase α} {phase : ArgPhase α} {keys : List (Spanned String)}
    {items : List (Arg α)} {lists : List (OpenList α)}
    (hl : Stacked ReadsList ts lists) (hi : Many (Followed IsArg .comma) us items)
    (hk : Stacked IsKey vs keys) (hp : ReadsPhase ws phase) (hready : phase = .ready → keys = []) :
    Reads (ts ++ (us ++ (vs ++ ws))) ⟨phase, keys, items, lists⟩

theorem isArg_of_current {ts us : Phrase α} {o : OpenArgs α} {arg : Arg α}
    (hk : Stacked IsKey ts o.keys) (hp : ReadsPhase us o.phase) (h : o.current? = some arg) :
    IsArg (ts ++ us) arg := by
  obtain ⟨phase, keys, items, lists⟩ := o
  cases hp with
  | number hn =>
    cases h
    exact .underKeys hk (.number hn)
  | word n =>
    cases h
    exact .underKeys hk (.name n)
  | complete ha =>
    cases h
    exact .underKeys hk ha
  | _ => cases h

theorem listed_of_closed {ts us vs : Phrase α} {o : OpenArgs α} {args : List (Arg α)}
    (hi : Many (Followed IsArg .comma) ts o.items) (hk : Stacked IsKey us o.keys)
    (hp : ReadsPhase vs o.phase) (hready : o.phase = .ready → o.keys = [])
    (h : o.closed? = some args) : Listed IsArg (ts ++ (us ++ vs)) args := by
  unfold closed? at h
  split at h
  · rename_i hphase
    rw [hready hphase] at hk
    rw [hphase] at hp
    cases h
    cases hk
    cases hp
    rw [List.append_nil, List.append_nil]
    exact hi.listed
  · obtain ⟨arg, harg, rfl⟩ := Option.map_eq_some_iff.1 h
    exact .plain (hi.joined (isArg_of_current hk hp harg))

section Step

variable {ts : Phrase α} {o o' : OpenArgs α} {t : Spanned (Token α)}

theorem ReadsPhase.eq_nil (h : ReadsPhase ts o.phase) (ho : o.Starts) : ts = [] := by
  rcases ho with ho | ho <;> rw [ho] at h <;> cases h <;> rfl

theorem Reads.step (hr : Reads ts o) (h : o.Step t o') : Reads (ts ++ [t]) o' := by
  cases hr with
  | @mk ts us vs ws phase keys items lists hl hi hk hp hready =>
    rw [List.append_assoc, List.append_assoc, List.append_assoc]
    cases h with
    | minus ho s =>
      cases hp.eq_nil ho
      exact .mk hl hi hk (.minus s) nofun
    | number ho v s =>
      cases hp.eq_nil ho
      exact .mk hl hi hk (.number (.plain v s)) nofun
    | word ho n =>
      cases hp.eq_nil ho
      exact .mk hl hi hk (.word n) nofun
    | list ho s =>
      cases hp.eq_nil ho
      have hr := Reads.mk (hl.push (.mk hi hk s)) .nil .nil .ready fun _ => rfl
      simpa using hr
    | negative ho v s =>
      cases ho
      cases hp with
      | minus m => exact .mk hl hi hk (.number (.negative m v s)) nofun
    | percent ho s =>
      cases ho
      cases hp with
      | number hn =>
        have ha := IsArg.percent hn s
        rw [extent_concat hn.ne_nil] at ha
        exact .mk hl hi hk (.complete ha) nofun
    | @key n ho s =>
      cases ho
      cases hp with
      | word =>
        have hr := Reads.mk hl hi (hk.push (.mk n s)) .keyed nofun
        rwa [List.append_nil] at hr
    | dot ho s =>
      cases ho
      cases hp with
      | word => exact .mk hl hi hk (.dot _ s) nofun
    | member ho m =>
      cases ho
      cases hp with
      | dot _ s => exact .mk hl hi hk (.complete (.member _ s m)) nofun
    | comma harg s =>
      have hi' := hi.snoc (.mk (isArg_of_current hk hp harg) s)
      have hr := Reads.mk hl hi' .nil .ready fun _ => rfl
      simpa using hr
    | close hlists hargs s =>
      cases hlists
      cases hl with
      | push hl hlist =>
        cases hlist with
        | mk hi₀ hk₀ b =>
          have ha := IsArg.list (.mk b (listed_of_closed hi hk hp hready hargs) s)
          rw [extent_cons_concat] at ha
          have hr := Reads.mk hl hi₀ hk₀ (.complete ha) nofun
          simpa using hr

theorem Reads.listed {args : List (Arg α)} (hr : Reads ts o) (h : o.args? = some args) :
    Listed IsArg ts args := by
  unfold args? at h
  split at h
  · cases hr with
    | mk hl hi hk hp hready =>
      cases List.isEmpty_iff.1 ‹_›
      cases hl
      rw [List.nil_append]
      exact listed_of_closed hi hk hp hready h
  · cases h

end Step

end OpenArgs

namespace Parser.State

/-! ## Views -/

abbrev IsModifiers : Rule α (List (Modifier α)) :=
  Enclosed (Listed IsModifier) .bracketOpen .bracketClose

/-- A view up to its children. -/
inductive IsHead : Rule α (OpenView α)
  | mk (s : Span) (name : Spanned String) {ts : Phrase α} {modifiers : List (Modifier α)}
    (h : Optional IsModifiers ts modifiers) :
    IsHead (⟨.keyword .view, s⟩ :: ⟨.ident name.value, name.span⟩ :: ts)
      { start := s.start, name, modifiers }

/-- A view up to somewhere between its children. -/
inductive ReadsChildren : Rule α (OpenView α)
  | mk {ts us : Phrase α} {v : OpenView α} {children : List (View α)} (hv : IsHead ts v) (s : Span)
    (hc : Many IsView us children) :
    ReadsChildren (ts ++ (⟨.mark .braceOpen, s⟩ :: us)) { v with children }

/-- A view up to somewhere between its modifiers. -/
inductive ReadsModifiers (P : Rule α (List (Modifier α))) : Rule α (OpenView α)
  | mk (s : Span) (name : Spanned String) (s' : Span) {ts : Phrase α}
    {modifiers : List (Modifier α)} (h : P ts modifiers) :
    ReadsModifiers P
      (⟨.keyword .view, s⟩ :: ⟨.ident name.value, name.span⟩ :: ⟨.mark .bracketOpen, s'⟩ :: ts)
      { start := s.start, name, modifiers }

/-- What has been read of a view. -/
inductive ReadsView : Rule α (ViewPhase α)
  | keyword (s : Span) : ReadsView [⟨.keyword .view, s⟩] (.keyword s.start)
  | named (s : Span) (name : Spanned String) :
    ReadsView [⟨.keyword .view, s⟩, ⟨.ident name.value, name.span⟩]
      (.named { start := s.start, name })
  | modifiers {ts : Phrase α} {v : OpenView α}
    (h : ReadsModifiers (Many (Followed IsModifier .comma)) ts v) : ReadsView ts (.modifiers v)
  | key {ts : Phrase α} {v : OpenView α}
    (h : ReadsModifiers (Many (Followed IsModifier .comma)) ts v) (key : Spanned String) :
    ReadsView (ts ++ [⟨.ident key.value, key.span⟩]) (.key v key)
  | colon {ts : Phrase α} {v : OpenView α}
    (h : ReadsModifiers (Many (Followed IsModifier .comma)) ts v) (key : Spanned String)
    (s : Span) :
    ReadsView (ts ++ [⟨.ident key.value, key.span⟩, ⟨.mark .colon, s⟩]) (.colon v key)
  | minus {ts : Phrase α} {v : OpenView α}
    (h : ReadsModifiers (Many (Followed IsModifier .comma)) ts v) (key : Spanned String)
    (s s' : Span) :
    ReadsView (ts ++ [⟨.ident key.value, key.span⟩, ⟨.mark .colon, s⟩, ⟨.mark .minus, s'⟩])
      (.minus v key s'.start)
  | modifier {ts : Phrase α} {v : OpenView α}
    (h : ReadsModifiers (Joined IsModifier .comma) ts v) : ReadsView ts (.modifier v)
  | modified (s : Span) (name : Spanned String) {ts : Phrase α} {modifiers : List (Modifier α)}
    (h : IsModifiers ts modifiers) :
    ReadsView (⟨.keyword .view, s⟩ :: ⟨.ident name.value, name.span⟩ :: ts)
      (.modified { start := s.start, name, modifiers } (extent ts).stop)
  | children {ts : Phrase α} {v : OpenView α} (h : ReadsChildren ts v) : ReadsView ts (.children v)

theorem IsHead.isView {ts us : Phrase α} {v : OpenView α} {children : List (View α)}
    (hv : IsHead ts v) (s : Span) (hc : Many IsView us children) (s' : Span) :
    IsView (ts ++ (⟨.mark .braceOpen, s⟩ :: (us ++ [⟨.mark .braceClose, s'⟩])))
      (({ v with children } : OpenView α).close s'.stop) := by
  cases hv with
  | @mk h name ts modifiers hm =>
    have hview := IsView.mk h name hm (.present (.mk s hc s'))
    have hne : (⟨.mark .braceOpen, s⟩ :: (us ++ [⟨.mark .braceClose, s'⟩]) : Phrase α) ≠ [] :=
      List.cons_ne_nil _ _
    have hextent :=
      extent_cons_append hne ⟨.keyword .view, h⟩ (⟨.ident name.value, name.span⟩ :: ts)
    rw [extent_cons_concat] at hextent
    rw [← List.cons_append, hextent] at hview
    exact hview

theorem ReadsView.isHead {ts : Phrase α} {phase : ViewPhase α} {v : OpenView α}
    (h : ReadsView ts phase) (hv : phase = .named v ∨ ∃ stop, phase = .modified v stop) :
    IsHead ts v := by
  cases h with
  | named s name =>
    rcases hv with hv | ⟨_, hv⟩ <;> cases hv
    exact .mk s name .absent
  | modified s name h =>
    rcases hv with hv | ⟨_, hv⟩ <;> cases hv
    exact .mk s name (.present h)
  | _ => rcases hv with hv | ⟨_, hv⟩ <;> cases hv

theorem ReadsView.isView {ts : Phrase α} {phase : ViewPhase α} {v : View α}
    (h : ReadsView ts phase) (hv : phase.view? = some v) : IsView ts v := by
  cases h with
  | named s name =>
    cases hv
    exact .mk s name .absent .absent
  | @modified s name ts modifiers h =>
    cases hv
    have hview := IsView.mk s name (.present h) .absent
    cases h with
    | mk s₁ h s₂ =>
      rw [List.append_nil, extent_cons_cons (List.cons_ne_nil _ _)] at hview
      exact hview
  | _ => cases hv

theorem ReadsModifiers.close {P : Rule α (List (Modifier α))} {ts : Phrase α} {v : OpenView α}
    (h : ReadsModifiers P ts v)
    (hP : ∀ us modifiers, P us modifiers → Listed IsModifier us modifiers) (s : Span) :
    ReadsView (ts ++ [⟨.mark .bracketClose, s⟩]) (.modified v s.stop) := by
  cases h with
  | mk s₁ name s₂ h =>
    have hv := ReadsView.modified s₁ name (.mk s₂ (hP _ _ h) s)
    rwa [extent_cons_concat] at hv

theorem ReadsModifiers.addModifier {ts us : Phrase α} {v : OpenView α} {x : α}
    (h : ReadsModifiers (Many (Followed IsModifier .comma)) ts v) (key : Spanned String) (s : Span)
    (hx : IsNumber us x) :
    ReadsModifiers (Joined IsModifier .comma)
      (ts ++ (⟨.ident key.value, key.span⟩ :: ⟨.mark .colon, s⟩ :: us))
      (v.addModifier key ⟨x, extent us⟩) := by
  cases h with
  | mk s₁ name s₂ h =>
    have hm := IsModifier.mk key s hx
    rw [extent_cons_cons hx.ne_nil] at hm
    exact .mk s₁ name s₂ (h.joined hm)

theorem ReadsView.next {ts : Phrase α} {phase phase' : ViewPhase α} {t : Spanned (Token α)}
    (hv : ReadsView ts phase) (h : phase.Next t phase') : ReadsView (ts ++ [t]) phase' := by
  cases h with
  | name _ n =>
    cases hv with
    | keyword s => exact .named s n
  | bracketOpen _ b =>
    cases hv with
    | named s name => exact .modifiers (.mk s name b .nil)
  | key _ k =>
    cases hv with
    | modifiers hm => exact .key hm k
  | colon _ k s =>
    cases hv with
    | key hm =>
      rw [List.append_assoc]
      exact .colon hm k s
  | plain _ k x s =>
    cases hv with
    | colon hm _ c =>
      rw [List.append_assoc]
      exact .modifier (hm.addModifier k c (.plain x s))
  | minus _ k s =>
    cases hv with
    | colon hm _ c =>
      rw [List.append_assoc]
      exact .minus hm k c s
  | negative _ k _ x s =>
    cases hv with
    | minus hm _ c m =>
      have hx := IsNumber.negative m x s
      rw [List.append_assoc]
      exact .modifier (hm.addModifier k c (.negative m x s))
  | comma _ s =>
    cases hv with
    | modifier hm =>
      cases hm with
      | mk v name b hm => exact .modifiers (.mk v name b (hm.many s))
  | bracketClose _ s =>
    cases hv with
    | modifier hm => exact hm.close (fun _ _ => .plain) s
  | bracketCloseEarly _ s =>
    cases hv with
    | modifiers hm => exact hm.close (fun _ _ => Many.listed) s
  | braceOpen h s =>
    cases hv.isHead h with
    | mk k name hm => exact .children (.mk (.mk k name hm) s .nil)

/-! ## Statements -/

/-- A pin up to the name of a call. -/
inductive ReadsPin : Rule α (OpenPin α)
  | mk (s : Span) (target : Spanned String) (s' : Span) {ts : Phrase α} {calls : List (Call α)}
    (h : Many (Followed IsCall .dot) ts calls) :
    ReadsPin (⟨.keyword .pin, s⟩ :: ⟨.ident target.value, target.span⟩ :: ⟨.mark .colon, s'⟩ :: ts)
      ⟨s.start, target, calls⟩

/-- What has been read of a statement. -/
inductive ReadsPending : Rule α (Pending α)
  | none : ReadsPending [] .none
  | direction (s : Span) : ReadsPending [⟨.keyword .direction, s⟩] (.direction s.start)
  | pin (s : Span) : ReadsPending [⟨.keyword .pin, s⟩] (.pin s.start)
  | target (s : Span) (name : Spanned String) :
    ReadsPending [⟨.keyword .pin, s⟩, ⟨.ident name.value, name.span⟩] (.target s.start name)
  | chain {ts : Phrase α} {p : OpenPin α} (h : ReadsPin ts p) : ReadsPending ts (.chain p)
  | call {ts : Phrase α} {p : OpenPin α} (h : ReadsPin ts p) (name : Spanned String) :
    ReadsPending (ts ++ [⟨.ident name.value, name.span⟩]) (.call p name)
  | args {ts us : Phrase α} {p : OpenPin α} {o : OpenArgs α} (h : ReadsPin ts p)
    (name : Spanned String) (s : Span) (ho : o.Reads us) :
    ReadsPending (ts ++ (⟨.ident name.value, name.span⟩ :: ⟨.mark .parenOpen, s⟩ :: us))
      (.args p name o)
  | called (s : Span) (target : Spanned String) (s' : Span) {ts : Phrase α} {calls : List (Call α)}
    (h : Joined IsCall .dot ts calls) :
    ReadsPending
      (⟨.keyword .pin, s⟩ :: ⟨.ident target.value, target.span⟩ :: ⟨.mark .colon, s'⟩ :: ts)
      (.called ⟨s.start, target, calls⟩ (extent ts).stop)
  | view {ts us : Phrase α} {phase : ViewPhase α} {parents : List (OpenView α)}
    (hp : Stacked ReadsChildren ts parents) (h : ReadsView us phase) :
    ReadsPending (ts ++ us) (.view phase parents)

theorem ReadsPin.called {ts us : Phrase α} {p : OpenPin α} {c : Call α} (h : ReadsPin ts p)
    (hc : IsCall us c) :
    ReadsPending (ts ++ us) (.called { p with calls := p.calls ++ [c] } (extent us).stop) := by
  cases h with
  | @mk s target s' ts calls h =>
    have hp := ReadsPending.called s target s' (h.joined hc)
    rwa [stop_extent_append hc.ne_nil] at hp

inductive Reads : Rule α (State α)
  | mk {ts us : Phrase α} {done : List (Statement α)} {pending : Pending α}
    (hd : Many IsStatement ts done) (hp : ReadsPending us pending) :
    Reads (ts ++ us) ⟨done, pending⟩

theorem reads_complete {ts us : Phrase α} {done : List (Statement α)} {st : Statement α}
    (hd : Many IsStatement ts done) (h : IsStatement us st) (pending : Pending α) :
    Reads (ts ++ us) ((⟨done, pending⟩ : State α).complete st) := by
  have hr := Reads.mk (hd.snoc h) .none
  rwa [List.append_nil] at hr

theorem reads_completeView {ts us vs : Phrase α} {done : List (Statement α)}
    {parents : List (OpenView α)} {v : View α} (hd : Many IsStatement ts done)
    (hp : Stacked ReadsChildren us parents) (h : IsView vs v) (pending : Pending α) :
    Reads (ts ++ (us ++ vs)) ((⟨done, pending⟩ : State α).completeView v parents) := by
  cases hp with
  | nil => exact reads_complete hd (.view h) pending
  | push hp hc =>
    cases hc with
    | mk hhead s hc =>
      have hr := Reads.mk hd (.view hp (.children (.mk hhead s (hc.snoc h))))
      simpa [completeView, OpenView.addChild] using hr

section Step

variable {ts : Phrase α} {s s' : State α} {t : Spanned (Token α)}

theorem Reads.settle (hr : Reads ts s) (h : s.settle = some s') : Reads ts s' := by
  cases hr with
  | mk hd hp =>
    cases hp with
    | called s target c hcalls =>
      cases h
      have hst := IsStatement.pin s target c hcalls
      rw [extent_cons (List.cons_ne_nil _ _),
        extent_cons_cons (hcalls.ne_nil fun _ _ => IsCall.ne_nil)] at hst
      exact reads_complete hd hst _
    | view hps hv =>
      obtain ⟨v, hclose, rfl⟩ := Option.map_eq_some_iff.1 h
      exact reads_completeView hd hps (hv.isView hclose) _
    | _ => cases h

theorem Reads.extends (hr : Reads ts s) (h : s.Extends t s') : Reads (ts ++ [t]) s' := by
  cases hr with
  | @mk ts us done pending hd hp =>
    rw [List.append_assoc]
    cases h with
    | openDirection _ k =>
      cases hp
      exact .mk hd (.direction k)
    | openPin _ k =>
      cases hp
      exact .mk hd (.pin k)
    | openView _ k =>
      cases hp
      exact .mk hd (.view .nil (.keyword k))
    | direction _ _ n =>
      cases hp with
      | direction k =>
        exact reads_complete hd (.direction k n) (.direction k.start)
    | target _ _ n =>
      cases hp with
      | pin k => exact .mk hd (.target k n)
    | colon _ _ name c =>
      cases hp with
      | target k => exact .mk hd (.chain (.mk k name c .nil))
    | callName _ _ n =>
      cases hp with
      | chain hpin => exact .mk hd (.call hpin n)
    | parenOpen _ _ name b =>
      cases hp with
      | call hpin =>
        have hr := Reads.mk hd (.args hpin name b (.mk .nil .nil .nil .ready fun _ => rfl))
        simpa using hr
    | arg _ _ name h =>
      cases hp with
      | args hpin _ b ho =>
        have hr := Reads.mk hd (.args hpin name b (ho.step h))
        simpa using hr
    | parenClose _ _ name hargs e =>
      cases hp with
      | args hpin _ b ho =>
        have hp := hpin.called (.mk name (.mk b (ho.listed hargs) e))
        rw [← List.cons_append, extent_cons_concat] at hp
        have hr := Reads.mk hd hp
        simpa using hr
    | dot _ _ _ d =>
      cases hp with
      | called k target c hcalls => exact .mk hd (.chain (.mk k target c (hcalls.many d)))
    | view _ parents h =>
      cases hp with
      | view hps hv =>
        rw [List.append_assoc]
        exact .mk hd (.view hps (hv.next h))
    | child _ v parents k =>
      cases hp with
      | view hps hv =>
        cases hv with
        | children hc => exact .mk hd (.view (hps.push hc) (.keyword k))
    | braceClose _ v parents b =>
      cases hp with
      | view hps hv =>
        cases hv with
        | children hc =>
          cases hc with
          | mk hhead a hc =>
            have hr := reads_completeView hd hps (hhead.isView a hc b)
            simpa using hr _

theorem Reads.step? (hr : Reads ts s) (h : s.step? t = some s') : Reads (ts ++ [t]) s' := by
  unfold State.step? at h
  split at h
  · cases h
    exact hr.extends (extend?_eq_some_iff.1 ‹_›)
  · obtain ⟨s₁, hs₁, h⟩ := Option.bind_eq_some_iff.1 h
    exact (hr.settle hs₁).extends (extend?_eq_some_iff.1 h)

theorem Reads.steps? {us : Phrase α} (hr : Reads ts s) (h : s.steps? us = some s') :
    Reads (ts ++ us) s' := by
  induction us generalizing ts s with
  | nil =>
    cases h
    rwa [List.append_nil]
  | cons u us ih =>
    rw [steps?_cons] at h
    obtain ⟨s₁, hs₁, h⟩ := Option.bind_eq_some_iff.1 h
    rw [List.append_cons]
    exact ih (hr.step? hs₁) h

theorem Reads.isScript {script : Script α} (hr : Reads ts s) (h : s.script? = some script) :
    IsScript ts script := by
  have hr' : Reads ts (s.settle.getD s) := by
    cases hs : s.settle with
    | none => exact hr
    | some s' => exact hr.settle hs
  simp only [State.script?] at h
  generalize s.settle.getD s = s' at hr' h
  cases hr' with
  | mk hd hp =>
    cases hp with
    | none =>
      cases h
      rwa [List.append_nil]
    | _ => cases h

end Step

/-- What is taken is derived by the grammar, as it is taken. -/
theorem isScript_of_steps {ts : Phrase α} {s : State α} {script : Script α}
    (hs : ({} : State α).steps? ts = some s) (h : s.script? = some script) :
    IsScript ts script := by
  have hr : Reads [] ({} : State α) := .mk .nil .none
  exact (hr.steps? hs).isScript h

end Parser.State

end Pinning
