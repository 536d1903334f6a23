import Pinning.Proofs.Transitions
import Pinning.Script.Reading

/-!
# Places pass through the parser

A source can be laid out anew, so that its tokens start and end elsewhere. Nothing that the parser
does depends on where tokens are: it only hands on where the first of a phrase starts and where the
last one ends. So when starts and ends are moved (`Relocation`), each state of the parser and what
it reads move along (`Parser.State.relocate_step?`, `Parser.State.relocate_script?`).
-/

namespace Pinning

variable {α β : Type}

/-- Where what started and what ended somewhere starts and ends now. -/
structure Relocation where
  start : Nat → Nat
  stop : Nat → Nat

namespace Relocation

/-- All places become the same. -/
def const (s : Span) : Relocation := ⟨fun _ => s.start, fun _ => s.stop⟩

def nowhere : Relocation := const ⟨0, 0⟩

end Relocation

variable (r : Relocation)

def Span.relocate (s : Span) : Span := ⟨r.start s.start, r.stop s.stop⟩

def Spanned.relocate (x : Spanned β) : Spanned β := ⟨x.value, x.span.relocate r⟩

namespace Arg

mutual

def relocate : Arg α → Arg α
  | number s v => number (s.relocate r) v
  | percent s v => percent (s.relocate r) v
  | name s n => name (s.relocate r) n
  | member s n m => member (s.relocate r) n m
  | list s items => list (s.relocate r) (relocateAll items)
  | named s key value => named (s.relocate r) (key.relocate r) (relocate value)

def relocateAll : List (Arg α) → List (Arg α)
  | [] => []
  | arg :: args => relocate arg :: relocateAll args

end

theorem relocateAll_eq_map (args : List (Arg α)) : relocateAll r args = args.map (relocate r) := by
  induction args with
  | nil => rfl
  | cons arg args ih => rw [relocateAll, ih, List.map_cons]

@[simp] theorem relocate_list (s : Span) (items : List (Arg α)) :
    (list s items).relocate r = list (s.relocate r) (items.map (relocate r)) := by
  rw [relocate, relocateAll_eq_map]

@[simp] theorem relocate_span (arg : Arg α) : (arg.relocate r).span = arg.span.relocate r := by
  cases arg <;> rfl

end Arg

def Call.relocate (c : Call α) : Call α :=
  ⟨c.span.relocate r, c.name.relocate r, c.args.map (Arg.relocate r)⟩

def Modifier.relocate (m : Modifier α) : Modifier α :=
  ⟨m.span.relocate r, m.key.relocate r, m.value.relocate r⟩

namespace View

mutual

def relocate : View α → View α
  | ⟨span, name, modifiers, children⟩ =>
    ⟨span.relocate r, name.relocate r, modifiers.map (Modifier.relocate r), relocateAll children⟩

def relocateAll : List (View α) → List (View α)
  | [] => []
  | v :: vs => relocate v :: relocateAll vs

end

theorem relocateAll_eq_map (vs : List (View α)) : relocateAll r vs = vs.map (relocate r) := by
  induction vs with
  | nil => rfl
  | cons v vs ih => rw [relocateAll, ih, List.map_cons]

end View

def Statement.relocate : Statement α → Statement α
  | direction s name => direction (s.relocate r) (name.relocate r)
  | view v => view (v.relocate r)
  | pin s target calls => pin (s.relocate r) (target.relocate r) (calls.map (Call.relocate r))

def Script.relocate (script : Script α) : Script α :=
  ⟨script.statements.map (Statement.relocate r)⟩

def ArgPhase.relocate : ArgPhase α → ArgPhase α
  | ready => ready
  | keyed => keyed
  | minus start => minus (r.start start)
  | number s v => number (s.relocate r) v
  | word n => word (n.relocate r)
  | dot n => dot (n.relocate r)
  | complete arg => complete (arg.relocate r)

def OpenList.relocate (l : OpenList α) : OpenList α :=
  ⟨l.keys.map (Spanned.relocate r), r.start l.start, l.items.map (Arg.relocate r)⟩

namespace OpenArgs

def relocate (o : OpenArgs α) : OpenArgs α :=
  ⟨o.phase.relocate r, o.keys.map (Spanned.relocate r), o.items.map (Arg.relocate r),
    o.lists.map (OpenList.relocate r)⟩

variable (o : OpenArgs α) (t : Spanned (Token α))

theorem relocate_underKeys (keys : List (Spanned String)) (arg : Arg α) :
    (underKeys keys arg).relocate r
      = underKeys (keys.map (Spanned.relocate r)) (arg.relocate r) := by
  induction keys generalizing arg with
  | nil => rfl
  | cons key keys ih =>
    refine (ih _).trans ?_
    rw [underKeys, underKeys, List.map_cons, List.foldl_cons, Arg.relocate_span]
    rfl

theorem relocate_current? : (o.relocate r).current? = o.current?.map (Arg.relocate r) := by
  obtain ⟨phase, keys, items, lists⟩ := o
  cases phase with
  | number s v => exact congrArg some (relocate_underKeys r keys (.number s v)).symm
  | word n => exact congrArg some (relocate_underKeys r keys (.name n.span n.value)).symm
  | complete arg => exact congrArg some (relocate_underKeys r keys arg).symm
  | _ => rfl

omit t in
theorem relocate_closed? :
    (o.relocate r).closed? = o.closed?.map (List.map (Arg.relocate r)) := by
  by_cases h : o.phase = .ready
  · simp [closed?, relocate, ArgPhase.relocate, h]
  · have h' : (o.relocate r).phase ≠ .ready := by
      cases hp : o.phase <;> simp_all [relocate, ArgPhase.relocate]
    rw [closed?_of_ne_ready h, closed?_of_ne_ready h', relocate_current?, Option.map_map,
      Option.map_map]
    simp [Function.comp_def, relocate]

variable [Neg α]

theorem relocate_open? : (o.relocate r).open? (t.relocate r) = (o.open? t).map (relocate r) := by
  obtain ⟨value, span⟩ := t
  cases value with
  | mark m => cases m <;> rfl
  | _ => rfl

theorem relocate_continue? :
    (o.relocate r).continue? (t.relocate r) = (o.continue? t).map (relocate r) := by
  have hopen := relocate_open? r o t
  obtain ⟨phase, keys, items, lists⟩ := o
  obtain ⟨value, span⟩ := t
  cases phase with
  | ready | keyed => exact hopen
  | _ =>
    cases value with
    | mark m => cases m <;> rfl
    | _ => rfl

omit [Neg α] in
theorem relocate_finish? :
    (o.relocate r).finish? (t.relocate r) = (o.finish? t).map (relocate r) := by
  obtain ⟨value, span⟩ := t
  cases value with
  | mark m =>
    cases m with
    | comma =>
      simp only [finish?, Spanned.relocate, relocate_current?, Option.map_map]
      simp [Function.comp_def, relocate, ArgPhase.relocate]
    | bracketClose =>
      cases hl : o.lists with
      | nil => simp [finish?, Spanned.relocate, relocate, hl]
      | cons l ls =>
        have hl' : (o.relocate r).lists = l.relocate r :: ls.map (OpenList.relocate r) := by
          rw [relocate, hl, List.map_cons]
        simp only [finish?, Spanned.relocate, hl, hl', relocate_closed?, Option.map_map]
        simp [Function.comp_def, relocate, ArgPhase.relocate, OpenList.relocate, Span.relocate]
    | _ => rfl
  | _ => rfl

theorem relocate_step? : (o.relocate r).step? (t.relocate r) = (o.step? t).map (relocate r) := by
  rw [step?, step?, relocate_continue?, relocate_finish?, Option.map_or]

omit [Neg α] in
theorem relocate_args? : (o.relocate r).args? = o.args?.map (List.map (Arg.relocate r)) := by
  rw [args?, args?, relocate_closed?]
  cases hl : o.lists <;> simp [relocate, hl]

end OpenArgs

def OpenView.relocate (v : OpenView α) : OpenView α :=
  ⟨r.start v.start, v.name.relocate r, v.modifiers.map (Modifier.relocate r),
    v.children.map (View.relocate r)⟩

def ViewPhase.relocate : ViewPhase α → ViewPhase α
  | keyword start => keyword (r.start start)
  | named v => named (v.relocate r)
  | modifiers v => modifiers (v.relocate r)
  | key v k => key (v.relocate r) (k.relocate r)
  | colon v k => colon (v.relocate r) (k.relocate r)
  | minus v k start => minus (v.relocate r) (k.relocate r) (r.start start)
  | modifier v => modifier (v.relocate r)
  | modified v stop => modified (v.relocate r) (r.stop stop)
  | children v => children (v.relocate r)

def OpenPin.relocate (p : OpenPin α) : OpenPin α :=
  ⟨r.start p.start, p.target.relocate r, p.calls.map (Call.relocate r)⟩

def Pending.relocate : Pending α → Pending α
  | none => none
  | direction start => direction (r.start start)
  | pin start => pin (r.start start)
  | target start name => target (r.start start) (name.relocate r)
  | chain p => chain (p.relocate r)
  | call p name => call (p.relocate r) (name.relocate r)
  | args p name o => args (p.relocate r) (name.relocate r) (o.relocate r)
  | called p stop => called (p.relocate r) (r.stop stop)
  | view phase parents => view (phase.relocate r) (parents.map (OpenView.relocate r))

theorem OpenView.relocate_close (v : OpenView α) (stop : Nat) :
    (v.relocate r).close (r.stop stop) = (v.close stop).relocate r := by
  rw [close, close, View.relocate, View.relocateAll_eq_map]
  rfl

theorem OpenView.relocate_addModifier (v : OpenView α) (key : Spanned String) (x : Spanned α) :
    (v.relocate r).addModifier (key.relocate r) (x.relocate r)
      = (v.addModifier key x).relocate r := by
  simp [addModifier, relocate, Modifier.relocate, Spanned.relocate, Span.relocate]

theorem OpenView.relocate_addChild (v : OpenView α) (child : View α) :
    (v.relocate r).addChild (child.relocate r) = (v.addChild child).relocate r := by
  simp [addChild, relocate]

theorem OpenPin.relocate_addCall (p : OpenPin α) (c : Call α) :
    { p.relocate r with calls := (p.relocate r).calls ++ [c.relocate r] }
      = OpenPin.relocate r { p with calls := p.calls ++ [c] } := by
  simp [relocate]

theorem ViewPhase.relocate_view? (phase : ViewPhase α) :
    (phase.relocate r).view? = phase.view?.map (View.relocate r) := by
  cases phase with
  | named v => exact congrArg some (v.relocate_close r v.name.span.stop)
  | modified v stop => exact congrArg some (v.relocate_close r stop)
  | _ => rfl

namespace Parser.State

def relocate (s : State α) : State α :=
  ⟨s.done.map (Statement.relocate r), s.pending.relocate r⟩

variable (s : State α) (t : Spanned (Token α))

theorem relocate_complete (st : Statement α) :
    (s.relocate r).complete (st.relocate r) = (s.complete st).relocate r := by
  simp [complete, relocate, Pending.relocate]

theorem relocate_completeView (v : View α) (parents : List (OpenView α)) :
    (s.relocate r).completeView (v.relocate r) (parents.map (OpenView.relocate r))
      = (s.completeView v parents).relocate r := by
  cases parents with
  | nil => exact relocate_complete r s (.view v)
  | cons p ps =>
    simp only [completeView, List.map_cons, OpenView.relocate_addChild]
    rfl

theorem relocate_settle : (s.relocate r).settle = s.settle.map (relocate r) := by
  obtain ⟨done, pending⟩ := s
  cases pending with
  | called p stop =>
    exact congrArg some (relocate_complete r _ (.pin ⟨p.start, stop⟩ p.target p.calls))
  | view phase parents =>
    simp only [settle, relocate, Pending.relocate, ViewPhase.relocate_view?, Option.map_map]
    cases phase.view? with
    | none => rfl
    | some v => exact congrArg some (relocate_completeView r ⟨done, .view phase parents⟩ v parents)
  | _ => rfl

variable [Neg α]

theorem relocate_extendView? (phase : ViewPhase α) (parents : List (OpenView α)) :
    (s.relocate r).extendView? (t.relocate r) (parents.map (OpenView.relocate r)) (phase.relocate r)
      = (s.extendView? t parents phase).map (relocate r) := by
  have modifier : ∀ v' v : OpenView α, v' = v.relocate r →
      some { s.relocate r with
        pending := .view (.modifier v') (parents.map (OpenView.relocate r)) }
        = some (relocate r { s with pending := .view (.modifier v) parents }) := by
    rintro _ v rfl
    rfl
  obtain ⟨value, span⟩ := t
  cases phase with
  | colon v key =>
    cases value with
    | number x => exact modifier _ _ (v.relocate_addModifier r key ⟨x, span⟩)
    | mark m => cases m <;> rfl
    | _ => rfl
  | minus v key start =>
    cases value with
    | number x => exact modifier _ _ (v.relocate_addModifier r key ⟨-x, ⟨start, span.stop⟩⟩)
    | _ => rfl
  | children v =>
    cases value with
    | mark m =>
      cases m with
      | braceClose =>
        simp only [extendView?, Spanned.relocate, ViewPhase.relocate]
        exact congrArg some ((congrArg (completeView _ · _) (v.relocate_close r span.stop)).trans
          (relocate_completeView r s _ parents))
      | _ => rfl
    | keyword k => cases k <;> rfl
    | _ => rfl
  | _ =>
    cases value with
    | mark m => cases m <;> rfl
    | _ => rfl

theorem relocate_extend? :
    (s.relocate r).extend? (t.relocate r) = (s.extend? t).map (relocate r) := by
  have hview := relocate_extendView? r s t
  have hcomplete := relocate_complete r s
  obtain ⟨done, pending⟩ := s
  obtain ⟨value, span⟩ := t
  cases pending with
  | view phase parents => exact hview phase parents
  | direction start =>
    cases value with
    | ident n => exact congrArg some (hcomplete (.direction ⟨start, span.stop⟩ ⟨n, span⟩))
    | _ => rfl
  | args p name o =>
    simp only [extend?, relocate, Pending.relocate, OpenArgs.relocate_step?,
      OpenArgs.relocate_args?]
    cases o.step? ⟨value, span⟩ with
    | some o' => rfl
    | none =>
      cases value with
      | mark m =>
        cases m with
        | parenClose =>
          cases o.args? with
          | none => rfl
          | some args =>
            exact congrArg (fun p => some (⟨_, .called p _⟩ : State α))
              (p.relocate_addCall r ⟨⟨name.span.start, span.stop⟩, name, args⟩)
        | _ => rfl
      | _ => rfl
  | none =>
    cases value with
    | keyword k => cases k <;> rfl
    | _ => rfl
  | _ =>
    cases value with
    | mark m => cases m <;> rfl
    | _ => rfl

theorem relocate_step? : (s.relocate r).step? (t.relocate r) = (s.step? t).map (relocate r) := by
  rw [step?, step?, relocate_extend?, relocate_settle]
  cases s.extend? t with
  | some s' => rfl
  | none =>
    cases s.settle with
    | none => rfl
    | some s' => exact relocate_extend? r s' t

omit [Neg α] in
theorem relocate_script? : (s.relocate r).script? = s.script?.map (Script.relocate r) := by
  have hgetD : (s.relocate r).settle.getD (s.relocate r) = (s.settle.getD s).relocate r := by
    rw [relocate_settle, Option.getD_map]
  simp only [script?, hgetD]
  obtain ⟨done, pending⟩ := s.settle.getD s
  cases pending <;> rfl

/-- Whether a token can be taken does not depend on where it stands. -/
theorem isSome_step? (v : Token α) (p p' : Span) :
    (s.step? ⟨v, p⟩).isSome = (s.step? ⟨v, p'⟩).isSome := by
  have h (q : Span) : ((s.relocate .nowhere).step? ⟨v, ⟨0, 0⟩⟩).isSome = (s.step? ⟨v, q⟩).isSome :=
    (congrArg Option.isSome (relocate_step? .nowhere s ⟨v, q⟩)).trans Option.isSome_map
  rw [← h p, h p']

theorem relocate_accepts (x : Terminal) : (s.relocate r).accepts x = s.accepts x := by
  have h (v : Token α) :
      ((s.relocate r).step? ⟨v, ⟨0, 0⟩⟩).isSome = (s.step? ⟨v, ⟨0, 0⟩⟩).isSome := by
    rw [isSome_step? _ v ⟨0, 0⟩ (Span.relocate r ⟨0, 0⟩)]
    exact (congrArg Option.isSome (relocate_step? r s ⟨v, ⟨0, 0⟩⟩)).trans Option.isSome_map
  cases x with
  | mark m => exact h (.mark m)
  | keyword k => exact h (.keyword k)
  | endOfInput => rw [accepts, accepts, relocate_script?, Option.isSome_map]

end Parser.State

/-- The error moves with its token, or to the end of a source that has another length. -/
def SyntaxError.relocate (length : Nat) (e : SyntaxError α) : SyntaxError α :=
  { e with span := if e.found.isSome then e.span.relocate r else ⟨r.stop e.span.start, length⟩ }

theorem Parser.run_relocate [Neg α] (length length' pos : Nat) (s : State α)
    (ts : List (Spanned (Token α))) :
    run length' (r.stop pos) (s.relocate r) (ts.map (Spanned.relocate r))
      = ((run length pos s ts).map (Script.relocate r)).mapError
          (SyntaxError.relocate r length') := by
  have haccepts (s : State α) : (s.relocate r).accepts = s.accepts :=
    funext fun x => s.relocate_accepts r x
  induction ts generalizing pos s with
  | nil =>
    rw [List.map_nil, run, run, State.relocate_script?, haccepts]
    cases s.script? <;> rfl
  | cons t ts ih =>
    rw [List.map_cons, run, run, State.relocate_step?, haccepts]
    cases s.step? t with
    | none => rfl
    | some s' => exact ih t.span.stop s'

end Pinning
