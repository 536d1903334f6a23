import Mathlib.Tactic.SplitIfs
import Pinning.Scalar.Rational
import Pinning.Session

/-!
# What a session gathers

An effect overlays the constraints with something that depends on the effect alone
(`perform_constraints`), and overlays are associative. So the constraints of a session are those
that its calls gather each on its own, one over the other (`issueAll_constraints`), and a slot
holds what the last call that reaches it leaves there (`value_pass`).

Two neighbours that reach nothing in common overlay alike in either order
(`overlay_comm_of_apart`). Where there is a container no call warns on account of an earlier one
(`issueAll_warnings`), so they only trade their warnings.
-/

namespace Pinning

variable {α : Type}

theorem Slot.mem_all : ∀ s : Slot, s ∈ Slot.all
  | .line .horizontal .low | .line .horizontal .mid | .line .horizontal .high
  | .line .vertical .low | .line .vertical .mid | .line .vertical .high
  | .size .horizontal | .size .vertical | .minSize .horizontal | .minSize .vertical
  | .maxSize .horizontal | .maxSize .vertical | .marginLow .horizontal | .marginLow .vertical
  | .marginHigh .horizontal | .marginHigh .vertical | .aspectRatio => by decide

attribute [ext] Constraints

namespace Constraints

/-- `c` with all that `later` holds put over it. -/
def overlay (c later : Constraints α) : Constraints α where
  value s := (later.value s).or (c.value s)
  fitsContent := c.fitsContent || later.fitsContent
  pinsEdges := c.pinsEdges || later.pinsEdges
  spanAlign a := (later.spanAlign a).or (c.spanAlign a)

def overlayAll (cs : List (Constraints α)) : Constraints α := cs.foldr overlay ∅

/-- No slot and no alignment is set by both. The two flags can only be raised, so both may raise
the same. -/
structure Apart (c c' : Constraints α) : Prop where
  value (s : Slot) : c.value s = none ∨ c'.value s = none
  spanAlign (a : Axis) : c.spanAlign a = none ∨ c'.spanAlign a = none

instance (c c' : Constraints α) : Decidable (c.Apart c') :=
  decidable_of_iff ((∀ s ∈ Slot.all, (c.value s).isNone ∨ (c'.value s).isNone)
      ∧ ∀ a ∈ [Axis.horizontal, .vertical], (c.spanAlign a).isNone ∨ (c'.spanAlign a).isNone) <| by
    simp only [Option.isNone_iff_eq_none]
    exact ⟨fun h => ⟨fun s => h.1 s s.mem_all, fun a => h.2 a (by cases a <;> simp)⟩,
      fun h => ⟨fun s _ => h.value s, fun a _ => h.spanAlign a⟩⟩

@[simp] theorem spanAlign_empty (a : Axis) : (∅ : Constraints α).spanAlign a = none := rfl
@[simp] theorem fitsContent_empty : (∅ : Constraints α).fitsContent = false := rfl
@[simp] theorem pinsEdges_empty : (∅ : Constraints α).pinsEdges = false := rfl

variable (c c' c'' : Constraints α)

@[simp] theorem overlay_empty : c.overlay ∅ = c := by
  ext <;> simp [overlay]

@[simp] theorem empty_overlay : (∅ : Constraints α).overlay c = c := by
  ext <;> simp [overlay]

theorem overlay_set (s : Slot) (v : α) : c.overlay (set ∅ s v) = c.set s v := by
  refine Constraints.ext (funext fun t => ?_) (by simp [overlay, set]) (by simp [overlay, set])
    (by simp [overlay, set])
  simp only [overlay, set]
  split_ifs <;> simp

theorem overlay_setSpanAlign (a : Axis) (l : Line) :
    c.overlay (setSpanAlign ∅ a l) = c.setSpanAlign a l := by
  refine Constraints.ext (by simp [overlay, setSpanAlign]) (by simp [overlay, setSpanAlign])
    (by simp [overlay, setSpanAlign]) (funext fun b => ?_)
  simp only [overlay, setSpanAlign]
  split_ifs <;> simp

theorem overlay_assoc : (c.overlay c').overlay c'' = c.overlay (c'.overlay c'') := by
  ext <;> simp [overlay, Option.or_assoc, Bool.or_assoc]

variable {c c' c''}

theorem overlay_comm_of_apart (h : c.Apart c') : c.overlay c' = c'.overlay c := by
  have hv : ∀ s, (c'.value s).or (c.value s) = (c.value s).or (c'.value s) := fun s => by
    rcases h.value s with h | h <;> rw [h] <;> simp
  have ha : ∀ a, (c'.spanAlign a).or (c.spanAlign a) = (c.spanAlign a).or (c'.spanAlign a) :=
    fun a => by rcases h.spanAlign a with h | h <;> rw [h] <;> simp
  simp only [overlay, hv, ha, Bool.or_comm]

@[simp] theorem overlayAll_nil : overlayAll ([] : List (Constraints α)) = ∅ := rfl

@[simp] theorem overlayAll_cons (cs : List (Constraints α)) :
    overlayAll (c :: cs) = c.overlay (overlayAll cs) := rfl

theorem overlayAll_append : ∀ cs cs' : List (Constraints α),
    overlayAll (cs ++ cs') = (overlayAll cs).overlay (overlayAll cs')
  | [], cs' => by simp
  | c :: cs, cs' => by simp [overlayAll_append cs cs', overlay_assoc]

theorem overlayAll_flatMap {β : Type} (f : β → List (Constraints α)) : ∀ xs : List β,
    overlayAll (xs.flatMap f) = overlayAll (xs.map fun x => overlayAll (f x))
  | [] => rfl
  | x :: xs => by
    rw [List.flatMap_cons, overlayAll_append, overlayAll_flatMap f xs, List.map_cons,
      overlayAll_cons]

theorem value_overlayAll (s : Slot) : ∀ cs : List (Constraints α),
    (overlayAll cs).value s = cs.reverse.findSome? (·.value s)
  | [] => rfl
  | c :: cs => by
    rw [overlayAll_cons, List.reverse_cons, List.findSome?_append, ← value_overlayAll s cs]
    simp [overlay]

theorem spanAlign_overlayAll (a : Axis) : ∀ cs : List (Constraints α),
    (overlayAll cs).spanAlign a = cs.reverse.findSome? (·.spanAlign a)
  | [] => rfl
  | c :: cs => by
    rw [overlayAll_cons, List.reverse_cons, List.findSome?_append, ← spanAlign_overlayAll a cs]
    simp [overlay]

theorem fitsContent_overlayAll : ∀ cs : List (Constraints α),
    (overlayAll cs).fitsContent = cs.any (·.fitsContent)
  | [] => rfl
  | c :: cs => by simp [overlay, fitsContent_overlayAll cs]

theorem pinsEdges_overlayAll : ∀ cs : List (Constraints α),
    (overlayAll cs).pinsEdges = cs.any (·.pinsEdges)
  | [] => rfl
  | c :: cs => by simp [overlay, pinsEdges_overlayAll cs]

end Constraints

open Constraints (overlayAll)

variable [Scalar α]

/-- What directives write to a slot: negative sizes are cut to zero, and ratios are positive. -/
def Slot.Takes : Slot → α → Prop
  | size _, v | minSize _, v | maxSize _, v => ¬ v < 0 ∨ v = 0
  | aspectRatio, v => 0 < v
  | _, _ => True

namespace Effect

/-- What an effect puts over the constraints. -/
def gathered : Effect α → Constraints α
  | write slot v => if Scalar.isFinite v then Constraints.set ∅ slot v else ∅
  | fitSize => { fitsContent := true }
  | pinEdges => { pinsEdges := true }
  | spanAlign a l => Constraints.setSpanAlign ∅ a l
  | warn _ | measure _ | turn _ => ∅

/-- What effects put over the constraints one after the other. -/
def gatheredAll (es : List (Effect α)) : Constraints α := overlayAll (es.map gathered)

@[simp] theorem gathered_warn (w : Warning α) : (warn w).gathered = ∅ := rfl
@[simp] theorem gathered_measure (name : String) : (measure name : Effect α).gathered = ∅ := rfl

@[simp] theorem gatheredAll_nil : gatheredAll ([] : List (Effect α)) = ∅ := rfl

@[simp] theorem gatheredAll_cons (e : Effect α) (es : List (Effect α)) :
    gatheredAll (e :: es) = e.gathered.overlay (gatheredAll es) := rfl

@[simp] theorem gatheredAll_append (es es' : List (Effect α)) :
    gatheredAll (es ++ es') = (gatheredAll es).overlay (gatheredAll es') := by
  rw [gatheredAll, List.map_append, Constraints.overlayAll_append]
  rfl

/-- What an effect warns of where there is a container. -/
def raised : Effect α → List (Warning α)
  | write slot v => if Scalar.isFinite v then [] else [.notFinite slot v]
  | warn w => [w]
  | _ => []

/-- The effect writes, warns or measures. -/
def IsPlain : Effect α → Prop
  | write slot v => slot.Takes v
  | warn _ | measure _ => True
  | _ => False

end Effect

namespace Session

variable (s : Session α)

@[simp] theorem perform_site (e : Effect α) : (s.perform e).site = s.site := by
  cases e <;> simp only [perform, record, warn] <;> split_ifs <;> rfl

@[simp] theorem perform_tolerance (e : Effect α) : (s.perform e).tolerance = s.tolerance := by
  cases e <;> simp only [perform, record, warn] <;> split_ifs <;> rfl

theorem perform_constraints (e : Effect α) :
    (s.perform e).constraints = s.constraints.overlay e.gathered := by
  cases e with
  | write slot v =>
    by_cases hv : Scalar.isFinite v
    · simp [perform, record, Effect.gathered, hv, Constraints.overlay_set]
    · simp [perform, warn, Effect.gathered, hv]
  | measure directive =>
    rw [Effect.gathered, Constraints.overlay_empty]
    unfold perform
    split_ifs <;> rfl
  | spanAlign a l => exact (Constraints.overlay_setSpanAlign _ a l).symm
  | _ => simp [perform, record, warn, Effect.gathered, Constraints.overlay]

theorem perform_warnings (h : s.site.container ≠ none) (e : Effect α) :
    (s.perform e).warnings = s.warnings ++ e.raised := by
  cases e with
  | write slot v =>
    by_cases hv : Scalar.isFinite v <;> simp [perform, record, warn, Effect.raised, hv]
  | measure directive => simp [perform, Effect.raised, h]
  | _ => simp [perform, record, warn, Effect.raised]

theorem perform_direction {e : Effect α} (h : e.IsPlain) :
    (s.perform e).direction = s.direction := by
  cases e with
  | write slot v => simp only [perform, record, warn]; split_ifs <;> rfl
  | warn w => rfl
  | measure directive => simp only [perform, warn]; split_ifs <;> rfl
  | _ => exact h.elim

theorem foldl_perform_site : ∀ (es : List (Effect α)) (s : Session α),
    (es.foldl perform s).site = s.site
  | [], _ => rfl
  | e :: es, s => by rw [List.foldl_cons, foldl_perform_site es, perform_site]

theorem foldl_perform_tolerance : ∀ (es : List (Effect α)) (s : Session α),
    (es.foldl perform s).tolerance = s.tolerance
  | [], _ => rfl
  | e :: es, s => by rw [List.foldl_cons, foldl_perform_tolerance es, perform_tolerance]

theorem foldl_perform_constraints : ∀ (es : List (Effect α)) (s : Session α),
    (es.foldl perform s).constraints = s.constraints.overlay (Effect.gatheredAll es)
  | [], s => by simp
  | e :: es, s => by
    rw [List.foldl_cons, foldl_perform_constraints es, perform_constraints,
      Effect.gatheredAll_cons, Constraints.overlay_assoc]

theorem foldl_perform_warnings : ∀ (es : List (Effect α)) (s : Session α),
    s.site.container ≠ none →
      (es.foldl perform s).warnings = s.warnings ++ es.flatMap Effect.raised
  | [], s, _ => by simp
  | e :: es, s, h => by
    rw [List.foldl_cons, foldl_perform_warnings es _ (by rwa [perform_site]),
      perform_warnings s h, List.flatMap_cons, List.append_assoc]

theorem foldl_perform_direction : ∀ (es : List (Effect α)) (s : Session α),
    (∀ e ∈ es, e.IsPlain) → (es.foldl perform s).direction = s.direction
  | [], _, _ => rfl
  | e :: es, s, h => by
    rw [List.foldl_cons, foldl_perform_direction es _ fun e he => h e (List.mem_cons_of_mem _ he),
      perform_direction s (h e List.mem_cons_self)]

end Session

namespace Directive

variable (site : Site α) (d : Direction)

/-- What a directive puts over the constraints. -/
def gathered (c : Directive α) : Constraints α :=
  Effect.gatheredAll (c.effects site d)

/-- What a directive warns of where there is a container. -/
def raised (c : Directive α) : List (Warning α) := (c.effects site d).flatMap Effect.raised

/-! ## Which directives do more than write -/

theorem plain_measuring (name : String) (v : Length α) : ∀ e ∈ measuring name v, e.IsPlain := by
  cases v with
  | points v => simp [measuring]
  | percent p =>
    simp only [measuring]
    split_ifs <;> simp [Effect.IsPlain]

theorem plain_writeSize (slot : Slot) (h : ∀ x : α, ¬ x < 0 ∨ x = 0 → slot.Takes x) (v : α) :
    ∀ e ∈ writeSize slot v, e.IsPlain := by
  unfold writeSize
  split_ifs with hv
  · simp [Effect.IsPlain, h 0 (.inr rfl)]
  · simp [Effect.IsPlain, h v (.inl hv)]

theorem plain_setInset (b : Border) (v : Length α) : ∀ e ∈ setInset site d b v, e.IsPlain := by
  simp only [setInset, List.forall_mem_append]
  refine ⟨plain_measuring _ v, ?_⟩
  split_ifs <;> simp [Effect.IsPlain, Slot.Takes]

theorem plain_setMargin (b : Border) (v : Length α) : ∀ e ∈ setMargin site d b v, e.IsPlain := by
  simp only [setMargin, List.forall_mem_append]
  refine ⟨plain_measuring _ v, ?_⟩
  split_ifs <;> simp [Effect.IsPlain, Slot.Takes]

theorem plain_setSize (slot : Slot) (h : ∀ x : α, ¬ x < 0 ∨ x = 0 → slot.Takes x) (a : Axis)
    (v : Length α) : ∀ e ∈ setSize site slot a v, e.IsPlain := by
  simp only [setSize, List.forall_mem_append]
  exact ⟨plain_measuring _ v, plain_writeSize slot h _⟩

theorem plain_setLength (v : Length α) (setter : Setter) :
    ∀ e ∈ setLength site d v setter, e.IsPlain := by
  cases setter with
  | inset b => exact plain_setInset site d b v
  | center a =>
    simp only [setLength, setCenter, List.forall_mem_append]
    exact ⟨plain_measuring _ v, by simp [Effect.IsPlain, Slot.Takes]⟩
  | span a =>
    simp only [setLength, List.forall_mem_append]
    exact ⟨plain_setInset site d _ v, plain_setInset site d _ v⟩
  | all =>
    intro e he
    obtain ⟨b, -, he⟩ := List.mem_flatMap.1 he
    exact plain_setInset site d b v e he
  | size a => exact plain_setSize site (.size a) (fun _ h => h) a v
  | minSize a => exact plain_setSize site (.minSize a) (fun _ h => h) a v
  | maxSize a => exact plain_setSize site (.maxSize a) (fun _ h => h) a v
  | square =>
    simp only [setLength, List.forall_mem_append]
    exact ⟨⟨plain_measuring _ v, plain_writeSize (.size .horizontal) (fun _ h => h) _⟩,
      plain_writeSize (.size .vertical) (fun _ h => h) _⟩
  | margin b => exact plain_setMargin site d b v
  | margins a =>
    simp only [setLength, List.forall_mem_append]
    exact ⟨plain_setMargin site d _ v, plain_setMargin site d _ v⟩

theorem plain_setRatio (r : α) : ∀ e ∈ setRatio r, e.IsPlain := by
  unfold setRatio
  split_ifs with h
  · simp [Effect.IsPlain, Slot.Takes, h.2]
  · simp [Effect.IsPlain]

theorem plain_place (r : Relation) (nodes : List NodeId) :
    ∀ e ∈ place site d r nodes, e.IsPlain := by
  have hwrites : ∀ group : List (Rect α), ∀ w ∈ r.writes d group, w.1.Takes w.2 := by
    intro group
    unfold Relation.writes
    split
    · simp
    · split <;> simp [Slot.Takes]
  simp only [place, List.forall_mem_append]
  refine ⟨List.forall_mem_map.2 fun n _ => trivial, ?_⟩
  split_ifs
  · simp [Effect.IsPlain]
  · exact List.forall_mem_map.2 fun w hw => hwrites _ w hw

/-- A directive writes, warns and measures, and does nothing else, or it is one of the five that do
one thing only. -/
theorem plain_effects (c : Directive α) :
    (∀ e ∈ c.effects site d, e.IsPlain) ∨ c = fitSize ∨ c = pinEdges
      ∨ (∃ side, c = justify side) ∨ (∃ line, c = align line) ∨ ∃ d', c = turn d' := by
  cases c with
  | fitSize | pinEdges | justify | align | turn => simp
  | set setter v => exact .inl (plain_setLength site d v setter)
  | sideTo | lineTo | anchorTo | anchor =>
    exact .inl (by simp [effects, setAnchor, Effect.IsPlain, Slot.Takes])
  | relative r nodes => exact .inl (plain_place site d r nodes)
  | sizes w h =>
    refine .inl ?_
    simp only [effects, List.forall_mem_append]
    exact ⟨plain_setLength site d w _, plain_setLength site d h _⟩
  | sizeOf a node => exact .inl (plain_setLength site d (.points _) (.size a))
  | sizesOf node =>
    refine .inl fun e he => ?_
    obtain ⟨a, -, he⟩ := List.mem_flatMap.1 he
    exact plain_setLength site d _ _ e he
  | aspectRatio r => exact .inl (plain_setRatio r)
  | aspectRatioOf node =>
    refine .inl ?_
    simp only [effects]
    split
    · exact plain_setRatio _
    · simp [Effect.IsPlain]
  | aspectRatioOfContent =>
    refine .inl ?_
    simp only [effects]
    split
    · exact plain_setRatio _
    · simp [Effect.IsPlain]
  | margins i =>
    refine .inl ?_
    simp only [effects, List.forall_mem_append]
    exact ⟨⟨⟨plain_setMargin site d _ _, plain_setMargin site d _ _⟩,
      plain_setMargin site d _ _⟩, plain_setMargin site d _ _⟩
  | directionalMargins i =>
    refine .inl ?_
    simp only [effects, List.forall_mem_append]
    exact ⟨⟨⟨plain_setMargin site d _ _, plain_setMargin site d _ _⟩,
      plain_setMargin site d _ _⟩, plain_setMargin site d _ _⟩

/-! ## What a directive gathers -/

theorem gatheredAll_plain {es : List (Effect α)} (h : ∀ e ∈ es, e.IsPlain) :
    (Effect.gatheredAll es).fitsContent = false ∧ (Effect.gatheredAll es).pinsEdges = false
      ∧ ∀ a, (Effect.gatheredAll es).spanAlign a = none := by
  have hes : ∀ c ∈ es.map Effect.gathered,
      c.fitsContent = false ∧ c.pinsEdges = false ∧ ∀ a, c.spanAlign a = none := by
    intro c hc
    obtain ⟨e, he, rfl⟩ := List.mem_map.1 hc
    have hp := h e he
    cases e with
    | write slot v => simp only [Effect.gathered]; split_ifs <;> simp [Constraints.set]
    | warn w => simp [Effect.gathered]
    | measure name => simp [Effect.gathered]
    | _ => exact hp.elim
  rw [Effect.gatheredAll, Constraints.fitsContent_overlayAll, Constraints.pinsEdges_overlayAll]
  simp only [Constraints.spanAlign_overlayAll, List.any_eq_false, List.findSome?_eq_none_iff,
    List.mem_reverse]
  exact ⟨fun c hc => by simp [(hes c hc).1], fun c hc => by simp [(hes c hc).2.1],
    fun a c hc => (hes c hc).2.2 a⟩

theorem gathered_fitsContent (c : Directive α) :
    (c.gathered site d).fitsContent = true ↔ c = fitSize := by
  rcases plain_effects site d c with h | rfl | rfl | ⟨side, rfl⟩ | ⟨line, rfl⟩ | ⟨d', rfl⟩
  · rw [gathered, (gatheredAll_plain h).1]
    refine ⟨fun hf => absurd hf (by simp), ?_⟩
    rintro rfl
    exact (h .fitSize (by simp [effects])).elim
  all_goals simp [gathered, effects, Effect.gathered, Constraints.setSpanAlign]

theorem gathered_pinsEdges (c : Directive α) :
    (c.gathered site d).pinsEdges = true ↔ c = pinEdges := by
  rcases plain_effects site d c with h | rfl | rfl | ⟨side, rfl⟩ | ⟨line, rfl⟩ | ⟨d', rfl⟩
  · rw [gathered, (gatheredAll_plain h).2.1]
    refine ⟨fun hf => absurd hf (by simp), ?_⟩
    rintro rfl
    exact (h .pinEdges (by simp [effects])).elim
  all_goals simp [gathered, effects, Effect.gathered, Constraints.setSpanAlign]

/-- The alignment between two edges that a directive asks for. -/
def spanAlign? (a : Axis) : Directive α → Option Line
  | justify side => if a = .horizontal then some (side.line d) else none
  | align line => if a = .vertical then some line else none
  | _ => none

theorem gathered_spanAlign (c : Directive α) (a : Axis) :
    (c.gathered site d).spanAlign a = c.spanAlign? d a := by
  rcases plain_effects site d c with h | rfl | rfl | ⟨side, rfl⟩ | ⟨line, rfl⟩ | ⟨d', rfl⟩
  · rw [gathered, (gatheredAll_plain h).2.2 a]
    cases c with
    | justify side => exact (h (.spanAlign .horizontal (side.line d)) (by simp [effects])).elim
    | align line => exact (h (.spanAlign .vertical line) (by simp [effects])).elim
    | _ => rfl
  all_goals simp [gathered, effects, Effect.gathered, Constraints.setSpanAlign, spanAlign?]

/-- The direction in force after a directive. -/
def turned : Directive α → Direction
  | turn d' => d'
  | _ => d

/-- The directives of a chain, each with the direction in force when it is issued. -/
def inForce : Direction → List (Directive α) → List (Direction × Directive α)
  | _, [] => []
  | d, c :: cs => (d, c) :: inForce (c.turned d) cs

/-- The direction in force after a chain. -/
def turnedBy (cs : List (Directive α)) : Direction := cs.foldl turned d

omit [Scalar α] in
theorem inForce_append : ∀ (d : Direction) (cs cs' : List (Directive α)),
    inForce d (cs ++ cs') = inForce d cs ++ inForce (turnedBy d cs) cs'
  | _, [], _ => rfl
  | d, c :: cs, cs' => by
    rw [List.cons_append, inForce, inForce_append, inForce, List.cons_append]
    rfl

omit [Scalar α] in
theorem map_snd_inForce : ∀ (d : Direction) (cs : List (Directive α)),
    (inForce d cs).map Prod.snd = cs
  | _, [] => rfl
  | d, c :: cs => by rw [inForce, List.map_cons, map_snd_inForce]

omit [Scalar α] in
theorem turned_of_ne {c : Directive α} (h : ∀ d', c ≠ turn d') : c.turned d = d := by
  cases c with
  | turn d' => exact absurd rfl (h d')
  | _ => rfl

omit [Scalar α] in
theorem inForce_of_forall_ne : ∀ {cs : List (Directive α)}, (∀ c ∈ cs, ∀ d', c ≠ turn d') →
    inForce d cs = cs.map (d, ·)
  | [], _ => rfl
  | c :: cs, h => by
    rw [inForce, turned_of_ne d (h c List.mem_cons_self), List.map_cons,
      inForce_of_forall_ne fun c' hc' => h c' (List.mem_cons_of_mem _ hc')]

omit [Scalar α] in
/-- Two neighbours that do not turn are issued in the same direction. -/
theorem inForce_neighbours {c₁ c₂ : Directive α} (h₁ : ∀ d', c₁ ≠ turn d')
    (h₂ : ∀ d', c₂ ≠ turn d') (before after : List (Directive α)) :
    inForce d (before ++ c₁ :: c₂ :: after) = inForce d before
      ++ (turnedBy d before, c₁) :: (turnedBy d before, c₂)
        :: inForce (turnedBy d before) after := by
  rw [inForce_append, inForce, inForce, turned_of_ne _ h₁, turned_of_ne _ h₂]

end Directive

namespace Session

open Directive (inForce turnedBy)

variable (s : Session α)

/-! ## Chains of directives -/

theorem issue_site (c : Directive α) : (s.issue c).site = s.site := foldl_perform_site _ s

theorem issue_constraints (c : Directive α) :
    (s.issue c).constraints = s.constraints.overlay (c.gathered s.site s.direction) :=
  foldl_perform_constraints _ s

theorem issue_direction (c : Directive α) : (s.issue c).direction = c.turned s.direction := by
  rcases Directive.plain_effects s.site s.direction c with
    h | rfl | rfl | ⟨side, rfl⟩ | ⟨line, rfl⟩ | ⟨d', rfl⟩
  · rw [issue, foldl_perform_direction _ s h]
    cases c with
    | turn d' => exact (h (.turn d') (by simp [Directive.effects])).elim
    | _ => rfl
  all_goals rfl

theorem issueAll_cons (c : Directive α) (cs : List (Directive α)) :
    s.issueAll (c :: cs) = (s.issue c).issueAll cs := rfl

theorem issueAll_site : ∀ (cs : List (Directive α)) (s : Session α),
    (s.issueAll cs).site = s.site
  | [], _ => rfl
  | c :: cs, s => by rw [issueAll_cons, issueAll_site cs, issue_site]

theorem issueAll_tolerance : ∀ (cs : List (Directive α)) (s : Session α),
    (s.issueAll cs).tolerance = s.tolerance
  | [], _ => rfl
  | c :: cs, s => by
    rw [issueAll_cons, issueAll_tolerance cs]
    exact foldl_perform_tolerance _ s

/-- The constraints are what the calls gather, each on its own, one over the other. -/
theorem issueAll_constraints : ∀ (cs : List (Directive α)) (s : Session α),
    (s.issueAll cs).constraints = s.constraints.overlay
      (overlayAll ((inForce s.direction cs).map fun (d, c) => c.gathered s.site d))
  | [], s => by simp [issueAll, inForce]
  | c :: cs, s => by
    rw [issueAll_cons, issueAll_constraints cs, issue_constraints, issue_site, issue_direction,
      inForce, List.map_cons, Constraints.overlayAll_cons, Constraints.overlay_assoc]

theorem issueAll_warnings : ∀ (cs : List (Directive α)) (s : Session α),
    s.site.container ≠ none → (s.issueAll cs).warnings
      = s.warnings ++ (inForce s.direction cs).flatMap fun (d, c) => c.raised s.site d
  | [], s, _ => by simp [issueAll, inForce]
  | c :: cs, s, h => by
    have hc : (s.issue c).warnings = s.warnings ++ c.raised s.site s.direction :=
      foldl_perform_warnings _ s h
    rw [issueAll_cons, issueAll_warnings cs _ (by rwa [issue_site]), hc, issue_site,
      issue_direction, inForce, List.flatMap_cons, List.append_assoc]

/-- The constraints of a session whose only call is `c`. -/
def alone (tree : Tree α) (node : NodeId) (config : Config α) (d : Direction) (c : Directive α) :
    Constraints α :=
  ((start tree node config d).issue c).constraints

/-- The session of a node after a chain of calls. -/
def pass (tree : Tree α) (node : NodeId) (config : Config α) (d : Direction)
    (cs : List (Directive α)) : Session α :=
  (start tree node config d).issueAll cs

variable (tree : Tree α) (node : NodeId) (config : Config α) (d : Direction)

theorem alone_eq (c : Directive α) : alone tree node config d c = c.gathered ⟨tree, node⟩ d := by
  rw [alone, issue_constraints]
  exact Constraints.empty_overlay _

theorem pass_site (cs : List (Directive α)) : (pass tree node config d cs).site = ⟨tree, node⟩ :=
  issueAll_site cs _

theorem commit_tree_pass (cs : List (Directive α)) : (pass tree node config d cs).commit.tree
    = tree.setFrame node (pass tree node config d cs).resolution.frame := by
  rw [tree_commit, pass_site]

/-- A session works its frame out for the node as it found it. -/
theorem subject_pass (cs : List (Directive α)) : (pass tree node config d cs).subject
    = ⟨tree.frame node, tree.content node, config.tolerance⟩ := by
  have htolerance : (pass tree node config d cs).tolerance = config.tolerance :=
    issueAll_tolerance cs _
  rw [subject, pass_site, htolerance]

theorem pass_constraints (cs : List (Directive α)) :
    (pass tree node config d cs).constraints
      = overlayAll ((inForce d cs).map fun (d, c) => alone tree node config d c) := by
  simp only [pass, issueAll_constraints, alone_eq]
  exact Constraints.empty_overlay _

theorem pass_warnings (h : tree.parent? node ≠ none) (cs : List (Directive α)) :
    (pass tree node config d cs).warnings
      = (inForce d cs).flatMap fun (d, c) => c.raised ⟨tree, node⟩ d :=
  issueAll_warnings cs (start tree node config d) h

/-- A slot holds what the last call leaves there that reaches it. -/
theorem value_pass (cs : List (Directive α)) (slot : Slot) :
    (pass tree node config d cs).constraints.value slot
      = (inForce d cs).reverse.findSome? fun (d, c) => (alone tree node config d c).value slot := by
  rw [pass_constraints, Constraints.value_overlayAll, ← List.map_reverse, List.findSome?_map]
  rfl

theorem spanAlign_pass (cs : List (Directive α)) (a : Axis) :
    (pass tree node config d cs).constraints.spanAlign a
      = (inForce d cs).reverse.findSome? fun (d, c) => c.spanAlign? d a := by
  rw [pass_constraints, Constraints.spanAlign_overlayAll, ← List.map_reverse, List.findSome?_map]
  simp only [Function.comp_def, alone_eq, Directive.gathered_spanAlign]

theorem fitsContent_pass (cs : List (Directive α)) :
    (pass tree node config d cs).constraints.fitsContent = true ↔ .fitSize ∈ cs := by
  rw [pass_constraints, Constraints.fitsContent_overlayAll, List.any_map, List.any_eq_true]
  simp only [Function.comp_def, alone_eq, Directive.gathered_fitsContent]
  rw [← Directive.map_snd_inForce d cs, List.mem_map, Directive.map_snd_inForce]

theorem pinsEdges_pass (cs : List (Directive α)) :
    (pass tree node config d cs).constraints.pinsEdges = true ↔ .pinEdges ∈ cs := by
  rw [pass_constraints, Constraints.pinsEdges_overlayAll, List.any_map, List.any_eq_true]
  simp only [Function.comp_def, alone_eq, Directive.gathered_pinsEdges]
  rw [← Directive.map_snd_inForce d cs, List.mem_map, Directive.map_snd_inForce]

/-- The frame depends on the site, the tolerance and the constraints alone. -/
theorem synthesize_congr {s s' : Session α} (hs : s'.site = s.site)
    (ht : s'.tolerance = s.tolerance) (hc : s'.constraints = s.constraints) :
    s'.constraints.synthesize s'.subject = s.constraints.synthesize s.subject := by
  rw [hc, subject, subject, hs, ht]

theorem synthesize_pass_congr {cs cs' : List (Directive α)}
    (h : (pass tree node config d cs').constraints = (pass tree node config d cs).constraints) :
    (pass tree node config d cs').constraints.synthesize (pass tree node config d cs').subject
      = (pass tree node config d cs).constraints.synthesize (pass tree node config d cs).subject :=
  synthesize_congr (by rw [pass_site, pass_site]) (by simp only [pass, issueAll_tolerance]) h

variable {c₁ c₂ : Directive α} (h₁ : ∀ d', c₁ ≠ .turn d') (h₂ : ∀ d', c₂ ≠ .turn d')
  (before after : List (Directive α))

include h₁ h₂

theorem pass_swap_constraints
    (h : (alone tree node config (turnedBy d before) c₁).Apart
      (alone tree node config (turnedBy d before) c₂)) :
    (pass tree node config d (before ++ c₂ :: c₁ :: after)).constraints
      = (pass tree node config d (before ++ c₁ :: c₂ :: after)).constraints := by
  simp only [pass_constraints, Directive.inForce_neighbours d h₁ h₂,
    Directive.inForce_neighbours d h₂ h₁, List.map_append, List.map_cons,
    Constraints.overlayAll_append, Constraints.overlayAll_cons]
  rw [← Constraints.overlay_assoc (alone tree node config _ c₁),
    ← Constraints.overlay_assoc (alone tree node config _ c₂),
    Constraints.overlay_comm_of_apart h]

theorem pass_swap_warnings (hp : tree.parent? node ≠ none) :
    (pass tree node config d (before ++ c₂ :: c₁ :: after)).warnings.Perm
      (pass tree node config d (before ++ c₁ :: c₂ :: after)).warnings := by
  rw [pass_warnings _ _ _ _ hp, pass_warnings _ _ _ _ hp, Directive.inForce_neighbours d h₁ h₂,
    Directive.inForce_neighbours d h₂ h₁]
  exact ((List.Perm.swap _ _ _).append_left _).flatMap_right _

omit h₁ h₂

/-- A slot holds what the last call leaves there whose write is taken when it is the only call of
a session; a flag is up if a call raises it, and an alignment is that of the last call for its
axis. So neighbours that do not turn and reach nothing in common may trade places. -/
theorem last_call_wins :
    (∀ cs : List (Directive α),
      (∀ slot, (pass tree node config d cs).constraints.value slot
        = (inForce d cs).reverse.findSome? fun (d, c) =>
            (alone tree node config d c).value slot)
      ∧ ((pass tree node config d cs).constraints.fitsContent = true ↔ .fitSize ∈ cs)
      ∧ ((pass tree node config d cs).constraints.pinsEdges = true ↔ .pinEdges ∈ cs)
      ∧ ∀ a, (pass tree node config d cs).constraints.spanAlign a
        = (inForce d cs).reverse.findSome? fun (d, c) => c.spanAlign? d a)
    ∧ ∀ (before after : List (Directive α)) (c₁ c₂ : Directive α),
      (∀ d', c₁ ≠ .turn d') → (∀ d', c₂ ≠ .turn d') →
      (alone tree node config (turnedBy d before) c₁).Apart
        (alone tree node config (turnedBy d before) c₂) →
      let s := pass tree node config d (before ++ c₁ :: c₂ :: after)
      let s' := pass tree node config d (before ++ c₂ :: c₁ :: after)
      s'.constraints = s.constraints ∧ s'.resolution.frame = s.resolution.frame
        ∧ s'.commit.tree = s.commit.tree
        ∧ (tree.parent? node ≠ none → s'.resolution.warnings.Perm s.resolution.warnings) := by
  refine ⟨fun cs => ⟨value_pass tree node config d cs, fitsContent_pass tree node config d cs,
    pinsEdges_pass tree node config d cs, spanAlign_pass tree node config d cs⟩, ?_⟩
  intro before after c₁ c₂ h₁ h₂ h s s'
  have hc : s'.constraints = s.constraints :=
    pass_swap_constraints tree node config d h₁ h₂ before after h
  have hsyn := synthesize_pass_congr tree node config d hc
  have hf : s'.resolution.frame = s.resolution.frame := congrArg Synthesis.frame hsyn
  refine ⟨hc, hf, ?_, fun hp => ?_⟩
  · simp only [s, s', commit_tree_pass]
    exact congrArg _ hf
  · have hw := pass_swap_warnings tree node config d h₁ h₂ before after hp
    have hsw := congrArg Synthesis.warnings hsyn
    simp only [resolution]
    rw [hsw]
    exact hw.append_right _

/-- Read from the right, `start` sets the right edge and leaves the left one to its neighbour. -/
theorem start_and_left_trade_places :
    let tree : Tree Rat := ((∅ : Tree Rat).addRoot "root" ⟨⟨0, 0⟩, ⟨200, 100⟩⟩).1
    let tree := (tree.addChild 0 "card" ⟨⟨5, 5⟩, ⟨40, 30⟩⟩).1
    let before : List (Directive Rat) := [.set (.size .horizontal) (.points (-4)), .turn .rtl]
    let start : Directive Rat := .set (.inset .start) (.percent 10)
    let left : Directive Rat := .set (.inset (.low .horizontal)) (.points 30)
    let s := pass tree 1 .standard .ltr (before ++ start :: left :: [.pinEdges])
    let s' := pass tree 1 .standard .ltr (before ++ left :: start :: [.pinEdges])
    (alone tree 1 .standard .rtl start).Apart (alone tree 1 .standard .rtl left)
      ∧ tree.parent? 1 ≠ none ∧ s'.constraints = s.constraints
      ∧ s'.resolution.frame = s.resolution.frame ∧ s'.commit.tree = s.commit.tree
      ∧ s'.resolution.warnings.Perm s.resolution.warnings := by
  intro tree₀ tree before start left s s'
  have hapart : (alone tree 1 .standard .rtl start).Apart (alone tree 1 .standard .rtl left) := by
    decide +kernel
  have hp : tree.parent? 1 ≠ none := by decide +kernel
  obtain ⟨hc, hf, ht, hw⟩ := (last_call_wins tree 1 .standard .ltr).2 before [.pinEdges] start left
    (by simp [start]) (by simp [left]) hapart
  exact ⟨hapart, hp, hc, hf, ht, hw hp⟩

end Session

end Pinning
