import Pinning.Proofs.Independence
import Pinning.Proofs.Offences

/-!
# Which error a script reports

One order settles what a script reports that has several things wrong with it. Its views come first,
wherever they stand (`Script.run_viewsFirst`), then its other statements one after the other: a
statement that has a fault (`Statement.Fault`) has it in every tree of these views, whatever the pins
before it have done, so that a run fails at the first one.
-/

namespace Pinning

variable {α β γ : Type}

/-- The errors that views make. -/
def SceneError.OfViews : SceneError → Prop
  | duplicateView .. | unknownModifier .. => True
  | unknownNode .. | unknownDirective .. | badArguments .. | badDirection .. => False

/-- A failure, if any, is not of the kind that views make. -/
def SparesViews (x : Except SceneError β) : Prop := ∀ e, x = .error e → ¬e.OfViews

namespace SparesViews

@[simp] theorem ok (b : β) : SparesViews (.ok b) := fun _ h => by cases h

@[simp] theorem pure (b : β) : SparesViews (Pure.pure b : Except SceneError β) := .ok b

theorem bind {x : Except SceneError β} {k : β → Except SceneError γ} (hx : SparesViews x)
    (hk : ∀ b, SparesViews (k b)) : SparesViews (x >>= k) := by
  cases x with
  | error e => exact fun _ he => by cases he; exact hx e rfl
  | ok b => exact hk b

theorem map {x : Except SceneError β} (hx : SparesViews x) (f : β → γ) : SparesViews (f <$> x) := by
  cases x with
  | error e => exact fun _ he => by cases he; exact hx e rfl
  | ok b => exact .ok _

theorem lookUp (t : Tree α) (name : String) (span : Span) : SparesViews (t.lookUp name span) := by
  unfold Tree.lookUp
  cases t.find? name with
  | none => exact fun _ he => by cases he; exact id
  | some id => exact .ok id

end SparesViews

namespace Call

open SparesViews

variable (t : Tree α) (c : Call α)

theorem sparesViews_bad (usage : Usage) : SparesViews (c.bad usage : Except SceneError β) :=
  fun _ he => by cases he; exact id

theorem sparesViews_orBad (usage : Usage) (x : Option β) : SparesViews (c.orBad usage x) := by
  cases x with
  | none => exact c.sparesViews_bad usage
  | some b => exact .ok b

theorem sparesViews_nodes (usage : Usage) : ∀ items : List (Arg α),
    SparesViews (c.nodes t usage items)
  | [] => .ok []
  | item :: items => by
    cases item with
    | name span node =>
      exact (lookUp t node span).bind fun id =>
        (sparesViews_nodes usage items).bind fun ids => .ok _
    | _ => exact c.sparesViews_bad usage

attribute [local simp] SparesViews.bind SparesViews.map SparesViews.lookUp sparesViews_bad
  sparesViews_orBad sparesViews_nodes

theorem sparesViews_anchor (own : Anchor) : SparesViews (c.anchor t own) := by
  unfold anchor
  split <;> simp

theorem sparesViews_setter [Scalar α] (s : Setter) : SparesViews (c.setter t s) := by
  unfold setter
  split
  · split <;> simp
  · simp
  · simp
  · split <;> simp
  · split <;> simp
  · simp

theorem sparesViews_go (usage : Usage) (word? : String → Option β) (relation : Option β → Relation)
    (targets : Arg α) (word : Option String) :
    SparesViews (place.go t c usage word? relation targets word) := by
  unfold place.go
  cases targets with
  | name | list => exact (c.sparesViews_nodes t usage _).bind fun group => by split <;> simp
  | _ => exact c.sparesViews_bad usage

theorem sparesViews_place (usage : Usage) (word? : String → Option β)
    (relation : Option β → Relation) : SparesViews (c.place t usage word? relation) := by
  unfold place
  split
  · exact sparesViews_go t c usage word? relation _ _
  · split
    · exact (c.sparesViews_orBad usage _).bind fun w => sparesViews_go t c usage word? relation _ _
    · simp
  · simp

theorem sparesViews_size : SparesViews (c.size t) := by
  unfold size
  split <;> simp

theorem sparesViews_aspectRatio : SparesViews (c.aspectRatio t) := by
  unfold aspectRatio
  split <;> simp

theorem sparesViews_flag (d : Directive α) : SparesViews (c.flag d) := by
  unfold flag
  split <;> simp

theorem sparesViews_margin : SparesViews c.margin := by
  unfold margin
  simp

theorem sparesViews_word (usage : Usage) (word? : String → Option β) (directive : β → Directive α) :
    SparesViews (c.word usage word? directive) := by
  unfold word
  split <;> simp

theorem sparesViews_directive [Scalar α] : SparesViews (c.directive t) := by
  unfold directive
  split
  · exact fun _ he => by cases he; exact id
  · exact c.sparesViews_setter t _
  · exact c.sparesViews_anchor t _
  iterate 6 exact c.sparesViews_place t _ _ _
  · exact c.sparesViews_size t
  · exact c.sparesViews_aspectRatio t
  iterate 2 exact c.sparesViews_flag _
  · exact c.sparesViews_margin
  iterate 2 exact c.sparesViews_word _ _ _

end Call

section Reading

variable {read : β → Except SceneError γ} {x : β} {xs : List β} {e : SceneError}

theorem mapM_cons_of_ok {z : γ} (hx : read x = .ok z) :
    (x :: xs).mapM read = (xs.mapM read).map (z :: ·) := by
  rw [List.mapM_cons, hx]
  rfl

theorem exists_of_mapM_ok : ∀ {xs : List β} {zs : List γ}, xs.mapM read = .ok zs →
    ∀ x ∈ xs, ∃ z, read x = .ok z
  | [], _, _, _, h => by cases h
  | x :: xs, zs, hxs, y, hy => by
    cases hx : read x with
    | error e =>
      rw [List.mapM_cons, hx] at hxs
      cases hxs
    | ok z =>
      rcases List.mem_cons.1 hy with rfl | hy
      · exact ⟨z, hx⟩
      · rw [mapM_cons_of_ok hx] at hxs
        cases hrest : xs.mapM read with
        | error e =>
          rw [hrest] at hxs
          cases hxs
        | ok zs' => exact exists_of_mapM_ok hrest y hy

/-- A list is read up to the first place where that fails. -/
theorem exists_of_mapM_error : ∀ {xs : List β}, xs.mapM read = .error e →
    ∃ before x after, xs = before ++ x :: after ∧ (∀ y ∈ before, ∃ z, read y = .ok z)
      ∧ read x = .error e
  | [], h => by cases h
  | x :: xs, h => by
    cases hx : read x with
    | error e' =>
      rw [List.mapM_cons, hx] at h
      cases h
      exact ⟨[], x, xs, rfl, by simp, hx⟩
    | ok z =>
      rw [mapM_cons_of_ok hx] at h
      cases hrest : xs.mapM read with
      | error e' =>
        rw [hrest] at h
        cases h
        obtain ⟨before, y, after, rfl, hbefore, hy⟩ := exists_of_mapM_error hrest
        exact ⟨x :: before, y, after, rfl, List.forall_mem_cons.2 ⟨⟨z, hx⟩, hbefore⟩, hy⟩
      | ok zs =>
        rw [hrest] at h
        cases h

theorem mapM_eq_error (hx : read x = .error e) (after : List β) : ∀ {before : List β},
    (∀ y ∈ before, ∃ z, read y = .ok z) → (before ++ x :: after).mapM read = .error e
  | [], _ => by
    rw [List.nil_append, List.mapM_cons, hx]
    rfl
  | y :: before, h => by
    obtain ⟨⟨z, hz⟩, hbefore⟩ := List.forall_mem_cons.1 h
    rw [List.cons_append, mapM_cons_of_ok hz, mapM_eq_error hx after hbefore]
    rfl

end Reading

theorem Direction.ofName?_eq_none {name : String} :
    ofName? name = none ↔ name ≠ "ltr" ∧ name ≠ "rtl" := by
  unfold ofName?
  split <;> simp_all

namespace Statement

variable (names : List String) (read : Call α → Except SceneError (Directive α))

/-- What is wrong with a statement, where views have these names and calls are read so: a direction
that there is not, a target that there is not, or else the first call that is no directive. -/
inductive Fault : Statement α → SceneError → Prop
  | direction (span : Span) {name : Spanned String} (h : name.value ≠ "ltr" ∧ name.value ≠ "rtl") :
    Fault (.direction span name) (.badDirection name.value name.span)
  | target (span : Span) {target : Spanned String} (calls : List (Call α))
    (h : target.value ∉ names) :
    Fault (.pin span target calls) (.ofNode target.value target.span names)
  | call (span : Span) {target : Spanned String} {before after : List (Call α)} {c : Call α}
    {e : SceneError} (h : target.value ∈ names) (hbefore : ∀ c' ∈ before, ∃ d, read c' = .ok d)
    (hc : read c = .error e) : Fault (.pin span target (before ++ c :: after)) e

/-- A direction that there is not, a target that there is not, or a call that is no directive. -/
def Wrong : Statement α → Prop
  | .view _ => False
  | .direction _ name => name.value ≠ "ltr" ∧ name.value ≠ "rtl"
  | .pin _ target calls => target.value ∉ names ∨ ∃ c ∈ calls, ∃ e, read c = .error e

theorem wrong_iff {st : Statement α} : st.Wrong names read ↔ ∃ e, st.Fault names read e := by
  cases st with
  | view v => exact iff_of_false id fun ⟨e, h⟩ => by cases h
  | direction span name =>
    constructor
    · exact fun h => ⟨_, .direction span h⟩
    · rintro ⟨e, h⟩
      cases h with
      | direction _ h => exact h
  | pin span target calls =>
    constructor
    · intro h
      by_cases htarget : target.value ∈ names
      · obtain ⟨c, hc, e, he⟩ := h.resolve_left (not_not_intro htarget)
        cases hcalls : calls.mapM read with
        | error e' =>
          obtain ⟨before, c', after, rfl, hbefore, hc'⟩ := exists_of_mapM_error hcalls
          exact ⟨e', .call span htarget hbefore hc'⟩
        | ok ds =>
          obtain ⟨d, hd⟩ := exists_of_mapM_ok hcalls c hc
          rw [hd] at he
          cases he
      · exact ⟨_, .target span calls htarget⟩
    · rintro ⟨e, h⟩
      cases h with
      | target _ _ h => exact .inl h
      | call _ h hbefore hc => exact .inr ⟨_, by simp, e, hc⟩

theorem Fault.not_ofViews [Scalar α] {t : Tree α} {names : List String} {st : Statement α}
    {e : SceneError} (h : st.Fault names (Call.directive t) e) : ¬e.OfViews := by
  cases h with
  | direction | target => exact id
  | call _ _ _ hc => exact Call.sparesViews_directive t _ e hc

end Statement

def Statement.isView : Statement α → Bool
  | .view _ => true
  | _ => false

namespace Stage

variable [Scalar α] {config : Config α}

theorem statement_eq_error_iff {s : Stage α} {st : Statement α} {e : SceneError} :
    s.statement config st = .error e ↔ st.Fault s.tree.names (Call.directive s.tree) e := by
  constructor
  · intro h
    cases st with
    | view v => cases h
    | direction span name =>
      rw [statement] at h
      split at h
      · cases h
      · rename_i hd
        cases h
        exact .direction span (Direction.ofName?_eq_none.1 hd)
    | pin span target calls =>
      cases hn : s.tree.find? target.value with
      | none =>
        simp only [statement, session, Tree.lookUp, hn, Tree.map_name_ids] at h
        cases h
        exact .target span calls (Tree.find?_eq_none.1 hn)
      | some node =>
        have htarget : target.value ∈ s.tree.names := by
          by_contra hnot
          rw [Tree.find?_eq_none.2 hnot] at hn
          cases hn
        cases hd : calls.mapM (Call.directive s.tree) with
        | error e' =>
          simp only [statement, session, Tree.lookUp, hn, hd] at h
          cases h
          obtain ⟨before, c, after, rfl, hbefore, hc⟩ := exists_of_mapM_error hd
          exact .call span htarget hbefore hc
        | ok ds =>
          rw [statement_pin hn hd] at h
          cases h
  · intro h
    cases h with
    | direction span h => simp only [statement, Direction.ofName?_eq_none.2 h]
    | target span calls h =>
      simp only [statement, session, Tree.lookUp, Tree.find?_eq_none.2 h, Tree.map_name_ids]
      rfl
    | @call span target before after c _ h hbefore hc =>
      obtain ⟨node, hn⟩ := Option.ne_none_iff_exists'.1 (mt Tree.find?_eq_none.1 (not_not_intro h))
      simp only [statement, session, Tree.lookUp, hn, mapM_eq_error hc after hbefore]
      rfl

/-- Statements run as far as none is wrong. -/
theorem exists_after_iff : ∀ {sts : List (Statement α)} {s : Stage α},
    (∃ s', s.after config sts = .ok s')
      ↔ ∀ st ∈ sts, ¬st.Wrong s.tree.names (Call.directive s.tree)
  | [], s => iff_of_true ⟨s, rfl⟩ (by simp)
  | st :: sts, s => by
    rw [List.forall_mem_cons, Statement.wrong_iff]
    cases hs : s.statement config st with
    | error e =>
      refine iff_of_false ?_ fun h => h.1 ⟨e, statement_eq_error_iff.1 hs⟩
      rintro ⟨s', h⟩
      obtain ⟨s₁, hs₁, -⟩ := exists_of_after_cons h
      rw [hs] at hs₁
      cases hs₁
    | ok s₁ =>
      have hshape := statement_sameShape hs
      rw [after_cons hs, exists_after_iff, hshape.names, funext hshape.directive]
      refine (and_iff_right ?_).symm
      rintro ⟨e, he⟩
      rw [statement_eq_error_iff.2 he] at hs
      cases hs

/-- A run fails at the first statement that is wrong. -/
theorem run_eq_error_iff_fault {sts : List (Statement α)} {s : Stage α} {e : SceneError} :
    (s.run config sts).result = .error e ↔ ∃ before st after, sts = before ++ st :: after
      ∧ (∀ st' ∈ before, ¬st'.Wrong s.tree.names (Call.directive s.tree))
      ∧ st.Fault s.tree.names (Call.directive s.tree) e := by
  rw [run_eq_error_iff]
  constructor
  · rintro ⟨before, st, after, s', hsts, hbefore, hst⟩
    have hshape := after_sameShape hbefore
    rw [statement_eq_error_iff, hshape.names, funext hshape.directive] at hst
    exact ⟨before, st, after, hsts, exists_after_iff.1 ⟨s', hbefore⟩, hst⟩
  · rintro ⟨before, st, after, hsts, hbefore, hst⟩
    obtain ⟨s', hs'⟩ := exists_after_iff.2 hbefore
    have hshape := after_sameShape hs'
    rw [← hshape.names, ← funext hshape.directive, ← statement_eq_error_iff] at hst
    exact ⟨before, st, after, s', hsts, hs', hst⟩

/-- Views do nothing in a run. -/
theorem run_of_isView {st : Statement α} (h : st.isView) (sts : List (Statement α)) (s : Stage α) :
    s.run config (st :: sts) = s.run config sts := by
  cases st with
  | view v => rfl
  | direction | pin => cases h

theorem run_views_append (sts : List (Statement α)) (s : Stage α) :
    ∀ {views : List (Statement α)}, (∀ st ∈ views, st.isView) →
      s.run config (views ++ sts) = s.run config sts
  | [], _ => rfl
  | st :: views, h => by
    obtain ⟨hst, hviews⟩ := List.forall_mem_cons.1 h
    rw [List.cons_append, run_of_isView hst, run_views_append sts s hviews]

theorem run_filter_not_isView : ∀ (sts : List (Statement α)) (s : Stage α),
    s.run config (sts.filter fun st => !st.isView) = s.run config sts
  | [], _ => rfl
  | st :: sts, s => by
    cases hst : st.isView with
    | true => rw [List.filter_cons_of_neg (by simp [hst]), run_of_isView hst, run_filter_not_isView]
    | false =>
      rw [List.filter_cons_of_pos (by simp [hst]), run, run]
      cases s.statement config st with
      | error e => rfl
      | ok s' => exact run_filter_not_isView sts s'

end Stage

namespace Script

/-- The script with its views in front of all other statements. -/
def viewsFirst (script : Script α) : Script α :=
  ⟨script.statements.filter Statement.isView ++ script.statements.filter fun st => !st.isView⟩

theorem views_viewsFirst (script : Script α) : script.viewsFirst.views = script.views := by
  obtain ⟨sts⟩ := script
  induction sts with
  | nil => rfl
  | cons st sts ih =>
    cases st with
    | view v => exact congrArg (v :: ·) ih
    | direction | pin => simpa [views, viewsFirst, Statement.isView] using ih

variable [Scalar α] (script : Script α) (config : Config α) (process : Direction)

theorem run_viewsFirst : script.viewsFirst.run config process = script.run config process := by
  rw [run, run, scene, scene, views_viewsFirst]
  cases View.declareAll none 0 {} script.views with
  | error e => rfl
  | ok scene =>
    simp only [viewsFirst]
    rw [Stage.run_views_append _ _ fun st hst => (List.mem_filter.1 hst).2]
    exact Stage.run_filter_not_isView _ _

variable {script config process}

variable (config process) in
theorem exists_result_of_tree {tree : Tree α} (h : script.tree = .ok tree) :
    ∃ s : Stage α, s.tree = tree
      ∧ (script.run config process).result = (s.run config script.statements).result := by
  obtain ⟨scene, hscene, rfl⟩ := tree_eq_ok_iff.1 h
  exact ⟨⟨scene, config.effectiveDirection process, [], []⟩, rfl, by rw [run, hscene]⟩

/-- A script whose views are sound fails at its first wrong statement. -/
theorem run_eq_error_iff_fault {tree : Tree α} (h : script.tree = .ok tree) {e : SceneError} :
    (script.run config process).result = .error e ↔
      ∃ before st after, script.statements = before ++ st :: after
        ∧ (∀ st' ∈ before, ¬st'.Wrong tree.names (Call.directive tree))
        ∧ st.Fault tree.names (Call.directive tree) e := by
  obtain ⟨s, rfl, hs⟩ := exists_result_of_tree config process h
  rw [hs]
  exact Stage.run_eq_error_iff_fault

theorem exists_run_error_iff {tree : Tree α} (h : script.tree = .ok tree) :
    (∃ e, (script.run config process).result = .error e) ↔
      ∃ st ∈ script.statements, st.Wrong tree.names (Call.directive tree) := by
  constructor
  · rintro ⟨e, he⟩
    obtain ⟨before, st, after, hsts, -, hst⟩ := (run_eq_error_iff_fault h).1 he
    exact ⟨st, by simp [hsts], (Statement.wrong_iff _ _).2 ⟨e, hst⟩⟩
  · rintro ⟨st, hst, hwrong⟩
    cases hr : (script.run config process).result with
    | error e => exact ⟨e, rfl⟩
    | ok r =>
      obtain ⟨s₀, rfl, hs₀⟩ := exists_result_of_tree config process h
      obtain ⟨s, hs, -⟩ := Stage.report_after (hs₀.symm.trans hr)
      exact absurd hwrong (Stage.exists_after_iff.1 ⟨s, hs⟩ st hst)

/-- The first offence of the views is the error, and only that is an error of views. -/
theorem offence_iff {e : SceneError} : View.Offence script.allViews e
    ↔ e.OfViews ∧ (script.run config process).result = .error e := by
  constructor
  · intro h
    refine ⟨by cases h <;> trivial, ?_⟩
    rw [run, scene_eq_error_iff.2 (tree_eq_error_iff.2 h)]
  · rintro ⟨hviews, h⟩
    cases htree : script.tree with
    | error e' =>
      rw [run, scene_eq_error_iff.2 htree] at h
      cases h
      exact tree_eq_error_iff.1 htree
    | ok tree =>
      obtain ⟨-, st, -, -, -, hfault⟩ := (run_eq_error_iff_fault htree).1 h
      exact absurd hviews hfault.not_ofViews

/-- One order determines which error a script reports. It is that of the script with its views in
front. If a name is repeated among the views, or a modifier is not known, it is the first such
offence, and that alone is an error of views. Otherwise a script fails if and only if one of its
statements is wrong, and reports what is wrong with the first one. -/
theorem reports_first_error (script : Script α) (config : Config α) (process : Direction) :
    let names := script.allViews.map (·.name.value)
    script.viewsFirst.run config process = script.run config process
    ∧ ((∃ e, e.OfViews ∧ (script.run config process).result = .error e)
      ↔ ¬View.Sound script.allViews)
    ∧ (∀ e, View.Offence script.allViews e
      ↔ e.OfViews ∧ (script.run config process).result = .error e)
    ∧ (View.Sound script.allViews → ∃ tree, script.tree = .ok tree
      ∧ ((∃ e, (script.run config process).result = .error e)
        ↔ ∃ st ∈ script.statements, st.Wrong names (Call.directive tree))
      ∧ ∀ e, (script.run config process).result = .error e
        ↔ ∃ before st after, script.statements = before ++ st :: after
          ∧ (∀ st' ∈ before, ¬st'.Wrong names (Call.directive tree))
          ∧ st.Fault names (Call.directive tree) e) := by
  intro names
  refine ⟨script.run_viewsFirst config process, ?_, fun e => offence_iff, ?_⟩
  · rw [← exists_tree_iff]
    simp only [← offence_iff, ← tree_eq_error_iff]
    cases script.tree <;> simp
  · intro hsound
    obtain ⟨tree, htree⟩ := exists_tree_iff.2 hsound
    have hnames : names = tree.names := (names_tree htree).symm
    rw [hnames]
    exact ⟨tree, htree, exists_run_error_iff htree, fun e => run_eq_error_iff_fault htree⟩

/-- A card inside a card is reported although the pin before it is wrong too, and of a wrong call
and a wrong pin after it the call. -/
theorem card_in_card_is_reported_first :
    let s : Span := ⟨0, 0⟩
    let card (children : List (View Rat)) : View Rat := ⟨s, ⟨"card", s⟩, [], children⟩
    let call (name : String) : Call Rat := ⟨s, ⟨name, s⟩, []⟩
    let pin (target : String) (calls : List (Call Rat)) : Statement Rat := .pin s ⟨target, s⟩ calls
    let nested : Script Rat :=
      ⟨[pin "badge" [call "top"], .direction s ⟨"up", s⟩, .view (card [card []])]⟩
    let turn : Statement Rat := .direction s ⟨"rtl", s⟩
    let sound : Script Rat :=
      ⟨[turn, pin "card" [call "top", call "glow", call "width"], pin "badge" [], .view (card [])]⟩
    let glow : SceneError := .ofDirective "glow" s (CallName.all.map (·.name))
    (nested.run .standard .ltr).result = .error (.duplicateView "card" s)
      ∧ ¬View.Sound nested.allViews ∧ View.Sound sound.allViews
      ∧ (sound.run .standard .ltr).result = .error glow
      ∧ (sound.viewsFirst.run .standard .ltr).result = .error glow := by
  intro s card call pin nested turn sound glow
  obtain ⟨-, hviews, hoffence, -⟩ := reports_first_error nested .standard .ltr
  obtain ⟨hfirst, -, -, hfaults⟩ := reports_first_error sound .standard .ltr
  have hcards : nested.allViews = [card [card []]] ++ card [] :: [] := rfl
  have hnested := (hoffence _).1 (.name hcards (by decide) (by decide))
  have hsound : View.Sound sound.allViews := by decide
  obtain ⟨tree, htree, -, herror⟩ := hfaults hsound
  let t : Tree Rat := ((∅ : Tree Rat).addRoot "card" .zero).1
  obtain rfl : t = tree := Except.ok.inj htree
  have hglow : (sound.run .standard .ltr).result = .error glow := by
    have htop : ∀ c ∈ [call "top"], ∃ d, c.directive t = .ok d :=
      List.forall_mem_singleton.2 ⟨_, rfl⟩
    refine (herror glow).2 ⟨[turn], _, _, rfl, ?_, .call s (by decide) htop rfl⟩
    simp [turn, Statement.Wrong]
  refine ⟨hnested.2, hviews.1 ⟨_, hnested⟩, hsound, hglow, ?_⟩
  rw [hfirst]
  exact hglow

end Script

end Pinning
