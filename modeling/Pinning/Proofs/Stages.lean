import Pinning.Proofs.Accumulation
import Pinning.Proofs.Views
import Pinning.Scene.Run

/-!
# Statements one after the other

A pin that succeeds has one outcome (`Stage.pinned`): a new frame for its node and the warnings of
its session. What a run reports besides is the past of the stage it starts from: stages with the
same tree and direction come to the same views (`Alike.run`), and the warnings of a run are those of
its statements, in their order (`run_warnings`). So a run is put together from its parts
(`run_append`), and what every statement keeps, a run keeps (`after_invariant`).
-/

namespace Pinning

variable {α : Type} [Scalar α]

namespace Stage

variable (config : Config α) (s : Stage α)

/-- The stage after a pin of `node` by `ds`. -/
def pinned (target : String) (node : NodeId) (ds : List (Directive α)) : Stage α :=
  let session := Session.pass s.tree node config s.direction ds
  { s with
    scene := { s.scene with tree := s.tree.setFrame node session.resolution.frame }
    warnings := s.warnings ++ session.resolution.warnings.map fun w => ⟨target, w⟩
    log := s.log ++ session.commit.log }

variable {config s}

theorem session_eq {target : Spanned String} {calls : List (Call α)} {node : NodeId}
    {ds : List (Directive α)} (hn : s.tree.find? target.value = some node)
    (hd : calls.mapM (Call.directive s.tree) = .ok ds) :
    s.session config target calls = .ok (Session.pass s.tree node config s.direction ds) := by
  simp only [session, Tree.lookUp, hn, hd]
  rfl

theorem exists_of_session {target : Spanned String} {calls : List (Call α)} {session : Session α}
    (h : s.session config target calls = .ok session) :
    ∃ node ds, s.tree.find? target.value = some node ∧
      calls.mapM (Call.directive s.tree) = .ok ds ∧
      session = Session.pass s.tree node config s.direction ds := by
  cases hn : s.tree.find? target.value with
  | none =>
    simp only [Stage.session, Tree.lookUp, hn] at h
    cases h
  | some node =>
    cases hd : calls.mapM (Call.directive s.tree) with
    | error e =>
      simp only [Stage.session, Tree.lookUp, hn, hd] at h
      cases h
    | ok ds =>
      rw [session_eq hn hd] at h
      exact ⟨node, ds, rfl, rfl, by cases h; rfl⟩

theorem statement_pin {span : Span} {target : Spanned String} {calls : List (Call α)}
    {node : NodeId} {ds : List (Directive α)} (hn : s.tree.find? target.value = some node)
    (hd : calls.mapM (Call.directive s.tree) = .ok ds) :
    s.statement config (.pin span target calls) = .ok (s.pinned config target.value node ds) := by
  rw [statement, session_eq hn hd]
  simp only [Except.map, pinned, Session.close_apply, Session.commit_tree_pass]

theorem exists_of_statement_pin {span : Span} {target : Spanned String} {calls : List (Call α)}
    {s' : Stage α} (h : s.statement config (.pin span target calls) = .ok s') :
    ∃ node ds, s.tree.find? target.value = some node ∧
      calls.mapM (Call.directive s.tree) = .ok ds ∧
      s' = s.pinned config target.value node ds := by
  cases hs : s.session config target calls with
  | error e =>
    rw [statement, hs] at h
    cases h
  | ok session =>
    obtain ⟨node, ds, hn, hd, -⟩ := exists_of_session hs
    rw [statement_pin hn hd] at h
    exact ⟨node, ds, hn, hd, by cases h; rfl⟩

variable (config s)

/-- The warnings of a statement that runs. -/
def raised : Statement α → List (WarningReport α)
  | .pin _ target calls =>
    match s.session config target calls with
    | .ok session => session.resolution.warnings.map fun w => ⟨target.value, w⟩
    | .error _ => []
  | _ => []

/-- The warnings of statements, each by itself, up to the first that fails. -/
def raisedAll : Stage α → List (Statement α) → List (List (WarningReport α))
  | _, [] => []
  | s, st :: sts =>
    match s.statement config st with
    | .ok s' => s.raised config st :: raisedAll s' sts
    | .error _ => []

variable {config s}

theorem run_cons {st : Statement α} {s' : Stage α} (h : s.statement config st = .ok s')
    (sts : List (Statement α)) : s.run config (st :: sts) = s'.run config sts := by
  rw [run, h]

theorem raisedAll_cons {st : Statement α} {s' : Stage α} (h : s.statement config st = .ok s')
    (sts : List (Statement α)) :
    s.raisedAll config (st :: sts) = s.raised config st :: s'.raisedAll config sts := by
  rw [raisedAll, h]

/-- A run that succeeds has run its first statement. -/
theorem exists_of_run_cons {st : Statement α} {sts : List (Statement α)} {r : Report α}
    (h : (s.run config (st :: sts)).result = .ok r) :
    ∃ s', s.statement config st = .ok s' ∧ (s'.run config sts).result = .ok r := by
  cases hs : s.statement config st with
  | error e =>
    rw [run, hs] at h
    cases h
  | ok s' => exact ⟨s', rfl, by rwa [run_cons hs] at h⟩

theorem raised_pin {span : Span} {target : Spanned String} {calls : List (Call α)}
    {node : NodeId} {ds : List (Directive α)} (hn : s.tree.find? target.value = some node)
    (hd : calls.mapM (Call.directive s.tree) = .ok ds) :
    s.raised config (.pin span target calls)
      = (Session.pass s.tree node config s.direction ds).resolution.warnings.map
          fun w => ⟨target.value, w⟩ := by
  rw [raised, session_eq hn hd]

theorem statement_warnings {st : Statement α} {s' : Stage α}
    (h : s.statement config st = .ok s') : s'.warnings = s.warnings ++ s.raised config st := by
  cases st with
  | view v =>
    cases h
    exact (List.append_nil _).symm
  | direction span name =>
    rw [statement] at h
    split at h
    · cases h
      exact (List.append_nil _).symm
    · cases h
  | pin span target calls =>
    obtain ⟨node, ds, hn, hd, rfl⟩ := exists_of_statement_pin h
    rw [raised_pin hn hd, pinned]

/-- The warnings of a run are those of its statements, after what there was before. -/
theorem run_warnings : ∀ {sts : List (Statement α)} {s : Stage α} {r : Report α},
    (s.run config sts).result = .ok r →
      r.warnings = s.warnings ++ (s.raisedAll config sts).flatten
  | [], s, r, h => by
    cases h
    exact (List.append_nil _).symm
  | st :: sts, s, r, h => by
    obtain ⟨s', hs', h'⟩ := exists_of_run_cons h
    rw [run_warnings h', statement_warnings hs', raisedAll_cons hs', List.flatten_cons,
      List.append_assoc]

variable (config) in
/-- The stage after statements that all run. -/
def after (s : Stage α) (sts : List (Statement α)) : Except SceneError (Stage α) :=
  sts.foldlM (statement config) s

theorem after_cons {st : Statement α} {s' : Stage α} (h : s.statement config st = .ok s')
    (sts : List (Statement α)) : s.after config (st :: sts) = s'.after config sts := by
  rw [after, List.foldlM_cons, h]
  rfl

theorem exists_of_after_cons {st : Statement α} {sts : List (Statement α)} {s' : Stage α}
    (h : s.after config (st :: sts) = .ok s') :
    ∃ s₁, s.statement config st = .ok s₁ ∧ s₁.after config sts = .ok s' := by
  cases hs : s.statement config st with
  | error e =>
    rw [after, List.foldlM_cons, hs] at h
    cases h
  | ok s₁ => exact ⟨s₁, rfl, by rwa [after_cons hs] at h⟩

/-- A run that succeeds gets past its first statements, and goes on from there. -/
theorem run_append {sts' : List (Statement α)} {r : Report α} : ∀ {sts : List (Statement α)}
    {s : Stage α}, (s.run config (sts ++ sts')).result = .ok r →
      ∃ s', s.after config sts = .ok s' ∧ (s'.run config sts').result = .ok r
  | [], s, h => ⟨s, rfl, h⟩
  | st :: sts, s, h => by
    obtain ⟨s₁, hs₁, h₁⟩ := exists_of_run_cons h
    rw [after_cons hs₁]
    exact run_append h₁

theorem run_append_of_after (sts' : List (Statement α)) {s' : Stage α} :
    ∀ {sts : List (Statement α)} {s : Stage α}, s.after config sts = .ok s' →
      (s.run config (sts ++ sts')).result = (s'.run config sts').result
        ∧ s.raisedAll config (sts ++ sts') = s.raisedAll config sts ++ s'.raisedAll config sts'
        ∧ (s.raisedAll config sts).length = sts.length
  | [], s, h => by
    cases h
    exact ⟨rfl, rfl, rfl⟩
  | st :: sts, s, h => by
    obtain ⟨s₁, hs₁, h₁⟩ := exists_of_after_cons h
    obtain ⟨hrun, hraised, hlength⟩ := run_append_of_after sts' h₁
    simp only [List.cons_append, run_cons hs₁, raisedAll_cons hs₁, hrun, hraised,
      List.length_cons, hlength, and_self]

/-- The statements that run, each with the stage before it. -/
def ran (config : Config α) : Stage α → List (Statement α) → List (Stage α × Statement α)
  | _, [] => []
  | s, st :: sts =>
    match s.statement config st with
    | .ok s' => (s, st) :: ran config s' sts
    | .error _ => []

theorem ran_cons {st : Statement α} {s' : Stage α} (h : s.statement config st = .ok s')
    (sts : List (Statement α)) : s.ran config (st :: sts) = (s, st) :: s'.ran config sts := by
  rw [ran, h]

theorem map_snd_ran (sts' : List (Statement α)) {s' : Stage α} :
    ∀ {sts : List (Statement α)} {s : Stage α}, s.after config sts = .ok s' →
      (s.ran config (sts ++ sts')).map Prod.snd = sts ++ (s'.ran config sts').map Prod.snd
  | [], s, h => by
    cases h
    rfl
  | st :: sts, s, h => by
    obtain ⟨s₁, hs₁, h₁⟩ := exists_of_after_cons h
    rw [List.cons_append, ran_cons hs₁, List.map_cons, map_snd_ran sts' h₁, List.cons_append]

theorem raisedAll_eq_map_ran : ∀ (sts : List (Statement α)) (s : Stage α),
    s.raisedAll config sts = (s.ran config sts).map fun (s, st) => s.raised config st
  | [], _ => rfl
  | st :: sts, s => by
    cases hs : s.statement config st with
    | error e =>
      rw [raisedAll, ran, hs]
      rfl
    | ok s' => rw [raisedAll_cons hs, ran_cons hs, List.map_cons, raisedAll_eq_map_ran sts s']

theorem exists_of_run_error {e : SceneError} : ∀ {sts : List (Statement α)} {s : Stage α},
    (s.run config sts).result = .error e → ∃ before st after s', sts = before ++ st :: after
      ∧ s.after config before = .ok s' ∧ s'.statement config st = .error e
  | [], s, h => by cases h
  | st :: sts, s, h => by
    cases hs : s.statement config st with
    | error e' =>
      rw [run, hs] at h
      cases h
      exact ⟨[], st, sts, s, rfl, rfl, hs⟩
    | ok s₁ =>
      rw [run_cons hs] at h
      obtain ⟨before, st', after, s', rfl, hbefore, hst'⟩ := exists_of_run_error h
      exact ⟨st :: before, st', after, s', rfl, (after_cons hs before).trans hbefore, hst'⟩

/-- A run fails at the first statement that does. -/
theorem run_eq_error_iff {e : SceneError} {sts : List (Statement α)} {s : Stage α} :
    (s.run config sts).result = .error e ↔ ∃ before st after s', sts = before ++ st :: after
      ∧ s.after config before = .ok s' ∧ s'.statement config st = .error e := by
  refine ⟨exists_of_run_error, ?_⟩
  rintro ⟨before, st, after, s', rfl, hbefore, hst⟩
  rw [(run_append_of_after (st :: after) hbefore).1, run, hst]

/-- A statement leaves the tree alone, or gives the node that it pins the frame of its session. -/
theorem tree_of_statement {st : Statement α} {s' : Stage α} (h : s.statement config st = .ok s') :
    s'.tree = s.tree ∨ ∃ span target calls node ds, st = .pin span target calls
      ∧ s.tree.find? target.value = some node ∧ s'.tree = s.tree.setFrame node
        (Session.pass s.tree node config s.direction ds).resolution.frame := by
  cases st with
  | view v =>
    cases h
    exact .inl rfl
  | direction span name =>
    rw [statement] at h
    split at h
    · cases h
      exact .inl rfl
    · cases h
  | pin span target calls =>
    obtain ⟨node, ds, hnode, -, rfl⟩ := exists_of_statement_pin h
    exact .inr ⟨span, target, calls, node, ds, rfl, hnode, rfl⟩

/-- A statement changes frames and nothing else in the tree. -/
theorem statement_sameShape {st : Statement α} {s' : Stage α}
    (h : s.statement config st = .ok s') : s.tree.SameShape s'.tree := by
  rcases tree_of_statement h with htree | ⟨_, _, _, node, ds, -, -, htree⟩
  · rw [htree]
    exact .refl _
  · rw [htree]
    exact Tree.sameShape_setFrame node _

theorem order_of_statement {st : Statement α} {s' : Stage α} (h : s.statement config st = .ok s') :
    s'.scene.order = s.scene.order := by
  cases st with
  | view v =>
    cases h
    rfl
  | direction span name =>
    rw [statement] at h
    split at h
    · cases h
      rfl
    · cases h
  | pin span target calls =>
    obtain ⟨node, ds, -, -, rfl⟩ := exists_of_statement_pin h
    rfl

/-- What every statement keeps, all of them together keep. -/
theorem after_invariant {P : Stage α → Prop} : ∀ {sts : List (Statement α)} {s s' : Stage α},
    (∀ st ∈ sts, ∀ s s', P s → s.statement config st = .ok s' → P s') →
      s.after config sts = .ok s' → P s → P s'
  | [], s, s', _, h, hs => by
    cases h
    exact hs
  | st :: sts, s, s', hstep, h, hs => by
    obtain ⟨s₁, hs₁, h₁⟩ := exists_of_after_cons h
    exact after_invariant (fun st' hst' => hstep st' (List.mem_cons_of_mem st hst')) h₁
      (hstep st List.mem_cons_self s s₁ hs hs₁)

theorem after_sameShape {sts : List (Statement α)} {s s' : Stage α}
    (h : s.after config sts = .ok s') : s.tree.SameShape s'.tree :=
  after_invariant (P := fun s₁ => s.tree.SameShape s₁.tree)
    (fun _ _ _ _ h₁ hst => h₁.trans (statement_sameShape hst)) h (.refl _)

/-- The order of the views goes by the tree at every stage, as it does at the first. -/
theorem after_ordered {sts : List (Statement α)} {s s' : Stage α}
    (h : s.after config sts = .ok s') (hs : s.scene.Ordered) : s'.scene.Ordered := by
  refine after_invariant (P := fun s₁ => s₁.scene.Ordered) (fun st _ s₁ s₂ h₁ hst => ?_) h hs
  have hshape : s₁.scene.tree.SameShape s₂.scene.tree := statement_sameShape hst
  rw [Scene.Ordered, order_of_statement hst, h₁, Tree.ids, Tree.ids, hshape.size]
  simp only [hshape.ancestors]

/-- A run that succeeds reports the stage after its last statement. -/
theorem report_after {sts : List (Statement α)} {s : Stage α} {r : Report α}
    (h : (s.run config sts).result = .ok r) : ∃ s', s.after config sts = .ok s' ∧ r = s'.report := by
  rw [← List.append_nil sts] at h
  obtain ⟨s', hs', hr⟩ := run_append h
  cases hr
  exact ⟨s', hs', rfl⟩

/-- Two stages with the same views and direction, whatever came before. -/
structure Alike (s s' : Stage α) : Prop where
  scene : s'.scene = s.scene
  direction : s'.direction = s.direction

omit [Scalar α] in
theorem Alike.tree {s s' : Stage α} (h : s.Alike s') : s'.tree = s.tree :=
  congrArg Scene.tree h.scene

theorem Alike.session {s s' : Stage α} (h : s.Alike s') (target : Spanned String)
    (calls : List (Call α)) :
    s'.session config target calls = s.session config target calls := by
  simp only [Stage.session, h.tree, h.direction]

theorem Alike.raised {s s' : Stage α} (h : s.Alike s') (st : Statement α) :
    s'.raised config st = s.raised config st := by
  cases st <;> simp only [Stage.raised, h.session]

theorem Alike.statement {s s' s₁ : Stage α} (h : s.Alike s') {st : Statement α}
    (h₁ : s.statement config st = .ok s₁) :
    ∃ s₁', s'.statement config st = .ok s₁' ∧ s₁.Alike s₁' := by
  cases st with
  | view v =>
    cases h₁
    exact ⟨s', rfl, h⟩
  | direction span name =>
    rw [Stage.statement] at h₁ ⊢
    split at h₁
    · cases h₁
      exact ⟨_, rfl, h.scene, rfl⟩
    · cases h₁
  | pin span target calls =>
    obtain ⟨node, ds, hn, hd, rfl⟩ := exists_of_statement_pin h₁
    refine ⟨s'.pinned config target.value node ds, ?_, ?_, h.direction⟩
    · exact statement_pin (by rwa [h.tree]) (by rwa [h.tree])
    · simp only [pinned, h.scene, h.tree, h.direction]

/-- Stages that look alike come to the same views, with the same warnings on the way. -/
theorem Alike.run : ∀ {sts : List (Statement α)} {s s' : Stage α} {r : Report α}, s.Alike s' →
    (s.run config sts).result = .ok r →
      s'.raisedAll config sts = s.raisedAll config sts ∧
        ∃ r', (s'.run config sts).result = .ok r' ∧ r'.nodes = r.nodes
  | [], s, s', r, h, hr => by
    cases hr
    exact ⟨rfl, s'.report, rfl, by simp only [report, h.scene]⟩
  | st :: sts, s, s', r, h, hr => by
    obtain ⟨s₁, h₁, hr₁⟩ := exists_of_run_cons hr
    obtain ⟨s₁', h₁', halike⟩ := h.statement h₁
    obtain ⟨hraised, r', hr', hnodes⟩ := halike.run hr₁
    rw [raisedAll_cons h₁, raisedAll_cons h₁', run_cons h₁', h.raised, hraised]
    exact ⟨rfl, r', hr', hnodes⟩

end Stage

/-- A script that runs reports the stage that its statements lead to from the declared views. -/
theorem Script.exists_of_run {script : Script α} {config : Config α} {process : Direction}
    {r : Report α} (h : (script.run config process).result = .ok r) : ∃ scene s,
    script.scene = .ok scene ∧ r = s.report ∧ scene.tree.SameShape s.tree
      ∧ Stage.after config ⟨scene, config.effectiveDirection process, [], []⟩ script.statements
        = .ok s := by
  rw [run] at h
  cases hscene : script.scene with
  | error e =>
    rw [hscene] at h
    cases h
  | ok scene =>
    rw [hscene] at h
    obtain ⟨s, hs, rfl⟩ := Stage.report_after h
    exact ⟨scene, s, rfl, rfl, Stage.after_sameShape hs, hs⟩

/-- The warnings of each statement of a script. -/
def Script.raised (script : Script α) (config : Config α) (process : Direction) :
    List (List (WarningReport α)) :=
  match script.scene with
  | .ok scene =>
    Stage.raisedAll config ⟨scene, config.effectiveDirection process, [], []⟩ script.statements
  | .error _ => []

end Pinning
