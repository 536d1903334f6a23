import Pinning.Proofs.Declarations
import Pinning.Proofs.Stages
import Pinning.Scalar.Rational

/-!
# The log of a run is its story

The statements of a script that run (`Stage.ran`) each have a block in the log, which is empty unless
they pin. The block of a pin (`Stage.block`) has a line for each write that is taken and each flag
that is raised, in the order of the calls, then the warnings that the pin adds to the report, where
they are wanted, and at last its frame. The log of a run is made of these blocks, and a run that
fails has no more in it than the statements before the one that failed (`Stage.run_log`).

Whether warnings are logged shows nowhere else (`Stage.run_quiet`).
-/

namespace Pinning

variable {α : Type} [Scalar α]

open Directive (inForce)

/-- What an effect leaves in the log: a write that is taken, or a flag. -/
def Effect.traced : Effect α → Option (Log.Event α)
  | write slot v => if Scalar.isFinite v then some (.wrote slot v) else none
  | fitSize => some .fitSize
  | pinEdges => some .pinEdges
  | warn _ | measure _ | spanAlign .. | turn _ => none

theorem Effect.level_traced {e : Effect α} {x : Log.Event α} (h : e.traced = some x) :
    x.level = .trace := by
  cases e with
  | write slot v =>
    rw [traced] at h
    split_ifs at h
    cases h
    rfl
  | fitSize | pinEdges =>
    cases h
    rfl
  | warn | measure | spanAlign | turn => cases h

/-- What a directive leaves in the log. -/
def Directive.traced (site : Site α) (d : Direction) (c : Directive α) : List (Log.Event α) :=
  (c.effects site d).filterMap Effect.traced

/-- What a chain leaves in the log, call by call. -/
def Directive.tracedAll (site : Site α) (d : Direction) (cs : List (Directive α)) :
    List (Log.Event α) :=
  (inForce d cs).flatMap fun (d, c) => c.traced site d

theorem Directive.level_tracedAll {site : Site α} {d : Direction} {cs : List (Directive α)}
    {x : Log.Event α} (h : x ∈ tracedAll site d cs) : x.level = .trace := by
  obtain ⟨_, -, hx⟩ := List.mem_flatMap.1 h
  obtain ⟨e, -, he⟩ := List.mem_filterMap.1 hx
  exact Effect.level_traced he

namespace Session

variable (s : Session α)

theorem perform_log (e : Effect α) :
    (s.perform e).log = s.log ++ e.traced.toList.map fun x => ⟨s.site.label, x⟩ := by
  cases e with
  | write slot v => by_cases hv : Scalar.isFinite v <;> simp [perform, record, warn, Effect.traced, hv]
  | measure directive =>
    simp only [perform, warn, Effect.traced, Option.toList_none, List.map_nil, List.append_nil]
    split_ifs <;> rfl
  | _ => simp [perform, record, warn, Effect.traced]

theorem foldl_perform_log : ∀ (es : List (Effect α)) (s : Session α), (es.foldl perform s).log
    = s.log ++ (es.filterMap Effect.traced).map fun x => ⟨s.site.label, x⟩
  | [], s => (List.append_nil _).symm
  | e :: es, s => by
    rw [List.foldl_cons, foldl_perform_log es, perform_site, perform_log]
    cases he : e.traced <;> simp [he]

theorem issueAll_log : ∀ (cs : List (Directive α)) (s : Session α), (s.issueAll cs).log
    = s.log ++ (Directive.tracedAll s.site s.direction cs).map fun x => ⟨s.site.label, x⟩
  | [], s => (List.append_nil _).symm
  | c :: cs, s => by
    have hc : (s.issue c).log
        = s.log ++ (c.traced s.site s.direction).map fun x => ⟨s.site.label, x⟩ :=
      foldl_perform_log _ s
    rw [issueAll_cons, issueAll_log cs, hc, issue_site, issue_direction, Directive.tracedAll,
      Directive.tracedAll, inForce, List.flatMap_cons, List.map_append, List.append_assoc]

variable (tree : Tree α) (node : NodeId) (config : Config α) (d : Direction)
  (cs : List (Directive α))

theorem pass_log : (pass tree node config d cs).log
    = (Directive.tracedAll ⟨tree, node⟩ d cs).map fun x => ⟨tree.name node, x⟩ :=
  (issueAll_log cs _).trans (List.nil_append _)

/-- The session with its warnings logged or not. -/
def logging (b : Bool) (s : Session α) : Session α := { s with logsWarnings := b }

theorem perform_logging (b : Bool) (e : Effect α) :
    (s.logging b).perform e = (s.perform e).logging b := by
  cases e with
  | write | measure =>
    rw [perform, perform, apply_ite (logging b)]
    rfl
  | _ => rfl

theorem issue_logging (b : Bool) (c : Directive α) :
    (s.logging b).issue c = (s.issue c).logging b :=
  List.foldl_hom (logging b) fun s e => s.perform_logging b e

theorem issueAll_logging (b : Bool) : (s.logging b).issueAll cs = (s.issueAll cs).logging b :=
  List.foldl_hom (logging b) fun s c => s.issue_logging b c

theorem pass_logging (b : Bool) : pass tree node { config with logsWarnings := b } d cs
    = (pass tree node config d cs).logging b :=
  issueAll_logging (start tree node config d) cs b

theorem pass_logsWarnings : (pass tree node config d cs).logsWarnings = config.logsWarnings :=
  congrArg logsWarnings (pass_logging tree node config d cs config.logsWarnings)

end Session

/-- What a line of the log says of the constraints. -/
def Log.Event.told : Log.Event α → Constraints α
  | wrote slot v => Constraints.set ∅ slot v
  | fitSize => { fitsContent := true }
  | pinEdges => { pinsEdges := true }
  | warned _ | committed _ | discarded => ∅

namespace Constraints

/-- The constraints without the alignments, which are not logged. -/
def unaligned (c : Constraints α) : Constraints α := { c with spanAlign := fun _ => none }

omit [Scalar α] in
theorem unaligned_overlay (c c' : Constraints α) :
    (c.overlay c').unaligned = c.unaligned.overlay c'.unaligned := by
  ext <;> simp [overlay, unaligned]

omit [Scalar α] in
theorem unaligned_overlayAll : ∀ cs : List (Constraints α),
    (overlayAll cs).unaligned = overlayAll (cs.map unaligned)
  | [] => rfl
  | c :: cs => by
    rw [overlayAll_cons, unaligned_overlay, unaligned_overlayAll cs, List.map_cons, overlayAll_cons]

end Constraints

theorem Effect.unaligned_gathered (e : Effect α) :
    e.gathered.unaligned = e.traced.elim ∅ Log.Event.told := by
  cases e with
  | write slot v =>
    simp only [gathered, traced]
    split_ifs <;> rfl
  | _ => rfl

theorem Effect.unaligned_gatheredAll : ∀ es : List (Effect α), (gatheredAll es).unaligned
    = Constraints.overlayAll ((es.filterMap traced).map Log.Event.told)
  | [] => rfl
  | e :: es => by
    rw [gatheredAll_cons, Constraints.unaligned_overlay, unaligned_gatheredAll es,
      unaligned_gathered]
    cases he : e.traced with
    | none => simp [he]
    | some x => simp [he]

/-- But for alignments, the constraints of a session can be read off its log. -/
theorem Session.unaligned_pass (tree : Tree α) (node : NodeId) (config : Config α) (d : Direction)
    (cs : List (Directive α)) : (pass tree node config d cs).constraints.unaligned
      = Constraints.overlayAll ((Directive.tracedAll ⟨tree, node⟩ d cs).map Log.Event.told) := by
  rw [pass_constraints, Constraints.unaligned_overlayAll, List.map_map, Directive.tracedAll,
    List.map_flatMap, Constraints.overlayAll_flatMap]
  refine congrArg Constraints.overlayAll (List.map_congr_left fun ⟨d, c⟩ _ => ?_)
  dsimp only [Function.comp_apply]
  rw [alone_eq]
  exact Effect.unaligned_gatheredAll _

namespace Stage

variable (config : Config α) (s : Stage α)

/-- What a statement leaves in the log: if it pins, the writes that are taken and the flags that are
raised by its calls, the warnings that it adds to the report, where they are wanted, and the frame of
its session. -/
def block : Statement α → List (Log.Record α)
  | .pin span target calls =>
    match s.tree.find? target.value, calls.mapM (Call.directive s.tree) with
    | some node, .ok ds =>
      let warnings :=
        if config.logsWarnings then
          (s.raised config (.pin span target calls)).map fun w => Log.Event.warned w.warning
        else []
      let frame := (Session.pass s.tree node config s.direction ds).resolution.frame
      (Directive.tracedAll ⟨s.tree, node⟩ s.direction ds ++ warnings ++ [Log.Event.committed frame]).map
        fun x => ⟨target.value, x⟩
    | _, _ => []
  | .view _ | .direction .. => []

variable {config s}

theorem block_pin {span : Span} {target : Spanned String} {calls : List (Call α)} {node : NodeId}
    {ds : List (Directive α)} (hn : s.tree.find? target.value = some node)
    (hd : calls.mapM (Call.directive s.tree) = .ok ds) :
    s.block config (.pin span target calls)
      = (Session.pass s.tree node config s.direction ds).commit.log := by
  have hname : s.tree.name node = target.value := (Tree.name_of_find? hn).2
  have hlogs := Session.pass_logsWarnings s.tree node config s.direction ds
  simp only [block, hn, hd, raised_pin hn hd, Session.commit, Session.pass_log, Session.pass_site,
    Site.label, hname, hlogs, List.map_map, List.map_append, List.append_assoc]
  split_ifs <;> simp [Function.comp_def]

theorem statement_log {st : Statement α} {s' : Stage α} (h : s.statement config st = .ok s') :
    s'.log = s.log ++ s.block config st := by
  cases st with
  | view v =>
    cases h
    exact (List.append_nil _).symm
  | direction span name =>
    rw [statement] at h
    split at h
    · cases h
      exact (List.append_nil _).symm
    · cases h
  | pin span target calls =>
    obtain ⟨node, ds, hn, hd, rfl⟩ := exists_of_statement_pin h
    rw [block_pin hn hd, pinned]

/-- The log of a run is made of the blocks of the statements that run, also where one fails. -/
theorem run_log : ∀ (sts : List (Statement α)) (s : Stage α), (s.run config sts).log
    = s.log ++ (s.ran config sts).flatMap fun (s, st) => s.block config st
  | [], s => (List.append_nil _).symm
  | st :: sts, s => by
    cases hs : s.statement config st with
    | error e =>
      rw [run, ran, hs]
      exact (List.append_nil _).symm
    | ok s' =>
      rw [run_cons hs, ran_cons hs, run_log sts s', statement_log hs, List.flatMap_cons,
        List.append_assoc]

end Stage

/-- The records of a log that are no warnings. -/
def Log.withoutWarnings (log : List (Log.Record α)) : List (Log.Record α) :=
  log.filter fun r => r.level ≠ .warn

namespace Session

theorem commit_logging (s : Session α) (b : Bool) : (s.logging b).commit.log
    = s.log ++ ((if b then s.resolution.warnings.map Log.Event.warned else [])
        ++ [Log.Event.committed s.resolution.frame]).map fun e => ⟨s.site.label, e⟩ := rfl

theorem withoutWarnings_pass (tree : Tree α) (node : NodeId) (config : Config α) (d : Direction)
    (cs : List (Directive α)) :
    Log.withoutWarnings (pass tree node config d cs).log = (pass tree node config d cs).log := by
  refine List.filter_eq_self.2 fun r hr => ?_
  rw [pass_log] at hr
  obtain ⟨x, hx, rfl⟩ := List.mem_map.1 hr
  have hlevel : x.level = .trace := Directive.level_tracedAll hx
  simp [Log.Record.level, hlevel]

/-- A session that does not log its warnings logs all the rest. -/
theorem withoutWarnings_commit {s : Session α} (hs : Log.withoutWarnings s.log = s.log) :
    Log.withoutWarnings s.commit.log = (s.logging false).commit.log := by
  have hcommit := commit_logging s s.logsWarnings
  rw [show s.logging s.logsWarnings = s from rfl] at hcommit
  rw [hcommit, commit_logging, Log.withoutWarnings, List.filter_append, ← Log.withoutWarnings, hs]
  cases s.logsWarnings <;> simp [Log.Record.level, Log.Event.level, Function.comp_def]

end Session

namespace Stage

variable (config : Config α) (s : Stage α)

def quiet (s : Stage α) : Stage α := { s with log := Log.withoutWarnings s.log }

theorem session_quiet (target : Spanned String) (calls : List (Call α)) (b : Bool) :
    s.quiet.session { config with logsWarnings := b } target calls
      = (s.session config target calls).map (Session.logging b) := by
  have hnode : s.quiet.tree = s.tree := rfl
  cases hn : s.tree.find? target.value with
  | none => simp only [session, Tree.lookUp, hnode, hn]; rfl
  | some node =>
    cases hd : calls.mapM (Call.directive s.tree) with
    | error e => simp only [session, Tree.lookUp, hnode, hn, hd]; rfl
    | ok ds =>
      rw [session_eq hn hd, session_eq (s := s.quiet) hn hd, Session.pass_logging]
      rfl

/-- Without warnings in the log a statement does what it does with them. -/
theorem statement_quiet (st : Statement α) :
    s.quiet.statement { config with logsWarnings := false } st
      = (s.statement config st).map quiet := by
  cases st with
  | view v => rfl
  | direction span name =>
    rw [statement, statement]
    cases Direction.ofName? name.value <;> rfl
  | pin span target calls =>
    rw [statement, statement, session_quiet]
    cases hs : s.session config target calls with
    | error e => rfl
    | ok session =>
      obtain ⟨node, ds, -, -, hpass⟩ := exists_of_session hs
      have hkept : Log.withoutWarnings session.log = session.log := by
        rw [hpass, Session.withoutWarnings_pass]
      have hlog : Log.withoutWarnings (s.log ++ session.commit.log)
          = s.quiet.log ++ (session.logging false).commit.log := by
        rw [← Session.withoutWarnings_commit hkept, Log.withoutWarnings, List.filter_append]
        rfl
      exact congrArg (fun log => Except.ok (Stage.mk _ _ _ log)) hlog.symm

/-- Without warnings in the log a run comes to what it comes to with them. -/
theorem run_quiet : ∀ (sts : List (Statement α)) (s : Stage α),
    s.quiet.run { config with logsWarnings := false } sts
      = ⟨(s.run config sts).result, Log.withoutWarnings (s.run config sts).log⟩
  | [], s => rfl
  | st :: sts, s => by
    have hst := statement_quiet config s st
    cases hs : s.statement config st with
    | error e =>
      rw [hs] at hst
      rw [run, run, hst, hs]
      rfl
    | ok s' =>
      rw [hs] at hst
      rw [run_cons hs, run_cons hst]
      exact run_quiet sts s'

end Stage

/-- A record as it is printed. -/
def Log.Record.printed (r : Log.Record α) : Log.Level × String := (r.level, r.text)

theorem Log.Record.printed_committed (name : String) (f : Rect α) :
    Log.Record.printed ⟨name, .committed f⟩
      = (.debug, "[" ++ name ++ "] frame = (" ++ Scalar.text f.origin.x ++ ", "
        ++ Scalar.text f.origin.y ++ ", " ++ Scalar.text f.size.width ++ " x "
        ++ Scalar.text f.size.height ++ ")") := by
  have hopen : "] frame = (" = "] " ++ "frame = (" := rfl
  simp only [printed, level, text, Event.level, Event.describe, hopen, String.append_assoc]

namespace Script

/-- The statements of a script that run, each with the stage before it. -/
def ran (script : Script α) (config : Config α) (process : Direction) :
    List (Stage α × Statement α) :=
  match script.scene with
  | .ok scene => Stage.ran config ⟨scene, config.effectiveDirection process, [], []⟩ script.statements
  | .error _ => []

variable (script : Script α) (config : Config α) (process : Direction)

theorem run_log : (script.run config process).log
    = (script.ran config process).flatMap fun (s, st) => s.block config st := by
  rw [run, ran]
  cases script.scene with
  | error e => rfl
  | ok scene => exact (Stage.run_log _ _).trans (List.nil_append _)

theorem run_quiet : script.run { config with logsWarnings := false } process
    = ⟨(script.run config process).result,
        Log.withoutWarnings (script.run config process).log⟩ := by
  rw [run, run]
  cases script.scene with
  | error e => rfl
  | ok scene =>
    exact Stage.run_quiet config script.statements
      ⟨scene, config.effectiveDirection process, [], []⟩

variable {script config process}

theorem map_snd_ran_of_ok {r : Report α} (h : (script.run config process).result = .ok r) :
    (script.ran config process).map Prod.snd = script.statements
      ∧ r.warnings = (script.ran config process).flatMap fun (s, st) => s.raised config st := by
  obtain ⟨scene, s, hscene, -, -, hs⟩ := exists_of_run h
  rw [run, hscene] at h
  rw [ran, hscene]
  constructor
  · have hsnd := Stage.map_snd_ran [] hs
    rw [List.append_nil, Stage.ran, List.map_nil, List.append_nil] at hsnd
    exact hsnd
  · rw [Stage.run_warnings h, Stage.raisedAll_eq_map_ran, List.nil_append, List.flatMap_def]

theorem map_snd_ran_of_error {e : SceneError} (h : (script.run config process).result = .error e) :
    (script.scene = .error e ∧ script.ran config process = [])
      ∨ ∃ scene before st after s, script.scene = .ok scene
        ∧ script.statements = before ++ st :: after
        ∧ Stage.after config ⟨scene, config.effectiveDirection process, [], []⟩ before = .ok s
        ∧ s.statement config st = .error e
        ∧ (script.ran config process).map Prod.snd = before := by
  rw [run] at h
  rw [ran]
  cases hscene : script.scene with
  | error e' =>
    rw [hscene] at h
    cases h
    exact .inl ⟨rfl, rfl⟩
  | ok scene =>
    rw [hscene] at h
    obtain ⟨before, st, after, s, hsts, hbefore, hst⟩ := Stage.exists_of_run_error h
    refine .inr ⟨scene, before, st, after, s, rfl, hsts, hbefore, hst, ?_⟩
    rw [hsts]
    refine (Stage.map_snd_ran (st :: after) hbefore).trans ?_
    rw [Stage.ran, hst, List.map_nil, List.append_nil]

/-- The log of a run is its story. It is made of the blocks of the statements that run, which are all
of them if the run succeeds, and else those before the one that failed. A block tells of the writes
that are taken and of the flags, so that the constraints of a session can be read off its log; and
it tells of the very warnings that are reported, where they are wanted. Whether they are wanted
shows nowhere else. -/
theorem log_tells_story (config : Config α) (process : Direction) :
    (∀ script : Script α, (script.run config process).log
      = (script.ran config process).flatMap fun (s, st) => s.block config st)
    ∧ (∀ (script : Script α) (r : Report α), (script.run config process).result = .ok r →
      (script.ran config process).map Prod.snd = script.statements
        ∧ r.warnings = (script.ran config process).flatMap fun (s, st) => s.raised config st)
    ∧ (∀ (script : Script α) (e : SceneError), (script.run config process).result = .error e →
      (script.scene = .error e ∧ script.ran config process = [])
        ∨ ∃ scene before st after s, script.scene = .ok scene
          ∧ script.statements = before ++ st :: after
          ∧ Stage.after config ⟨scene, config.effectiveDirection process, [], []⟩ before = .ok s
          ∧ s.statement config st = .error e
          ∧ (script.ran config process).map Prod.snd = before)
    ∧ (∀ source : String, (runSource source config process).log
      = (Script.parse source).toOption.elim [] fun script => (script.run config process).log)
    ∧ (∀ script : Script α, script.run { config with logsWarnings := false } process
      = ⟨(script.run config process).result,
          Log.withoutWarnings (script.run config process).log⟩)
    ∧ (∀ source : String, runSource source { config with logsWarnings := false } process
      = ⟨(runSource source config process).result,
          Log.withoutWarnings (runSource source config process).log⟩)
    ∧ (∀ (tree : Tree α) (node : NodeId) (d : Direction) (ds : List (Directive α)),
      (Session.pass tree node config d ds).constraints.unaligned
        = Constraints.overlayAll ((Directive.tracedAll ⟨tree, node⟩ d ds).map Log.Event.told))
    ∧ ∀ (name : String) (slot : Slot) (v : α) (w : Warning α) (f : Rect α),
      Log.Record.printed ⟨name, .wrote slot v⟩
          = (.trace, "[" ++ name ++ "] " ++ slot.name ++ " = " ++ Scalar.text v)
        ∧ (Log.Record.mk name .fitSize : Log.Record α).printed
          = (.trace, "[" ++ name ++ "] fit_size")
        ∧ (Log.Record.mk name .pinEdges : Log.Record α).printed
          = (.trace, "[" ++ name ++ "] pin_edges")
        ∧ Log.Record.printed ⟨name, .warned w⟩
          = (.warn, "[" ++ name ++ "] " ++ w.category.name ++ ": " ++ w.message)
        ∧ Log.Record.printed ⟨name, .committed f⟩
          = (.debug, "[" ++ name ++ "] frame = (" ++ Scalar.text f.origin.x ++ ", "
            ++ Scalar.text f.origin.y ++ ", " ++ Scalar.text f.size.width ++ " x "
            ++ Scalar.text f.size.height ++ ")") := by
  refine ⟨fun script => script.run_log config process, fun _ _ => map_snd_ran_of_ok,
    fun _ _ => map_snd_ran_of_error, fun source => ?_, fun script => script.run_quiet config process,
    fun source => ?_, fun tree node d ds => Session.unaligned_pass tree node config d ds,
    fun name slot v w f => ?_⟩
  · rw [runSource]
    cases (Script.parse source : Except (SyntaxError α) (Script α)) <;> rfl
  · rw [runSource, runSource]
    cases (Script.parse source : Except (SyntaxError α) (Script α)) with
    | error e => rfl
    | ok script => simp only [script.run_quiet config process]
  · have hline (a b c d : String) : a ++ (b ++ c ++ d) = a ++ b ++ c ++ d := by
      simp only [String.append_assoc]
    have hflag (a b c : String) : a ++ b ++ c = a ++ (b ++ c) := String.append_assoc
    exact ⟨congrArg (Prod.mk _) (hline _ _ _ _), congrArg (Prod.mk _) (hflag _ _ _),
      congrArg (Prod.mk _) (hflag _ _ _), congrArg (Prod.mk _) (hline _ _ _ _),
      Log.Record.printed_committed name f⟩

/-- A card has its block, and a panel that is pinned to a view that is not there has none. -/
theorem card_is_logged_and_panel_is_not :
    let s : Span := ⟨0, 0⟩
    let views : Statement Rat := .view ⟨s, ⟨"panel", s⟩, [], [⟨s, ⟨"card", s⟩, [], []⟩]⟩
    let card : Statement Rat := .pin s ⟨"card", s⟩ [⟨s, ⟨"width", s⟩, [.number s (-5)]⟩,
      ⟨s, ⟨"left", s⟩, [.number s 10]⟩, ⟨s, ⟨"fit_size", s⟩, []⟩]
    let panel : Statement Rat := .pin s ⟨"panel", s⟩ [⟨s, ⟨"top", s⟩, [.number s 1]⟩,
      ⟨s, ⟨"below", s⟩, [.name s "badge"]⟩]
    let run := (Script.mk [views, card]).run .standard .ltr
    let failed := (Script.mk [views, card, panel]).run .standard .ltr
    let e := SceneError.unknownNode "badge" s []
    let r : Report Rat := ⟨[⟨"panel", none, 0, .zero⟩, ⟨"card", some "panel", 1, ⟨⟨10, 0⟩, .zero⟩⟩],
      [⟨"card", .negativeSize (.size .horizontal) (-5)⟩, ⟨"card", .noContentSize⟩]⟩
    run.result = .ok r ∧ ((Script.mk [views, card]).ran .standard .ltr).map Prod.snd = [views, card]
      ∧ failed.result = .error e
      ∧ (∃ (before after : List (Statement Rat)) (st : Statement Rat) (s' : Stage Rat),
        [views, card, panel] = before ++ st :: after ∧ s'.statement .standard st = .error e
          ∧ ((Script.mk [views, card, panel]).ran .standard .ltr).map Prod.snd = before)
      ∧ failed.log = [⟨"card", .wrote (.size .horizontal) 0⟩,
          ⟨"card", .wrote (.line .horizontal .low) 10⟩, ⟨"card", .fitSize⟩,
          ⟨"card", .warned (.negativeSize (.size .horizontal) (-5))⟩,
          ⟨"card", .warned .noContentSize⟩, ⟨"card", .committed ⟨⟨10, 0⟩, ⟨0, 0⟩⟩⟩] := by
  intro s views card panel run failed e r
  obtain ⟨-, hok, herror, -⟩ := log_tells_story (α := Rat) .standard .ltr
  have hrun : run.result = .ok r := by decide +kernel
  have hfailed : failed.result = .error e := by decide +kernel
  have hscene : (Script.mk [views, card, panel]).scene.toOption.isSome = true := by decide +kernel
  refine ⟨hrun, (hok _ r hrun).1, hfailed, ?_, by decide +kernel⟩
  rcases herror _ e hfailed with ⟨herror, -⟩ | ⟨_, before, st, after, s', -, hsts, -, hst, hran⟩
  · rw [herror] at hscene
    cases hscene
  · exact ⟨before, after, st, s', hsts, hst, hran⟩

end Script

end Pinning
