import Pinning.Proofs.Declarations
import Pinning.Proofs.Stages
import Pinning.Workbench

/-!
# A session writes one frame, once, or none

While a session takes in directives it stays open (`Session.Open`) and the tree stays as it is
(`Workbench.run_intake`). Closing it writes the frame of its node and nothing else
(`Tree.AgreesBut`), or nothing at all where it is discarded. It goes out of use after that, and what
happens then depends on its state: one that was applied is not written again
(`Session.writes_once`). So each session that is begun is still open or has ended once
(`Workbench.begun_run`).

In a script, a view that no pin has as its target therefore keeps the frame that its modifiers
declare (`Stage.frame_after`).
-/

namespace Pinning

variable {α : Type}

namespace Log

/-- The event is the end of a session. -/
def Event.ends : Event α → Bool
  | committed _ | discarded => true
  | wrote .. | fitSize | pinEdges | warned _ => false

/-- How the sessions ended that a log tells of. -/
def endings (log : List (Record α)) : List (Event α) := (log.map Record.event).filter Event.ends

theorem endings_append (log log' : List (Record α)) :
    endings (log ++ log') = endings log ++ endings log' := by
  simp only [endings, List.map_append, List.filter_append]

end Log

namespace Session

/-- Nothing has ended the session yet, and its log tells of no end. -/
structure Open (s : Session α) : Prop where
  state : s.state = .accumulating
  endings : Log.endings s.log = []

variable {s : Session α}

theorem Open.record (hs : s.Open) {e : Log.Event α} (he : e.ends = false) : (s.record e).Open where
  state := hs.state
  endings := by
    rw [Session.record, Log.endings_append, hs.endings]
    simp [Log.endings, he]

theorem endings_discard (s : Session α) :
    Log.endings s.discard.log = Log.endings s.log ++ [.discarded] := by
  rw [discard, Session.record, Log.endings_append]
  rfl

variable [Scalar α]

/-- What a session takes in does not end it. -/
theorem Open.perform (hs : s.Open) (e : Effect α) : (s.perform e).Open := by
  cases e with
  | write slot v =>
    have hwrote : (s.record (.wrote slot v)).Open := hs.record rfl
    rw [Session.perform]
    split
    · exact ⟨hwrote.state, hwrote.endings⟩
    · exact ⟨hs.state, hs.endings⟩
  | measure directive =>
    rw [Session.perform]
    split
    · exact ⟨hs.state, hs.endings⟩
    · exact hs
  | fitSize =>
    have hfits : (s.record .fitSize).Open := hs.record rfl
    exact ⟨hfits.state, hfits.endings⟩
  | pinEdges =>
    have hpins : (s.record .pinEdges).Open := hs.record rfl
    exact ⟨hpins.state, hpins.endings⟩
  | warn | spanAlign | turn => exact ⟨hs.state, hs.endings⟩

theorem Open.foldl_perform : ∀ (es : List (Effect α)) {s : Session α}, s.Open →
    (es.foldl Session.perform s).Open
  | [], _, hs => hs
  | e :: es, _, hs => foldl_perform es (hs.perform e)

theorem Open.issue (hs : s.Open) (c : Directive α) : (s.issue c).Open := foldl_perform _ hs

theorem Open.issueAll : ∀ (cs : List (Directive α)) {s : Session α}, s.Open → (s.issueAll cs).Open
  | [], _, hs => hs
  | c :: cs, _, hs => issueAll cs (hs.issue c)

theorem open_pass (tree : Tree α) (node : NodeId) (config : Config α) (d : Direction)
    (cs : List (Directive α)) : (pass tree node config d cs).Open :=
  .issueAll cs ⟨rfl, rfl⟩

theorem endings_commit (s : Session α) :
    Log.endings s.commit.log = Log.endings s.log ++ [.committed s.resolution.frame] := by
  have hwarned (ws : List (Warning α)) :
      (ws.map Log.Event.warned).filter Log.Event.ends = [] := by
    simp [List.filter_eq_nil_iff, Log.Event.ends]
  rw [commit, Log.endings_append]
  congr 1
  simp only [Log.endings, List.map_map, Function.comp_def, List.map_id', List.filter_append]
  split
  · rw [hwarned]
    rfl
  · rfl

/-- However it comes about, an open session is committed or discarded, and that is all. -/
theorem Open.close (hs : s.Open) (e : Ending) :
    s.close e = if e = .discard then s.discard else s.commit := by
  cases e with
  | apply => exact s.close_apply
  | drop => exact s.close_drop hs.state
  | discard => exact s.close_discard

theorem Open.endings_close (hs : s.Open) (e : Ending) : Log.endings (s.close e).log
    = [if e = .discard then .discarded else .committed s.resolution.frame] := by
  rw [hs.close]
  split
  · rw [endings_discard, hs.endings, List.nil_append]
  · rw [endings_commit, hs.endings, List.nil_append]

/-- A session ends once. Applying it leaves a session that is committed, which is not written once
more when it goes out of use; and one that is discarded is not written at all. -/
theorem writes_once (tree : Tree α) (node : NodeId) (config : Config α) (d : Direction)
    (cs : List (Directive α)) (e : Ending) :
    let s := pass tree node config d cs
    (s.close e).state = (if e = .discard then .discarded else .committed)
      ∧ (s.close e).drop = s.close e
      ∧ (s.close e).tree = (if e = .discard then tree else tree.setFrame node s.resolution.frame)
      ∧ Log.endings (s.close e).log
        = [if e = .discard then .discarded else .committed s.resolution.frame] := by
  intro s
  have hs : s.Open := open_pass tree node config d cs
  refine ⟨?_, ?_, ?_, hs.endings_close e⟩
  · rw [hs.close]
    split <;> rfl
  · rw [hs.close]
    split
    · exact s.drop_discard
    · exact s.drop_commit
  · rw [hs.close]
    split
    · exact congrArg Site.tree (pass_site tree node config d cs)
    · exact commit_tree_pass tree node config d cs

end Session

variable [Scalar α]

/-- Two trees that differ in the frame of one node at most. -/
structure Tree.AgreesBut (n : NodeId) (t t' : Tree α) : Prop extends t.SameShape t' where
  frame (m : NodeId) (h : m ≠ n) : t'.frame m = t.frame m
  content (m : NodeId) : t'.content m = t.content m

theorem Tree.agreesBut_setFrame (t : Tree α) (n : NodeId) (frame : Rect α) :
    AgreesBut n t (t.setFrame n frame) where
  toSameShape := sameShape_setFrame n frame
  frame _ h := frame_setFrame_of_ne h frame
  content m := content_setFrame n m frame

namespace Workbench

namespace Step

/-- The steps that neither begin nor close a session. -/
def IsIntake : Step α → Prop
  | setProcess _ | issue _ => True
  | begin .. | close _ => False

def directive? : Step α → Option (Directive α)
  | issue c => some c
  | _ => none

end Step

variable {b : Workbench α}

/-- Such a step may give the session a directive, and does nothing else. -/
theorem step_intake {st : Step α} (h : st.IsIntake) :
    (b.step st).tree = b.tree ∧ (b.step st).log = b.log
      ∧ (b.step st).session = b.session.map fun s => st.directive?.elim s s.issue := by
  cases st with
  | setProcess d =>
    refine ⟨rfl, rfl, ?_⟩
    cases hs : b.session <;> simp [step, Step.directive?, hs]
  | issue c => exact ⟨rfl, rfl, rfl⟩
  | begin | close => exact h.elim

/-- Until it is closed, a session takes in its directives and nothing else happens. -/
theorem run_intake : ∀ {steps : List (Step α)} {b : Workbench α}, (∀ st ∈ steps, st.IsIntake) →
    (b.run steps).tree = b.tree ∧ (b.run steps).log = b.log
      ∧ (b.run steps).session = b.session.map (·.issueAll (steps.filterMap Step.directive?))
  | [], b, _ => ⟨rfl, rfl, by cases hs : b.session <;> simp [run, hs, Session.issueAll]⟩
  | st :: steps, b, h => by
    obtain ⟨htree, hlog, hsession⟩ := step_intake (b := b) (h st List.mem_cons_self)
    obtain ⟨htree', hlog', hsession'⟩ :=
      run_intake (b := b.step st) fun st' hst' => h st' (List.mem_cons_of_mem st hst')
    rw [run, List.foldl_cons, ← run, htree', hlog', hsession', htree, hlog, hsession, Option.map_map]
    refine ⟨rfl, rfl, ?_⟩
    cases hd : st.directive? with
    | none => simp [hd, Function.comp_def]
    | some c => simp [hd, Function.comp_def, Session.issueAll_cons]

/-- A session that is closed is not there any more. -/
theorem close_close (e e' : Ending) : (b.close e).close e' = b.close e := by
  cases hs : b.session with
  | none => simp only [close, hs, Option.elim_none]
  | some s => simp only [close, hs, Option.elim_some, Option.elim_none]

theorem tree_close {s : Session α} (h : b.session = some s) (e : Ending) :
    (b.close e).tree = (s.close e).tree := by
  simp only [close, h, Option.elim_some]

namespace Step

def begins : Step α → Bool
  | begin .. => true
  | setProcess _ | issue _ | close _ => false

end Step

/-- The sessions that have been begun at a workbench, by what there is to see of them. -/
def begun (b : Workbench α) : ℕ := (Log.endings b.log).length + b.session.toList.length

theorem open_close (hb : ∀ s ∈ b.session, s.Open) (e : Ending) :
    (b.close e).session = none ∧ (b.close e).begun = b.begun := by
  cases hs : b.session with
  | none => simp only [close, hs, Option.elim_none, begun, and_self]
  | some s =>
    have hends := (hb s hs).endings_close e
    simp only [close, hs, Option.elim_some, begun, Log.endings_append, hends, List.length_append,
      Option.toList_some, Option.toList_none, List.length_cons, List.length_nil, and_self]

/-- A step ends a session or begins one, or it leaves the sessions there are. -/
theorem open_step (hb : ∀ s ∈ b.session, s.Open) (st : Step α) :
    (∀ s ∈ (b.step st).session, s.Open)
      ∧ (b.step st).begun = b.begun + if st.begins then 1 else 0 := by
  cases st with
  | setProcess d => exact ⟨hb, rfl⟩
  | begin node config =>
    obtain ⟨hnone, hbegun⟩ := open_close hb .drop
    refine ⟨?_, ?_⟩
    · rintro s ⟨⟩
      exact Session.open_pass _ node config _ []
    · rw [← hbegun, begun, begun, hnone]
      rfl
  | issue c =>
    refine ⟨?_, ?_⟩
    · intro s hs
      obtain ⟨s', hs', rfl⟩ := Option.map_eq_some_iff.1 hs
      exact (hb s' hs').issue c
    · cases hs : b.session <;> simp [step, issue, begun, hs, Step.begins]
  | close e =>
    obtain ⟨hnone, hbegun⟩ := open_close hb e
    exact ⟨by rw [step, hnone]; nofun, hbegun⟩

/-- Whatever is done at a workbench, each session that is begun is still open at the end or has
ended once, by one frame that is written or by being discarded. -/
theorem begun_run : ∀ (steps : List (Step α)) {b : Workbench α},
    (∀ s ∈ b.session, s.Open) → (∀ s ∈ (b.run steps).session, s.Open)
      ∧ (b.run steps).begun = b.begun + steps.countP Step.begins
  | [], b, hb => ⟨hb, rfl⟩
  | st :: steps, b, hb => by
    obtain ⟨hopen, hbegun⟩ := open_step hb st
    obtain ⟨hopen', hbegun'⟩ := begun_run steps hopen
    refine ⟨hopen', ?_⟩
    rw [List.countP_cons, run, List.foldl_cons, ← run, hbegun', hbegun]
    omega

end Workbench

/-- The name of the view that a statement pins. -/
def Statement.target? : Statement α → Option String
  | .pin _ target _ => some target.value
  | _ => none

namespace Stage

variable {config : Config α} {n : NodeId}

/-- A pin leaves the frames alone that belong to other views. -/
theorem frame_statement {st : Statement α} {s s' : Stage α}
    (h : s.statement config st = .ok s') (hn : st.target? ≠ some (s.tree.name n)) :
    s'.tree.frame n = s.tree.frame n := by
  rcases tree_of_statement h with htree | ⟨_, target, _, node, ds, rfl, hnode, htree⟩
  · rw [htree]
  · rw [htree]
    refine Tree.frame_setFrame_of_ne ?_ _
    rintro rfl
    exact hn (congrArg some (Tree.name_of_find? hnode).2.symm)

/-- So does a run. -/
theorem frame_after {sts : List (Statement α)} {s s' : Stage α} (h : s.after config sts = .ok s')
    (hn : ∀ st ∈ sts, st.target? ≠ some (s.tree.name n)) : s'.tree.frame n = s.tree.frame n := by
  have hkept := after_invariant
    (P := fun s₁ => s.tree.SameShape s₁.tree ∧ s₁.tree.frame n = s.tree.frame n) ?_ h ⟨.refl _, rfl⟩
  · exact hkept.2
  · rintro st hst s₁ s₂ ⟨hshape, hframe⟩ hs₂
    have htarget : st.target? ≠ some (s₁.tree.name n) := by
      rw [hshape.name]
      exact hn st hst
    exact ⟨hshape.trans (statement_sameShape hs₂), (frame_statement hs₂ htarget).trans hframe⟩

/-- Where no name is repeated, a node's frame is reported under its name. -/
theorem frame?_report {s : Stage α} (ho : s.scene.Ordered) (hnames : s.tree.names.Nodup)
    {n : NodeId} (hn : n < s.tree.size) :
    s.report.frame? (s.tree.name n) = some (s.tree.frame n) := by
  have hmem : (n, (s.tree.ancestors n).length) ∈ s.scene.order := by
    rw [ho]
    exact List.mem_map_of_mem (List.mem_range.2 hn)
  cases hfind : s.report.nodes.find? (·.name = s.tree.name n) with
  | none =>
    have hother := List.find?_eq_none.1 hfind _ (List.mem_map_of_mem hmem)
    exact absurd (decide_eq_true rfl) hother
  | some x =>
    obtain ⟨⟨m, depth⟩, hm, rfl⟩ := List.mem_map.1 (List.mem_of_find?_eq_some hfind)
    have hsame := List.find?_some hfind
    have hname : s.tree.name m = s.tree.name n := of_decide_eq_true hsame
    obtain rfl := Tree.eq_of_name hnames (ho.lt_size hm) hn hname
    rw [Report.frame?, hfind, Option.map_some]
    rfl

end Stage

namespace Script

variable {script : Script α} {config : Config α} {process : Direction} {r : Report α}

/-- A view that no pin has as its target is reported as it is declared. -/
theorem frame_of_untouched (h : (script.run config process).result = .ok r) {v : View α}
    (hv : v ∈ script.allViews)
    (htarget : ∀ st ∈ script.statements, st.target? ≠ some v.name.value) :
    ∃ frame content, View.measures v.modifiers .zero none = .ok (frame, content)
      ∧ r.frame? v.name.value = some frame
      ∧ ∀ n ∈ r.nodes, n.name = v.name.value → n.frame = frame := by
  obtain ⟨scene, s, hscene, rfl, hshape, hs⟩ := exists_of_run h
  have htree := tree_of_scene hscene
  have hordered := Stage.after_ordered hs (ordered_scene hscene)
  obtain ⟨-, hnames⟩ := entries_tree htree
  obtain ⟨e, he, hname, hmeasures⟩ := exists_entry_of_view htree hv
  obtain ⟨i, hi, hei⟩ := List.getElem_of_mem he
  have hentry : scene.tree.entries[i]? = some e := List.getElem?_eq_some_iff.2 ⟨hi, hei⟩
  have hiname : scene.tree.name i = v.name.value := by
    rw [Tree.name_eq, hentry, Option.elim_some, hname]
  have hiframe : s.tree.frame i = e.frame := by
    have hkept : s.tree.frame i = scene.tree.frame i :=
      Stage.frame_after hs fun st hst hother => htarget st hst (hother.trans (congrArg some hiname))
    rw [hkept, Tree.frame_eq, hentry, Option.elim_some]
  -- Names are not repeated, so no other node reports this one.
  have hall : ∀ n ∈ s.report.nodes, n.name = v.name.value → n.frame = e.frame := by
    intro n hn hnname
    obtain ⟨⟨j, depth⟩, hj, rfl⟩ := List.mem_map.1 hn
    have hj : j < scene.tree.size := (hordered.lt_size hj).trans_eq hshape.size
    have hjname : scene.tree.name j = scene.tree.name i := by
      rw [hiname, ← hnname, ← hshape.name]
      rfl
    obtain rfl := Tree.eq_of_name hnames hj (by rwa [← Tree.length_entries]) hjname
    exact hiframe
  refine ⟨e.frame, e.content, hmeasures, ?_, hall⟩
  have hframe? : s.report.frame? (s.tree.name i) = some (s.tree.frame i) :=
    Stage.frame?_report hordered (by rwa [hshape.names]) (by rwa [hshape.size, ← Tree.length_entries])
  rwa [hshape.name, hiname, hiframe] at hframe?

end Script

/-- A session writes one frame, once, or none. Until it is closed, whatever it takes in, the tree is
as it was. Discarded, it leaves the tree so; applied or dropped, it gives its node the frame that the
gathered constraints come to, and changes nothing else; and closed once, it is closed. So a script
that runs reports every view that no pin has as its target with the frame that its modifiers
declare. -/
theorem Workbench.one_frame_or_none :
    (∀ (b : Workbench α) (node : NodeId) (config : Config α) (steps : List (Step α)),
      b.session = none → (∀ st ∈ steps, st.IsIntake) →
      let opened := (b.begin node config).run steps
      let s := Session.pass b.tree node config (config.effectiveDirection b.process)
        (steps.filterMap Step.directive?)
      let subject : Subject α := ⟨b.tree.frame node, b.tree.content node, config.tolerance⟩
      opened.tree = b.tree ∧ opened.session = some s
        ∧ (opened.close .discard).tree = b.tree
        ∧ opened.close .apply = opened.close .drop
        ∧ (node < b.tree.size →
          (opened.close .apply).tree.frame node = (s.constraints.synthesize subject).frame)
        ∧ b.tree.AgreesBut node (opened.close .apply).tree
        ∧ ∀ e e', (opened.close e).close e' = opened.close e)
    ∧ ∀ (script : Script α) (config : Config α) (process : Direction) (r : Report α) (v : View α),
      (script.run config process).result = .ok r → v ∈ script.allViews →
      (∀ st ∈ script.statements, st.target? ≠ some v.name.value) →
      ∃ frame content, View.measures v.modifiers .zero none = .ok (frame, content)
        ∧ r.frame? v.name.value = some frame
        ∧ ∀ n ∈ r.nodes, n.name = v.name.value → n.frame = frame := by
  refine ⟨?_, fun script config process r v h hv ht => Script.frame_of_untouched h hv ht⟩
  intro b node config steps hfree hsteps opened s subject
  have hbegin : b.begin node config = { b with
      session := some (.start b.tree node config (config.effectiveDirection b.process)) } := by
    simp only [begin, close, hfree, Option.elim_none]
  obtain ⟨htree, -, hsession⟩ := run_intake (b := b.begin node config) hsteps
  have hopened : opened.tree = b.tree := by rw [htree, hbegin]
  have hs : opened.session = some s := by
    rw [hsession, hbegin]
    rfl
  have happly : (opened.close .apply).tree
      = b.tree.setFrame node (s.constraints.synthesize subject).frame := by
    have hsubject : s.subject = subject := Session.subject_pass b.tree node config _ _
    rw [tree_close hs, Session.close_apply, ← hsubject]
    exact Session.commit_tree_pass _ _ _ _ _
  refine ⟨hopened, hs, ?_, ?_, ?_, ?_, close_close⟩
  · rw [tree_close hs, Session.close_discard]
    exact congrArg Site.tree (Session.pass_site b.tree node config _ _)
  · have hopen : s.Open := Session.open_pass b.tree node config _ _
    simp only [close, hs, Option.elim_some, Session.close_apply, s.close_drop hopen.state]
  · intro hnode
    rw [happly, Tree.frame_setFrame_self hnode]
  · rw [happly]
    exact Tree.agreesBut_setFrame _ _ _

/-- A card is written where its session is applied, and not after it has been discarded. A badge that
a card is pinned below stays as it is declared. -/
theorem Workbench.card_is_written_once :
    let tree : Tree Rat := ((∅ : Tree Rat).addRoot "root" ⟨⟨0, 0⟩, ⟨200, 100⟩⟩).1
    let tree := (tree.addChild 0 "card" ⟨⟨5, 5⟩, ⟨40, 30⟩⟩).1
    let steps : List (Step Rat) := [.issue (.set (.inset .finish) (.percent 10)), .setProcess .ltr,
      .issue (.set (.size .vertical) (.points 12))]
    let opened := (Workbench.mk tree .rtl none []).begin 1 .standard |>.run steps
    let s : Span := ⟨0, 0⟩
    let badge : View Rat := ⟨s, ⟨"badge", s⟩, [⟨s, ⟨"x", s⟩, ⟨7, s⟩⟩], []⟩
    let script : Script Rat := ⟨[.view ⟨s, ⟨"card", s⟩, [], []⟩, .view badge,
      .pin s ⟨"card", s⟩ [⟨s, ⟨"below", s⟩, [.name s "badge"]⟩, ⟨s, ⟨"width", s⟩, [.number s 3]⟩]]⟩
    (∀ st ∈ steps, st.IsIntake)
      ∧ (opened.close .apply).tree.frame 1 = ⟨⟨20, 5⟩, ⟨40, 12⟩⟩
      ∧ (opened.close .discard).tree = tree
      ∧ tree.AgreesBut 1 (opened.close .apply).tree
      ∧ ((opened.close .discard).close .apply).tree = tree
      ∧ badge ∈ script.allViews ∧ (∀ st ∈ script.statements, st.target? ≠ some "badge")
      ∧ ∃ r, (script.run .standard .ltr).result = .ok r
        ∧ r.frame? "badge" = some ⟨⟨7, 0⟩, ⟨0, 0⟩⟩ := by
  intro tree₀ tree steps opened s badge script
  obtain ⟨hsession, hscript⟩ := one_frame_or_none (α := Rat)
  have hsteps : ∀ st ∈ steps, st.IsIntake := by
    intro st hst
    simp only [steps, List.mem_cons, List.not_mem_nil, or_false] at hst
    rcases hst with rfl | rfl | rfl <;> trivial
  obtain ⟨-, -, hdiscard, -, hwritten, hagrees, hclosed⟩ :=
    hsession ⟨tree, .rtl, none, []⟩ 1 .standard steps rfl hsteps
  have hframe : (opened.close .apply).tree.frame 1 = ⟨⟨20, 5⟩, ⟨40, 12⟩⟩ :=
    (hwritten (by decide)).trans (by decide +kernel)
  have hbadge : badge ∈ script.allViews := .tail _ (.head _)
  have htarget : ∀ st ∈ script.statements, st.target? ≠ some "badge" := by decide
  have hok : (script.run .standard .ltr).result.toOption.isSome = true := by decide +kernel
  refine ⟨hsteps, hframe, hdiscard, hagrees, ?_, hbadge, htarget, ?_⟩
  · rw [hclosed .discard .apply]
    exact hdiscard
  · cases hr : (script.run .standard .ltr).result with
    | error e => simp [hr, Except.toOption] at hok
    | ok r =>
      obtain ⟨frame, content, hm, hframe, -⟩ := hscript script .standard .ltr r badge hr hbadge htarget
      cases hm
      exact ⟨r, rfl, hframe⟩

end Pinning
