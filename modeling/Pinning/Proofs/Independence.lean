import Pinning.Proofs.Reading
import Pinning.Proofs.Stages
import Pinning.Proofs.Views
import Pinning.Scalar.Rational

/-!
# Independent pins

What a pin does to the tree is one new frame. A pin elsewhere does not see it as long as its node
and the views that its calls refer to do not lie in that frame's view (`Tree.Unseen`): its calls
are read as before (`SameShape.directive`), and its session comes to the same frame with the same
warnings (`resolution_unseen`). So two neighbouring pins of which neither sees the other may trade
places, and only their warnings do so with them (`independent_pins_commute`).
-/

namespace Pinning

variable {α : Type} [Scalar α]

namespace Tree.SameShape

variable {t t' : Tree α} (h : t.SameShape t')

include h

omit [Scalar α] in
theorem find? (name : String) : t'.find? name = t.find? name := by
  simp only [Tree.find?_eq, ids, h.size, h.name]

omit [Scalar α] in
theorem lookUp (name : String) (span : Span) : t'.lookUp name span = t.lookUp name span := by
  simp only [Tree.lookUp, h.find?, ids, h.size, funext h.name]

omit [Scalar α] in
theorem nodes (c : Call α) (usage : Usage) : ∀ args : List (Arg α),
    c.nodes t' usage args = c.nodes t usage args
  | [] => rfl
  | arg :: args => by cases arg <;> simp only [Call.nodes, h.lookUp, nodes c usage args]

/-- A call is read by the names in the tree. -/
theorem directive (c : Call α) : c.directive t' = c.directive t := by
  simp only [Call.directive, Call.setter, Call.anchor, Call.place, Call.place.go, Call.size,
    Call.aspectRatio, h.lookUp, h.nodes]

theorem directives (calls : List (Call α)) :
    calls.mapM (Call.directive t') = calls.mapM (Call.directive t) := by
  rw [funext h.directive]

end Tree.SameShape

/-- The nodes that a directive names. -/
def Directive.named : Directive α → List NodeId
  | .relative _ nodes => nodes
  | c => c.references

omit [Scalar α] in
theorem Directive.mem_named_of_mem_reads {site : Site α} {c : Directive α} {n : NodeId}
    (h : n ∈ c.reads site) : n ∈ c.named := by
  cases c with
  | relative r nodes => exact (List.mem_filter.1 h).1
  | _ => exact h

/-- The views that a call refers to. -/
def Call.views (t : Tree α) (c : Call α) : List NodeId :=
  match c.directive t with
  | .ok d => d.named
  | .error _ => []

theorem Call.mem_views {t : Tree α} : ∀ {calls : List (Call α)} {ds : List (Directive α)},
    calls.mapM (Call.directive t) = .ok ds → ∀ {d : Directive α}, d ∈ ds → ∀ {n : NodeId},
      n ∈ d.named → n ∈ calls.flatMap (Call.views t)
  | [], ds, h, d, hd, n, hn => by
    cases h
    cases hd
  | c :: calls, ds, h, d, hd, n, hn => by
    rw [List.mapM_cons] at h
    cases hc : c.directive t with
    | error e =>
      rw [hc] at h
      cases h
    | ok d₁ =>
      cases hcs : calls.mapM (Call.directive t) with
      | error e =>
        rw [hc, hcs] at h
        cases h
      | ok ds₁ =>
        rw [hc, hcs] at h
        cases h
        rw [List.flatMap_cons, List.mem_append]
        rcases List.mem_cons.1 hd with rfl | hd
        · exact .inl (by rwa [Call.views, hc])
        · exact .inr (mem_views hcs hd hn)

/-- A new frame for `other` goes unnoticed by a pin of `node`: neither that nor any view that the
calls refer to lies in `other`. -/
def Tree.Unseen (t : Tree α) (other node : NodeId) (calls : List (Call α)) : Prop :=
  ∀ n ∈ node :: calls.flatMap (Call.views t), n ≠ other ∧ other ∉ t.ancestors n

instance (t : Tree α) (other node : NodeId) (calls : List (Call α)) :
    Decidable (t.Unseen other node calls) :=
  inferInstanceAs (Decidable (∀ n ∈ _, _))

theorem Tree.SameShape.unseen {t t' : Tree α} (h : t.SameShape t') {other node : NodeId}
    {calls : List (Call α)} (hu : t.Unseen other node calls) : t'.Unseen other node calls := by
  have hviews : Call.views t' = Call.views t := by
    funext c
    rw [Call.views, Call.views, h.directive]
  intro n hn
  rw [hviews] at hn
  rw [h.ancestors]
  exact hu n hn

section Unseen

variable {t : Tree α} {other node : NodeId} {calls : List (Call α)} {ds : List (Directive α)}
  (hw : t.WellFormed) (hu : t.Unseen other node calls)
  (hds : calls.mapM (Call.directive t) = .ok ds) (frame : Rect α) (config : Config α)
  (d : Direction)

include hw hu hds

theorem Session.pass_unseen : pass (t.setFrame other frame) node config d ds
    = (pass t node config d ds).moved ⟨t.setFrame other frame, node⟩ := by
  refine pass_moved config d fun c hc => Site.alike_setFrame hw frame ?_ fun n hn => ?_
  · exact (hu node List.mem_cons_self).2
  · exact hu n (List.mem_cons_of_mem _ (Call.mem_views hds hc (c.mem_named_of_mem_reads hn)))

theorem Session.resolution_unseen : (pass (t.setFrame other frame) node config d ds).resolution
    = (pass t node config d ds).resolution := by
  have hframe : (t.setFrame other frame).frame node = t.frame node :=
    Tree.frame_setFrame_of_ne (hu node List.mem_cons_self).1 frame
  rw [pass_unseen hw hu hds frame config d]
  simp only [resolution, subject, moved, hframe, Tree.content_setFrame, pass_site]

end Unseen

namespace Stage

variable {s : Stage α} {target : Spanned String} {calls : List (Call α)} {node other : NodeId}
  {ds : List (Directive α)}

/-- A pin that does not see what another one has done comes to the same after it as before it. -/
theorem statement_pinned (config : Config α) (span : Span) (hw : s.tree.WellFormed)
    (hn : s.tree.find? target.value = some node)
    (hds : calls.mapM (Call.directive s.tree) = .ok ds) (hu : s.tree.Unseen other node calls)
    (target' : String) (ds' : List (Directive α)) :
    let s' := s.pinned config target' other ds'
    s'.statement config (.pin span target calls) = .ok (s'.pinned config target.value node ds)
      ∧ s'.raised config (.pin span target calls) = s.raised config (.pin span target calls)
      ∧ (s'.pinned config target.value node ds).tree = s'.tree.setFrame node
          (Session.pass s.tree node config s.direction ds).resolution.frame := by
  intro s'
  have hshape : s.tree.SameShape s'.tree := Tree.sameShape_setFrame other _
  have hn' : s'.tree.find? target.value = some node := by rwa [hshape.find?]
  have hds' : calls.mapM (Call.directive s'.tree) = .ok ds := by rwa [hshape.directives]
  have hres : (Session.pass s'.tree node config s'.direction ds).resolution
      = (Session.pass s.tree node config s.direction ds).resolution :=
    Session.resolution_unseen hw hu hds _ config s.direction
  refine ⟨statement_pin hn' hds', ?_, ?_⟩
  · rw [raised_pin hn' hds', raised_pin hn hds, hres]
  · rw [pinned, hres]
    rfl

variable {config : Config α} {span₁ span₂ : Span} {target₁ target₂ : Spanned String}
  {calls₁ calls₂ : List (Call α)} {n₁ n₂ : NodeId}

/-- Two pins of which neither sees the other come to the same in either order. -/
theorem statements_commute (hw : s.tree.WellFormed)
    (hn₁ : s.tree.find? target₁.value = some n₁) (hn₂ : s.tree.find? target₂.value = some n₂)
    (hu₁ : s.tree.Unseen n₂ n₁ calls₁) (hu₂ : s.tree.Unseen n₁ n₂ calls₂) {s₁ s₁₂ : Stage α}
    (h₁ : s.statement config (.pin span₁ target₁ calls₁) = .ok s₁)
    (h₁₂ : s₁.statement config (.pin span₂ target₂ calls₂) = .ok s₁₂) :
    ∃ s₂ s₂₁, s.statement config (.pin span₂ target₂ calls₂) = .ok s₂
      ∧ s₂.statement config (.pin span₁ target₁ calls₁) = .ok s₂₁ ∧ s₁₂.Alike s₂₁
      ∧ s₁.raised config (.pin span₂ target₂ calls₂) = s.raised config (.pin span₂ target₂ calls₂)
      ∧ s₂.raised config (.pin span₁ target₁ calls₁)
        = s.raised config (.pin span₁ target₁ calls₁) := by
  obtain ⟨m₁, ds₁, hm₁, hds₁, rfl⟩ := exists_of_statement_pin h₁
  obtain ⟨m₂, ds₂, hm₂, hds₂, rfl⟩ := exists_of_statement_pin h₁₂
  -- The first pin moves no names, so it leaves the second one's target and calls as they are.
  have hshape : s.tree.SameShape (s.pinned config target₁.value m₁ ds₁).tree :=
    Tree.sameShape_setFrame m₁ _
  rw [hshape.find?, hn₂, Option.some.injEq] at hm₂
  rw [hn₁, Option.some.injEq] at hm₁
  rw [hshape.directives] at hds₂
  subst hm₁ hm₂
  obtain ⟨-, hraised₂, htree₁₂⟩ :=
    statement_pinned config span₂ hw hn₂ hds₂ hu₂ target₁.value ds₁
  obtain ⟨h₂₁, hraised₁, htree₂₁⟩ :=
    statement_pinned config span₁ hw hn₁ hds₁ hu₁ target₂.value ds₂
  have htree := Tree.setFrame_comm (t := s.tree) (hu₁ n₁ List.mem_cons_self).1.symm
    (Session.pass s.tree n₂ config s.direction ds₂).resolution.frame
    (Session.pass s.tree n₁ config s.direction ds₁).resolution.frame
  refine ⟨_, _, statement_pin hn₂ hds₂, h₂₁, ⟨?_, rfl⟩, hraised₂, hraised₁⟩
  exact congrArg (Scene.mk · s.scene.order) (htree₂₁.trans (htree.trans htree₁₂.symm))

end Stage

namespace Script

/-- Two neighbouring pins of which neither sees the other may trade places: the views come out the
same, and every statement raises the same warnings. -/
theorem independent_pins_commute (config : Config α) (process : Direction)
    {before after : List (Statement α)} {span₁ span₂ : Span} {target₁ target₂ : Spanned String}
    {calls₁ calls₂ : List (Call α)} {tree : Tree α} {n₁ n₂ : NodeId} {r : Report α} :
    let pin₁ : Statement α := .pin span₁ target₁ calls₁
    let pin₂ : Statement α := .pin span₂ target₂ calls₂
    let script : Script α := ⟨before ++ pin₁ :: pin₂ :: after⟩
    let swapped : Script α := ⟨before ++ pin₂ :: pin₁ :: after⟩
    script.tree = .ok tree → tree.find? target₁.value = some n₁ →
    tree.find? target₂.value = some n₂ → tree.Unseen n₂ n₁ calls₁ → tree.Unseen n₁ n₂ calls₂ →
    (script.run config process).result = .ok r →
      ∃ r', (swapped.run config process).result = .ok r' ∧ r'.nodes = r.nodes
        ∧ ∃ ws ws₁ ws₂ ws', ws.length = before.length
          ∧ script.raised config process = ws ++ ws₁ :: ws₂ :: ws'
          ∧ swapped.raised config process = ws ++ ws₂ :: ws₁ :: ws'
          ∧ r.warnings = (script.raised config process).flatten
          ∧ r'.warnings = (swapped.raised config process).flatten := by
  intro pin₁ pin₂ script swapped htree hn₁ hn₂ hu₁ hu₂ hr
  obtain ⟨scene, hscene, rfl⟩ := tree_eq_ok_iff.1 htree
  have hscene' : swapped.scene = .ok scene := by
    rw [← hscene]
    simp only [Script.scene, views, script, swapped, pin₁, pin₂, List.filterMap_append,
      List.filterMap_cons]
  simp only [run, raised, hscene, hscene'] at hr ⊢
  obtain ⟨s, hs, hrun⟩ := Stage.run_append hr
  have hshape : scene.tree.SameShape s.tree := Stage.after_sameShape hs
  obtain ⟨-, hraised, hlength⟩ := Stage.run_append_of_after (pin₁ :: pin₂ :: after) hs
  obtain ⟨hresult', hraised', -⟩ := Stage.run_append_of_after (pin₂ :: pin₁ :: after) hs
  -- The two statements, in the order in which they stand and in the other.
  obtain ⟨s₁, h₁, hrun₁⟩ := Stage.exists_of_run_cons hrun
  obtain ⟨s₁₂, h₁₂, hrun₁₂⟩ := Stage.exists_of_run_cons hrun₁
  obtain ⟨s₂, s₂₁, h₂, h₂₁, halike, hraised₂, hraised₁⟩ := Stage.statements_commute
    (hshape.wellFormed (built_tree htree).wellFormed) (by rwa [hshape.find?])
    (by rwa [hshape.find?]) (hshape.unseen hu₁) (hshape.unseen hu₂) h₁ h₁₂
  obtain ⟨hraisedAll, r', hr', hnodes⟩ := halike.run hrun₁₂
  have hr₂ : (Stage.run config s (pin₂ :: pin₁ :: after)).result = .ok r' := by
    rwa [Stage.run_cons h₂, Stage.run_cons h₂₁]
  refine ⟨r', hresult'.trans hr₂, hnodes, Stage.raisedAll config _ before,
    s.raised config pin₁, s.raised config pin₂, s₁₂.raisedAll config after, hlength, ?_, ?_, ?_, ?_⟩
  · rw [hraised, Stage.raisedAll_cons h₁, Stage.raisedAll_cons h₁₂, hraised₂]
  · rw [hraised', Stage.raisedAll_cons h₂, Stage.raisedAll_cons h₂₁, hraised₁, hraisedAll]
  · exact (Stage.run_warnings hr).trans (List.nil_append _)
  · exact (Stage.run_warnings (hresult'.trans hr₂)).trans (List.nil_append _)

/-- A note beside a card and a badge inside it, each with a warning. -/
theorem note_and_badge_trade_places :
    let s : Span := ⟨0, 0⟩
    let view (name : String) (ms : List (Modifier Rat)) (vs : List (View Rat)) : View Rat :=
      ⟨s, ⟨name, s⟩, ms, vs⟩
    let before : List (Statement Rat) :=
      [.view (view "root" [⟨s, ⟨"width", s⟩, ⟨200, s⟩⟩, ⟨s, ⟨"height", s⟩, ⟨100, s⟩⟩]
        [view "card" [⟨s, ⟨"x", s⟩, ⟨60, s⟩⟩] [view "badge" [] []], view "note" [] []])]
    let besideCard : List (Call Rat) :=
      [⟨s, ⟨"left_of", s⟩, [.name s "card", .named s ⟨"aligned", s⟩ (.name s "top")]⟩,
        ⟨s, ⟨"aspect_ratio", s⟩, [.number s 2]⟩]
    let atEnd : List (Call Rat) :=
      [⟨s, ⟨"start", s⟩, [.member s "root" "end"]⟩, ⟨s, ⟨"width", s⟩, [.percent s (-5)]⟩]
    let note : Statement Rat := .pin s ⟨"note", s⟩ besideCard
    let badge : Statement Rat := .pin s ⟨"badge", s⟩ atEnd
    let script : Script Rat := ⟨before ++ note :: badge :: [.direction s ⟨"rtl", s⟩]⟩
    let swapped : Script Rat := ⟨before ++ badge :: note :: [.direction s ⟨"rtl", s⟩]⟩
    ∃ tree r, script.tree = .ok tree ∧ tree.find? "note" = some 3 ∧ tree.find? "badge" = some 2
      ∧ tree.Unseen 2 3 besideCard ∧ tree.Unseen 3 2 atEnd
      ∧ (script.run .standard .ltr).result = .ok r
      ∧ ∃ r', (swapped.run .standard .ltr).result = .ok r' ∧ r'.nodes = r.nodes
        ∧ r.warnings = (script.raised .standard .ltr).flatten
        ∧ r'.warnings = (swapped.raised .standard .ltr).flatten := by
  intro s view before besideCard atEnd note badge script swapped
  have hok : script.tree.toOption.isSome = true ∧
      (script.run .standard .ltr).result.toOption.isSome = true := by decide +kernel
  cases htree : script.tree with
  | error e => simp [htree, Except.toOption] at hok
  | ok tree =>
    cases hr : (script.run .standard .ltr).result with
    | error e => simp [hr, Except.toOption] at hok
    | ok r =>
    have hfacts : ∀ t ∈ script.tree.toOption, t.find? "note" = some 3 ∧ t.find? "badge" = some 2
        ∧ t.Unseen 2 3 besideCard ∧ t.Unseen 3 2 atEnd := by decide +kernel
    obtain ⟨hn, hb, hu, hu'⟩ := hfacts tree (by rw [htree]; rfl)
    obtain ⟨r', hr', hnodes, -, -, -, -, -, -, -, hw, hw'⟩ :=
      independent_pins_commute .standard .ltr htree hn hb hu hu' hr
    exact ⟨tree, r, rfl, hn, hb, hu, hu', rfl, r', hr', hnodes, hw, hw'⟩

end Script

end Pinning
