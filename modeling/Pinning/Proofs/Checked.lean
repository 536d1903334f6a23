import Pinning.Proofs.Bounds
import Pinning.Scalar.Rational

/-!
# Runs over an arena that can be missed

A tree keeps its nodes in an arena, and a number that belongs to no node reads as a nameless root.
Here every look into the arena can fail, and with it the whole run: reads and writes of nodes, the
way up to a root, which fails too if it does not end, and the tail of a group of frames
(`Checked.runSource`). No run does, and what comes of it is what comes of the run that cannot fail
(`Checked.arena_never_missed`).
-/

namespace Pinning

namespace Checked

section Arena

variable {α : Type} (t : Tree α)

def name (id : NodeId) : Option String := (t.node? id).map (·.name)

def frame (id : NodeId) : Option (Rect α) := (t.node? id).map (·.frame)

def content (id : NodeId) : Option (Option (Size α)) := (t.node? id).map (·.content)

def parent (id : NodeId) : Option (Option NodeId) := (t.node? id).map (·.parent)

def children (id : NodeId) : Option (List NodeId) := (t.node? id).map (·.children)

def modify (id : NodeId) (c : Node.Change α) : Option (Tree α) :=
  (t.node? id).map fun _ => t.modify id c

def setFrame (id : NodeId) (frame : Rect α) : Option (Tree α) := modify t id (.frame frame)

def setContent (id : NodeId) (size : Option (Size α)) : Option (Tree α) :=
  modify t id (.content size)

/-- Adds a child to a node, if that is there. -/
def addChild (parent : NodeId) (name : String) (frame : Rect α) : Option (Tree α × NodeId) := do
  let grown := t.insert { name, frame, parent := some parent }
  return (← modify grown parent (.child t.size), t.size)

def siblings (id : NodeId) : Option (List NodeId) := do
  match ← parent t id with
  | some p => return (← children t p).filter (· ≠ id)
  | none =>
    let others ← (t.ids.filter (· ≠ id)).mapM fun n => (parent t n).map fun p => (n, p)
    return (others.filter (·.2 = none)).map (·.1)

variable [Scalar α]

/-- The size of a node's container, if it has one. -/
def containerSize (id : NodeId) : Option (Option (Size α)) := do
  match ← parent t id with
  | some p => return some (← frame t p).size
  | none => return none

/-- Adds up the corners on the way from a node to its root, which has no more than so many steps. -/
def climb : ℕ → Point α → Option NodeId → Option (Point α)
  | _, o, none => some o
  | 0, _, some _ => none
  | k + 1, o, some p => do climb k (o + (← frame t p).origin) (← parent t p)

def absoluteOrigin (id : NodeId) : Option (Point α) := do
  climb t t.size (← frame t id).origin (← parent t id)

def spaceOrigin : Option NodeId → Option (Point α)
  | some id => absoluteOrigin t id
  | none => some .zero

def frameIn (id : NodeId) (space : Option NodeId) : Option (Rect α) := do
  return (← frame t id).translate ((← spaceOrigin t (← parent t id)) - (← spaceOrigin t space))

end Arena

variable {α : Type} [Scalar α]

section Directives

open Directive Effect

/-- The frames from the one with this index on. -/
def framesFrom (k : ℕ) (frames : List (Rect α)) : Option (List (Rect α)) :=
  if k ≤ frames.length then some (frames.drop k) else none

/-- The slots to write for a place beside a group: beside its bounds, if it has any. -/
def writes (r : Relation) (d : Direction) (group : List (Rect α)) : Option (List (Slot × α)) := do
  match group.head? with
  | none => return []
  | some first => return r.writes d [(← framesFrom 1 group).foldl Rect.union first]

variable (s : Site α) (d : Direction)

def frameOf (n : NodeId) : Option (Rect α) := do frameIn s.tree n (← parent s.tree s.node)

def place (r : Relation) (nodes : List NodeId) : Option (List (Effect α)) := do
  let siblings ← siblings s.tree s.node
  let strangers ← (nodes.filter (· ∉ siblings)).mapM (name s.tree)
  let group ← (nodes.filter (· ∈ siblings)).mapM (frameOf s)
  let label ← name s.tree s.node
  let writes ← writes r d group
  return strangers.map (fun n => warn (.notSibling r.name n label)) ++
    if group.isEmpty then [warn (.noReference r.name)]
    else writes.map fun (slot, v) => write slot v

def effects : Directive α → Option (List (Effect α))
  | .sideTo own node target => do
    return [write (.line .horizontal (own.line d)) ((← frameOf s node).line .horizontal (target.line d))]
  | .lineTo own node target => do
    return [write (.line .vertical own) ((← frameOf s node).line .vertical target)]
  | .anchorTo own node target => do
    return setAnchor d own (target.point d (← frameOf s node))
  | .relative r nodes => place s d r nodes
  | .sizeOf a node => do
    return setLength s d (.points ((← frame s.tree node).size.along a)) (.size a)
  | .sizesOf node => do
    let size := (← frame s.tree node).size
    return [Axis.horizontal, Axis.vertical].flatMap fun a =>
      setLength s d (.points (size.along a)) (.size a)
  | .aspectRatioOf node => do
    match (← frame s.tree node).size.aspectRatio? with
    | some ratio => return setRatio ratio
    | none => return [warn (.ratioOfFlatNode (← name s.tree node))]
  | .aspectRatioOfContent => do
    match (← content s.tree s.node).bind Size.aspectRatio? with
    | some ratio => return setRatio ratio
    | none => return [warn .ratioOfNoContent]
  -- What is left looks at no node but the container, for its size.
  | c => do
    let _ ← containerSize s.tree s.node
    return c.effects s d

end Directives

/-! ## Sessions -/

/-- A session notes its container, the container's size and the name of its node when it starts. -/
def start (tree : Tree α) (node : NodeId) (config : Config α) (d : Direction) :
    Option (Session α) := do
  let _ ← containerSize tree node
  let _ ← name tree node
  return .start tree node config d

def issue (s : Session α) (c : Directive α) : Option (Session α) := do
  return (← effects s.site s.direction c).foldl Session.perform s

def resolution (s : Session α) : Option (Resolution α) := do
  let current ← frame s.site.tree s.site.node
  let content ← content s.site.tree s.site.node
  let synthesis := s.constraints.synthesize ⟨current, content, s.tolerance⟩
  return ⟨synthesis.frame, s.warnings ++ synthesis.warnings⟩

/-- The names of all nodes are looked at for suggestions. -/
def lookUp (t : Tree α) (name : String) (span : Span) : Option (Except SceneError NodeId) := do
  let _ ← t.ids.mapM (Checked.name t)
  return t.lookUp name span

def directives (t : Tree α) (calls : List (Call α)) :
    Option (Except SceneError (List (Directive α))) := do
  let _ ← t.ids.mapM (name t)
  return calls.mapM (Call.directive t)

def session (config : Config α) (s : Stage α) (target : Spanned String) (calls : List (Call α)) :
    Option (Except SceneError (Session α)) := do
  match ← lookUp s.tree target.value target.span with
  | .error e => return .error e
  | .ok node =>
    match ← directives s.tree calls with
    | .error e => return .error e
    | .ok ds => return .ok (← ds.foldlM issue (← start s.tree node config s.direction))

def statement (config : Config α) (s : Stage α) :
    Statement α → Option (Except SceneError (Stage α))
  | .pin _ target calls => do
    match ← session config s target calls with
    | .error e => return .error e
    | .ok session =>
      let r ← resolution session
      let tree ← setFrame session.site.tree session.site.node r.frame
      return .ok { s with
        scene := { s.scene with tree }
        warnings := s.warnings ++ r.warnings.map fun w => ⟨target.value, w⟩
        log := s.log ++ (session.close .apply).log }
  | st => some (s.statement config st)

def nodesOf (s : Scene α) : Option (List (NodeReport α)) := s.order.mapM fun (id, depth) => do
  let parent ← match ← parent s.tree id with
    | some p => (name s.tree p).map some
    | none => some none
  return { name := ← name s.tree id, parent, depth, frame := ← frame s.tree id }

def run (config : Config α) : Stage α → List (Statement α) → Option (Outcome SceneError α)
  | s, [] => do return ⟨.ok ⟨← nodesOf s.scene, s.warnings⟩, s.log⟩
  | s, st :: sts => do
    match ← statement config s st with
    | .ok s' => run config s' sts
    | .error e => return ⟨.error e, s.log⟩

/-- Adds a view to a scene, if the one around it is there. -/
def add (s : Scene α) (parent : Option NodeId) (depth : ℕ) (name : String) (frame : Rect α)
    (content : Option (Size α)) : Option (Scene α × NodeId) := do
  let (grown, id) ← match parent with
    | some p => addChild s.tree p name frame
    | none => some (s.tree.addRoot name frame)
  return ({ tree := ← setContent grown id content, order := s.order ++ [(id, depth)] }, id)

mutual

def declare (parent : Option NodeId) (depth : ℕ) (s : Scene α) :
    View α → Option (Except SceneError (Scene α))
  | ⟨_, name, modifiers, children⟩ =>
    if (s.tree.find? name.value).isSome then some (.error (.duplicateView name.value name.span))
    else
      match View.measures modifiers .zero none with
      | .error e => some (.error e)
      | .ok (frame, content) => do
        let added ← add s parent depth name.value frame content
        declareAll (some added.2) (depth + 1) added.1 children

def declareAll (parent : Option NodeId) (depth : ℕ) (s : Scene α) :
    List (View α) → Option (Except SceneError (Scene α))
  | [] => some (.ok s)
  | v :: vs => do
    match ← declare parent depth s v with
    | .error e => return .error e
    | .ok s => declareAll parent depth s vs

end

def runScript (script : Script α) (config : Config α) (process : Direction) :
    Option (Outcome SceneError α) := do
  match ← declareAll none 0 {} script.views with
  | .error e => return ⟨.error e, []⟩
  | .ok scene => run config ⟨scene, config.effectiveDirection process, [], []⟩ script.statements

def runSource (source : String) (config : Config α) (process : Direction) :
    Option (Outcome (RunError α) α) :=
  match Script.parse source with
  | .error e => some ⟨.error (.syntactic e), []⟩
  | .ok script => do
    let outcome ← runScript script config process
    return ⟨outcome.result.mapError RunError.scene, outcome.log⟩

/-! ## Nothing is missed -/

theorem mapM_eq_some {β γ : Type} {f : β → Option γ} {g : β → γ} : ∀ {xs : List β},
    (∀ x ∈ xs, f x = some (g x)) → xs.mapM f = some (xs.map g)
  | [], _ => rfl
  | x :: xs, h => by
    rw [List.mapM_cons, h x List.mem_cons_self,
      mapM_eq_some fun y hy => h y (List.mem_cons_of_mem x hy)]
    rfl

section Present

variable {t : Tree α} {id : ℕ} (h : id < t.size)

omit [Scalar α] in
theorem mapM_ids {β : Type} {f : NodeId → Option β} {g : NodeId → β}
    (h : ∀ {n : ℕ}, n < t.size → f n = some (g n)) : t.ids.mapM f = some (t.ids.map g) :=
  mapM_eq_some fun _ hn => h (List.mem_range.1 hn)

include h

omit [Scalar α] in
theorem exists_node : ∃ x, t.node? id = some x := ⟨_, Array.getElem?_eq_getElem h⟩

omit [Scalar α] in
theorem name_eq : name t id = some (t.name id) := by
  obtain ⟨x, hx⟩ := exists_node h
  rw [name, Tree.name, hx]
  rfl

theorem frame_eq : frame t id = some (t.frame id) := by
  obtain ⟨x, hx⟩ := exists_node h
  rw [frame, Tree.frame, hx]
  rfl

omit [Scalar α] in
theorem content_eq : content t id = some (t.content id) := by
  obtain ⟨x, hx⟩ := exists_node h
  rw [content, Tree.content, hx]
  rfl

omit [Scalar α] in
theorem parent_eq : parent t id = some (t.parent? id) := by
  obtain ⟨x, hx⟩ := exists_node h
  rw [parent, Tree.parent?, hx]
  rfl

omit [Scalar α] in
theorem children_eq : children t id = some (t.children id) := by
  obtain ⟨x, hx⟩ := exists_node h
  rw [children, Tree.children, hx]
  rfl

omit [Scalar α] in
theorem modify_eq (c : Node.Change α) : modify t id c = some (t.modify id c) := by
  obtain ⟨x, hx⟩ := exists_node h
  rw [modify, hx]
  rfl

omit [Scalar α] in
theorem setContent_eq (size : Option (Size α)) :
    setContent t id size = some (t.setContent id size) := modify_eq h _

omit [Scalar α] in
theorem addChild_eq (name : String) (frame : Rect α) :
    addChild t id name frame = some (t.addChild id name frame) := by
  have hgrown : id < (t.insert { name, frame, parent := some id }).size :=
    (Nat.lt_succ_of_lt h).trans_eq (Tree.size_insert _).symm
  rw [addChild, modify_eq hgrown]
  rfl

variable (hw : t.WellFormed)

include hw

omit [Scalar α] in
theorem siblings_eq : siblings t id = some (t.siblings id) := by
  rw [siblings, parent_eq h, Tree.siblings]
  rcases hp : t.parent? id with _ | p
  · have hothers : (t.ids.filter (· ≠ id)).mapM (fun n => (parent t n).map fun p => (n, p))
        = some ((t.ids.filter (· ≠ id)).map fun n => (n, t.parent? n)) :=
      mapM_eq_some fun n hn => by
        rw [parent_eq (List.mem_range.1 (List.mem_filter.1 hn).1), Option.map_some]
    simp only [hothers, Option.bind_eq_bind, Option.bind_some, Option.pure_def, List.filter_map,
      List.map_map, List.filter_filter]
    simp [Function.comp_def, Bool.and_comm]
  · simp only [children_eq (hw.parent_lt_size hp), Option.bind_eq_bind, Option.bind_some,
      Option.pure_def]

theorem containerSize_eq : containerSize t id = some (t.containerSize? id) := by
  rw [containerSize, parent_eq h, Tree.containerSize?]
  rcases hp : t.parent? id with _ | p
  · rfl
  · simp [frame_eq (hw.parent_lt_size hp)]

omit h in
/-- The way up from a node is no longer than its number. -/
theorem climb_eq : ∀ {k n : ℕ} (o : Point α), n ≤ k → climb t k o (t.parent? n)
    = some ((t.ancestors n).foldl (fun o p => o + (t.frame p).origin) o)
  | k, n, o, hk => by
    rcases hp : t.parent? n with _ | p
    · rw [climb, Tree.ancestors_of_root hp, List.foldl_nil]
    · have hlt := hw.parent_lt hp
      obtain ⟨k, rfl⟩ : ∃ m, k = m + 1 := ⟨k - 1, by omega⟩
      have hp' : p < t.size := hw.parent_lt_size hp
      rw [climb, frame_eq hp', parent_eq hp', hw.ancestors_of_parent hp, List.foldl_cons]
      exact climb_eq _ (by omega)

theorem absoluteOrigin_eq : absoluteOrigin t id = some (t.absoluteOrigin id) := by
  rw [absoluteOrigin, frame_eq h, parent_eq h]
  exact climb_eq hw _ h.le

omit h in
theorem spaceOrigin_eq {space : Option NodeId} (hs : ∀ n ∈ space, n < t.size) :
    spaceOrigin t space = some (t.spaceOrigin space) := by
  rcases space with _ | n
  · rfl
  · exact absoluteOrigin_eq (hs n rfl) hw

theorem frameIn_eq {space : Option NodeId} (hs : ∀ n ∈ space, n < t.size) :
    frameIn t id space = some (t.frameIn id space) := by
  rw [frameIn, frame_eq h, parent_eq h]
  simp only [Option.bind_eq_bind, Option.bind_some, spaceOrigin_eq hw hs,
    spaceOrigin_eq hw fun p hp => hw.parent_lt_size hp]
  rfl

end Present

/-- The tail of a group is asked for when there is a first frame, and so is there. -/
theorem writes_eq (r : Relation) (d : Direction) (group : List (Rect α)) :
    writes r d group = some (r.writes d group) := by
  rcases group with _ | ⟨f, fs⟩
  · rfl
  · have hfrom : framesFrom 1 (f :: fs) = some fs := if_pos (Nat.succ_le_succ (Nat.zero_le _))
    simp only [writes, List.head?_cons, hfrom]
    rfl

/-- The node is one of its tree, and the tree is a forest. -/
structure Present (s : Site α) : Prop where
  wellFormed : s.tree.WellFormed
  lt_size : s.node < s.tree.size

section Site

variable {s : Site α} (hs : Present s)

include hs

theorem frameOf_eq {n : ℕ} (hn : n < s.tree.size) : frameOf s n = some (s.frameOf n) := by
  rw [frameOf, parent_eq hs.lt_size]
  exact frameIn_eq hn hs.wellFormed fun p hp => hs.wellFormed.parent_lt_size hp

theorem place_eq (d : Direction) (r : Relation) {nodes : List NodeId}
    (hnodes : ∀ n ∈ nodes, n < s.tree.size) :
    place s d r nodes = some (Directive.place s d r nodes) := by
  have hmem : ∀ {p : NodeId → Bool}, ∀ n ∈ nodes.filter p, n < s.tree.size :=
    fun n hn => hnodes n (List.mem_of_mem_filter hn)
  have hstrangers : ∀ p : NodeId → Bool, (nodes.filter p).mapM (name s.tree)
      = some ((nodes.filter p).map s.tree.name) :=
    fun p => mapM_eq_some fun n hn => name_eq (hmem n hn)
  have hgroup : ∀ p : NodeId → Bool, (nodes.filter p).mapM (frameOf s)
      = some ((nodes.filter p).map s.frameOf) :=
    fun p => mapM_eq_some fun n hn => frameOf_eq hs (hmem n hn)
  simp only [place, siblings_eq hs.lt_size hs.wellFormed, Option.bind_eq_bind, Option.bind_some,
    hstrangers, hgroup, name_eq hs.lt_size, writes_eq, List.map_map]
  rfl

/-- A directive that names nodes of the tree has its effects. -/
theorem effects_eq (d : Direction) {c : Directive α} (hc : c.In s.tree) :
    effects s d c = some (c.effects s d) := by
  have hplain : (do let _ ← containerSize s.tree s.node; return c.effects s d)
      = some (c.effects s d) := by
    rw [containerSize_eq hs.lt_size hs.wellFormed]
    rfl
  cases c with
  | relative r nodes => exact place_eq hs d r hc
  | sideTo own n target | lineTo own n target | anchorTo own n target =>
    rw [effects, frameOf_eq hs (hc n List.mem_cons_self)]
    rfl
  | sizeOf _ n | sizesOf n =>
    rw [effects, frame_eq (hc n List.mem_cons_self)]
    rfl
  | aspectRatioOf n =>
    have hn : n < s.tree.size := hc n List.mem_cons_self
    simp only [effects, frame_eq hn, name_eq hn, Option.bind_eq_bind, Option.bind_some,
      Directive.effects]
    rcases (s.tree.frame n).size.aspectRatio? with _ | ratio <;> rfl
  | aspectRatioOfContent =>
    simp only [effects, content_eq hs.lt_size, Option.bind_eq_bind, Option.bind_some,
      Directive.effects]
    rcases (s.tree.content s.node).bind Size.aspectRatio? with _ | ratio <;> rfl
  | _ => exact hplain

end Site

theorem issueAll_eq : ∀ {ds : List (Directive α)} {s : Session α}, Present s.site →
    (∀ c ∈ ds, c.In s.site.tree) → ds.foldlM issue s = some (s.issueAll ds)
  | [], _, _, _ => rfl
  | c :: ds, s, hs, hds => by
    have hsite : (s.issue c).site = s.site := s.issue_site c
    have hissue : issue s c = some (s.issue c) := by
      rw [issue, effects_eq hs s.direction (hds c List.mem_cons_self)]
      rfl
    rw [List.foldlM_cons, hissue, Session.issueAll_cons]
    refine issueAll_eq (hsite ▸ hs) fun c' hc' => ?_
    rw [hsite]
    exact hds c' (List.mem_cons_of_mem c hc')

theorem resolution_eq {s : Session α} (hs : Present s.site) :
    resolution s = some s.resolution := by
  simp only [resolution, frame_eq hs.lt_size, content_eq hs.lt_size, Option.bind_eq_bind,
    Option.bind_some]
  rfl

omit [Scalar α] in
theorem lookUp_eq (t : Tree α) (name : String) (span : Span) :
    lookUp t name span = some (t.lookUp name span) := by
  rw [lookUp, mapM_ids name_eq]
  rfl

theorem directives_eq (t : Tree α) (calls : List (Call α)) :
    directives t calls = some (calls.mapM (Call.directive t)) := by
  rw [directives, mapM_ids name_eq]
  rfl

section Stage

variable {s : Stage α} (hw : s.tree.WellFormed) (config : Config α)

include hw

theorem session_eq (target : Spanned String) (calls : List (Call α)) :
    session config s target calls = some (s.session config target calls) := by
  simp only [session, lookUp_eq, directives_eq, Option.bind_eq_bind, Option.bind_some]
  rcases hn : s.tree.lookUp target.value target.span with e | node
  · simp only [Stage.session, hn]
    rfl
  · have hnode : node < s.tree.size := s.tree.lookUp_yields _ _ node hn
    have hstart : start s.tree node config s.direction
        = some (.start s.tree node config s.direction) := by
      rw [start, containerSize_eq hnode hw, name_eq hnode]
      rfl
    rcases hd : calls.mapM (Call.directive s.tree) with e | ds
    · simp only [Stage.session, hn, hd]
      rfl
    · have hds : ∀ c ∈ ds, c.In s.tree := Call.directives_yields s.tree calls ds hd
      have hissue : ds.foldlM issue (Session.start s.tree node config s.direction)
          = some ((Session.start s.tree node config s.direction).issueAll ds) :=
        issueAll_eq ⟨hw, hnode⟩ hds
      simp only [hstart, hissue, Option.bind_some, Stage.session, hn, hd]
      rfl

/-- A statement finds all that it looks for. -/
theorem statement_eq (st : Statement α) :
    statement config s st = some (s.statement config st) := by
  rcases st with _ | _ | ⟨span, target, calls⟩
  · rfl
  · rfl
  · simp only [statement, session_eq hw, Option.bind_eq_bind, Option.bind_some, Stage.statement]
    rcases hsession : s.session config target calls with e | session
    · rfl
    · obtain ⟨node, ds, hn, -, rfl⟩ := Stage.exists_of_session hsession
      have hsite : (Session.pass s.tree node config s.direction ds).site = ⟨s.tree, node⟩ :=
        Session.pass_site ..
      have hpresent : Present (Session.pass s.tree node config s.direction ds).site := by
        rw [hsite]
        exact ⟨hw, (Tree.name_of_find? hn).1⟩
      simp only [resolution_eq hpresent, setFrame, modify_eq hpresent.lt_size, Option.bind_some]
      rfl

end Stage

theorem nodesOf_eq {s : Scene α} (hw : s.tree.WellFormed) (ho : s.Ordered) :
    nodesOf s = some (Report.nodesOf s) := by
  refine mapM_eq_some fun (n, depth) hx => ?_
  have hn : n < s.tree.size := ho.lt_size hx
  dsimp only
  rw [parent_eq hn, name_eq hn, frame_eq hn]
  rcases hp : s.tree.parent? n with _ | p
  · rfl
  · simp only [Option.bind_eq_bind, Option.bind_some, name_eq (hw.parent_lt_size hp)]
    rfl

theorem run_eq (config : Config α) : ∀ {sts : List (Statement α)} {s : Stage α},
    s.tree.WellFormed → s.scene.Ordered → run config s sts = some (s.run config sts)
  | [], s, hw, ho => by
    rw [run, nodesOf_eq hw ho]
    rfl
  | st :: sts, s, hw, ho => by
    rw [run, statement_eq hw, Stage.run]
    rcases hst : s.statement config st with e | s'
    · rfl
    · have hafter : s.after config [st] = .ok s' := by rw [Stage.after_cons hst]; rfl
      exact run_eq config ((Stage.statement_sameShape hst).wellFormed hw)
        (Stage.after_ordered hafter ho)

omit [Scalar α] in
theorem add_eq {s : Scene α} {parent : Option NodeId} (hp : ∀ p ∈ parent, p < s.tree.size)
    (depth : ℕ) (name : String) (frame : Rect α) (content : Option (Size α)) :
    add s parent depth name frame content = some (s.add parent depth name frame content) := by
  rcases parent with _ | p
  · have hlt : (s.tree.addRoot name frame).2 < (s.tree.addRoot name frame).1.size :=
      (Nat.lt_succ_self _).trans_eq (Tree.size_addRoot name frame).symm
    simp only [add, setContent_eq hlt, Option.bind_eq_bind, Option.bind_some]
    rfl
  · have hlt : (s.tree.addChild p name frame).2 < (s.tree.addChild p name frame).1.size :=
      (Nat.lt_succ_self _).trans_eq (Tree.size_addChild p name frame).symm
    simp only [add, addChild_eq (hp p rfl), setContent_eq hlt, Option.bind_eq_bind,
      Option.bind_some]
    rfl

mutual

theorem declare_eq {parent : Option NodeId} {depth : ℕ} {s : Scene α} (hb : s.tree.Built)
    (hp : ∀ p ∈ parent, p < s.tree.size) : ∀ v : View α,
      declare parent depth s v = some (View.declare parent depth s v)
  | ⟨_, name, modifiers, children⟩ => by
    rw [declare, View.declare]
    split_ifs
    · rfl
    · rcases View.measures modifiers .zero none with e | ⟨frame, content⟩
      · rfl
      · simp only [add_eq hp, Option.bind_eq_bind, Option.bind_some]
        exact declareAll_eq (Scene.built_add _ _ _ _ hb hp) (Scene.lt_size_add _ _ _ _) children

theorem declareAll_eq {parent : Option NodeId} {depth : ℕ} {s : Scene α} (hb : s.tree.Built)
    (hp : ∀ p ∈ parent, p < s.tree.size) : ∀ vs : List (View α),
      declareAll parent depth s vs = some (View.declareAll parent depth s vs)
  | [] => rfl
  | v :: vs => by
    rw [declareAll, declare_eq hb hp v, View.declareAll]
    rcases hv : View.declare parent depth s v with e | s₁
    · rfl
    · obtain ⟨hb₁, hg⟩ := View.built_declare hb hp hv
      exact declareAll_eq hb₁ (fun p hp' => (hp p hp').trans_le hg.size_le) vs

end

theorem runScript_eq (script : Script α) (config : Config α) (process : Direction) :
    runScript script config process = some (script.run config process) := by
  rw [runScript, declareAll_eq .empty (by simp), Script.run, Script.scene]
  rcases hscene : View.declareAll none 0 {} script.views with e | scene
  · rfl
  · exact run_eq config (Script.built_tree (Script.tree_of_scene hscene)).wellFormed
      (Script.ordered_scene hscene)

theorem runSource_eq (source : String) (config : Config α) (process : Direction) :
    runSource source config process = some (Pinning.runSource source config process) := by
  rw [runSource, Pinning.runSource]
  rcases (Script.parse source : Except (SyntaxError α) (Script α)) with e | script
  · rfl
  · simp only [runScript_eq, Option.bind_eq_bind, Option.bind_some]
    rfl

/-- No script makes a run look for a node that is not there. Wherever a run is between two
statements, the directives that calls are read as, a session that starts there, the links of the
tree, its table of names and the order of the report have numbers of nodes only. So a run in which
each look into the arena may fail, with the way up from a node and the tail of a group, does not
fail, and comes to what a run comes to that reads anything outside as a nameless root. -/
theorem arena_never_missed (config : Config α) (process : Direction) :
    (∀ (script : Script α) (scene : Scene α) (before after : List (Statement α)) (s : Stage α),
      script.scene = .ok scene → script.statements = before ++ after →
      Stage.after config ⟨scene, config.effectiveDirection process, [], []⟩ before = .ok s →
        s.tree.size = scene.tree.size ∧ s.InBounds config)
    ∧ (∀ script : Script α, runScript script config process = some (script.run config process))
    ∧ ∀ source : String,
      runSource source config process = some (Pinning.runSource source config process) :=
  ⟨fun _ _ _ _ _ hscene _ hafter => Script.inBounds_after hscene rfl hafter,
    fun script => runScript_eq script config process,
    fun source => runSource_eq source config process⟩

/-- A card is pinned below a badge beside it and the root around it, which have the numbers 2 and 0
in a tree of three nodes. -/
theorem badge_and_root_are_found :
    let s : Span := ⟨0, 0⟩
    let view (name : String) (vs : List (View Rat)) : View Rat := ⟨s, ⟨name, s⟩, [], vs⟩
    let below : Call Rat := ⟨s, ⟨"below", s⟩, [.list s [.name s "badge", .name s "root"]]⟩
    let before : List (Statement Rat) := [.view (view "root" [view "card" [], view "badge" []])]
    let script : Script Rat := ⟨before ++ [.pin s ⟨"card", s⟩ [below]]⟩
    ∃ (scene : Scene Rat) (d : Directive Rat), script.scene = .ok scene
      ∧ Stage.after .standard ⟨scene, .ltr, [], []⟩ before = .ok ⟨scene, .ltr, [], []⟩
      ∧ scene.tree.size = 3 ∧ below.directive scene.tree = .ok d ∧ d.named = [2, 0]
      ∧ (∀ n ∈ d.named, n < scene.tree.size) ∧ scene.order = [(0, 0), (1, 1), (2, 1)]
      ∧ runScript script .standard .ltr = some (script.run .standard .ltr) := by
  intro s view below before script
  have hok : script.scene.toOption.isSome = true := by decide +kernel
  have hfacts : ∀ scene ∈ script.scene.toOption, scene.tree.size = 3
      ∧ (below.directive scene.tree).toOption.map Directive.named = some [2, 0]
      ∧ scene.order = [(0, 0), (1, 1), (2, 1)] := by decide +kernel
  obtain ⟨hstages, hrun, -⟩ := arena_never_missed (α := Rat) .standard .ltr
  rcases hscene : script.scene with e | scene
  · rw [hscene] at hok
    cases hok
  · obtain ⟨hsize, hnamed, horder⟩ := hfacts scene (by rw [hscene]; rfl)
    obtain ⟨-, hbounds⟩ := hstages script scene before _ ⟨scene, .ltr, [], []⟩ hscene rfl rfl
    rcases hd : below.directive scene.tree with e | d
    · rw [hd] at hnamed
      cases hnamed
    · rw [hd] at hnamed
      exact ⟨scene, d, rfl, rfl, hsize, hd, Option.some.inj hnamed, fun n => hbounds.directive hd,
        horder, hrun script⟩

end Checked

end Pinning
