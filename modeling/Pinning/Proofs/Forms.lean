import Mathlib.Tactic.FinCases
import Pinning.Proofs.Declarations
import Pinning.Scalar.Rational
import Pinning.Scene.Call

/-!
# The forms of calls

What the arguments of a call may look like goes by its name, and the forms are listed here with the
words written out: those of calls that place or measure a node (`Call.PlacementForm`), and those of
calls that say where a node stays in a span (`Call.AlignmentForm`). A call converts exactly when it
has one of them and the names that stand for views in it are declared (`Call.converts_iff`). One
direction follows the forms, the other one the functions that read calls.
-/

namespace Pinning

variable {α β γ : Type}

namespace Words

def horizontalPositions : List String := ["left", "right", "h_center", "start", "end"]

def verticalPositions : List String := ["top", "bottom", "v_center"]

/-- Each of them may go without a length. -/
def positions : List String :=
  horizontalPositions ++ verticalPositions ++ ["all", "horizontally", "vertically"]

def measures : List String :=
  ["width", "height", "min_width", "max_width", "min_height", "max_height", "margin_top",
    "margin_left", "margin_bottom", "margin_right", "margin_start", "margin_end",
    "margin_horizontal", "margin_vertical"]

def horizontalEdges : List String := ["left", "h_center", "hcenter", "right", "start", "end"]

def verticalEdges : List String := ["top", "v_center", "vcenter", "bottom"]

def anchors : List String :=
  ["top_left", "top_center", "top_right", "top_start", "top_end", "center_left", "center",
    "center_right", "center_start", "center_end", "bottom_left", "bottom_center", "bottom_right",
    "bottom_start", "bottom_end"]

def horizontalAlignments : List String := ["left", "center", "right", "start", "end"]

def verticalAlignments : List String := ["top", "center", "bottom"]

end Words

open Words

/-! ## The forms -/

namespace Arg

inductive IsLength : Arg α → Prop
  | number (span : Span) (v : α) : IsLength (.number span v)
  | percent (span : Span) (p : α) : IsLength (.percent span p)

/-- One name or a list of names. -/
inductive IsGroup : Arg α → Prop
  | name (span : Span) (node : String) : IsGroup (.name span node)
  | list (span : Span) {items : List (Arg α)}
    (h : ∀ item ∈ items, ∃ span node, item = .name span node) : IsGroup (.list span items)

/-- The names in an argument that may stand for views. -/
def viewNames : Arg α → List String
  | name _ node | member _ node _ => [node]
  | list _ items => items.filterMap name?
  | number .. | percent .. | named .. => []

end Arg

namespace Call

/-- The forms of the calls that place or measure a node. -/
inductive PlacementForm : String → List (Arg α) → Prop
  | bare {name : String} (h : name ∈ positions) : PlacementForm name []
  | length {name : String} {arg : Arg α} (h : name ∈ positions ++ measures) (harg : arg.IsLength) :
    PlacementForm name [arg]
  | side {name member : String} (h : name ∈ horizontalPositions) (hm : member ∈ horizontalEdges)
    (span : Span) (node : String) : PlacementForm name [.member span node member]
  | level {name member : String} (h : name ∈ verticalPositions) (hm : member ∈ verticalEdges)
    (span : Span) (node : String) : PlacementForm name [.member span node member]
  | measure {name : String} (h : name ∈ ["width", "height"]) (span : Span) (node : String) :
    PlacementForm name [.name span node]
  | anchor {name : String} (h : name ∈ anchors) : PlacementForm name []
  | anchorTo {name member : String} (h : name ∈ anchors) (hm : member ∈ anchors) (span : Span)
    (node : String) : PlacementForm name [.member span node member]
  | beside {name : String} {targets : Arg α}
    (h : name ∈ ["above", "below", "left_of", "right_of", "before", "after"])
    (ht : targets.IsGroup) : PlacementForm name [targets]
  | besideSide {name word : String} {targets : Arg α} (h : name ∈ ["above", "below"])
    (ht : targets.IsGroup) (hw : word ∈ horizontalAlignments) (span keySpan wordSpan : Span) :
    PlacementForm name [targets, .named span ⟨"aligned", keySpan⟩ (.name wordSpan word)]
  | besideLevel {name word : String} {targets : Arg α}
    (h : name ∈ ["left_of", "right_of", "before", "after"]) (ht : targets.IsGroup)
    (hw : word ∈ verticalAlignments) (span keySpan wordSpan : Span) :
    PlacementForm name [targets, .named span ⟨"aligned", keySpan⟩ (.name wordSpan word)]
  | square {arg : Arg α} (harg : arg.IsLength) : PlacementForm "size" [arg]
  | sizeOf (span : Span) (node : String) : PlacementForm "size" [.name span node]
  | sizes {width height : Arg α} (hw : width.IsLength) (hh : height.IsLength) :
    PlacementForm "size" [width, height]
  | ratioOfContent : PlacementForm "aspect_ratio" []
  | ratio (span : Span) (v : α) : PlacementForm "aspect_ratio" [.number span v]
  | ratioOf (span : Span) (node : String) : PlacementForm "aspect_ratio" [.name span node]
  | flag {name : String} (h : name ∈ ["fit_size", "pin_edges"]) : PlacementForm name []
  | margin {args : List (Arg α)} (h : ∀ arg ∈ args, ∃ span v, arg = .number span v)
    (hlow : 1 ≤ args.length) (hhigh : args.length ≤ 4) : PlacementForm "margin" args

/-- The forms of the calls that say where a node stays in a span. -/
inductive AlignmentForm : String → List (Arg α) → Prop
  | justify {word : String} (h : word ∈ horizontalAlignments) (span : Span) :
    AlignmentForm "justify" [.name span word]
  | align {word : String} (h : word ∈ verticalAlignments) (span : Span) :
    AlignmentForm "align" [.name span word]

/-- The names in a call that stand for views. The word of an alignment does not. -/
def viewNames (c : Call α) : List String :=
  if c.name.value ∈ ["justify", "align"] then [] else c.args.flatMap Arg.viewNames

end Call

section Tables

variable {name member word : String}

theorem Side.exists_ofEdgeName? : (∃ s, ofEdgeName? member = some s) ↔ member ∈ horizontalEdges := by
  constructor
  · rintro ⟨s, h⟩
    unfold ofEdgeName? at h
    split at h <;> first | decide | cases h
  · intro h
    fin_cases h <;> exact ⟨_, rfl⟩

theorem Line.exists_ofEdgeName? : (∃ l, ofEdgeName? member = some l) ↔ member ∈ verticalEdges := by
  constructor
  · rintro ⟨l, h⟩
    unfold ofEdgeName? at h
    split at h <;> first | decide | cases h
  · intro h
    fin_cases h <;> exact ⟨_, rfl⟩

theorem Side.exists_ofAlignName? :
    (∃ s, ofAlignName? word = some s) ↔ word ∈ horizontalAlignments := by
  constructor
  · rintro ⟨s, h⟩
    unfold ofAlignName? at h
    split at h <;> first | decide | cases h
  · intro h
    fin_cases h <;> exact ⟨_, rfl⟩

theorem Line.exists_ofAlignName? :
    (∃ l, ofAlignName? word = some l) ↔ word ∈ verticalAlignments := by
  constructor
  · rintro ⟨l, h⟩
    unfold ofAlignName? at h
    split at h <;> first | decide | cases h
  · intro h
    fin_cases h <;> exact ⟨_, rfl⟩

theorem Anchor.name_mem (a : Anchor) : a.name ∈ anchors := by
  obtain ⟨v, h | - | -⟩ := a <;> cases v <;> first | decide | (cases h <;> decide)

theorem Anchor.exists_ofName? : (∃ a, ofName? member = some a) ↔ member ∈ anchors := by
  constructor
  · rintro ⟨a, h⟩
    have hname : a.name = member := by simpa using List.find?_some h
    exact hname ▸ a.name_mem
  · intro h
    fin_cases h <;> exact ⟨_, rfl⟩

namespace Setter

variable {s : Setter}

theorem name_mem_positions (h : s.hasDefault = true) : s.name ∈ positions := by
  revert h
  rcases s with (a | a | - | -) | a | a | - | a | a | a | - | b | a <;>
    first | decide | (cases a <;> decide) | nofun

theorem name_mem_horizontal {own : Side} (h : s.reference = .side own) :
    s.name ∈ horizontalPositions := by
  unfold reference at h
  split at h <;> first | decide | cases h

theorem name_mem_vertical {own : Line} (h : s.reference = .line own) :
    s.name ∈ verticalPositions := by
  unfold reference at h
  split at h <;> first | decide | cases h

theorem name_mem_sizes {a : Axis} (h : s.reference = .size a) : s.name ∈ ["width", "height"] := by
  unfold reference at h
  split at h <;> cases h
  cases a <;> decide

theorem name_mem_values : ∀ s ∈ list.filter (· ≠ .square), s.name ∈ positions ++ measures := by
  decide +kernel

end Setter

namespace CallName

theorem ofName?_of_horizontal (h : name ∈ horizontalPositions) :
    ∃ s own, ofName? name = some (.set s) ∧ s.reference = .side own := by
  fin_cases h <;> exact ⟨_, _, rfl, rfl⟩

theorem ofName?_of_vertical (h : name ∈ verticalPositions) :
    ∃ s own, ofName? name = some (.set s) ∧ s.reference = .line own := by
  fin_cases h <;> exact ⟨_, _, rfl, rfl⟩

theorem ofName?_of_size (h : name ∈ ["width", "height"]) :
    ∃ s a, ofName? name = some (.set s) ∧ s.reference = .size a := by
  fin_cases h <;> exact ⟨_, _, rfl, rfl⟩

theorem ofName?_of_position (h : name ∈ positions) :
    ∃ s, ofName? name = some (.set s) ∧ s.hasDefault = true := by
  fin_cases h <;> exact ⟨_, rfl, rfl⟩

theorem ofName?_of_value (h : name ∈ positions ++ measures) :
    ∃ s, ofName? name = some (.set s) := by
  fin_cases h <;> exact ⟨_, rfl⟩

theorem ofName?_of_anchor (h : name ∈ anchors) : ∃ a, ofName? name = some (.anchor a) := by
  fin_cases h <;> exact ⟨_, rfl⟩

theorem ofName?_of_eq {n : CallName} (hn : n ∈ [above, below, leftOf, rightOf, before, after, size,
    aspectRatio, fitSize, pinEdges, margin, justify, align]) (h : name = n.name) :
    ofName? name = some n := by
  subst h
  have hnew : n.name ∉ positions ++ measures ∧ n.name ∉ anchors := by
    revert n
    decide +kernel
  -- the search goes past the values and the anchors, and only then are names compared one by one
  have hvalues : ((Setter.list.filter (· ≠ .square)).map set).find? (·.name = n.name) = none := by
    simp only [List.find?_eq_none, List.mem_map, decide_eq_true_eq]
    rintro _ ⟨s, hs, rfl⟩ h
    exact hnew.1 (h ▸ Setter.name_mem_values s hs)
  have hanchors : (Anchor.all.map anchor).find? (·.name = n.name) = none := by
    simp only [List.find?_eq_none, List.mem_map, decide_eq_true_eq]
    rintro _ ⟨a, -, rfl⟩ h
    exact hnew.2 (h ▸ a.name_mem)
  rw [ofName?, all, List.find?_append, List.find?_append, hvalues, hanchors]
  clear hnew hvalues hanchors
  revert n
  decide +kernel

theorem name_of_ofName? {n : CallName} (h : ofName? name = some n) : n.name = name := by
  simpa using List.find?_some h

theorem mem_list_of_ofName? {s : Setter} (h : ofName? name = some (.set s)) :
    s ∈ Setter.list.filter (· ≠ .square) := by
  simpa [all] using List.mem_of_find?_eq_some h

end CallName

end Tables

/-! ## What succeeds -/

theorem exists_pure_ok {b : β} : ∃ y, (pure b : Except SceneError β) = .ok y := ⟨b, rfl⟩

theorem exists_bind_ok {x : Except SceneError β} {k : β → Except SceneError γ} :
    (∃ y, x >>= k = .ok y) ↔ ∃ b, x = .ok b ∧ ∃ y, k b = .ok y := by
  cases x <;> simp [Bind.bind, Except.bind]

theorem exists_map_ok {x : Except SceneError β} {f : β → γ} :
    (∃ y, f <$> x = .ok y) ↔ ∃ b, x = .ok b := by
  cases x <;> simp [Functor.map, Except.map]

theorem Tree.exists_lookUp {t : Tree α} {name : String} {span : Span} :
    (∃ id, t.lookUp name span = .ok id) ↔ name ∈ t.names := by
  rw [← not_iff_not, ← find?_eq_none, lookUp]
  cases t.find? name <;> simp

theorem Arg.exists_length? {arg : Arg α} : (∃ v, arg.length? = some v) ↔ arg.IsLength := by
  constructor
  · rintro ⟨v, h⟩
    cases arg <;> first | constructor | cases h
  · rintro (_ | _) <;> exact ⟨_, rfl⟩

theorem Arg.exists_numbers : ∀ {args : List (Arg α)},
    (∃ vs, args.mapM number? = some vs) ↔ ∀ arg ∈ args, ∃ span v, arg = .number span v
  | [] => by simp
  | arg :: args => by
    have ih : (∃ vs, args.mapM number? = some vs) ↔ _ := exists_numbers
    cases arg <;> simp [number?, ← ih, Option.bind_eq_some_iff]

theorem Arg.length_numbers : ∀ {args : List (Arg α)} {vs : List α}, args.mapM number? = some vs →
    vs.length = args.length
  | [], _, h => by
    cases h
    rfl
  | arg :: args, _, h => by
    simp only [List.mapM_cons, Option.bind_eq_bind, Option.bind_eq_some_iff] at h
    obtain ⟨v, -, vs, hvs, ⟨⟩⟩ := h
    simp [length_numbers hvs]

theorem Insets.exists_ofList? {vs : List α} :
    (∃ i, ofList? vs = some i) ↔ 1 ≤ vs.length ∧ vs.length ≤ 4 := by
  rcases vs with _ | ⟨a, _ | ⟨b, _ | ⟨c, _ | ⟨d, _ | ⟨e, vs⟩⟩⟩⟩⟩ <;> simp [ofList?]

theorem Arg.name?_eq_some {arg : Arg α} {node : String} :
    arg.name? = some node ↔ ∃ span, arg = .name span node := by
  cases arg <;> simp [name?]

theorem Arg.isGroup_name {span : Span} {node : String} : (name span node : Arg α).IsGroup :=
  .name span node

theorem Arg.isGroup_list {span : Span} {items : List (Arg α)} :
    (list span items).IsGroup ↔ ∀ item ∈ items, ∃ span node, item = .name span node :=
  ⟨fun h => by cases h; assumption, .list span⟩

namespace Call

variable {t : Tree α} {c : Call α} {usage : Usage}

theorem bad_ne_ok {b : β} : c.bad usage ≠ .ok b := nofun

theorem orBad_eq_ok {x : Option β} {b : β} : c.orBad usage x = .ok b ↔ x = some b := by
  cases x <;> simp [orBad, bad_ne_ok]

attribute [local simp] exists_pure_ok exists_bind_ok exists_map_ok Tree.exists_lookUp bad_ne_ok
  orBad_eq_ok

theorem exists_nodes : ∀ {items : List (Arg α)}, (∃ ids, c.nodes t usage items = .ok ids) ↔
    (∀ item ∈ items, ∃ span node, item = .name span node)
      ∧ ∀ node ∈ items.filterMap Arg.name?, node ∈ t.names
  | [] => by simp [nodes]
  | item :: items => by
    have ih : (∃ ids, c.nodes t usage items = .ok ids) ↔ _ := exists_nodes
    cases item with
    | name span node => simp [nodes, ih, Arg.name?, and_left_comm]
    | _ => simp [nodes]

section Relations

variable {word? : String → Option β} {relation : Option β → Relation}

/-- The targets and the word of a relation. -/
theorem exists_go {targets : Arg α} {word : Option String} :
    (∃ d, place.go t c usage word? relation targets word = .ok d) ↔ targets.IsGroup
      ∧ (∀ node ∈ targets.viewNames, node ∈ t.names) ∧ ∀ w, word = some w → ∃ b, word? w = some b := by
  unfold place.go
  cases targets with
  | name span node =>
    cases word <;> simp [exists_nodes, Arg.name?, Arg.viewNames, Arg.isGroup_name]
  | list span items =>
    cases word <;> simp [exists_nodes, Arg.viewNames, Arg.isGroup_list, and_assoc]
  | _ =>
    constructor
    · rintro ⟨d, h⟩
      cases h
    · rintro ⟨h, -⟩
      cases h

/-- Declared targets, and after them nothing or, under its key, a word that is good. -/
def IsBeside (t : Tree α) (c : Call α) (good : String → Prop) : Prop :=
  ∃ targets, targets.IsGroup ∧ (∀ node ∈ targets.viewNames, node ∈ t.names)
    ∧ (c.args = [targets] ∨ ∃ span keySpan wordSpan word, good word
      ∧ c.args = [targets, .named span ⟨"aligned", keySpan⟩ (.name wordSpan word)])

theorem exists_place : (∃ d, c.place t usage word? relation = .ok d) ↔
    c.IsBeside t fun word => ∃ b, word? word = some b := by
  constructor
  · intro h
    unfold place at h
    split at h
    next targets hargs =>
      obtain ⟨hgroup, hnames, -⟩ := exists_go.1 h
      exact ⟨targets, hgroup, hnames, .inl hargs⟩
    next targets span key value hargs =>
      obtain ⟨key, keySpan⟩ := key
      split_ifs at h with hkey
      · obtain rfl : key = "aligned" := hkey
        obtain ⟨word, hword, h⟩ := exists_bind_ok.1 h
        obtain ⟨hgroup, hnames, hb⟩ := exists_go.1 h
        obtain ⟨wordSpan, rfl⟩ := Arg.name?_eq_some.1 (orBad_eq_ok.1 hword)
        exact ⟨targets, hgroup, hnames, .inr ⟨span, keySpan, wordSpan, word, hb word rfl, hargs⟩⟩
      · simp at h
    next => simp at h
  · rintro ⟨targets, hgroup, hnames, hargs | ⟨span, keySpan, wordSpan, word, hb, hargs⟩⟩
    · rw [place, hargs]
      exact exists_go.2 ⟨hgroup, hnames, nofun⟩
    · rw [place, hargs]
      simp only [if_true, Arg.name?, exists_bind_ok, orBad_eq_ok]
      refine ⟨word, rfl, exists_go.2 ⟨hgroup, hnames, ?_⟩⟩
      rintro _ ⟨⟩
      exact hb

end Relations

section Placement

variable {s : Setter} {own : Anchor}

theorem exists_setter [Scalar α] : (∃ d, c.setter t s = .ok d) ↔
    c.args = [] ∧ s.hasDefault = true
      ∨ (∃ arg : Arg α, arg.IsLength ∧ c.args = [arg])
      ∨ (∃ span node member, node ∈ t.names ∧ c.args = [.member span node member]
        ∧ ((∃ own, s.reference = .side own) ∧ member ∈ horizontalEdges
          ∨ (∃ own, s.reference = .line own) ∧ member ∈ verticalEdges))
      ∨ ∃ span node, node ∈ t.names ∧ c.args = [.name span node] ∧ ∃ a, s.reference = .size a := by
  unfold setter
  rcases c.args with _ | ⟨arg, _ | ⟨arg', rest⟩⟩
  · split_ifs with h <;> simp [h]
  · cases arg with
    | number span v | percent span v => simp [← Arg.exists_length?, Arg.length?]
    | member span node member =>
      cases s.reference <;> simp [← Arg.exists_length?, Arg.length?, ← Side.exists_ofEdgeName?,
        ← Line.exists_ofEdgeName?, and_comm]
    | name span node => cases s.reference <;> simp [← Arg.exists_length?, Arg.length?]
    | _ => simp [← Arg.exists_length?, Arg.length?]
  · simp

theorem exists_anchor : (∃ d, c.anchor t own = .ok d) ↔
    c.args = [] ∨ ∃ span node member, node ∈ t.names ∧ member ∈ anchors
      ∧ c.args = [.member span node member] := by
  unfold anchor
  rcases c.args with _ | ⟨arg, _ | ⟨arg', rest⟩⟩
  · simp
  · cases arg <;> simp [← Anchor.exists_ofName?, and_comm]
  · simp

theorem exists_size : (∃ d, c.size t = .ok d) ↔
    (∃ span node, node ∈ t.names ∧ c.args = [.name span node])
      ∨ (∃ arg : Arg α, arg.IsLength ∧ c.args = [arg])
      ∨ ∃ w h : Arg α, w.IsLength ∧ h.IsLength ∧ c.args = [w, h] := by
  unfold size
  rcases c.args with _ | ⟨arg, _ | ⟨arg', _ | ⟨arg'', rest⟩⟩⟩
  · simp
  · cases arg <;> simp [← Arg.exists_length?, Arg.length?]
  · simp [Arg.exists_length?]
  · simp

theorem exists_aspectRatio : (∃ d, c.aspectRatio t = .ok d) ↔
    c.args = [] ∨ (∃ span v, c.args = [.number span v])
      ∨ ∃ span node, node ∈ t.names ∧ c.args = [.name span node] := by
  unfold aspectRatio
  rcases c.args with _ | ⟨arg, _ | ⟨arg', rest⟩⟩
  · simp
  · cases arg <;> simp
  · simp

theorem exists_flag {d : Directive α} : (∃ d', c.flag d = .ok d') ↔ c.args = [] := by
  unfold flag
  rcases c.args with _ | ⟨arg, rest⟩ <;> simp

theorem exists_margin : (∃ d, c.margin = .ok d) ↔
    (∀ arg ∈ c.args, ∃ span v, arg = .number span v) ∧ 1 ≤ c.args.length ∧ c.args.length ≤ 4 := by
  simp only [margin, exists_bind_ok, exists_pure_ok, and_true, orBad_eq_ok, Option.bind_eq_some_iff,
    ← Arg.exists_numbers]
  constructor
  · rintro ⟨i, vs, hvs, hi⟩
    rw [← Arg.length_numbers hvs]
    exact ⟨⟨vs, hvs⟩, Insets.exists_ofList?.1 ⟨i, hi⟩⟩
  · rintro ⟨⟨vs, hvs⟩, hlength⟩
    rw [← Arg.length_numbers hvs] at hlength
    obtain ⟨i, hi⟩ := Insets.exists_ofList?.2 hlength
    exact ⟨i, vs, hvs, hi⟩

theorem exists_word {word? : String → Option β} {directive : β → Directive α} :
    (∃ d, c.word usage word? directive = .ok d) ↔
      ∃ span w, (∃ b, word? w = some b) ∧ c.args = [.name span w] := by
  unfold word
  rcases c.args with _ | ⟨arg, _ | ⟨arg', rest⟩⟩
  · simp
  · cases arg <;> simp
  · simp

end Placement

/-! ## Forms and directives -/

section Relations

variable [Scalar α]

theorem exists_besideSide (h : c.name.value ∈ ["above", "below"]) :
    (∃ d, c.directive t = .ok d) ↔ c.IsBeside t (· ∈ horizontalAlignments) := by
  have hplace : ∃ relation, c.directive t
      = c.place t .nodesBesideSide Side.ofAlignName? relation := by
    simp only [List.mem_cons, List.not_mem_nil, or_false] at h
    rcases h with h | h
    · exact ⟨.above, by simp only [directive, CallName.ofName?_of_eq (n := .above) (by decide) h]⟩
    · exact ⟨.below, by simp only [directive, CallName.ofName?_of_eq (n := .below) (by decide) h]⟩
  obtain ⟨relation, hplace⟩ := hplace
  simp only [hplace, exists_place, Side.exists_ofAlignName?]

theorem exists_besideLevel (h : c.name.value ∈ ["left_of", "right_of", "before", "after"]) :
    (∃ d, c.directive t = .ok d) ↔ c.IsBeside t (· ∈ verticalAlignments) := by
  have hplace : ∃ relation, c.directive t
      = c.place t .nodesBesideLevel Line.ofAlignName? relation := by
    simp only [List.mem_cons, List.not_mem_nil, or_false] at h
    rcases h with h | h | h | h
    · exact ⟨.leftOf, by simp only [directive, CallName.ofName?_of_eq (n := .leftOf) (by decide) h]⟩
    · exact ⟨.rightOf, by simp only [directive, CallName.ofName?_of_eq (n := .rightOf) (by decide) h]⟩
    · exact ⟨.before, by simp only [directive, CallName.ofName?_of_eq (n := .before) (by decide) h]⟩
    · exact ⟨.after, by simp only [directive, CallName.ofName?_of_eq (n := .after) (by decide) h]⟩
  obtain ⟨relation, hplace⟩ := hplace
  simp only [hplace, exists_place, Line.exists_ofAlignName?]

end Relations

/-- A form of a call that places or measures a node, in which all views are declared. -/
def Fits (t : Tree α) (c : Call α) : Prop :=
  PlacementForm c.name.value c.args ∧ ∀ node ∈ c.args.flatMap Arg.viewNames, node ∈ t.names

theorem Fits.exists_directive [Scalar α] (h : c.Fits t) : ∃ d, c.directive t = .ok d := by
  obtain ⟨h, hviews⟩ := h
  generalize hname : c.name.value = name at h
  generalize hargs : c.args = args at h hviews
  cases h with
  | bare h =>
    obtain ⟨s, hs, hd⟩ := CallName.ofName?_of_position h
    simp only [directive, hname, hs]
    exact exists_setter.2 (.inl ⟨hargs, hd⟩)
  | length h harg =>
    obtain ⟨s, hs⟩ := CallName.ofName?_of_value h
    simp only [directive, hname, hs]
    exact exists_setter.2 (.inr (.inl ⟨_, harg, hargs⟩))
  | side h hm span node =>
    obtain ⟨s, own, hs, hown⟩ := CallName.ofName?_of_horizontal h
    simp only [directive, hname, hs]
    have hnode : node ∈ t.names := hviews node (by simp [Arg.viewNames])
    exact exists_setter.2 (.inr (.inr (.inl ⟨span, node, _, hnode, hargs, .inl ⟨⟨own, hown⟩, hm⟩⟩)))
  | level h hm span node =>
    obtain ⟨s, own, hs, hown⟩ := CallName.ofName?_of_vertical h
    simp only [directive, hname, hs]
    have hnode : node ∈ t.names := hviews node (by simp [Arg.viewNames])
    exact exists_setter.2 (.inr (.inr (.inl ⟨span, node, _, hnode, hargs, .inr ⟨⟨own, hown⟩, hm⟩⟩)))
  | measure h span node =>
    obtain ⟨s, a, hs, ha⟩ := CallName.ofName?_of_size h
    simp only [directive, hname, hs]
    have hnode : node ∈ t.names := hviews node (by simp [Arg.viewNames])
    exact exists_setter.2 (.inr (.inr (.inr ⟨span, node, hnode, hargs, a, ha⟩)))
  | anchor h =>
    obtain ⟨own, hown⟩ := CallName.ofName?_of_anchor h
    simp only [directive, hname, hown]
    exact exists_anchor.2 (.inl hargs)
  | anchorTo h hm span node =>
    obtain ⟨own, hown⟩ := CallName.ofName?_of_anchor h
    simp only [directive, hname, hown]
    have hnode : node ∈ t.names := hviews node (by simp [Arg.viewNames])
    exact exists_anchor.2 (.inr ⟨span, node, _, hnode, hm, hargs⟩)
  | @beside _ targets h ht =>
    have htargets : ∀ node ∈ targets.viewNames, node ∈ t.names := by simpa using hviews
    rcases List.mem_append.1 (show name ∈ ["above", "below"] ++ _ from h) with h | h
    · exact (exists_besideSide (hname ▸ h)).2 ⟨targets, ht, htargets, .inl hargs⟩
    · exact (exists_besideLevel (hname ▸ h)).2 ⟨targets, ht, htargets, .inl hargs⟩
  | @besideSide _ word targets h ht hw span keySpan wordSpan =>
    have htargets : ∀ node ∈ targets.viewNames, node ∈ t.names := by
      simpa [Arg.viewNames] using hviews
    exact (exists_besideSide (hname ▸ h)).2
      ⟨targets, ht, htargets, .inr ⟨span, keySpan, wordSpan, word, hw, hargs⟩⟩
  | @besideLevel _ word targets h ht hw span keySpan wordSpan =>
    have htargets : ∀ node ∈ targets.viewNames, node ∈ t.names := by
      simpa [Arg.viewNames] using hviews
    exact (exists_besideLevel (hname ▸ h)).2
      ⟨targets, ht, htargets, .inr ⟨span, keySpan, wordSpan, word, hw, hargs⟩⟩
  | square harg =>
    simp only [directive, CallName.ofName?_of_eq (n := .size) (by decide) hname]
    exact exists_size.2 (.inr (.inl ⟨_, harg, hargs⟩))
  | sizeOf span node =>
    simp only [directive, CallName.ofName?_of_eq (n := .size) (by decide) hname]
    have hnode : node ∈ t.names := hviews node (by simp [Arg.viewNames])
    exact exists_size.2 (.inl ⟨span, node, hnode, hargs⟩)
  | sizes hw hh =>
    simp only [directive, CallName.ofName?_of_eq (n := .size) (by decide) hname]
    exact exists_size.2 (.inr (.inr ⟨_, _, hw, hh, hargs⟩))
  | ratioOfContent =>
    simp only [directive, CallName.ofName?_of_eq (n := .aspectRatio) (by decide) hname]
    exact exists_aspectRatio.2 (.inl hargs)
  | ratio span v =>
    simp only [directive, CallName.ofName?_of_eq (n := .aspectRatio) (by decide) hname]
    exact exists_aspectRatio.2 (.inr (.inl ⟨span, v, hargs⟩))
  | ratioOf span node =>
    simp only [directive, CallName.ofName?_of_eq (n := .aspectRatio) (by decide) hname]
    have hnode : node ∈ t.names := hviews node (by simp [Arg.viewNames])
    exact exists_aspectRatio.2 (.inr (.inr ⟨span, node, hnode, hargs⟩))
  | flag h =>
    fin_cases h
    · simp only [directive, CallName.ofName?_of_eq (n := .fitSize) (by decide) hname]
      exact exists_flag.2 hargs
    · simp only [directive, CallName.ofName?_of_eq (n := .pinEdges) (by decide) hname]
      exact exists_flag.2 hargs
  | margin h hlow hhigh =>
    simp only [directive, CallName.ofName?_of_eq (n := .margin) (by decide) hname]
    exact exists_margin.2 (by rw [hargs]; exact ⟨h, hlow, hhigh⟩)

theorem fits_of_setter [Scalar α] {s : Setter} (hs : CallName.ofName? c.name.value = some (.set s))
    (h : ∃ d, c.setter t s = .ok d) : c.Fits t := by
  have hname : s.name = c.name.value := CallName.name_of_ofName? hs
  rw [Fits, ← hname]
  rcases exists_setter.1 h with ⟨hargs, hd⟩ | ⟨arg, harg, hargs⟩
    | ⟨span, node, member, hnode, hargs, ⟨⟨own, hown⟩, hm⟩ | ⟨⟨own, hown⟩, hm⟩⟩
    | ⟨span, node, hnode, hargs, a, ha⟩
  all_goals rw [hargs]
  · exact ⟨.bare (Setter.name_mem_positions hd), nofun⟩
  · refine ⟨.length (Setter.name_mem_values s (CallName.mem_list_of_ofName? hs)) harg, ?_⟩
    cases harg <;> nofun
  · exact ⟨.side (Setter.name_mem_horizontal hown) hm span node, by simpa [Arg.viewNames] using hnode⟩
  · exact ⟨.level (Setter.name_mem_vertical hown) hm span node, by simpa [Arg.viewNames] using hnode⟩
  · exact ⟨.measure (Setter.name_mem_sizes ha) span node, by simpa [Arg.viewNames] using hnode⟩

theorem fits_of_anchor {own : Anchor} (hname : own.name = c.name.value)
    (h : ∃ d, c.anchor t own = .ok d) : c.Fits t := by
  rw [Fits, ← hname]
  rcases exists_anchor.1 h with hargs | ⟨span, node, member, hnode, hm, hargs⟩
  all_goals rw [hargs]
  · exact ⟨.anchor own.name_mem, nofun⟩
  · exact ⟨.anchorTo own.name_mem hm span node, by simpa [Arg.viewNames] using hnode⟩

theorem fits_of_side [Scalar α] (hname : c.name.value ∈ ["above", "below"])
    (h : ∃ d, c.directive t = .ok d) : c.Fits t := by
  obtain ⟨targets, hgroup, hnames, hargs | ⟨span, keySpan, wordSpan, word, hw, hargs⟩⟩ :=
    (exists_besideSide hname).1 h
  all_goals rw [Fits, hargs]
  · exact ⟨.beside (List.mem_append_left _ hname) hgroup, by simpa using hnames⟩
  · exact ⟨.besideSide hname hgroup hw span keySpan wordSpan, by simpa [Arg.viewNames] using hnames⟩

theorem fits_of_level [Scalar α] (hname : c.name.value ∈ ["left_of", "right_of", "before", "after"])
    (h : ∃ d, c.directive t = .ok d) : c.Fits t := by
  obtain ⟨targets, hgroup, hnames, hargs | ⟨span, keySpan, wordSpan, word, hw, hargs⟩⟩ :=
    (exists_besideLevel hname).1 h
  all_goals rw [Fits, hargs]
  · exact ⟨.beside (List.mem_append_right ["above", "below"] hname) hgroup, by simpa using hnames⟩
  · exact ⟨.besideLevel hname hgroup hw span keySpan wordSpan, by simpa [Arg.viewNames] using hnames⟩

theorem fits_of_size (hname : "size" = c.name.value) (h : ∃ d, c.size t = .ok d) : c.Fits t := by
  rw [Fits, ← hname]
  rcases exists_size.1 h with ⟨span, node, hnode, hargs⟩ | ⟨arg, harg, hargs⟩
    | ⟨width, height, hw, hh, hargs⟩
  all_goals rw [hargs]
  · exact ⟨.sizeOf span node, by simpa [Arg.viewNames] using hnode⟩
  · exact ⟨.square harg, by cases harg <;> nofun⟩
  · exact ⟨.sizes hw hh, by cases hw <;> cases hh <;> nofun⟩

theorem fits_of_aspectRatio (hname : "aspect_ratio" = c.name.value)
    (h : ∃ d, c.aspectRatio t = .ok d) : c.Fits t := by
  rw [Fits, ← hname]
  rcases exists_aspectRatio.1 h with hargs | ⟨span, v, hargs⟩ | ⟨span, node, hnode, hargs⟩
  all_goals rw [hargs]
  · exact ⟨.ratioOfContent, nofun⟩
  · exact ⟨.ratio span v, nofun⟩
  · exact ⟨.ratioOf span node, by simpa [Arg.viewNames] using hnode⟩

theorem fits_of_flag (hname : c.name.value ∈ ["fit_size", "pin_edges"]) {d : Directive α}
    (h : ∃ d', c.flag d = .ok d') : c.Fits t := by
  rw [Fits, exists_flag.1 h]
  exact ⟨.flag hname, nofun⟩

theorem fits_of_margin (hname : "margin" = c.name.value) (h : ∃ d, c.margin = .ok d) :
    c.Fits t := by
  obtain ⟨hnumbers, hlow, hhigh⟩ := exists_margin.1 h
  rw [Fits, ← hname]
  refine ⟨.margin hnumbers hlow hhigh, fun node hnode => ?_⟩
  obtain ⟨arg, harg, hnode⟩ := List.mem_flatMap.1 hnode
  obtain ⟨span, v, rfl⟩ := hnumbers arg harg
  cases hnode

theorem fits_or_aligns [Scalar α] (h : ∃ d, c.directive t = .ok d) :
    c.Fits t ∨ AlignmentForm c.name.value c.args := by
  cases hn : CallName.ofName? c.name.value with
  | none => simp [directive, hn] at h
  | some n =>
    have hname : n.name = c.name.value := CallName.name_of_ofName? hn
    have hd := h
    simp only [directive, hn] at hd
    cases n with
    | set s => exact .inl (fits_of_setter hn hd)
    | anchor own => exact .inl (fits_of_anchor hname hd)
    | above | below => exact .inl (fits_of_side (by rw [← hname]; decide) h)
    | leftOf | rightOf | before | after => exact .inl (fits_of_level (by rw [← hname]; decide) h)
    | size => exact .inl (fits_of_size hname hd)
    | aspectRatio => exact .inl (fits_of_aspectRatio hname hd)
    | fitSize | pinEdges => exact .inl (fits_of_flag (by rw [← hname]; decide) hd)
    | margin => exact .inl (fits_of_margin hname hd)
    | justify =>
      obtain ⟨span, w, hw, hargs⟩ := exists_word.1 hd
      rw [← hname, hargs]
      exact .inr (.justify (Side.exists_ofAlignName?.1 hw) span)
    | align =>
      obtain ⟨span, w, hw, hargs⟩ := exists_word.1 hd
      rw [← hname, hargs]
      exact .inr (.align (Line.exists_ofAlignName?.1 hw) span)

theorem AlignmentForm.exists_directive [Scalar α] (h : AlignmentForm c.name.value c.args) :
    ∃ d, c.directive t = .ok d := by
  generalize hname : c.name.value = name at h
  generalize hargs : c.args = args at h
  cases h with
  | justify h span =>
    simp only [directive, CallName.ofName?_of_eq (n := .justify) (by decide) hname]
    exact exists_word.2 ⟨span, _, Side.exists_ofAlignName?.2 h, hargs⟩
  | align h span =>
    simp only [directive, CallName.ofName?_of_eq (n := .align) (by decide) hname]
    exact exists_word.2 ⟨span, _, Line.exists_ofAlignName?.2 h, hargs⟩

theorem PlacementForm.name_notMem {name : String} {args : List (Arg α)}
    (h : PlacementForm name args) : name ∉ ["justify", "align"] := by
  cases h with
  | bare h | length h | side h | level h | measure h | anchor h | anchorTo h | beside h
  | besideSide h | besideLevel h | flag h =>
    -- each of them has its own list of names, of which none is a word of alignments
    refine (?_ : ∀ n ∈ _, n ∉ ["justify", "align"]) _ h
    decide
  | _ => decide

theorem AlignmentForm.name_mem {name : String} {args : List (Arg α)}
    (h : AlignmentForm name args) : name ∈ ["justify", "align"] := by
  cases h <;> decide

/-- A call converts exactly when it has one of the forms and each name in it that stands for a view
is declared. -/
theorem converts_iff [Scalar α] (t : Tree α) (c : Call α) : (∃ d, c.directive t = .ok d) ↔
    (PlacementForm c.name.value c.args ∨ AlignmentForm c.name.value c.args)
      ∧ ∀ node ∈ c.viewNames, node ∈ t.names := by
  constructor
  · intro h
    rcases fits_or_aligns h with ⟨hform, hviews⟩ | hform
    · refine ⟨.inl hform, ?_⟩
      rwa [viewNames, if_neg hform.name_notMem]
    · refine ⟨.inr hform, ?_⟩
      rw [viewNames, if_pos hform.name_mem]
      nofun
  · rintro ⟨hform | hform, hviews⟩
    · rw [viewNames, if_neg hform.name_notMem] at hviews
      exact Fits.exists_directive ⟨hform, hviews⟩
    · exact hform.exists_directive

/-- The calls that place or measure a node are not all: `justify(left)` converts as well. -/
theorem justify_converts : ¬∀ (t : Tree Rat) (c : Call Rat), (∀ node ∈ c.viewNames, node ∈ t.names) →
    ((∃ d, c.directive t = .ok d) ↔ PlacementForm c.name.value c.args) := by
  intro h
  let c : Call Rat := ⟨⟨25, 38⟩, ⟨"justify", ⟨25, 32⟩⟩, [.name ⟨33, 37⟩ "left"]⟩
  have hform : PlacementForm c.name.value c.args := (h ∅ c nofun).1 ⟨_, rfl⟩
  exact hform.name_notMem List.mem_cons_self

end Call

end Pinning
