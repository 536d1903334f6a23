import Mathlib.Algebra.Order.Ring.Rat
import Pinning.Proofs.Accumulation

/-!
# Directions and percentages end at intake

The absolute forms of a call (`Directive.absolute`) name every side by its place and give every
length in points. Read in any direction they gather what the call gathers in the direction in force
(`gathered_absolute`), so a chain and its absolute form lead to the same constraints and the same
frame (`absolute_chain`).
-/

namespace Pinning

variable {α : Type} [Scalar α]

namespace Directive

open Effect (gatheredAll)

variable (site : Site α) (d : Direction)

@[simp] theorem gatheredAll_measuring (name : String) (v : Length α) :
    gatheredAll (measuring name v) = ∅ := by
  cases v with
  | points v => rfl
  | percent p =>
    simp only [measuring]
    split_ifs <;> simp

/-- The coordinate of a distance inwards from an edge of the container. -/
def insetCoordinate (b : Border) (v : Length α) : α :=
  if b.line d = .low then measured site b.axis v
  else site.containerSize.along b.axis - measured site b.axis v

@[simp] theorem gatheredAll_setInset (b : Border) (v : Length α) :
    gatheredAll (setInset site d b v)
      = (Effect.write (.line b.axis (b.line d)) (insetCoordinate site d b v)).gathered := by
  simp only [setInset, gatheredAll_measuring, Effect.gatheredAll_append, insetCoordinate]
  split_ifs with h <;> simp [h]

@[simp] theorem gatheredAll_setMargin (b : Border) (v : Length α) :
    gatheredAll (setMargin site d b v)
      = (Effect.write (if b.line d = .low then .marginLow b.axis else .marginHigh b.axis)
          (measured site b.axis v)).gathered := by
  simp [setMargin]

/-- A size as it is kept: a negative one counts as none. -/
@[simp] theorem gatheredAll_writeSize (slot : Slot) (v : α) :
    gatheredAll (writeSize slot v) = (Effect.write slot (if v < 0 then 0 else v)).gathered := by
  unfold writeSize
  split_ifs <;> simp

/-- A place beside a group is what its relation writes; strangers are only warned of. -/
theorem gatheredAll_place (r : Relation) (nodes : List NodeId) :
    gatheredAll (place site d r nodes) = gatheredAll ((r.writes d
      ((nodes.filter (· ∈ site.tree.siblings site.node)).map site.frameOf)).map
        fun (slot, v) => Effect.write slot v) := by
  have hwarn : ∀ (f : NodeId → Warning α) (ns : List NodeId),
      gatheredAll (ns.map fun n => Effect.warn (f n)) = ∅ := by
    intro f ns
    induction ns with
    | nil => rfl
    | cons n ns ih => rw [List.map_cons, Effect.gatheredAll_cons, ih]; rfl
  simp only [place, Effect.gatheredAll_append, hwarn, Constraints.empty_overlay]
  split_ifs with h
  · rw [List.isEmpty_iff.1 h]
    rfl
  · rfl

end Directive

namespace Length

/-- The points that a length comes to where the container measures `reference`. -/
def inPoints (reference : Rat) : Length Rat → Length Rat
  | points v => points v
  | percent p => points (max p 0 * reference / 100)

theorem resolve_inPoints (reference r : Rat) (v : Length Rat) :
    (v.inPoints reference).resolve r = v.resolve reference := by
  cases v with
  | points v => rfl
  | percent p =>
    have hp : Scalar.pos p = max p 0 := by
      unfold Scalar.pos
      rcases lt_or_ge 0 p with h | h
      · rw [if_pos h, max_eq_left h.le]
      · rw [if_neg h.not_gt, max_eq_right h]
    simp only [inPoints, resolve, hp]

end Length

namespace Side

def absolute : Direction → Side → Side
  | .ltr, start | .rtl, finish => fixed .low
  | .rtl, start | .ltr, finish => fixed .high
  | _, fixed l => fixed l

def IsAbsolute : Side → Prop
  | fixed _ => True
  | _ => False

theorem line_absolute (d d' : Direction) (s : Side) : (s.absolute d).line d' = s.line d := by
  cases s <;> cases d <;> rfl

theorem isAbsolute_absolute (d : Direction) (s : Side) : (s.absolute d).IsAbsolute := by
  cases s <;> cases d <;> trivial

end Side

namespace Border

def absolute : Direction → Border → Border
  | .ltr, start | .rtl, finish => low .horizontal
  | .rtl, start | .ltr, finish => high .horizontal
  | _, b => b

def IsAbsolute : Border → Prop
  | low _ | high _ => True
  | _ => False

theorem line_absolute (d d' : Direction) (b : Border) : (b.absolute d).line d' = b.line d := by
  cases b <;> cases d <;> rfl

theorem axis_absolute (d : Direction) (b : Border) : (b.absolute d).axis = b.axis := by
  cases b <;> cases d <;> rfl

theorem isAbsolute_absolute (d : Direction) (b : Border) : (b.absolute d).IsAbsolute := by
  cases b <;> cases d <;> trivial

end Border

namespace Anchor

def absolute (d : Direction) (a : Anchor) : Anchor :=
  { a with horizontal := a.horizontal.absolute d }

theorem point_absolute (d d' : Direction) (a : Anchor) (frame : Rect α) :
    (a.absolute d).point d' frame = a.point d frame := by
  simp only [point, absolute, Side.line_absolute]

end Anchor

namespace Relation

def absolute : Direction → Relation → Relation
  | .ltr, before a | .rtl, after a => leftOf a
  | .rtl, before a | .ltr, after a => rightOf a
  | d, above a => above (a.map (Side.absolute d))
  | d, below a => below (a.map (Side.absolute d))
  | _, r => r

def IsAbsolute : Relation → Prop
  | above a | below a => ∀ s ∈ a, s.IsAbsolute
  | leftOf _ | rightOf _ => True
  | before _ | after _ => False

theorem writes_absolute (d d' : Direction) (r : Relation) (group : List (Rect α)) :
    (r.absolute d).writes d' group = r.writes d group := by
  have hline : ∀ a : Option Side, (a.map (Side.absolute d)).map (Side.line d')
      = a.map (Side.line d) := fun a => by
    rw [Option.map_map]
    exact congrArg (a.map ·) (funext fun s => Side.line_absolute d d' s)
  unfold writes
  split
  · rfl
  · cases r with
    | above a => cases d <;> simp only [absolute, physical, hline]
    | below a => cases d <;> simp only [absolute, physical, hline]
    | _ => cases d <;> rfl

theorem isAbsolute_absolute (d : Direction) (r : Relation) : (r.absolute d).IsAbsolute := by
  have h : ∀ a : Option Side, ∀ s ∈ a.map (Side.absolute d), s.IsAbsolute := by
    intro a s hs
    obtain ⟨s', -, rfl⟩ := Option.mem_map.1 hs
    exact Side.isAbsolute_absolute d s'
  cases r with
  | above a => cases d <;> exact h a
  | below a => cases d <;> exact h a
  | _ => cases d <;> trivial

end Relation

namespace Setter

/-- The setters for one side each that a setter stands for. -/
def singles (d : Direction) : Setter → List Setter
  | inset b => [inset (b.absolute d)]
  | margin b => [margin (b.absolute d)]
  | all => [inset (.low .vertical), inset (.low .horizontal), inset (.high .vertical),
      inset (.high .horizontal)]
  | span a => [inset (.low a), inset (.high a)]
  | margins a => [margin (.low a), margin (.high a)]
  | s => [s]

def IsSingle : Setter → Prop
  | inset b | margin b => b.IsAbsolute
  | all | span _ | margins _ => False
  | _ => True

/-- The extent of the container that a percentage is taken of. -/
def reach : Setter → Axis
  | inset b | margin b => b.axis
  | center a | size a | minSize a | maxSize a | span a | margins a => a
  | square | all => .horizontal

theorem isSingle_singles (d : Direction) (s : Setter) : ∀ s' ∈ s.singles d, s'.IsSingle := by
  cases s with
  | inset b => simp [singles, IsSingle, Border.isAbsolute_absolute]
  | margin b => simp [singles, IsSingle, Border.isAbsolute_absolute]
  | _ => simp [singles, IsSingle, Border.IsAbsolute]

end Setter

namespace Directive

/-- The calls that say by place and in points what a call says in the direction `d`. -/
def absolute (site : Site Rat) (d : Direction) : Directive Rat → List (Directive Rat)
  | set setter v => (setter.singles d).map fun s =>
      set s (v.inPoints (site.containerSize.along s.reach))
  | sideTo own node target => [sideTo (own.absolute d) node (target.absolute d)]
  | anchorTo own node target => [anchorTo (own.absolute d) node (target.absolute d)]
  | anchor own => [anchor (own.absolute d)]
  | relative r nodes => [relative (r.absolute d) nodes]
  | sizes w h =>
    [sizes (w.inPoints site.containerSize.width) (h.inPoints site.containerSize.height)]
  | directionalMargins i =>
    [set (.margin (.low .vertical)) (.points i.top),
      set (.margin (Border.start.absolute d)) (.points i.start),
      set (.margin (.high .vertical)) (.points i.bottom),
      set (.margin (Border.finish.absolute d)) (.points i.finish)]
  | justify side => [justify (side.absolute d)]
  | turn _ => []
  | c => [c]

/-- No reading direction and no percentage is left, and no setter for several sides. -/
def IsAbsolute : Directive Rat → Prop
  | set setter v => setter.IsSingle ∧ ∃ x, v = .points x
  | sideTo own _ target => own.IsAbsolute ∧ target.IsAbsolute
  | anchorTo own _ target => own.horizontal.IsAbsolute ∧ target.horizontal.IsAbsolute
  | anchor own => own.horizontal.IsAbsolute
  | relative r _ => r.IsAbsolute
  | sizes w h => (∃ x, w = .points x) ∧ ∃ y, h = .points y
  | justify side => side.IsAbsolute
  | directionalMargins _ | turn _ => False
  | _ => True

/-- The absolute form of a chain that begins in the direction `d`. -/
def absoluteChain (site : Site Rat) (d : Direction) (cs : List (Directive Rat)) :
    List (Directive Rat) :=
  (inForce d cs).flatMap fun (d, c) => c.absolute site d

open Effect (gatheredAll)
open Constraints (overlayAll)

variable (site : Site Rat) (d d' : Direction)

theorem exists_inPoints (reference : Rat) (v : Length Rat) :
    ∃ x, v.inPoints reference = .points x := by
  cases v with
  | points v => exact ⟨v, rfl⟩
  | percent p => exact ⟨_, rfl⟩

theorem isAbsolute_absolute (c : Directive Rat) : ∀ c' ∈ c.absolute site d, c'.IsAbsolute := by
  cases c with
  | set setter v =>
    intro c' hc'
    obtain ⟨s, hs, rfl⟩ := List.mem_map.1 hc'
    exact ⟨setter.isSingle_singles d s hs, exists_inPoints _ v⟩
  | sideTo own node target =>
    simp [absolute, IsAbsolute, Side.isAbsolute_absolute]
  | anchorTo own node target =>
    simp [absolute, IsAbsolute, Anchor.absolute, Side.isAbsolute_absolute]
  | anchor own => simp [absolute, IsAbsolute, Anchor.absolute, Side.isAbsolute_absolute]
  | relative r nodes => simp [absolute, IsAbsolute, Relation.isAbsolute_absolute]
  | sizes w h => simp [absolute, IsAbsolute, exists_inPoints]
  | directionalMargins i =>
    cases d <;> simp [absolute, IsAbsolute, Setter.IsSingle, Border.absolute, Border.IsAbsolute]
  | justify side => simp [absolute, IsAbsolute, Side.isAbsolute_absolute]
  | _ => simp [absolute, IsAbsolute]

theorem measured_inPoints (a : Axis) (reference : Rat) (v : Length Rat) :
    measured site a (v.inPoints reference) = v.resolve reference :=
  Length.resolve_inPoints _ _ v

theorem gatheredAll_setInset_inPoints (b b' : Border) (hl : b'.line d' = b.line d)
    (ha : b'.axis = b.axis) (v : Length Rat) :
    gatheredAll (setInset site d' b' (v.inPoints (site.containerSize.along b'.axis)))
      = gatheredAll (setInset site d b v) := by
  simp only [gatheredAll_setInset, insetCoordinate, hl, ha, measured_inPoints]
  rfl

theorem gatheredAll_setMargin_inPoints (b b' : Border) (hl : b'.line d' = b.line d)
    (ha : b'.axis = b.axis) (v : Length Rat) :
    gatheredAll (setMargin site d' b' (v.inPoints (site.containerSize.along b'.axis)))
      = gatheredAll (setMargin site d b v) := by
  simp only [gatheredAll_setMargin, hl, ha, measured_inPoints]
  rfl

theorem gatheredAll_setSize_inPoints (slot : Slot) (a : Axis) (v : Length Rat) :
    gatheredAll (setSize site slot a (v.inPoints (site.containerSize.along a)))
      = gatheredAll (setSize site slot a v) := by
  simp only [setSize, Effect.gatheredAll_append, gatheredAll_measuring, measured_inPoints]
  rfl

/-- What a setter gathers in one direction its single setters gather in any. -/
theorem gatheredAll_singles (setter : Setter) (v : Length Rat) :
    overlayAll ((setter.singles d).map fun s =>
        gatheredAll (setLength site d' (v.inPoints (site.containerSize.along s.reach)) s))
      = gatheredAll (setLength site d v setter) := by
  have hinset := fun b b' hl ha => gatheredAll_setInset_inPoints site d d' b b' hl ha v
  have hmargin := fun b b' hl ha => gatheredAll_setMargin_inPoints site d d' b b' hl ha v
  cases setter with
  | inset b =>
    have h := hinset b _ (b.line_absolute d d') (b.axis_absolute d)
    simpa [Setter.singles, setLength, Setter.reach] using h
  | margin b =>
    have h := hmargin b _ (b.line_absolute d d') (b.axis_absolute d)
    simpa [Setter.singles, setLength, Setter.reach] using h
  | center a =>
    simp only [Setter.singles, setLength, setCenter, Setter.reach, List.map_cons, List.map_nil,
      Constraints.overlayAll_cons, Constraints.overlayAll_nil, Effect.gatheredAll_append,
      gatheredAll_measuring, measured_inPoints, Constraints.overlay_empty]
    rfl
  | span a =>
    have hlow := hinset (.low a) (.low a) rfl rfl
    have hhigh := hinset (.high a) (.high a) rfl rfl
    simp only [Setter.singles, setLength, List.map_cons, List.map_nil, Constraints.overlayAll_cons,
      Constraints.overlayAll_nil, Effect.gatheredAll_append, Setter.reach]
    rw [hlow, hhigh, Constraints.overlay_empty]
  | margins a =>
    have hlow := hmargin (.low a) (.low a) rfl rfl
    have hhigh := hmargin (.high a) (.high a) rfl rfl
    simp only [Setter.singles, setLength, List.map_cons, List.map_nil, Constraints.overlayAll_cons,
      Constraints.overlayAll_nil, Effect.gatheredAll_append, Setter.reach]
    rw [hlow, hhigh, Constraints.overlay_empty]
  | all =>
    have htop := hinset (.low .vertical) (.low .vertical) rfl rfl
    have hleft := hinset (.low .horizontal) (.low .horizontal) rfl rfl
    have hbottom := hinset (.high .vertical) (.high .vertical) rfl rfl
    have hright := hinset (.high .horizontal) (.high .horizontal) rfl rfl
    simp only [Setter.singles, setLength, List.map_cons, List.map_nil, Constraints.overlayAll_cons,
      Constraints.overlayAll_nil, Effect.gatheredAll_append, Setter.reach, List.flatMap_cons,
      List.flatMap_nil, Effect.gatheredAll_nil]
    rw [htop, hleft, hbottom, hright]
  | square =>
    simp only [Setter.singles, setLength, Setter.reach, List.map_cons, List.map_nil,
      Constraints.overlayAll_cons, Constraints.overlayAll_nil, Effect.gatheredAll_append,
      gatheredAll_measuring, measured_inPoints, Constraints.overlay_empty]
    rfl
  | size a =>
    simpa [Setter.singles, setLength, Setter.reach] using
      gatheredAll_setSize_inPoints site (.size a) a v
  | minSize a =>
    simpa [Setter.singles, setLength, Setter.reach] using
      gatheredAll_setSize_inPoints site (.minSize a) a v
  | maxSize a =>
    simpa [Setter.singles, setLength, Setter.reach] using
      gatheredAll_setSize_inPoints site (.maxSize a) a v

theorem setAnchor_absolute (own : Anchor) (p : Point Rat) :
    setAnchor d' (own.absolute d) p = setAnchor d own p := by
  simp only [setAnchor, Anchor.absolute, Side.line_absolute]

theorem gatheredAll_place_absolute (r : Relation) (nodes : List NodeId) :
    gatheredAll (place site d' (r.absolute d) nodes) = gatheredAll (place site d r nodes) := by
  rw [gatheredAll_place, gatheredAll_place, Relation.writes_absolute]

/-- What a call gathers in the direction in force its absolute forms gather in any. -/
theorem gathered_absolute (c : Directive Rat) :
    overlayAll ((c.absolute site d).map fun c' => c'.gathered site d') = c.gathered site d := by
  cases c with
  | set setter v =>
    rw [absolute, List.map_map]
    exact gatheredAll_singles site d d' setter v
  | sideTo own node target => simp [absolute, gathered, effects, Side.line_absolute]
  | anchorTo own node target =>
    refine (Constraints.overlay_empty _).trans ?_
    simp only [gathered, effects, setAnchor_absolute, Anchor.point_absolute]
  | anchor own =>
    refine (Constraints.overlay_empty _).trans ?_
    simp only [gathered, effects, setAnchor_absolute, Anchor.point_absolute]
    rfl
  | relative r nodes =>
    exact (Constraints.overlay_empty _).trans (gatheredAll_place_absolute site d d' r nodes)
  | sizes w h =>
    have hw := gatheredAll_setSize_inPoints site (.size .horizontal) .horizontal w
    have hh := gatheredAll_setSize_inPoints site (.size .vertical) .vertical h
    refine (Constraints.overlay_empty _).trans ?_
    simp only [gathered, effects, setLength, Effect.gatheredAll_append]
    exact congrArg₂ Constraints.overlay hw hh
  | directionalMargins i =>
    have hmargin : ∀ (b : Border) (v : Rat), gatheredAll (setMargin site d' (b.absolute d)
        (.points v)) = gatheredAll (setMargin site d b (.points v)) := fun b v =>
      gatheredAll_setMargin_inPoints site d d' b _ (b.line_absolute d d') (b.axis_absolute d)
        (.points v)
    simp only [absolute, gathered, effects, setLength, List.map_cons, List.map_nil,
      Constraints.overlayAll_cons, Constraints.overlayAll_nil, Effect.gatheredAll_append, hmargin,
      Constraints.overlay_empty, Constraints.overlay_assoc]
    rfl
  | justify side => simp [absolute, gathered, effects, Side.line_absolute]
  | turn d' => rfl
  | _ => exact (Constraints.overlay_empty _).trans rfl

end Directive

open Directive (inForce)

theorem Directive.inForce_of_isAbsolute (d : Direction) {cs : List (Directive Rat)}
    (h : ∀ c ∈ cs, c.IsAbsolute) : inForce d cs = cs.map (d, ·) := by
  refine Directive.inForce_of_forall_ne d fun c hc d' => ?_
  rintro rfl
  exact h _ hc

theorem Directive.isAbsolute_absoluteChain (site : Site Rat) (d : Direction)
    (cs : List (Directive Rat)) : ∀ c ∈ absoluteChain site d cs, c.IsAbsolute := by
  intro c hc
  obtain ⟨⟨d', c'⟩, -, hc⟩ := List.mem_flatMap.1 hc
  exact isAbsolute_absolute site d' c' c hc

namespace Session

/-- A chain, whatever it turns to on its way, and its absolute form, read in either direction, lead
to the same constraints and the same frame. -/
theorem absolute_chain (tree : Tree Rat) (node : NodeId) (config : Config Rat) (d d' : Direction)
    (cs : List (Directive Rat)) :
    let absolute := Directive.absoluteChain ⟨tree, node⟩ d cs
    let s := pass tree node config d cs
    let s' := pass tree node config d' absolute
    (∀ c ∈ absolute, c.IsAbsolute) ∧ s'.constraints = s.constraints
      ∧ s'.resolution.frame = s.resolution.frame ∧ s'.commit.tree = s.commit.tree := by
  intro absolute s s'
  have habs : ∀ c ∈ absolute, c.IsAbsolute := Directive.isAbsolute_absoluteChain _ d cs
  have hc : s'.constraints = s.constraints := by
    simp only [s, s', pass_constraints, Directive.inForce_of_isAbsolute d' habs, alone_eq,
      List.map_map]
    simp only [absolute, Directive.absoluteChain, List.map_flatMap, Constraints.overlayAll_flatMap]
    congr 1
    refine List.map_congr_left fun x _ => ?_
    exact Directive.gathered_absolute ⟨tree, node⟩ x.1 d' x.2
  have hsyn : s'.constraints.synthesize s'.subject = s.constraints.synthesize s.subject :=
    synthesize_congr (by simp only [s, s', pass_site])
      (by simp only [s, s', pass, issueAll_tolerance]; rfl) hc
  have hf : s'.resolution.frame = s.resolution.frame := congrArg Synthesis.frame hsyn
  refine ⟨habs, hc, hf, ?_⟩
  simp only [s, s', commit_tree_pass]
  exact congrArg _ hf

end Session

end Pinning
