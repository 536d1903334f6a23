import Mathlib.Data.List.Pairwise
import Pinning.Proofs.Doubles
import Pinning.Proofs.Meeting

/-!
# Arguments that are not finite

A directive that takes lengths or numbers writes each of them to slots of its own
(`Directive.arguments`). A slot takes finite values only, and what is not finite stays so on the way
from an argument to its slots, or is warned of there as a negative size or percentage
(`Directive.warns_setLength`). The way out is a percentage that is no number: it counts as zero
before it is ever looked at (`Directive.effects_counted`), so the slots take it and nothing warns.
-/

namespace Pinning

variable {α : Type}

section Warnings

variable [Scalar α]

/-- Something is warned of, whatever came before. -/
def Effect.Warns (es : List (Effect α)) : Prop := ∃ e ∈ es, e.raised ≠ []

namespace Effect.Warns

variable {es es' : List (Effect α)}

theorem append_left (h : Warns es) : Warns (es ++ es') := by
  obtain ⟨e, he, hraised⟩ := h
  exact ⟨e, List.mem_append_left es' he, hraised⟩

theorem append_right (h : Warns es) : Warns (es' ++ es) := by
  obtain ⟨e, he, hraised⟩ := h
  exact ⟨e, List.mem_append_right es' he, hraised⟩

theorem of_warn {w : Warning α} (h : warn w ∈ es) : Warns es := ⟨_, h, List.cons_ne_nil _ _⟩

theorem of_write {slot : Slot} {v : α} (h : write slot v ∈ es) (hv : ¬Scalar.isFinite v) :
    Warns es :=
  ⟨_, h, by simp [raised, hv]⟩

end Effect.Warns

namespace Session

variable (s : Session α)

theorem exists_warnings_perform (e : Effect α) :
    ∃ ws, (s.perform e).warnings = s.warnings ++ ws ∧ (e.raised ≠ [] → ws ≠ []) := by
  cases e with
  | write slot v =>
    by_cases hv : Scalar.isFinite v
    · exact ⟨[], by simp [perform, record, hv], by simp [Effect.raised, hv]⟩
    · exact ⟨[.notFinite slot v], by simp [perform, warn, hv], by simp⟩
  | warn w => exact ⟨[w], rfl, by simp⟩
  | measure directive =>
    simp only [perform]
    split_ifs
    · exact ⟨[.noContainer directive s.site.label], rfl, by simp⟩
    · exact ⟨[], (List.append_nil _).symm, by simp [Effect.raised]⟩
  | _ => exact ⟨[], (List.append_nil _).symm, by simp [Effect.raised]⟩

/-- Warnings only add up. -/
theorem prefix_warnings (es : List (Effect α)) (s : Session α) :
    s.warnings <+: (es.foldl perform s).warnings := by
  induction es generalizing s with
  | nil => exact List.prefix_rfl
  | cons e es ih =>
    obtain ⟨ws, hws, -⟩ := s.exists_warnings_perform e
    exact (hws ▸ List.prefix_append _ _).trans (ih _)

theorem exists_warning {es : List (Effect α)} (h : Effect.Warns es) (s : Session α) :
    ∃ w ws, (es.foldl perform s).warnings = s.warnings ++ w :: ws := by
  obtain ⟨e, he, hraised⟩ := h
  obtain ⟨before, after, rfl⟩ := List.append_of_mem he
  obtain ⟨ws, hbefore⟩ := prefix_warnings before s
  obtain ⟨us, hus, hne⟩ := (before.foldl perform s).exists_warnings_perform e
  obtain ⟨vs, hafter⟩ := prefix_warnings after ((before.foldl perform s).perform e)
  have hadded : ws ++ (us ++ vs) ≠ [] := by simp [hne hraised]
  obtain ⟨w, ws', hall⟩ := List.exists_cons_of_ne_nil hadded
  refine ⟨w, ws', ?_⟩
  rw [List.foldl_append, List.foldl_cons, ← hafter, hus, ← hbefore, ← hall, List.append_assoc,
    List.append_assoc]

end Session

end Warnings

namespace Length

/-- The number in a length. -/
def number : Length α → α
  | points v | percent v => v

variable [Scalar α]

/-- The length with zero for a percentage that is no number. -/
def counted : Length α → Length α
  | points v => points v
  | percent p => percent (if Scalar.isNumber p then p else 0)

/-- A length that is not finite, and is no percentage that counts as zero. -/
structure Stray (v : Length α) : Prop where
  notFinite : ¬Scalar.isFinite v.number
  isNumber {p : α} : v = percent p → Scalar.isNumber p

end Length

namespace Border

variable (d : Direction) (b : Border)

def lineSlot : Slot := .line b.axis (b.line d)

def marginSlot : Slot := if b.line d = .low then .marginLow b.axis else .marginHigh b.axis

end Border

/-- The slots that a setter is about. -/
def Setter.slots (d : Direction) : Setter → List Slot
  | inset b => [b.lineSlot d]
  | center a => [.line a .mid]
  | span a => [(Border.low a).lineSlot d, (Border.high a).lineSlot d]
  | all => [.low .vertical, .low .horizontal, .high .vertical, .high .horizontal].map
      (Border.lineSlot d)
  | size a => [.size a]
  | minSize a => [.minSize a]
  | maxSize a => [.maxSize a]
  | square => [.size .horizontal, .size .vertical]
  | margin b => [b.marginSlot d]
  | margins a => [(Border.low a).marginSlot d, (Border.high a).marginSlot d]

/-- A length among the arguments of a directive, and the slots that it is for. -/
structure Argument (α : Type) where
  length : Length α
  slots : List Slot

namespace Directive

/-- The setters that a directive stands for, each with its length. -/
def settings : Directive α → List (Setter × Length α)
  | set setter v => [(setter, v)]
  | sizes w h => [(.size .horizontal, w), (.size .vertical, h)]
  | margins i => [(.margin (.low .vertical), .points i.top),
      (.margin (.low .horizontal), .points i.left), (.margin (.high .vertical), .points i.bottom),
      (.margin (.high .horizontal), .points i.right)]
  | directionalMargins i => [(.margin (.low .vertical), .points i.top),
      (.margin .start, .points i.start), (.margin (.high .vertical), .points i.bottom),
      (.margin .finish, .points i.finish)]
  | _ => []

def arguments (d : Direction) : Directive α → List (Argument α)
  | aspectRatio r => [⟨.points r, [.aspectRatio]⟩]
  | c => c.settings.map fun x => ⟨x.2, x.1.slots d⟩

/-- The directive with zero for percentages that are no number. -/
def counted [Scalar α] : Directive α → Directive α
  | set setter v => set setter v.counted
  | sizes w h => sizes w.counted h.counted
  | c => c

theorem arguments_eq (d : Direction) (c : Directive α) : (∃ r, c = aspectRatio r)
    ∨ c.arguments d = c.settings.map fun x => ⟨x.2, x.1.slots d⟩ := by
  cases c with
  | aspectRatio r => exact .inl ⟨r, rfl⟩
  | _ => exact .inr rfl

theorem settings_apart (d : Direction) (c : Directive α) :
    c.settings.Pairwise fun x y => (x.1.slots d).Disjoint (y.1.slots d) := by
  cases c with
  | margins i | directionalMargins i => cases d <;> simp [settings, Setter.slots] <;> decide
  | _ => simp [settings, Setter.slots]

/-- Each slot belongs to one setting. -/
theorem eq_of_mem_slots {d : Direction} {c : Directive α} {x y : Setter × Length α} {slot : Slot}
    (hx : x ∈ c.settings) (hy : y ∈ c.settings) (hslot : slot ∈ x.1.slots d)
    (hslot' : slot ∈ y.1.slots d) : x = y := by
  have : Std.Symm fun x y : Setter × Length α => (x.1.slots d).Disjoint (y.1.slots d) :=
    ⟨fun _ _ h _ hy hx => h hx hy⟩
  by_contra hne
  exact (settings_apart d c).forall hx hy hne hslot hslot'

variable [Scalar α] {s : Site α} {d : Direction} {c : Directive α}

theorem effects_of_settings (h : c.settings ≠ []) :
    c.effects s d = c.settings.flatMap fun x => setLength s d x.2 x.1 := by
  cases c <;> first | exact absurd rfl h | simp [settings, effects, setLength]

/-- A value that is worked out from a length. -/
inductive WorkedOut (s : Site α) (v : Length α) : α → Prop
  | measured (a : Axis) : WorkedOut s v (measured s a v)
  | fromEnd (a : Axis) : WorkedOut s v (s.containerSize.along a - measured s a v)
  | fromMiddle (a : Axis) : WorkedOut s v (s.containerSize.along a / 2 + measured s a v)
  | cut (a : Axis) (h : measured s a v < 0) : WorkedOut s v 0

variable {v : Length α} {slot slot' : Slot} {x : α}

theorem of_mem_writeSize {a : Axis} (h : .write slot x ∈ writeSize slot' (measured s a v)) :
    slot = slot' ∧ WorkedOut s v x := by
  simp only [writeSize] at h
  split_ifs at h with hneg <;> simp at h
  · exact ⟨h.1, h.2 ▸ .cut a hneg⟩
  · exact ⟨h.1, h.2 ▸ .measured a⟩

theorem of_mem_setInset {b : Border} (h : .write slot x ∈ setInset s d b v) :
    slot = b.lineSlot d ∧ WorkedOut s v x := by
  simp only [setInset, List.mem_append, not_mem_measuring, false_or] at h
  split_ifs at h with hl <;> simp at h
  · exact ⟨h.1.trans (by rw [Border.lineSlot, hl]), h.2 ▸ .measured _⟩
  · exact ⟨h.1, h.2 ▸ .fromEnd _⟩

theorem of_mem_setMargin {b : Border} (h : .write slot x ∈ setMargin s d b v) :
    slot = b.marginSlot d ∧ WorkedOut s v x := by
  simp only [setMargin, List.mem_append, not_mem_measuring, false_or, List.mem_singleton,
    Effect.write.injEq] at h
  exact ⟨h.1, h.2 ▸ .measured _⟩

/-- A setter writes to its slots, and what it writes it has worked out from its length. -/
theorem of_mem_setLength {setter : Setter} (h : .write slot x ∈ setLength s d v setter) :
    slot ∈ setter.slots d ∧ WorkedOut s v x := by
  cases setter with
  | inset b => exact (of_mem_setInset h).imp_left List.mem_singleton.2
  | center a =>
    simp only [setLength, setCenter, List.mem_append, not_mem_measuring, false_or] at h
    simp at h
    exact ⟨List.mem_singleton.2 h.1, h.2 ▸ .fromMiddle a⟩
  | span a =>
    rcases List.mem_append.1 h with h | h
    · exact (of_mem_setInset h).imp_left fun hslot => by simp [Setter.slots, hslot]
    · exact (of_mem_setInset h).imp_left fun hslot => by simp [Setter.slots, hslot]
  | all =>
    obtain ⟨b, hb, h⟩ := List.mem_flatMap.1 h
    obtain ⟨hslot, hx⟩ := of_mem_setInset h
    exact ⟨hslot ▸ List.mem_map_of_mem hb, hx⟩
  | size a | minSize a | maxSize a =>
    simp only [setLength, setSize, List.mem_append, not_mem_measuring, false_or] at h
    exact (of_mem_writeSize h).imp_left List.mem_singleton.2
  | square =>
    simp only [setLength, List.mem_append, not_mem_measuring, false_or] at h
    rcases h with h | h
    · exact (of_mem_writeSize h).imp_left fun hslot => by simp [Setter.slots, hslot]
    · exact (of_mem_writeSize h).imp_left fun hslot => by simp [Setter.slots, hslot]
  | margin b => exact (of_mem_setMargin h).imp_left List.mem_singleton.2
  | margins a =>
    rcases List.mem_append.1 h with h | h
    · exact (of_mem_setMargin h).imp_left fun hslot => by simp [Setter.slots, hslot]
    · exact (of_mem_setMargin h).imp_left fun hslot => by simp [Setter.slots, hslot]

theorem warns_writeSize (hx : ¬Scalar.isFinite x) (slot : Slot) :
    Effect.Warns (writeSize slot x) := by
  unfold writeSize
  split_ifs
  · exact .of_warn List.mem_cons_self
  · exact .of_write List.mem_cons_self hx

variable [Scalar.Strict α]

theorem not_finite_of_workedOut {y : α} (hy : ¬Scalar.isNumber y) (h : WorkedOut s (.points y) x) :
    ¬Scalar.isFinite x := by
  have hfinite : ¬Scalar.isFinite y := mt Scalar.Strict.isNumber_of_finite hy
  intro hx
  cases h with
  | measured a => exact hfinite hx
  | fromEnd a => exact hfinite (Scalar.Strict.finite_of_sub hx).2
  | fromMiddle a => exact hfinite (Scalar.Strict.finite_of_add hx).2
  | cut a hneg => exact hy (Scalar.Strict.isNumber_of_lt hneg).1

/-- A percentage is warned of where it is negative, and else what it measures is not finite. -/
theorem warns_measuring_or (h : v.Stray) (s : Site α) :
    (∀ name, Effect.Warns (measuring name v)) ∨ ∀ a, ¬Scalar.isFinite (measured s a v) := by
  cases v with
  | points y => exact .inr fun _ => h.notFinite
  | percent p =>
    by_cases hneg : p < 0
    · refine .inl fun name => .of_warn (w := .negativePercent name p) ?_
      simp [measuring, hneg]
    · refine .inr fun a hfinite => h.notFinite ?_
      rw [measured, Length.resolve, Scalar.pos_of_infinite (h.isNumber rfl) h.notFinite hneg]
        at hfinite
      exact (Scalar.Strict.finite_of_mul (Scalar.Strict.finite_of_div hfinite)).1

theorem warns_setInset (h : v.Stray) (b : Border) : Effect.Warns (setInset s d b v) := by
  rcases warns_measuring_or h s with hwarns | hx
  · exact (hwarns _).append_left
  · simp only [setInset]
    split_ifs with hl
    · exact .of_write (List.mem_append_right _ List.mem_cons_self) (hx _)
    · exact .of_write (List.mem_append_right _ (List.mem_cons_of_mem _ List.mem_cons_self))
        fun hfinite => hx _ (Scalar.Strict.finite_of_sub hfinite).2

theorem warns_setMargin (h : v.Stray) (b : Border) : Effect.Warns (setMargin s d b v) := by
  rcases warns_measuring_or h s with hwarns | hx
  · exact (hwarns _).append_left
  · exact .of_write (List.mem_append_right _ List.mem_cons_self) (hx _)

theorem warns_setCenter (h : v.Stray) (a : Axis) : Effect.Warns (setCenter s a v) := by
  rcases warns_measuring_or h s with hwarns | hx
  · exact (hwarns _).append_left
  · exact .of_write (List.mem_append_right _ (List.mem_cons_of_mem _ List.mem_cons_self))
      fun hfinite => hx _ (Scalar.Strict.finite_of_add hfinite).2

theorem warns_setSize (h : v.Stray) (slot : Slot) (a : Axis) :
    Effect.Warns (setSize s slot a v) := by
  rcases warns_measuring_or h s with hwarns | hx
  · exact (hwarns _).append_left
  · exact (warns_writeSize (hx a) slot).append_right

/-- A setter warns of a length that is not finite. -/
theorem warns_setLength (h : v.Stray) (setter : Setter) :
    Effect.Warns (setLength s d v setter) := by
  cases setter with
  | inset b => exact warns_setInset h b
  | center a => exact warns_setCenter h a
  | span a => exact (warns_setInset h _).append_left
  | all =>
    rw [setLength, List.flatMap_cons]
    exact (warns_setInset h _).append_left
  | size a | minSize a | maxSize a => exact warns_setSize h _ a
  | square =>
    rcases warns_measuring_or h s with hwarns | hx
    · exact (hwarns _).append_left.append_left
    · exact (warns_writeSize (hx _) _).append_right
  | margin b => exact warns_setMargin h b
  | margins a => exact (warns_setMargin h _).append_left

theorem warns_effects {a : Argument α} (ha : a ∈ c.arguments d) (h : a.length.Stray) :
    Effect.Warns (c.effects s d) := by
  rcases c.arguments_eq d with ⟨r, rfl⟩ | heq
  · obtain rfl := List.mem_singleton.1 ha
    have hratio : ¬(Scalar.isFinite r ∧ 0 < r) := fun hr => h.notFinite hr.1
    rw [effects, setRatio, if_neg hratio]
    exact .of_warn List.mem_cons_self
  · rw [heq] at ha
    obtain ⟨y, hy, rfl⟩ := List.mem_map.1 ha
    obtain ⟨before, after, hsplit⟩ := List.append_of_mem hy
    rw [effects_of_settings (List.ne_nil_of_mem hy), hsplit, List.flatMap_append, List.flatMap_cons]
    exact (warns_setLength h y.1).append_left.append_right

/-- A slot whose argument is no number is left alone. -/
theorem value_gathered_of_argument {a : Argument α} (ha : a ∈ c.arguments d) {y : α}
    (hlength : a.length = .points y) (hy : ¬Scalar.isNumber y) (hslot : slot ∈ a.slots) :
    (c.gathered s d).value slot = none := by
  refine Effect.value_gatheredAll_of_refused fun x hx => ?_
  rcases c.arguments_eq d with ⟨r, rfl⟩ | heq
  · obtain rfl := List.mem_singleton.1 ha
    cases hlength
    have hratio : ¬(Scalar.isFinite y ∧ 0 < y) := fun hr =>
      hy (Scalar.Strict.isNumber_of_finite hr.1)
    simp [effects, setRatio, hratio] at hx
  · rw [heq] at ha
    obtain ⟨p, hp, rfl⟩ := List.mem_map.1 ha
    rw [effects_of_settings (List.ne_nil_of_mem hp)] at hx
    obtain ⟨q, hq, hx⟩ := List.mem_flatMap.1 hx
    obtain ⟨hslot', hx⟩ := of_mem_setLength hx
    -- The slot is written for its own argument only.
    obtain rfl := eq_of_mem_slots hp hq hslot hslot'
    have hlength : p.2 = .points y := hlength
    rw [hlength] at hx
    exact not_finite_of_workedOut hy hx

omit [Scalar.Strict α] in
/-- So is a slot that no argument is for. -/
theorem value_gathered_of_notMem (hc : c.arguments d ≠ [])
    (h : ∀ a ∈ c.arguments d, slot ∉ a.slots) : (c.gathered s d).value slot = none := by
  refine Effect.value_gatheredAll_eq_none fun x hx => ?_
  rcases c.arguments_eq d with ⟨r, rfl⟩ | heq
  · exact h _ List.mem_cons_self (List.mem_singleton.2 (eq_of_mem_setRatio hx))
  · rw [heq] at hc h
    rw [effects_of_settings (mt List.map_eq_nil_iff.2 hc)] at hx
    obtain ⟨q, hq, hx⟩ := List.mem_flatMap.1 hx
    exact h _ (List.mem_map_of_mem hq) (of_mem_setLength hx).1

theorem measured_counted (v : Length α) (a : Axis) : measured s a v.counted = measured s a v := by
  cases v with
  | points y => rfl
  | percent p =>
    rw [Length.counted]
    split_ifs with hp
    · rfl
    · rw [measured, measured, Length.resolve, Length.resolve, Scalar.pos_of_not_isNumber hp,
        Scalar.pos, ite_self]

theorem measuring_counted (v : Length α) (name : String) :
    measuring name v.counted = measuring name v := by
  cases v with
  | points y => rfl
  | percent p =>
    rw [Length.counted]
    split_ifs with hp
    · rfl
    · have hneg : ¬p < 0 := fun hneg => hp (Scalar.Strict.isNumber_of_lt hneg).1
      rw [measuring, measuring, if_neg hneg, if_neg Scalar.Strict.not_zero_lt]

theorem setLength_counted (v : Length α) (setter : Setter) :
    setLength s d v.counted setter = setLength s d v setter := by
  cases setter <;>
    simp only [setLength, setInset, setCenter, setMargin, setSize, measuring_counted,
      measured_counted]

/-- A percentage that is no number is read as zero. -/
theorem effects_counted (c : Directive α) : c.counted.effects s d = c.effects s d := by
  cases c <;> simp only [counted, effects, setLength_counted]

end Directive

namespace Session

open Directive

variable (s : Session Float)

theorem value_issue_of_gathered {c : Directive Float} {slot : Slot}
    (h : (c.gathered s.site s.direction).value slot = none) :
    (s.issue c).constraints.value slot = s.constraints.value slot := by
  rw [issue_constraints]
  exact congrArg (Option.or · (s.constraints.value slot)) h

/-- An argument that is not finite is warned of, unless it is a percentage that is no number, and
the slots of an argument that is no number keep their values. Slots that no argument is for keep
theirs in any case. A percentage that is no number is read as zero. -/
theorem issue_nonfinite (c : Directive Float) :
    (∀ a ∈ c.arguments s.direction, a.length.number.isFinite = false →
      (a.length.number.isNaN → ∃ y, a.length = .points y) →
        (∃ w ws, (s.issue c).warnings = s.warnings ++ w :: ws)
        ∧ (a.length.number.isNaN → ∀ slot ∈ a.slots,
            (s.issue c).constraints.value slot = s.constraints.value slot))
    ∧ (c.arguments s.direction ≠ [] →
        ∀ slot, (∀ a ∈ c.arguments s.direction, slot ∉ a.slots) →
          (s.issue c).constraints.value slot = s.constraints.value slot)
    ∧ s.issue c.counted = s.issue c := by
  refine ⟨fun a ha hfinite hnan => ⟨?_, fun hno slot hslot => ?_⟩, fun hc slot hslot => ?_, ?_⟩
  · have hstray : a.length.Stray := by
      refine ⟨Bool.eq_false_iff.1 hfinite, fun {p} hp => ?_⟩
      rw [Double.isNumber_eq, Bool.not_eq_true', Bool.eq_false_iff]
      intro hno
      obtain ⟨y, hy⟩ := hnan (by rw [hp]; exact hno)
      rw [hp] at hy
      cases hy
    exact exists_warning (warns_effects ha hstray) s
  · obtain ⟨y, hy⟩ := hnan hno
    rw [hy] at hno
    refine s.value_issue_of_gathered (value_gathered_of_argument ha hy ?_ hslot)
    rw [Double.isNumber_eq, Bool.not_eq_true', Bool.not_eq_false]
    exact hno
  · exact s.value_issue_of_gathered (value_gathered_of_notMem hc hslot)
  · rw [issue, issue, effects_counted]

/-- A width that is no number is refused, beside a height that is taken. -/
theorem width_is_refused :
    let tree : Tree Float := ((∅ : Tree Float).addRoot "root" ⟨⟨0, 0⟩, ⟨300, 200⟩⟩).1
    let tree := (tree.addChild 0 "card" ⟨⟨0, 0⟩, ⟨0, 0⟩⟩).1
    let s := pass tree 1 .standard .ltr [.set (.size .horizontal) (.points 5)]
    let width : Argument Float := ⟨.points (0 / 0), [.size .horizontal]⟩
    let c : Directive Float := .sizes width.length (.percent 50)
    width ∈ c.arguments s.direction ∧ width.length.number.isFinite = false
      ∧ width.length.number.isNaN
      ∧ (∃ w ws, (s.issue c).warnings = s.warnings ++ w :: ws)
      ∧ (∀ slot ∈ width.slots, (s.issue c).constraints.value slot = s.constraints.value slot)
      ∧ (s.issue c).constraints.value (.size .horizontal) = some 5
      ∧ (s.issue c).constraints.value (.size .vertical) = some 100 := by
  intro tree₀ tree s width c
  have hmem : width ∈ c.arguments s.direction := List.mem_cons_self
  have hfinite : width.length.number.isFinite = false := by decide +kernel
  have hnan : width.length.number.isNaN := by decide +kernel
  obtain ⟨hwarns, hkept⟩ := (s.issue_nonfinite c).1 width hmem hfinite fun _ => ⟨_, rfl⟩
  exact ⟨hmem, hfinite, hnan, hwarns, hkept hnan, by decide +kernel, by decide +kernel⟩

/-- A percentage that is no number takes the place of a value, and nothing warns of it. -/
theorem percentage_is_taken_for_zero :
    let tree : Tree Float := ((∅ : Tree Float).addRoot "root" ⟨⟨0, 0⟩, ⟨300, 200⟩⟩).1
    let tree := (tree.addChild 0 "card" ⟨⟨0, 0⟩, ⟨0, 0⟩⟩).1
    let s := pass tree 1 .standard .ltr [.set (.inset (.low .vertical)) (.points 5)]
    let top : Argument Float := ⟨.percent (0 / 0), [.line .vertical .low]⟩
    let c : Directive Float := .set (.inset (.low .vertical)) top.length
    top ∈ c.arguments s.direction ∧ top.length.number.isNaN
      ∧ (s.issue c).warnings = s.warnings
      ∧ s.constraints.value (.line .vertical .low) = some 5
      ∧ (s.issue c).constraints.value (.line .vertical .low) = some 0 := by
  intro tree₀ tree s top c
  exact ⟨List.mem_cons_self, by decide +kernel, by decide +kernel, by decide +kernel,
    by decide +kernel⟩

end Session

end Pinning
