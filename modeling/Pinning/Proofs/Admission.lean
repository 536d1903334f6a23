import Pinning.Proofs.Accumulation

/-!
# What slots admit

Sizes are written as zero where they are negative, and a ratio is written only where it is positive;
other slots take any finite value (`Effect.IsPlain.gathered`). So whatever the tree holds, every slot
of a session has a value that it admits (`pass_admissible`).
-/

namespace Pinning

variable {α : Type} [Scalar α]

/-- Sizes are not negative and a ratio is positive; lines and margins may be anything. -/
def Slot.Admits : Slot → α → Prop
  | size _, v | minSize _, v | maxSize _, v => ¬ v < 0
  | aspectRatio, v => 0 < v
  | _, _ => True

theorem Slot.Takes.admits (zero_not_neg : ¬ (0 : α) < 0) {slot : Slot} {v : α}
    (h : slot.Takes v) : slot.Admits v := by
  cases slot with
  | size | minSize | maxSize =>
    rcases h with h | rfl
    · exact h
    · exact zero_not_neg
  | aspectRatio => exact h
  | line | marginLow | marginHigh => trivial

namespace Constraints

/-- Every slot that is set has a finite value that it admits. -/
def Admissible (c : Constraints α) : Prop :=
  ∀ slot, ∀ v ∈ c.value slot, Scalar.isFinite v = true ∧ slot.Admits v

variable {c c' : Constraints α}

theorem admissible_empty : (∅ : Constraints α).Admissible := fun _ _ h => by cases h

theorem Admissible.overlay (h : c.Admissible) (h' : c'.Admissible) : (c.overlay c').Admissible := by
  intro slot v hv
  rcases Option.or_eq_some_iff.1 hv with hv | ⟨-, hv⟩
  · exact h' slot v hv
  · exact h slot v hv

theorem admissible_overlayAll : ∀ {cs : List (Constraints α)}, (∀ c ∈ cs, c.Admissible) →
    (overlayAll cs).Admissible
  | [], _ => admissible_empty
  | c :: _, h => (h c List.mem_cons_self).overlay
      (admissible_overlayAll fun c' hc' => h c' (List.mem_cons_of_mem _ hc'))

end Constraints

section Sizes

variable (zero_not_neg : ¬ (0 : α) < 0)

include zero_not_neg

theorem Effect.IsPlain.gathered {e : Effect α} (h : e.IsPlain) : e.gathered.Admissible := by
  cases e with
  | write slot v =>
    simp only [Effect.gathered]
    split_ifs with hv
    · intro s x hx
      simp only [Constraints.set] at hx
      split_ifs at hx with hs
      · cases hx
        exact ⟨hv, hs ▸ h.admits zero_not_neg⟩
      · cases hx
    · exact Constraints.admissible_empty
  | _ => exact fun _ _ h => by cases h

theorem Directive.admissible_gathered (site : Site α) (d : Direction) (c : Directive α) :
    (c.gathered site d).Admissible := by
  have hplain : ∀ e ∈ c.effects site d, e.gathered.Admissible := by
    rcases plain_effects site d c with h | rfl | rfl | ⟨side, rfl⟩ | ⟨line, rfl⟩ | ⟨d', rfl⟩
    · exact fun e he => (h e he).gathered zero_not_neg
    -- The other five write nothing.
    all_goals
      intro e he
      rw [effects, List.mem_singleton] at he
      subst he
      exact fun _ _ h => by cases h
  refine Constraints.admissible_overlayAll fun c' hc' => ?_
  obtain ⟨e, he, rfl⟩ := List.mem_map.1 hc'
  exact hplain e he

end Sizes

/-- Whatever the tree holds, the slots of a session hold what they admit. -/
theorem Session.pass_admissible (zero_not_neg : ¬ (0 : α) < 0) (tree : Tree α) (node : NodeId)
    (config : Config α) (d : Direction) (cs : List (Directive α)) :
    (pass tree node config d cs).constraints.Admissible := by
  rw [pass_constraints]
  refine Constraints.admissible_overlayAll fun c hc => ?_
  obtain ⟨x, -, rfl⟩ := List.mem_map.1 hc
  simp only [alone_eq]
  exact Directive.admissible_gathered zero_not_neg _ _ _

end Pinning
