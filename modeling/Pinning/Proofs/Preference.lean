import Mathlib.Data.List.Sort
import Mathlib.Data.Prod.Lex
import Pinning.Proofs.ByteOrder
import Pinning.Proofs.Edits
import Pinning.Scene.Error

/-!
# Suggestions are the best ones

Candidates are ordered by their distance, and at the same distance by their bytes
(`Suggestion.key`). Sorting brings equal ones together, so that leaving out repetitions makes the
order strict and loses none (`pairwise_ranked`, `mem_ranked`). The first three of what is left are
preferred to all others (`Suggestion.BestOf`), and they depend on the set of the known names alone,
for a strictly ordered list is determined by its members.
-/

namespace Pinning

namespace Suggestion

section EraseReps

variable {β : Type} [DecidableEq β]

theorem mem_eraseReps_loop {x : β} : ∀ {a : β} {as acc : List β},
    x ∈ List.eraseRepsBy.loop (· == ·) a as acc ↔ x ∈ acc ∨ x = a ∨ x ∈ as
  | a, [], acc => by simp [List.eraseRepsBy.loop, or_comm]
  | a, b :: as, acc => by
    by_cases h : a = b
    · subst h
      rw [List.eraseRepsBy.loop, beq_self_eq_true]
      simp only [mem_eraseReps_loop, List.mem_cons]
      tauto
    · rw [List.eraseRepsBy.loop, beq_false_of_ne h]
      simp only [mem_eraseReps_loop, List.mem_cons]
      tauto

theorem mem_eraseReps {x : β} {l : List β} : x ∈ l.eraseReps ↔ x ∈ l := by
  cases l with
  | nil => rfl
  | cons a as => simp only [List.eraseReps, List.eraseRepsBy, mem_eraseReps_loop, List.mem_cons,
      List.not_mem_nil, false_or]

variable {γ : Type} [LinearOrder γ] {key : β → γ} (hkey : Function.Injective key)

include hkey

theorem pairwise_eraseReps_loop : ∀ {a : β} {as acc : List β},
    (a :: as).Pairwise (fun x y => key x ≤ key y) → (a :: acc).Pairwise (fun x y => key y < key x) →
    (List.eraseRepsBy.loop (· == ·) a as acc).Pairwise fun x y => key x < key y
  | a, [], acc, _, hacc => by
    rw [List.eraseRepsBy.loop, List.pairwise_reverse]
    exact hacc
  | a, b :: as, acc, hsorted, hacc => by
    obtain ⟨hhead, htail⟩ := List.pairwise_cons.1 hsorted
    by_cases h : a = b
    · subst h
      rw [List.eraseRepsBy.loop, beq_self_eq_true]
      exact pairwise_eraseReps_loop htail hacc
    · rw [List.eraseRepsBy.loop, beq_false_of_ne h]
      have hlt : key a < key b := (hhead b List.mem_cons_self).lt_of_ne (hkey.ne h)
      refine pairwise_eraseReps_loop htail (List.pairwise_cons.2 ⟨fun x hx => ?_, hacc⟩)
      rcases List.mem_cons.1 hx with rfl | hx
      · exact hlt
      · exact ((List.pairwise_cons.1 hacc).1 x hx).trans hlt

/-- In a sorted list without repetitions each element is strictly before the next ones. -/
theorem pairwise_eraseReps {l : List β} (h : l.Pairwise fun x y => key x ≤ key y) :
    l.eraseReps.Pairwise fun x y => key x < key y := by
  cases l with
  | nil => exact .nil
  | cons a as => exact pairwise_eraseReps_loop hkey h (List.pairwise_singleton _ a)

end EraseReps

/-- What suggestions are compared by: the distance, then the text. -/
def key (s : Suggestion) : ℕ ×ₗ String := toLex (s.distance, s.name)

theorem key_injective : Function.Injective key := by
  rintro ⟨d, n⟩ ⟨e, m⟩ h
  obtain ⟨rfl, rfl⟩ : d = e ∧ n = m := by simpa [key] using h
  rfl

theorem le_iff {s t : Suggestion} : le s t = true ↔ s.key ≤ t.key := by
  simp only [le, key, Prod.Lex.toLex_le_toLex, Bool.or_eq_true, Bool.and_eq_true, decide_eq_true_eq]

/-- The candidates for a target, the preferred ones first. -/
def ranked (known : List String) (target : String) (bound : Nat) : List Suggestion :=
  (((known.map fun n => ⟨EditDistance.distance n target, n⟩).filter
    fun s : Suggestion => 0 < s.distance ∧ s.distance ≤ bound).mergeSort le).eraseReps

variable {known known' : List String} {target : String} {bound : Nat}

theorem best_eq : best known target bound = ((ranked known target bound).take 3).map name := rfl

theorem mem_ranked {s : Suggestion} : s ∈ ranked known target bound ↔ s.name ∈ known
    ∧ s.distance = EditDistance.distance s.name target ∧ 1 ≤ s.distance ∧ s.distance ≤ bound := by
  obtain ⟨d, n⟩ := s
  simp only [ranked, mem_eraseReps, List.mem_mergeSort, List.mem_filter, List.mem_map,
    Suggestion.mk.injEq, decide_eq_true_eq]
  constructor
  · rintro ⟨⟨m, hm, rfl, rfl⟩, hlow, hhigh⟩
    exact ⟨hm, rfl, hlow, hhigh⟩
  · rintro ⟨hn, rfl, hlow, hhigh⟩
    exact ⟨⟨n, hn, rfl, rfl⟩, hlow, hhigh⟩

theorem pairwise_ranked : (ranked known target bound).Pairwise fun s t => s.key < t.key := by
  refine pairwise_eraseReps key_injective ?_
  refine (List.pairwise_mergeSort (fun s t u => ?_) (fun s t => ?_) _).imp le_iff.1
  · simpa only [le_iff] using le_trans
  · simpa only [Bool.or_eq_true, le_iff] using le_total s.key t.key

/-- Only which names are known makes a difference. -/
theorem ranked_congr (h : ∀ n, n ∈ known' ↔ n ∈ known) :
    ranked known' target bound = ranked known target bound :=
  pairwise_ranked.eq_of_mem_iff pairwise_ranked fun s => by rw [mem_ranked, mem_ranked, h]

/-- A name is preferred to another as a stand-in for the target: it is nearer, or as near and first in
the order of bytes. -/
def Precedes (target m n : String) : Prop :=
  EditDistance.distance m target < EditDistance.distance n target
    ∨ EditDistance.distance m target = EditDistance.distance n target
      ∧ Text.bytes m < Text.bytes n

/-- What makes names the best three among the known ones at distance one to `bound`. -/
structure BestOf (known : List String) (target : String) (bound : Nat) (names : List String) :
    Prop where
  length_le : names.length ≤ 3
  nodup : names.Nodup
  mem_known : ∀ n ∈ names, n ∈ known
  ne_target : ∀ n ∈ names, n ≠ target
  near : ∀ n ∈ names, 1 ≤ EditDistance.distance n target
    ∧ EditDistance.distance n target ≤ bound
  increasing : names.Pairwise (Precedes target)
  complete : ∀ n ∈ known, 1 ≤ EditDistance.distance n target →
    EditDistance.distance n target ≤ bound → n ∉ names →
    names.length = 3 ∧ ∀ m ∈ names, Precedes target m n

theorem precedes_of_key_lt {s t : Suggestion}
    (hs : s.distance = EditDistance.distance s.name target)
    (ht : t.distance = EditDistance.distance t.name target) (h : s.key < t.key) :
    Precedes target s.name t.name := by
  simp only [key, Prod.Lex.toLex_lt_toLex] at h
  rwa [Precedes, ← hs, ← ht, ← Text.lt_iff_bytes_lt]

theorem mem_best {n : String} (h : n ∈ best known target bound) : n ∈ known
    ∧ 1 ≤ EditDistance.distance n target ∧ EditDistance.distance n target ≤ bound := by
  rw [best_eq, List.mem_map] at h
  obtain ⟨s, hs, rfl⟩ := h
  obtain ⟨hknown, hdistance, hlow, hhigh⟩ := mem_ranked.1 (List.mem_of_mem_take hs)
  exact ⟨hknown, hdistance ▸ hlow, hdistance ▸ hhigh⟩

theorem pairwise_best : (best known target bound).Pairwise (Precedes target) := by
  rw [best_eq, List.pairwise_map]
  refine (pairwise_ranked.sublist (List.take_sublist 3 _)).imp_of_mem fun hs ht hlt => ?_
  exact precedes_of_key_lt (mem_ranked.1 (List.mem_of_mem_take hs)).2.1
    (mem_ranked.1 (List.mem_of_mem_take ht)).2.1 hlt

theorem precedes_of_not_mem_best {n : String} (hknown : n ∈ known)
    (hlow : 1 ≤ EditDistance.distance n target) (hhigh : EditDistance.distance n target ≤ bound)
    (hn : n ∉ best known target bound) : (best known target bound).length = 3
      ∧ ∀ m ∈ best known target bound, Precedes target m n := by
  obtain ⟨s, hs, rfl⟩ : ∃ s ∈ ranked known target bound, s.name = n :=
    ⟨⟨_, n⟩, mem_ranked.2 ⟨hknown, rfl, hlow, hhigh⟩, rfl⟩
  have hdrop : s ∈ (ranked known target bound).drop 3 := by
    rw [← List.take_append_drop 3 (ranked known target bound), List.mem_append] at hs
    refine hs.resolve_left fun htake => hn ?_
    rw [best_eq]
    exact List.mem_map_of_mem htake
  constructor
  · have hlength := List.length_pos_of_mem hdrop
    rw [List.length_drop] at hlength
    rw [best_eq, List.length_map, List.length_take]
    omega
  · intro m hm
    rw [best_eq, List.mem_map] at hm
    obtain ⟨t, ht, rfl⟩ := hm
    have hsorted : (ranked known target bound).Pairwise _ := pairwise_ranked
    rw [← List.take_append_drop 3 (ranked known target bound), List.pairwise_append] at hsorted
    have hlt : t.key < s.key := hsorted.2.2 t ht s hdrop
    exact precedes_of_key_lt (mem_ranked.1 (List.mem_of_mem_take ht)).2.1
      (mem_ranked.1 (List.mem_of_mem_drop hdrop)).2.1 hlt

theorem bestOf_best (known : List String) (target : String) (bound : Nat) :
    BestOf known target bound (best known target bound) where
  length_le := by
    rw [best_eq, List.length_map]
    exact List.length_take_le 3 _
  nodup := pairwise_best.imp fun h => by
    rintro rfl
    rcases h with h | ⟨-, h⟩
    · exact lt_irrefl _ h
    · exact List.lt_irrefl _ h
  mem_known _ hn := (mem_best hn).1
  ne_target := by
    rintro n hn rfl
    have hlow := (mem_best hn).2.1
    rw [EditDistance.distance_self] at hlow
    exact Nat.not_succ_le_zero 0 hlow
  near _ hn := (mem_best hn).2
  increasing := pairwise_best
  complete _ hknown hlow hhigh hn := precedes_of_not_mem_best hknown hlow hhigh hn

/-- The suggestions for an unknown name are the best ones, at distance two at most for a view and
three at most for a directive, and the order and the repetitions of the known names do not matter. -/
theorem suggests_best (known : List String) (target : String) :
    (∀ bound, BestOf known target bound (best known target bound))
      ∧ (∀ span, (SceneError.ofNode target span known).suggestions? = some (best known target 2)
        ∧ (SceneError.ofDirective target span known).suggestions? = some (best known target 3))
      ∧ ∀ known' : List String, (∀ n, n ∈ known' ↔ n ∈ known) → ∀ bound,
        best known' target bound = best known target bound := by
  refine ⟨bestOf_best known target, fun span => ⟨rfl, rfl⟩, fun known' h bound => ?_⟩
  rw [best_eq, best_eq, ranked_congr h]

/-- Four names are near to `heder`, three of them equally so. The last of these by its bytes is left
out, however often the others are declared and in what order. -/
theorem reader_is_left_out :
    let known := ["heder", "header", "feeder", "leader", "reader"]
    let known' := ["reader", "header", "heder", "leader", "header", "feeder"]
    BestOf known "heder" 2 ["header", "feeder", "leader"]
      ∧ Precedes "heder" "leader" "reader"
      ∧ (∀ n, n ∈ known' ↔ n ∈ known)
      ∧ best known' "heder" 2 = ["header", "feeder", "leader"] := by
  intro known known'
  have hbest : best known "heder" 2 = ["header", "feeder", "leader"] := by
    have hnear : (known.map fun n => (⟨EditDistance.distance n "heder", n⟩ : Suggestion)).filter
        (fun s => 0 < s.distance ∧ s.distance ≤ 2)
          = [⟨1, "header"⟩, ⟨2, "feeder"⟩, ⟨2, "leader"⟩, ⟨2, "reader"⟩] := by decide +kernel
    have hsorted : List.Pairwise (fun s t => le s t)
        [⟨1, "header"⟩, ⟨2, "feeder"⟩, ⟨2, "leader"⟩, ⟨2, "reader"⟩] := by decide +kernel
    rw [best, hnear, List.mergeSort_of_pairwise hsorted]
    rfl
  have hsame : ∀ n, n ∈ known' ↔ n ∈ known := fun n => by
    simp only [known, known', List.mem_cons, List.not_mem_nil]
    tauto
  obtain ⟨hbestOf, -, hcongr⟩ := suggests_best known "heder"
  have hnames := hbestOf 2
  rw [hbest] at hnames
  have hreader := hnames.complete "reader" (by decide) (by decide +kernel) (by decide +kernel)
    (by decide)
  exact ⟨hnames, hreader.2 "leader" (by decide), hsame, (hcongr known' hsame 2).trans hbest⟩

end Suggestion

end Pinning
