import Pinning.Text.EditDistance

/-!
Known names that a mistyped one may stand for.
-/

namespace Pinning

structure Suggestion where
  distance : Nat
  name : String
deriving DecidableEq

namespace Suggestion

/-- The order of preference: the nearer first, and among equally near ones by their text. -/
def le (s t : Suggestion) : Bool :=
  s.distance < t.distance || (s.distance = t.distance && s.name ≤ t.name)

/-- The three best of the known names at distance one to `bound` from `target`. -/
def best (known : List String) (target : String) (bound : Nat) : List String :=
  let near := (known.map fun n => ⟨EditDistance.distance n target, n⟩).filter
    fun s : Suggestion => 0 < s.distance ∧ s.distance ≤ bound
  ((near.mergeSort le).eraseReps.take 3).map (·.name)

end Suggestion

end Pinning
