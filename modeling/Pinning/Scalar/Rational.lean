import Pinning.Scalar

/-!
Fractions as coordinates: exact, and all of them finite.
-/

namespace Pinning

instance : Scalar Rat where
  ofNat _ := inferInstance
  decEq := inferInstance
  decLt := inferInstance
  decLe := inferInstance
  isFinite _ := true
  ofDecimal digits places := mkRat digits (Nat.pow 10 places)
  text := toString

end Pinning
