/-!
Digit strings and the numbers they stand for.
-/

namespace Pinning.Decimal

def digitsValue (cs : List Char) : Nat :=
  cs.foldl (fun n c => 10 * n + (c.toNat - '0'.toNat)) 0

end Pinning.Decimal
