import Pinning.Decimal.Shortest

/-!
Decimals written out digit by digit, without an exponent.
-/

namespace Pinning.Decimal

/-- The decimal with every digit up to the units, and those after the point that there are. -/
def positional (d : Decimal) : String :=
  let digits := (toString d.digits).toList
  if 0 ≤ d.exponent then
    String.ofList (digits ++ List.replicate d.exponent.toNat '0')
  else
    let places := (-d.exponent).toNat
    let padded := List.replicate (places + 1 - digits.length) '0' ++ digits
    let whole := padded.length - places
    String.ofList (padded.take whole ++ '.' :: padded.drop whole)

example : positional ⟨123, 2⟩ = "12300" := by decide

example : positional ⟨123, -2⟩ = "1.23" := by decide

example : positional ⟨123, -4⟩ = "0.0123" := by decide

end Pinning.Decimal
