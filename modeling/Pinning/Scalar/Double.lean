import Pinning.Decimal.Positional
import Pinning.Decimal.Reading
import Pinning.Scalar

/-!
Doubles as coordinates. They print with the fewest digits that read back, never with an exponent
and without a point where the value is whole.
-/

namespace Pinning

namespace Double

def text (x : Float) : String :=
  if x.isNaN then "NaN"
  else
    let bits := x.toBits.toNat
    let sign := if bits < 0x8000000000000000 then "" else "-"
    sign ++
      if x.isInf then "inf"
      else if bits % 0x8000000000000000 = 0 then "0"
      else (Decimal.Cell.ofBits bits).shortest.positional

end Double

instance : Scalar Float where
  ofNat _ := inferInstance
  decEq := inferInstance
  decLt := inferInstance
  decLe := inferInstance
  isFinite := Float.isFinite
  ofDecimal digits places := Decimal.toFloat ⟨digits, -places⟩
  text := Double.text

end Pinning
