import Pinning.Decimal.Digits
import Pinning.Decimal.Shortest

/-!
Decimal literals: an optional sign, digits with at most one point among or beside them, an
optional exponent; and the words for the values that are not finite.
-/

namespace Pinning.Decimal

/-- The double nearest to the decimal. Magnitudes far beyond the range of doubles are settled
first, so that no power of ten grows with the exponent of the input. -/
def toFloat (d : Decimal) : Float :=
  let magnitude := (toString d.digits).length + d.exponent
  if d.digits = 0 ∨ magnitude < -400 then 0
  else if 400 < magnitude then 1 / 0
  else if d.exponent < 0 then Float.ofScientific d.digits true (-d.exponent).toNat
  else Float.ofScientific d.digits false d.exponent.toNat

/-- The exponent part of a literal, `e` included; an empty text is no exponent. -/
def exponent? : List Char → Option Int
  | [] => some 0
  | e :: cs =>
    if e = 'e' ∨ e = 'E' then
      match cs with
      | '-' :: ds => (digits? ds).map fun n => -(n : Int)
      | '+' :: ds => (digits? ds).map Int.ofNat
      | ds => (digits? ds).map Int.ofNat
    else none
where
  digits? (ds : List Char) : Option Nat :=
    if ds ≠ [] ∧ ds.all Char.isDigit then some (digitsValue ds) else none

/-- An unsigned literal. There is a digit before the point or after it. -/
def unsigned? (cs : List Char) : Option Decimal :=
  let whole := cs.takeWhile Char.isDigit
  let rest := cs.dropWhile Char.isDigit
  let (fraction, rest) :=
    match rest with
    | '.' :: rest => (rest.takeWhile Char.isDigit, rest.dropWhile Char.isDigit)
    | rest => ([], rest)
  if whole = [] ∧ fraction = [] then none
  else (exponent? rest).map fun e => ⟨digitsValue (whole ++ fraction), e - fraction.length⟩

/-- The double that a literal or a word denotes. -/
def readFloat? (text : String) : Option Float :=
  match text.toList with
  | '-' :: cs => (magnitude? cs).map (-·)
  | '+' :: cs => magnitude? cs
  | cs => magnitude? cs
where
  magnitude? (cs : List Char) : Option Float :=
    let word := String.ofList (cs.map Char.toLower)
    if word = "inf" ∨ word = "infinity" then some (1 / 0)
    else if word = "nan" then some (0 / 0)
    else (unsigned? cs).map toFloat

end Pinning.Decimal
