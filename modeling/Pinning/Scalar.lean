/-!
The numbers that coordinates are made of. Layout adds, compares, reads and prints them and needs
nothing else, so it is written for any type with these operations: doubles run, exact fractions
are what the laws of layout speak of. A value may fail to be a number (`isNumber`), and then it
compares with nothing.
-/

namespace Pinning

class Scalar (α : Type) where
  [toAdd : Add α]
  [toSub : Sub α]
  [toMul : Mul α]
  [toDiv : Div α]
  [toNeg : Neg α]
  [toLT : LT α]
  [toLE : LE α]
  ofNat (n : Nat) : OfNat α n
  decEq : DecidableEq α
  decLt (x y : α) : Decidable (x < y)
  decLe (x y : α) : Decidable (x ≤ y)
  isFinite : α → Bool
  /-- The value nearest to `digits / 10 ^ places`. -/
  ofDecimal (digits places : Nat) : α
  text : α → String

section Operations

/-! A type's own instances of these go first. -/

variable {α : Type} [Scalar α]

instance (priority := low) Scalar.instAdd : Add α := Scalar.toAdd
instance (priority := low) Scalar.instSub : Sub α := Scalar.toSub
instance (priority := low) Scalar.instMul : Mul α := Scalar.toMul
instance (priority := low) Scalar.instDiv : Div α := Scalar.toDiv
instance (priority := low) Scalar.instNeg : Neg α := Scalar.toNeg
instance (priority := low) Scalar.instLT : LT α := Scalar.toLT
instance (priority := low) Scalar.instLE : LE α := Scalar.toLE
instance (priority := low) Scalar.instOfNat (n : Nat) : OfNat α n := Scalar.ofNat n
instance (priority := low) Scalar.instDecidableEq : DecidableEq α := Scalar.decEq
instance (priority := low) Scalar.instDecidableLt (x y : α) : Decidable (x < y) := Scalar.decLt x y
instance (priority := low) Scalar.instDecidableLe (x y : α) : Decidable (x ≤ y) := Scalar.decLe x y

end Operations

namespace Scalar

variable {α : Type} [Scalar α]

def isNumber (x : α) : Bool := decide (x ≤ x)

def abs (x : α) : α := if x < 0 then -x else x

/-- The positive part: what is negative or no number counts as zero. -/
def pos (x : α) : α := if 0 < x then x else 0

/-- The smaller of the two; one that is no number gives way to the other. -/
def min (x y : α) : α := if y < x then y else if isNumber x then x else y

/-- The greater of the two; one that is no number gives way to the other. -/
def max (x y : α) : α := if x < y then y else if isNumber x then x else y

/-- Numeric equality, which does not see the sign of zero and holds of no value that is no
number. -/
def agrees (x y : α) : Bool := decide (x ≤ y) && decide (y ≤ x)

/-- The distance below which a length cannot be divided by: `2 ^ (-52)`. -/
def epsilon : α := 1 / 4503599627370496

end Scalar

end Pinning
