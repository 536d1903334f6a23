/-!
The shortest decimal that reads back as a given double.

Every double owns a cell of the real line: the numbers that round to it. Among the decimals of the
cell those with the fewest digits lie on the coarsest grid `10 ^ e` that meets the cell, and on
that grid one of the two neighbours of the double itself is in the cell if any point is
(`Cell.onGrid`). `Cell.shortest` walks from a grid coarser than the double down to that one.
-/

namespace Pinning

/-- The number `digits * 10 ^ exponent`. -/
structure Decimal where
  digits : Nat
  exponent : Int
deriving DecidableEq

namespace Decimal

/-- The numbers that read as one positive double, in units of `2 ^ scale`. -/
structure Cell where
  low : Nat
  value : Nat
  high : Nat
  scale : Int
  /-- Whether the two ends belong to the cell, which is so for doubles with an even significand. -/
  closed : Bool

/-- The cell of the positive double with these bits: 52 of fraction below 11 of binade. Below a
power of two doubles lie twice as dense as above it, so there the cell reaches half as far down. -/
def Cell.ofBits (bits : Nat) : Cell :=
  let fraction := bits % 0x10000000000000
  let binade := bits / 0x10000000000000 % 0x800
  let significand := if binade = 0 then fraction else fraction + 0x10000000000000
  { low := 4 * significand - if fraction = 0 ∧ 1 < binade then 1 else 2
    value := 4 * significand
    high := 4 * significand + 2
    scale := (Nat.max binade 1 : Int) - 1077
    closed := significand % 2 = 0 }

/-- The multiple of `10 ^ e` nearest to the double among those in its cell, upwards if two are
equally near. -/
def Cell.onGrid (c : Cell) (e : Int) : Option Nat :=
  -- one step of the grid and one unit of the cell over a common denominator
  let step := Nat.pow 10 e.toNat * Nat.pow 2 (-c.scale).toNat
  let unit := Nat.pow 10 (-e).toNat * Nat.pow 2 c.scale.toNat
  let inside (n : Nat) : Bool :=
    if c.closed then c.low * unit ≤ n * step ∧ n * step ≤ c.high * unit
    else c.low * unit < n * step ∧ n * step < c.high * unit
  let below := c.value * unit / step
  match inside below, inside (below + 1) with
  | true, true => if 2 * (c.value * unit % step) < step then some below else some (below + 1)
  | true, false => some below
  | false, true => some (below + 1)
  | false, false => none

/-- An exponent whose power of ten exceeds the double: `30103 / 100000` is a little more than the
decimal logarithm of two. -/
def Cell.topGrid (c : Cell) : Int :=
  ((Nat.log2 c.value + 1 : Int) + c.scale) * 30103 / 100000 + 1

/-- A decimal of the cell with the fewest digits. Twenty grids are enough: seventeen digits tell
any two doubles apart. -/
def Cell.shortest (c : Cell) : Decimal :=
  go 20 c.topGrid
where
  go : Nat → Int → Decimal
    | 0, e => ⟨0, e⟩
    | n + 1, e =>
      match c.onGrid e with
      | some digits => ⟨digits, e⟩
      | none => go n (e - 1)

end Decimal

end Pinning
