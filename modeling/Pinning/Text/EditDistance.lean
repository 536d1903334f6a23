/-!
Edit distance: the least number of insertions, deletions and substitutions of single characters
that turn one text into another, row by row.
-/

namespace Pinning.EditDistance

/-- The distances of `a ++ [c]` from the beginnings of `b`, given those of `a`. -/
def nextRow (c : Char) (b : List Char) : List Nat → List Nat
  | [] => []
  | up :: ups => go (up + 1) up b ups
where
  /-- The entries from `left` on. `diag` stands above `left`, and `ups` above what follows it. -/
  go (left diag : Nat) : List Char → List Nat → List Nat
    | x :: b, up :: ups =>
      let here := min (min (up + 1) (left + 1)) (diag + if c = x then 0 else 1)
      left :: go here up b ups
    | _, _ => [left]

/-- The distances of `a` from the beginnings of `b`, the shortest first. -/
def lastRow (a b : List Char) : List Nat :=
  a.foldl (fun row c => nextRow c b row) (List.range (b.length + 1))

def distance (a b : String) : Nat := ((lastRow a.toList b.toList).getLast?).getD 0

example : distance "kitten" "sitting" = 3 := by decide

end Pinning.EditDistance
