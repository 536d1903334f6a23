import Pinning.Proofs.Rows

/-!
# Two rows are enough

A row is made of the one before and of nothing else, so it can be written over the one before that,
entry by entry from the left. What an entry is made of has then been written already
(`getElem?_nextRow_fill`), and what is still there of the older row is never looked at: whatever the
spare row holds to begin with, two rows that trade places come to the same distance
(`distanceInPlace_eq`).
-/

namespace Pinning.EditDistance

/-- The row after `above` with its entries up to the one at `k` written over those of `row`, which
has its first entry already. -/
def fill (c : Char) (b : List Char) (above : Vector Nat (b.length + 1)) :
    (k : Nat) → k ≤ b.length → Vector Nat (b.length + 1) → Vector Nat (b.length + 1)
  | 0, _, row => row
  | k + 1, h, row =>
    let row := fill c b above k (Nat.le_of_succ_le h) row
    let here := min (min (above[k + 1] + 1) (row[k] + 1)) (above[k] + if c = b[k] then 0 else 1)
    row.set (k + 1) here

/-- The row that was written last, and the one to write over. -/
structure Rows (b : List Char) where
  last : Vector Nat (b.length + 1)
  spare : Vector Nat (b.length + 1)

namespace Rows

variable {b : List Char}

/-- The row of the first `i + 1` characters is written over the spare one, and the two trade
places. -/
def advance (s : Rows b) (c : Char) (i : Nat) : Rows b where
  last := fill c b s.last b.length (Nat.le_refl _) (s.spare.set 0 (i + 1))
  spare := s.last

/-- The rows after all of `a`. -/
def after (a : List Char) (s : Rows b) : Rows b :=
  a.zipIdx.foldl (fun s x => s.advance x.1 x.2) s

end Rows

/-- The distance as two rows come to it, the spare one with any entries at first. -/
def distanceInPlace (a b : String) (spare : Vector Nat (b.toList.length + 1)) : Nat :=
  (Rows.after a.toList ⟨.range (b.toList.length + 1), spare⟩).last[b.toList.length]

section Fill

variable (c : Char) {b : List Char} {above row : Vector Nat (b.length + 1)}

theorem getElem?_toList {n j : Nat} (v : Vector Nat n) (h : j < n) : v.toList[j]? = some v[j] := by
  simp [h]

/-- The entries up to the one at `k` are those of the next row, whatever came after them before. -/
theorem getElem?_nextRow_fill (hrow : row[0] = above[0] + 1) {k j : Nat} (hk : k ≤ b.length)
    (hj : j ≤ k) : (nextRow c b above.toList)[j]? = some (fill c b above k hk row)[j] := by
  induction k generalizing j with
  | zero =>
    obtain rfl := Nat.le_zero.1 hj
    rw [getElem?_nextRow_zero c (getElem?_toList above (Nat.zero_lt_succ _)), ← hrow, fill]
  | succ k ih =>
    have hk' : k ≤ b.length := Nat.le_of_succ_le hk
    simp only [fill]
    rcases Nat.lt_or_eq_of_le hj with hlt | rfl
    · rw [Vector.getElem_set_ne _ _ (Nat.ne_of_gt hlt)]
      exact ih hk' (Nat.le_of_lt_succ hlt)
    · have hx : b[k]? = some b[k] := List.getElem?_eq_getElem hk
      have hupLeft := getElem?_toList above (Nat.lt_succ_of_le hk')
      have hup := getElem?_toList above (Nat.lt_succ_of_le hk)
      rw [getElem?_nextRow_succ c hx hupLeft hup (ih hk' (Nat.le_refl k)), Vector.getElem_set_self]

theorem toList_fill (hrow : row[0] = above[0] + 1) :
    (fill c b above b.length (Nat.le_refl _) row).toList = nextRow c b above.toList := by
  refine List.ext_getElem? fun j => ?_
  rcases Nat.lt_or_ge b.length j with hj | hj
  · have hlength := length_nextRow c (b := b) above.length_toList
    rw [List.getElem?_eq_none (by simp; omega), List.getElem?_eq_none (by omega)]
  · rw [getElem?_nextRow_fill c hrow (Nat.le_refl _) hj, getElem?_toList _ (Nat.lt_succ_of_le hj)]

end Fill

namespace Rows

variable {b : List Char} (s : Rows b)

theorem after_concat (a : List Char) (c : Char) :
    s.after (a ++ [c]) = (s.after a).advance c a.length := by
  simp [after, List.zipIdx_append]

theorem toList_last_advance (c : Char) {i : Nat} (h : s.last[0] = i) :
    (s.advance c i).last.toList = nextRow c b s.last.toList :=
  toList_fill c (by rw [Vector.getElem_set_self, h])

/-- The row that was written last is the row of all of `a`. -/
theorem toList_last_after (h : s.last.toList = List.range (b.length + 1)) (a : List Char) :
    (s.after a).last.toList = lastRow a b := by
  induction a using List.reverseRecOn with
  | nil => exact h
  | append_singleton a c ih =>
    have hfirst : (s.after a).last[0] = a.length := by
      have hentry := getElem?_lastRow_zero a b
      rw [← ih, getElem?_toList _ (Nat.zero_lt_succ _), Option.some.injEq] at hentry
      exact hentry
    rw [after_concat, toList_last_advance _ _ hfirst, ih, lastRow_concat]

end Rows

/-- Two rows that trade places come to the distance, whatever the spare one holds at first. -/
theorem distanceInPlace_eq (a b : String) (spare : Vector Nat (b.toList.length + 1)) :
    distanceInPlace a b spare = distance a b := by
  have hlast := Rows.toList_last_after ⟨.range (b.toList.length + 1), spare⟩ Array.toList_range
    a.toList
  rw [distance, ← hlast, List.getLast?_eq_getElem?, Vector.length_toList, Nat.add_sub_cancel,
    getElem?_toList _ (Nat.lt_succ_self _)]
  rfl

example : distanceInPlace "kitten" "sitting" (.replicate _ 9) = 3 := by decide

end Pinning.EditDistance
