import Mathlib.Data.List.Induction
import Pinning.Text.EditDistance

/-!
# The rows of the edit distance

A row starts with the number of characters it stands for (`getElem?_lastRow_zero`). Every other
entry is made of the one above it, the one on its left and the one between the two
(`getElem?_nextRow_succ`).
-/

namespace Pinning.EditDistance

variable (c : Char)

theorem length_go : ∀ (left diag : Nat) {b : List Char} {ups : List Nat}, ups.length = b.length →
    (nextRow.go c left diag b ups).length = b.length + 1
  | _, _, [], [], _ => rfl
  | _, _, x :: b, up :: ups, h => by
    rw [nextRow.go, List.length_cons, length_go _ _ (Nat.succ.inj h), List.length_cons]

theorem getElem?_go_zero (left diag : Nat) (b : List Char) (ups : List Nat) :
    (nextRow.go c left diag b ups)[0]? = some left := by
  cases b <;> cases ups <;> rfl

/-- `diag :: ups` is the row above, and `left` is where the row begins. -/
theorem getElem?_go_succ : ∀ {left diag : Nat} {b : List Char} {ups : List Nat} {j : Nat} {x : Char}
    {up upLeft before : Nat}, b[j]? = some x → (diag :: ups)[j]? = some upLeft →
    ups[j]? = some up → (nextRow.go c left diag b ups)[j]? = some before →
    (nextRow.go c left diag b ups)[j + 1]?
      = some (min (min (up + 1) (before + 1)) (upLeft + if c = x then 0 else 1))
  | left, diag, x :: b, up :: ups, 0, _, _, _, _, hx, hupLeft, hup, hbefore => by
    simp only [List.getElem?_cons_zero, Option.some.injEq] at hx hupLeft hup
    rw [getElem?_go_zero, Option.some.injEq] at hbefore
    subst hx hupLeft hup hbefore
    rw [nextRow.go, List.getElem?_cons_succ, getElem?_go_zero]
  | left, diag, x :: b, up :: ups, j + 1, _, _, _, _, hx, hupLeft, hup, hbefore => by
    rw [nextRow.go, List.getElem?_cons_succ] at hbefore ⊢
    exact getElem?_go_succ hx hupLeft hup hbefore

theorem length_nextRow {b : List Char} {row : List Nat} (h : row.length = b.length + 1) :
    (nextRow c b row).length = b.length + 1 := by
  cases row with
  | nil => cases h
  | cons up ups => exact length_go c _ _ (Nat.succ.inj h)

theorem getElem?_nextRow_zero {b : List Char} {row : List Nat} {up : Nat}
    (hup : row[0]? = some up) : (nextRow c b row)[0]? = some (up + 1) := by
  cases row with
  | nil => cases hup
  | cons _ ups =>
    cases hup
    exact getElem?_go_zero c _ _ b ups

theorem getElem?_nextRow_succ {b : List Char} {row : List Nat} {j : Nat} {x : Char}
    {up upLeft before : Nat} (hx : b[j]? = some x) (hupLeft : row[j]? = some upLeft)
    (hup : row[j + 1]? = some up) (hbefore : (nextRow c b row)[j]? = some before) :
    (nextRow c b row)[j + 1]?
      = some (min (min (up + 1) (before + 1)) (upLeft + if c = x then 0 else 1)) := by
  cases row with
  | nil => cases hupLeft
  | cons _ ups => exact getElem?_go_succ c hx hupLeft hup hbefore

theorem lastRow_concat (a b : List Char) :
    lastRow (a ++ [c]) b = nextRow c b (lastRow a b) := by
  rw [lastRow, List.foldl_append]
  rfl

theorem length_lastRow (a b : List Char) : (lastRow a b).length = b.length + 1 := by
  induction a using List.reverseRecOn with
  | nil => exact List.length_range
  | append_singleton a c ih => rw [lastRow_concat, length_nextRow c ih]

theorem getElem?_lastRow_zero (a b : List Char) : (lastRow a b)[0]? = some a.length := by
  induction a using List.reverseRecOn with
  | nil => simp [lastRow]
  | append_singleton a c ih =>
    rw [lastRow_concat, getElem?_nextRow_zero c ih, List.length_append, List.length_singleton]

end Pinning.EditDistance
