import Mathlib.Order.Bounds.Basic
import Pinning.Proofs.InPlace

/-!
# The distance is the least number of edits

An edit inserts, deletes or substitutes one character, wherever it stands in a text. The recursion
from the first characters on (`recursive`) is reached by edits (`edits_recursive`), and one edit
changes it by one at most (`recursive_le_of_edit`), so that it is the least number of edits from one
text to the other (`isLeast_recursive`). Edits can be undone, read from the right and put together,
and so the least number does not care for the side that texts are read from (`recursive_reverse`).

An entry of a row is the recursion for the beginnings of two texts, read from the right
(`getElem?_lastRow`).
-/

namespace Pinning.EditDistance

/-- One character is inserted, deleted or substituted. -/
inductive Edit : List Char → List Char → Prop
  | insert (before after : List Char) (x : Char) : Edit (before ++ after) (before ++ x :: after)
  | delete (before after : List Char) (x : Char) : Edit (before ++ x :: after) (before ++ after)
  | substitute (before after : List Char) (x y : Char) :
      Edit (before ++ x :: after) (before ++ y :: after)

/-- A number of edits, one after the other, turns the first text into the second. -/
inductive Edits : Nat → List Char → List Char → Prop
  | none (a : List Char) : Edits 0 a a
  | next {n : Nat} {a b c : List Char} : Edit a b → Edits n b c → Edits (n + 1) a c

variable {m n : Nat} {a b c : List Char}

theorem Edit.symm (h : Edit a b) : Edit b a := by
  cases h with
  | insert before after x => exact .delete before after x
  | delete before after x => exact .insert before after x
  | substitute before after x y => exact .substitute before after y x

theorem Edit.cons (x : Char) (h : Edit a b) : Edit (x :: a) (x :: b) := by
  cases h with
  | insert before after y => exact .insert (x :: before) after y
  | delete before after y => exact .delete (x :: before) after y
  | substitute before after y z => exact .substitute (x :: before) after y z

theorem Edit.reverse (h : Edit a b) : Edit a.reverse b.reverse := by
  cases h with
  | insert before after x =>
    simpa using Edit.insert after.reverse before.reverse x
  | delete before after x =>
    simpa using Edit.delete after.reverse before.reverse x
  | substitute before after x y =>
    simpa using Edit.substitute after.reverse before.reverse x y

namespace Edits

theorem zero_iff : Edits 0 a b ↔ a = b := by
  constructor
  · intro h
    cases h
    rfl
  · rintro rfl
    exact .none a

theorem trans (h : Edits m a b) (h' : Edits n b c) : Edits (m + n) a c := by
  induction h with
  | none => rwa [Nat.zero_add]
  | next hedit _ ih =>
    rw [Nat.add_right_comm]
    exact .next hedit (ih h')

theorem symm (h : Edits n a b) : Edits n b a := by
  induction h with
  | none a => exact .none a
  | next hedit _ ih => exact ih.trans (.next hedit.symm (.none _))

theorem cons (x : Char) (h : Edits n a b) : Edits n (x :: a) (x :: b) := by
  induction h with
  | none a => exact .none (x :: a)
  | next hedit _ ih => exact .next (hedit.cons x) ih

theorem reverse (h : Edits n a b) : Edits n a.reverse b.reverse := by
  induction h with
  | none a => exact .none a.reverse
  | next hedit _ ih => exact .next hedit.reverse ih

theorem reverse_iff : Edits n a.reverse b.reverse ↔ Edits n a b := by
  refine ⟨fun h => ?_, reverse⟩
  simpa only [List.reverse_reverse] using h.reverse

end Edits

/-- The distance by the characters that the texts begin with: the first one goes, or comes, or
turns into the other's. -/
def recursive : List Char → List Char → Nat
  | [], b => b.length
  | a, [] => a.length
  | x :: a, y :: b =>
    min (min (recursive a (y :: b) + 1) (recursive (x :: a) b + 1))
      (recursive a b + if x = y then 0 else 1)
termination_by a b => a.length + b.length

theorem recursive_nil_left (b : List Char) : recursive [] b = b.length := by
  rw [recursive]

theorem recursive_nil_right (a : List Char) : recursive a [] = a.length := by
  cases a with
  | nil => exact recursive_nil_left []
  | cons x a => simp [recursive]

theorem recursive_cons_cons (x y : Char) (a b : List Char) :
    recursive (x :: a) (y :: b)
      = min (min (recursive a (y :: b) + 1) (recursive (x :: a) b + 1))
          (recursive a b + if x = y then 0 else 1) := by
  rw [recursive]

theorem recursive_self : ∀ a : List Char, recursive a a = 0
  | [] => recursive_nil_left []
  | x :: a => by simp [recursive_cons_cons, recursive_self a]

theorem edits_nil : ∀ a : List Char, Edits a.length a []
  | [] => .none []
  | x :: a => .next (.delete [] a x) (edits_nil a)

theorem edits_recursive (a b : List Char) : Edits (recursive a b) a b := by
  induction a, b using recursive.induct with
  | case1 b =>
    rw [recursive_nil_left]
    exact (edits_nil b).symm
  | case2 a =>
    rw [recursive_nil_right]
    exact edits_nil a
  | case3 x a y b ihDelete ihInsert ihSubstitute =>
    have hdelete : Edits (recursive a (y :: b) + 1) (x :: a) (y :: b) :=
      .next (.delete [] a x) ihDelete
    have hinsert : Edits (recursive (x :: a) b + 1) (x :: a) (y :: b) :=
      .next (.insert [] (x :: a) y) (ihInsert.cons y)
    have hsubstitute : Edits (recursive a b + if x = y then 0 else 1) (x :: a) (y :: b) := by
      split_ifs with hxy
      · exact hxy ▸ ihSubstitute.cons x
      · exact .next (.substitute [] a x y) (ihSubstitute.cons y)
    rw [recursive_cons_cons]
    have hfirst := min_rec' (fun n => Edits n (x :: a) (y :: b)) hdelete hinsert
    exact min_rec' (fun n => Edits n (x :: a) (y :: b)) hfirst hsubstitute

/-- A character in front of a text adds one at most. -/
theorem recursive_cons_left_le (x : Char) (a b : List Char) :
    recursive (x :: a) b ≤ recursive a b + 1 := by
  cases b with
  | nil => simp [recursive_nil_right]
  | cons y b =>
    rw [recursive_cons_cons]
    omega

theorem recursive_cons_right_le (a : List Char) (y : Char) (b : List Char) :
    recursive a (y :: b) ≤ recursive a b + 1 := by
  cases a with
  | nil => simp [recursive_nil_left]
  | cons x a =>
    rw [recursive_cons_cons]
    omega

/-- Nor does it save more than one: what it is matched with can come instead. -/
theorem recursive_le_cons_left (x : Char) (a : List Char) : ∀ c : List Char,
    recursive a c ≤ recursive (x :: a) c + 1
  | [] => by
    rw [recursive_nil_right, recursive_nil_right, List.length_cons]
    omega
  | z :: c => by
    have ih := recursive_le_cons_left x a c
    have hright := recursive_cons_right_le a z c
    rw [recursive_cons_cons]
    omega

theorem recursive_substitute_le (x y : Char) (a : List Char) : ∀ c : List Char,
    recursive (x :: a) c ≤ recursive (y :: a) c + 1
  | [] => by
    rw [recursive_nil_right, recursive_nil_right, List.length_cons, List.length_cons]
    omega
  | z :: c => by
    have ih := recursive_substitute_le x y a c
    rw [recursive_cons_cons, recursive_cons_cons]
    split_ifs <;> omega

/-- What stands in front of two texts brings them no further apart. -/
theorem recursive_cons_congr (h : ∀ c, recursive a c ≤ recursive b c + 1) (x : Char) :
    ∀ c, recursive (x :: a) c ≤ recursive (x :: b) c + 1
  | [] => by
    have hnil := h []
    simp only [recursive_nil_right, List.length_cons] at hnil ⊢
    omega
  | z :: c => by
    have hhere := h c
    have hbehind := h (z :: c)
    have ih := recursive_cons_congr h x c
    rw [recursive_cons_cons, recursive_cons_cons]
    omega

theorem recursive_append_congr (h : ∀ c, recursive a c ≤ recursive b c + 1) :
    ∀ before c : List Char, recursive (before ++ a) c ≤ recursive (before ++ b) c + 1
  | [] => h
  | x :: before => recursive_cons_congr (recursive_append_congr h before) x

/-- One edit changes the recursion by one at most. -/
theorem recursive_le_of_edit (h : Edit a b) (c : List Char) :
    recursive a c ≤ recursive b c + 1 := by
  cases h with
  | insert before after x =>
    exact recursive_append_congr (recursive_le_cons_left x after) before c
  | delete before after x =>
    exact recursive_append_congr (recursive_cons_left_le x after) before c
  | substitute before after x y =>
    exact recursive_append_congr (recursive_substitute_le x y after) before c

theorem recursive_le_of_edits (h : Edits n a b) : recursive a b ≤ n := by
  induction h with
  | none a => exact (recursive_self a).le
  | next hedit _ ih => exact (recursive_le_of_edit hedit _).trans (Nat.succ_le_succ ih)

theorem isLeast_recursive (a b : List Char) : IsLeast {n | Edits n a b} (recursive a b) :=
  ⟨edits_recursive a b, fun _ h => recursive_le_of_edits h⟩

/-- It does not matter from which side the texts are read. -/
theorem recursive_reverse (a b : List Char) :
    recursive a.reverse b.reverse = recursive a b := by
  have h := isLeast_recursive a.reverse b.reverse
  simp only [Edits.reverse_iff] at h
  exact h.unique (isLeast_recursive a b)

/-- An entry of a row is the recursion for the beginnings of two texts, read from the right. -/
theorem getElem?_lastRow (a b : List Char) {j : Nat} (hj : j ≤ b.length) :
    (lastRow a b)[j]? = some (recursive a.reverse (b.take j).reverse) := by
  induction a using List.reverseRecOn generalizing j with
  | nil => simp [lastRow, recursive_nil_left, hj, Nat.lt_succ_of_le hj]
  | append_singleton a c ihRow =>
    -- Within a row by its entries: the two above are known, and so is the one on the left.
    rw [lastRow_concat, List.reverse_concat]
    induction j with
    | zero =>
      rw [getElem?_nextRow_zero c (ihRow (Nat.zero_le _)), List.take_zero, List.reverse_nil,
        recursive_nil_right, recursive_nil_right, List.length_cons]
    | succ j ihEntry =>
      have hx : b[j]? = some b[j] := List.getElem?_eq_getElem hj
      have htake : (b.take (j + 1)).reverse = b[j] :: (b.take j).reverse := by
        rw [List.take_succ_eq_append_getElem hj, List.reverse_concat]
      rw [getElem?_nextRow_succ c hx (ihRow (Nat.le_of_succ_le hj)) (ihRow hj)
        (ihEntry (Nat.le_of_succ_le hj)), htake, recursive_cons_cons]

theorem distance_eq_recursive (a b : String) :
    distance a b = recursive a.toList b.toList := by
  have hlast := getElem?_lastRow a.toList b.toList le_rfl
  rw [List.take_length, recursive_reverse] at hlast
  rw [distance, List.getLast?_eq_getElem?, length_lastRow, Nat.add_sub_cancel, hlast]
  rfl

theorem distance_self (text : String) : distance text text = 0 := by
  rw [distance_eq_recursive, recursive_self]

/-- The distance of two texts is the least number of edits that turn one into the other. It is what
the recursion comes to, and two rows are enough to work it out. So only a text itself is at distance
zero from it, the distance is the same from either text, and a way round by a third text is no
shorter. -/
theorem distance_isLeast (a b : String) :
    IsLeast {n | Edits n a.toList b.toList} (distance a b)
    ∧ distance a b = recursive a.toList b.toList
    ∧ (∀ spare, distanceInPlace a b spare = distance a b)
    ∧ (distance a b = 0 ↔ a = b)
    ∧ distance b a = distance a b
    ∧ ∀ c, distance a c ≤ distance a b + distance b c := by
  have hleast (a b : String) : IsLeast {n | Edits n a.toList b.toList} (distance a b) := by
    rw [distance_eq_recursive]
    exact isLeast_recursive a.toList b.toList
  have hback (a b : String) : distance b a ≤ distance a b := (hleast b a).2 (hleast a b).1.symm
  refine ⟨hleast a b, distance_eq_recursive a b, distanceInPlace_eq a b, ?_,
    (hback a b).antisymm (hback b a), fun c => ?_⟩
  · constructor
    · intro hzero
      have hedits : Edits (distance a b) a.toList b.toList := (hleast a b).1
      rw [hzero, Edits.zero_iff] at hedits
      exact String.toList_inj.1 hedits
    · rintro rfl
      exact distance_self a
  · exact (hleast a c).2 ((hleast a b).1.trans (hleast b c).1)

/-- Characters are counted, not bytes. -/
example : distance "naïve" "naive" = 1 := by decide

end Pinning.EditDistance
