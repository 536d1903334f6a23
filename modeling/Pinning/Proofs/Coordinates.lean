import Mathlib.Algebra.Order.Field.Rat
import Mathlib.Tactic.Ring
import Pinning.Proofs.Forest
import Pinning.Scalar.Rational

/-!
# Coordinates of the roots

With rational coordinates the way up a tree adds up exactly: a node's corner is its parent's with
its own origin added (`absoluteOrigin_of_parent`), and where a frame stands in a space is the
difference of two corners (`frameIn_origin`).
-/

namespace Pinning

attribute [ext] Point Rect

theorem Point.add_eq (p q : Point Rat) : p + q = ⟨p.x + q.x, p.y + q.y⟩ := rfl
theorem Point.sub_eq (p q : Point Rat) : p - q = ⟨p.x - q.x, p.y - q.y⟩ := rfl

namespace Tree

variable {t : Tree Rat}

theorem foldl_origins_add (o q : Point Rat) : ∀ ns : List NodeId,
    ns.foldl (fun o p => o + (t.frame p).origin) (o + q)
      = ns.foldl (fun o p => o + (t.frame p).origin) o + q
  | [] => rfl
  | n :: ns => by
    have hswap : o + q + (t.frame n).origin = o + (t.frame n).origin + q := by
      simp only [Point.add_eq, Point.mk.injEq]
      exact ⟨by ring, by ring⟩
    rw [List.foldl_cons, List.foldl_cons, hswap, foldl_origins_add _ q ns]

theorem absoluteOrigin_of_root {n : NodeId} (h : t.parent? n = none) :
    t.absoluteOrigin n = (t.frame n).origin := by
  rw [absoluteOrigin, ancestors_of_root h, List.foldl_nil]

theorem absoluteOrigin_of_parent (hw : t.WellFormed) {n p : NodeId} (h : t.parent? n = some p) :
    t.absoluteOrigin n = t.absoluteOrigin p + (t.frame n).origin := by
  have hswap : (t.frame n).origin + (t.frame p).origin
      = (t.frame p).origin + (t.frame n).origin := by
    simp only [Point.add_eq, Point.mk.injEq]
    exact ⟨by ring, by ring⟩
  rw [absoluteOrigin, hw.ancestors_of_parent h, List.foldl_cons, hswap, foldl_origins_add,
    absoluteOrigin]

theorem frameIn_origin (hw : t.WellFormed) (n : NodeId) (space : Option NodeId) :
    (t.frameIn n space).origin = t.absoluteOrigin n - t.spaceOrigin space := by
  cases h : t.parent? n with
  | none =>
    simp only [frameIn, h, Rect.translate, absoluteOrigin_of_root h, spaceOrigin,
      Option.elim_none, Point.add_eq, Point.sub_eq, Point.zero, Point.mk.injEq]
    exact ⟨by ring, by ring⟩
  | some p =>
    have hp : t.spaceOrigin (some p) = t.absoluteOrigin p := rfl
    simp only [frameIn, h, Rect.translate, absoluteOrigin_of_parent hw h, hp, Point.add_eq,
      Point.sub_eq, Point.mk.injEq]
    exact ⟨by ring, by ring⟩

end Tree

end Pinning
