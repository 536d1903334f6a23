import Pinning.Geometry
import Pinning.Slot

/-!
Places beside a group of frames. The group counts as the least frame that holds all of it: a
relation puts one edge of the node on one edge of that frame, and an alignment puts a line across
the other axis on the same line of it.
-/

namespace Pinning

variable {α : Type} [Scalar α]

inductive Relation where
  | above (align : Option Side)
  | below (align : Option Side)
  | leftOf (align : Option Line)
  | rightOf (align : Option Line)
  | before (align : Option Line)
  | after (align : Option Line)
deriving DecidableEq, Repr

namespace Relation

def name : Relation → String
  | above _ => "above"
  | below _ => "below"
  | leftOf _ => "left_of"
  | rightOf _ => "right_of"
  | before _ => "before"
  | after _ => "after"

/-- The relation with `before` and `after` turned into sides. -/
def physical (d : Direction) : Relation → Relation
  | before a => if d.leading = .low then leftOf a else rightOf a
  | after a => if d.trailing = .low then leftOf a else rightOf a
  | r => r

/-- The least frame that holds the whole group. -/
def bounds? : List (Rect α) → Option (Rect α)
  | [] => none
  | f :: fs => some (fs.foldl Rect.union f)

/-- The slots to write for a place beside the group, the edge before the alignment. -/
def writes (r : Relation) (d : Direction) (group : List (Rect α)) : List (Slot × α) :=
  match bounds? group with
  | none => []
  | some b =>
    let aligned (a : Axis) (l : Option Line) := l.toList.map fun l => (Slot.line a l, b.line a l)
    match r.physical d with
    | above a => (.line .vertical .high, b.line .vertical .low) ::
        aligned .horizontal (a.map (Side.line d))
    | below a => (.line .vertical .low, b.line .vertical .high) ::
        aligned .horizontal (a.map (Side.line d))
    | leftOf a | before a => (.line .horizontal .high, b.line .horizontal .low) ::
        aligned .vertical a
    | rightOf a | after a => (.line .horizontal .low, b.line .horizontal .high) ::
        aligned .vertical a

end Relation

end Pinning
