import Mathlib.Tactic.SplitIfs
import Pinning.Scalar.Double

/-!
# What is not finite stays so

No operation that layout uses gives a finite result for an operand that is not finite, other than
for what it divides by (`Scalar.Strict`). So a finite value has been worked out from finite ones all
along, but for comparisons: what is no number compares with nothing, and may go missing where one
decides (`Scalar.pos_of_not_isNumber`).

Doubles are such numbers, which is seen on their unpacked form: an infinity, no number, a zero, or a
mantissa with an exponent.
-/

namespace Pinning

namespace Scalar

/-- Arithmetic in which what is not finite stays so. -/
class Strict (α : Type) [Scalar α] : Prop where
  finite_of_add {x y : α} : isFinite (x + y) → isFinite x ∧ isFinite y
  finite_of_sub {x y : α} : isFinite (x - y) → isFinite x ∧ isFinite y
  finite_of_mul {x y : α} : isFinite (x * y) → isFinite x ∧ isFinite y
  finite_of_div {x y : α} : isFinite (x / y) → isFinite x
  isNumber_of_finite {x : α} : isFinite x → isNumber x
  isNumber_of_lt {x y : α} : x < y → isNumber x ∧ isNumber y
  /-- What is infinite has a sign. -/
  signed {x : α} : isNumber x → ¬isFinite x → x < 0 ∨ 0 < x
  not_zero_lt : ¬(0 : α) < 0

variable {α : Type} [Scalar α] [Strict α] {x : α}

/-- What is no number counts as zero. -/
theorem pos_of_not_isNumber (h : ¬isNumber x) : pos x = 0 :=
  if_neg fun hpos => h (Strict.isNumber_of_lt hpos).2

/-- What is infinite and not negative is positive. -/
theorem pos_of_infinite (h : isNumber x) (hinfinite : ¬isFinite x) (hneg : ¬x < 0) : pos x = x :=
  if_pos ((Strict.signed h hinfinite).resolve_left hneg)

end Scalar

namespace Double

open Float.Model

variable {spec : Format} {a b : UnpackedFloat}

theorem finite_of_pack (h : (Float.Model.pack a).isFinite) : a.isFinite := by
  cases a with
  | infinity s => cases s <;> cases h
  | notANumber => cases h
  | zero s => rfl
  | finite s m e hm => rfl

theorem finite_of_unpacked_add (h : (UnpackedFloat.add spec a b).isFinite) :
    a.isFinite ∧ b.isFinite := by
  cases a <;> cases b
  case infinity.infinity s t => cases s <;> cases t <;> cases h
  all_goals first | exact ⟨rfl, rfl⟩ | cases h

theorem finite_of_unpacked_sub (h : (UnpackedFloat.sub spec a b).isFinite) :
    a.isFinite ∧ b.isFinite := by
  cases a <;> cases b
  case infinity.infinity s t => cases s <;> cases t <;> cases h
  all_goals first | exact ⟨rfl, rfl⟩ | cases h

theorem finite_of_unpacked_mul (h : (UnpackedFloat.mul spec a b).isFinite) :
    a.isFinite ∧ b.isFinite := by
  cases a <;> cases b <;> first | exact ⟨rfl, rfl⟩ | cases h

theorem finite_of_unpacked_div (h : (UnpackedFloat.div spec a b).isFinite) : a.isFinite := by
  cases a <;> cases b <;> first | rfl | cases h

/-- What compares with anything compares with itself. -/
theorem unpacked_le_self (a : UnpackedFloat) : a.le a = !a.isNaN := by
  cases a with
  | infinity s => cases s <;> rfl
  | notANumber => rfl
  | zero s => rfl
  | finite s m e hm =>
    have hself : (compare e e).then (compare m m) = .eq := by
      rw [Std.ReflOrd.compare_self, Std.ReflOrd.compare_self]
      rfl
    cases s with
    | negative => exact congrArg (fun o : Ordering => o.swap.isLE) hself
    | positive => exact congrArg Ordering.isLE hself

theorem not_isNaN_of_finite (h : a.isFinite) : a.isNaN = false := by
  cases a <;> first | rfl | cases h

theorem not_isNaN_of_unpacked_lt (h : a.lt b) : a.isNaN = false ∧ b.isNaN = false := by
  cases a <;> cases b <;> first | exact ⟨rfl, rfl⟩ | cases h

theorem unpacked_signed (h : a.isNaN = false) (hinfinite : ¬a.isFinite) (s : UnpackedFloat.Sign) :
    a.lt (.zero s) ∨ UnpackedFloat.lt (.zero s) a := by
  cases a with
  | infinity s => cases s <;> first | exact .inl rfl | exact .inr rfl
  | notANumber => cases h
  | zero => exact absurd rfl hinfinite
  | finite => exact absurd rfl hinfinite

variable {x y : Float}

theorem isNumber_eq (x : Float) : Scalar.isNumber x = !x.isNaN :=
  (Bool.decide_coe _).trans ((Bool.decide_coe _).trans (unpacked_le_self x.toModel.unpack))

theorem lt_iff : x < y ↔ x.toModel.unpack.lt y.toModel.unpack := decide_eq_true_iff

theorem isNumber_iff : Scalar.isNumber x ↔ x.toModel.unpack.isNaN = false := by
  rw [isNumber_eq, Bool.not_eq_true']
  rfl

instance : Scalar.Strict Float where
  finite_of_add h := finite_of_unpacked_add (finite_of_pack h)
  finite_of_sub h := finite_of_unpacked_sub (finite_of_pack h)
  finite_of_mul h := finite_of_unpacked_mul (finite_of_pack h)
  finite_of_div h := finite_of_unpacked_div (finite_of_pack h)
  isNumber_of_finite h := isNumber_iff.2 (not_isNaN_of_finite h)
  isNumber_of_lt h := by
    rw [isNumber_iff, isNumber_iff]
    exact not_isNaN_of_unpacked_lt (lt_iff.1 h)
  signed h hinfinite :=
    (unpacked_signed (isNumber_iff.1 h) hinfinite .positive).imp lt_iff.2 lt_iff.2
  not_zero_lt := by decide

end Double

end Pinning
