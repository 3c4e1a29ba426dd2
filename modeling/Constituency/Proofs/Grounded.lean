import Constituency.Score.Float
import Constituency.Proofs.ExtendedReal

/-!
Scores with a ground: nothing lies below `absent`, nor below what is left of a score when an
unlimited amount is taken from it. Double-precision numbers and extended reals both have it.
-/

namespace Constituency

open Score

class Score.Grounded (α : Type) [Score α] : Prop where
  not_lt_absent (x : α) : ¬ x < absent
  not_lt_sub_unlimited (x y : α) : ¬ x < y - unlimited

instance : Score.Grounded EReal where
  not_lt_absent x := not_lt_bot
  not_lt_sub_unlimited x y := by simp

namespace Double

open Float.Model

private theorem unpack_unlimited :
    (unlimited : Float).toModel.unpack = .infinity .positive := rfl

private theorem unpack_absent : (absent : Float).toModel.unpack = .infinity .negative := rfl

private theorem lt_negative (x : UnpackedFloat) : x.lt (.infinity .negative) = false := by
  cases x with
  | infinity sign => cases sign <;> rfl
  | notANumber => rfl
  | zero => rfl
  | finite => rfl

private theorem lt_notANumber (x : UnpackedFloat) : x.lt .notANumber = false := by
  cases x <;> rfl

private theorem sub_positive (x : UnpackedFloat) :
    x.sub Format.binary64 (.infinity .positive) = .notANumber ∨
      x.sub Format.binary64 (.infinity .positive) = .infinity .negative := by
  cases x with
  | infinity sign =>
    cases sign with
    | positive => exact .inl rfl
    | negative => exact .inr rfl
  | notANumber => exact .inl rfl
  | zero => exact .inr rfl
  | finite => exact .inr rfl

private theorem unpack_sub_unlimited (x : Float) :
    (x - unlimited).toModel.unpack = .notANumber ∨
      (x - unlimited).toModel.unpack = .infinity .negative := by
  have unpacked : (x - unlimited).toModel.unpack = (Float.Model.pack
      (x.toModel.unpack.sub Format.binary64 (.infinity .positive))).unpack := by
    rw [← unpack_unlimited]
    rfl
  rw [unpacked]
  rcases sub_positive x.toModel.unpack with none | least
  · rw [none]
    exact .inl rfl
  · rw [least]
    exact .inr rfl

theorem lt_iff (x y : Float) : x < y ↔ x.toModel.unpack.lt y.toModel.unpack = true := by
  change decide (x.toModel.unpack.lt y.toModel.unpack = true) = true ↔ _
  simp

instance : Score.Grounded Float where
  not_lt_absent x := by
    rw [lt_iff, unpack_absent, lt_negative]
    simp
  not_lt_sub_unlimited x y := by
    rw [lt_iff]
    rcases unpack_sub_unlimited y with none | least
    · rw [none, lt_notANumber]
      simp
    · rw [least, lt_negative]
      simp

end Double

end Constituency
