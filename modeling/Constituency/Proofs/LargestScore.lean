import Mathlib
import Constituency.Proofs.ScoreOrder

/-!
The largest of some scores. Numbers are in a linear order that begins with the missing score, and a
value that is no number has no place in it. So the largest score is the greatest of the numbers, and
the missing score if there is no number.
-/

namespace Constituency

open Score

/-- Numbers are in a linear order, whose least member is the missing score. -/
class Score.Ranked (α : Type) [Score α] : Prop extends Score.Ordered α where
  isNumber_of_lt {x y : α} (below : x < y) : isNumber y = true
  le_of_not_lt {x y : α} (number : isNumber x = true) (number' : isNumber y = true)
    (free : ¬ x < y) : y ≤ x
  eq_absent {x : α} (number : isNumber x = true) (free : ¬ absent < x) : x = absent

instance : Score.Ranked EReal where
  isNumber_of_lt _ := by simp [isNumber]
  le_of_not_lt _ _ := le_of_not_gt
  eq_absent _ := not_bot_lt_iff.mp

section Larger

variable {α : Type} [Score α] {x : α}

variable [Score.Ranked α]

end Larger

namespace Double

open Float.Model

theorem isNumber_iff (x : Float) : isNumber x = true ↔ x.toModel.unpack ≠ .notANumber := by
  change x.toModel.unpack.beq x.toModel.unpack = true ↔ _
  generalize x.toModel.unpack = unpacked
  rcases unpacked with (_ | _) | _ | _ | ⟨_ | _, m, e, _⟩ <;>
    simp [UnpackedFloat.beq, UnpackedFloat.compare]
  case infinity.negative => rfl
  case infinity.positive => rfl

theorem le_iff (x y : Float) : x ≤ y ↔ x.toModel.unpack.le y.toModel.unpack = true := by
  change decide (x.toModel.unpack.le y.toModel.unpack = true) = true ↔ _
  simp

theorem magnitude_swap (exponent exponent' : ℤ) (mantissa mantissa' : ℕ) :
    (compare exponent' exponent).then (compare mantissa' mantissa) =
      ((compare exponent exponent').then (compare mantissa mantissa')).swap := by
  rw [Ordering.swap_then, ← Std.OrientedOrd.eq_swap, ← Std.OrientedOrd.eq_swap]

theorem le_or_lt {x y : UnpackedFloat} (number : x ≠ .notANumber) (number' : y ≠ .notANumber) :
    y.le x = true ∨ x.lt y = true := by
  -- Numbers of two kinds compare by their kinds, and only pairs of one kind are left.
  rcases x with (_ | _) | _ | _ | ⟨_ | _, m, e, _⟩ <;>
    rcases y with (_ | _) | _ | _ | ⟨_ | _, m', e', _⟩ <;>
    simp [UnpackedFloat.le, UnpackedFloat.lt, UnpackedFloat.compare] at number number' ⊢
  case infinity.negative.infinity.negative => decide
  case infinity.negative.infinity.positive => decide
  case infinity.positive.infinity.negative => decide
  case infinity.positive.infinity.positive => decide
  case finite.negative.finite.negative =>
    rw [magnitude_swap]
    cases (compare e e').then (compare m m') <;> decide
  case finite.positive.finite.positive =>
    rw [magnitude_swap]
    cases (compare e e').then (compare m m') <;> decide

theorem eq_negative {x : UnpackedFloat} (number : x ≠ .notANumber)
    (free : UnpackedFloat.lt (.infinity .negative) x ≠ true) : x = .infinity .negative := by
  rcases x with (_ | _) | _ | _ | ⟨_ | _, m, e, _⟩
  · rfl
  · exact absurd rfl free
  · exact absurd rfl number
  · exact absurd rfl free
  · exact absurd rfl free
  · exact absurd rfl free

theorem unpack_injective {x y : Float} (same : x.toModel.unpack = y.toModel.unpack) : x = y := by
  have bits := (UnpackedFloat.unpack_inj_of_valid x.toModel.valid y.toModel.valid).mp same
  rcases x with ⟨⟨word, valid⟩⟩
  rcases y with ⟨⟨word', valid'⟩⟩
  obtain rfl : word = word' := UInt64.toBitVec_inj.mp bits
  rfl

end Double

instance : Score.Ranked Float where
  isNumber_of_lt := by
    intro x y below
    rw [Double.lt_iff, Double.lt_iff_rank] at below
    rw [Double.isNumber_iff]
    intro none
    obtain ⟨_, _, b, there, _⟩ := below
    rw [none] at there
    exact absurd there (Option.not_mem_none b)
  le_of_not_lt := by
    intro x y number number' free
    rw [Double.lt_iff] at free
    rw [Double.isNumber_iff] at number number'
    rw [Double.le_iff]
    exact (Double.le_or_lt number number').resolve_right free
  eq_absent := by
    intro x number free
    rw [Double.isNumber_iff] at number
    rw [Double.lt_iff] at free
    exact Double.unpack_injective (Double.eq_negative number free)

end Constituency
