import Mathlib
import Constituency.Proofs.Grounded

/-!
Scores in order: no score is below itself, and what is below a second score is below all that is
above it. A value that is no number is neither below nor above any, so double-precision numbers
have this order as extended reals do.
-/

namespace Constituency

open Score

class Score.Ordered (α : Type) [Score α] : Prop where
  lt_irrefl (x : α) : ¬ x < x
  lt_trans {x y z : α} (below : x < y) (above : y < z) : x < z
  absent_beq : ((absent : α) == absent) = true

instance : Score.Ordered EReal where
  lt_irrefl := lt_irrefl
  lt_trans := lt_trans
  absent_beq := decide_eq_true rfl

namespace Double

open Float.Model

/-- Where a number stands among all numbers: by its kind, and within a kind by exponent and then by
mantissa, both turned round below zero. -/
def rank : UnpackedFloat → Option (ℤ ×ₗ ℤ ×ₗ ℤ)
  | .notANumber => none
  | .infinity .negative => some (toLex (-2, toLex (0, 0)))
  | .finite .negative mantissa exponent _ => some (toLex (-1, toLex (-exponent, -mantissa)))
  | .zero _ => some (toLex (0, toLex (0, 0)))
  | .finite .positive mantissa exponent _ => some (toLex (1, toLex (exponent, mantissa)))
  | .infinity .positive => some (toLex (2, toLex (0, 0)))

theorem magnitude_lt (exponent exponent' : ℤ) (mantissa mantissa' : ℕ) :
    (compare exponent exponent').then (compare mantissa mantissa') = .lt ↔
      exponent < exponent' ∨ exponent = exponent' ∧ mantissa < mantissa' := by
  rw [Ordering.then_eq_lt, compare_lt_iff_lt, compare_lt_iff_lt, compare_eq_iff_eq]

theorem magnitude_gt (exponent exponent' : ℤ) (mantissa mantissa' : ℕ) :
    (compare exponent exponent').then (compare mantissa mantissa') = .gt ↔
      exponent' < exponent ∨ exponent = exponent' ∧ mantissa' < mantissa := by
  rw [Ordering.then_eq_gt, compare_gt_iff_gt, compare_gt_iff_gt, compare_eq_iff_eq]

theorem lt_iff_rank (x y : UnpackedFloat) :
    x.lt y = true ↔ ∃ a ∈ rank x, ∃ b ∈ rank y, a < b := by
  have opened : x.lt y = true ↔ x.compare y = some .lt := beq_iff_eq
  rw [opened]
  -- Numbers of two kinds compare by their kinds, and only three pairs of one kind are left.
  rcases x with (_ | _) | _ | _ | ⟨_ | _, m, e, _⟩ <;>
    rcases y with (_ | _) | _ | _ | ⟨_ | _, m', e', _⟩ <;>
    simp [UnpackedFloat.compare, rank, Prod.Lex.toLex_lt_toLex]
  case infinity.negative.infinity.positive => rfl
  case finite.negative.finite.negative => exact magnitude_gt e e' m m'
  case finite.positive.finite.positive => exact magnitude_lt e e' m m'

end Double

instance : Score.Ordered Float where
  lt_irrefl x := by
    rw [Double.lt_iff, Double.lt_iff_rank]
    intro found
    obtain ⟨a, here, b, there, less⟩ := found
    rw [Option.mem_unique here there] at less
    exact lt_irrefl b less
  lt_trans := by
    intro x y z below above
    rw [Double.lt_iff, Double.lt_iff_rank] at below above ⊢
    obtain ⟨a, first, b, second, less⟩ := below
    obtain ⟨b', second', c, third, more⟩ := above
    rw [Option.mem_unique second' second] at more
    exact ⟨a, first, c, third, less.trans more⟩
  absent_beq := by decide

end Constituency
