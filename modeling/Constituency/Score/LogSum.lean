import Constituency.Score.Basic

/-!
Sums of probabilities given by their logarithms.
-/

namespace Constituency.LogScore

open Score

variable {α : Type} [LogScore α]

/-- The logarithm of the sum of two probabilities, taken relative to the larger one. -/
def logAdd (x y : α) : α :=
  let (high, low) := if y ≤ x then (x, y) else (y, x)
  if high == absent then absent
  else if high == unlimited then unlimited
  else high + log1p (exp (low - high))

/-- The logarithm of the sum of some probabilities, taken relative to the largest one. -/
def logSum (xs : List α) : α :=
  let top := largest xs
  if top == absent || top == unlimited then top
  else top + log ((xs.map fun x => exp (x - top)).foldl (· + ·) zero)

/-- Probabilities in proportion to some weights given by their logarithms; none if no weight is
present. -/
def normalize (xs : List α) : List α :=
  let total := logSum xs
  if total == absent then [] else xs.map fun x => exp (x - total)

end Constituency.LogScore
