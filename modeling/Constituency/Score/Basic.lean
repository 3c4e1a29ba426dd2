/-!
Scores: logarithms that are added along a tree and compared between trees.
-/

namespace Constituency

/-- Values that can be added and compared. `absent` scores what no tree derives and `unlimited` is
above every score. -/
class Score (α : Type) extends Add α, Sub α, LT α, LE α, BEq α where
  ofNat : Nat → α
  absent : α
  unlimited : α
  /-- The number `k / 2 ^ 53`. -/
  fraction : Nat → α
  decideLt : DecidableLT α
  decideLe : DecidableLE α

namespace Score

variable {α : Type} [Score α]

instance : DecidableLT α := decideLt

instance : DecidableLE α := decideLe

def zero : α := ofNat 0

def one : α := ofNat 1

/-- A value that differs from itself stands for no number. -/
def isNumber (x : α) : Bool := x == x

def larger (x y : α) : α := if x < y || !isNumber x then y else x

def largest (xs : List α) : α := xs.foldl larger absent

/-- The order of all values, in which those that are no numbers are equal and come last. -/
def order (x y : α) : Ordering :=
  if x < y then .lt
  else if y < x then .gt
  else if x == y then .eq
  else if isNumber x then .lt
  else if isNumber y then .gt
  else .eq

def later (x y : α) : α := if order x y = .gt then x else y

def clamp (low high x : α) : α := if x < low then low else if high < x then high else x

end Score

/-- Scores with the functions between them and the probabilities whose logarithms they are. -/
class LogScore (α : Type) extends Score α where
  exp : α → α
  log : α → α
  log1p : α → α

end Constituency
