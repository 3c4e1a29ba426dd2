import Constituency.Score.LogSum

/-!
The two ways to aggregate alternatives: keep the best one, or sum their probabilities. Either way
the parts of one alternative are added.
-/

namespace Constituency

/-- How alternatives are joined and how parts are combined, with the neutral value of each. -/
structure Aggregate (α : Type) where
  none : α
  unit : α
  join : α → α → α
  combine : α → α → α

namespace Aggregate

open Score

variable {α : Type}

def best [Score α] : Aggregate α := ⟨absent, zero, later, (· + ·)⟩

def mass [LogScore α] : Aggregate α := ⟨absent, zero, LogScore.logAdd, (· + ·)⟩

def isNone [Score α] (aggregate : Aggregate α) (x : α) : Bool := x == aggregate.none

end Aggregate

end Constituency
