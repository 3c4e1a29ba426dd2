import Std.Data.HashSet
import Constituency.Model.Basic

/-!
Costs: what is added for constituents that a reference tree does not have.
-/

namespace Constituency

/-- The constituents of a reference tree and the cost of any other. -/
structure Cost (α : Type) where
  reference : Std.HashSet Item
  amount : α

namespace Cost

open Score

variable {α : Type} [Score α]

def usual : α := one

def ofSpans (spans : List Span) (amount : α) : Cost α :=
  ⟨Std.HashSet.ofList (spans.map Span.item), amount⟩

def ofItem (cost : Cost α) (item : Item) : α :=
  if cost.reference.contains item then zero else cost.amount

/-- Without a reference tree nothing costs. -/
def orZero (cost : Option (Cost α)) (item : Item) : α := (cost.map (·.ofItem item)).getD zero

end Cost

end Constituency
