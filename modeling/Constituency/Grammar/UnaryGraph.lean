import Constituency.Numbering
import Constituency.Grammar.Rule

/-!
The graph of unary rules, walked from parents to children: the order in which labels are left
again, or the first cycle met on the way.
-/

namespace Constituency.UnaryGraph

/-- The part of a path that starts at a label which the path now meets again. -/
def cycleAt (path : List Label) (label : Label) : List Label :=
  path.dropWhile (· != label) ++ [label]

/-- Leaves every label below `label` and then `label` itself. `path` leads to `label` and ends
with it; `depth` bounds the labels still to come below it, and is never used up because a path
without a cycle holds each label once. -/
def visit (count : Nat) (children : Label → List Label) :
    Nat → List Label → Label → Numbering Label → Except (List Label) (Numbering Label)
  | 0, _, _, left => .ok left
  | depth + 1, path, label, left => do
    let left ← (children label).foldlM
      (fun left child =>
        if count ≤ child.toNat then .ok left
        else if path.contains child then .error (cycleAt path child)
        else if left.contains child then .ok left
        else visit count children depth (path ++ [child]) child left)
      left
    return left.push label

/-- The first `count` labels, children ahead of their parents, or a cycle. -/
def leavingOrder (count : Nat) (children : Label → List Label) :
    Except (List Label) (Numbering Label) :=
  (Label.first count).foldlM
    (fun left label =>
      if left.contains label then .ok left else visit count children count [label] label left)
    .empty

end Constituency.UnaryGraph
