import Constituency.Tree.Binary

/-!
The nodes of a tree in numbered rows. A node has the number of its own span among the spans of a
list that are not unary.
-/

namespace Constituency

/-- A node with the numbers of the nodes around it. -/
structure NodeRow where
  number : Nat
  head : Head
  start : Nat
  stop : Nat
  parent : Option Nat
  left : Option Nat
  right : Option Nat
deriving DecidableEq, Repr

namespace NodeRow

def numberOf (intervals : List (Nat × Nat)) (tree : Tree) : Nat :=
  intervals.idxOf (tree.start, tree.stop)

/-- The rows of all nodes, parents first and left before right. -/
def ofTree (intervals : List (Nat × Nat)) (parent : Option Nat) : Tree → List NodeRow
  | .leaf head position =>
    [⟨numberOf intervals (.leaf head position), head, position, position + 1, parent, none,
      none⟩]
  | .branch head left right =>
    let number := numberOf intervals (.branch head left right)
    ⟨number, head, left.start, right.stop, parent, some (numberOf intervals left),
        some (numberOf intervals right)⟩ ::
      (ofTree intervals (some number) left ++ ofTree intervals (some number) right)

end NodeRow

/-- A tree with the list of spans that it was made from. -/
structure ListedTree where
  tree : Tree
  spans : List Span
deriving Repr

namespace ListedTree

def ofSpans (spans : List Span) (length : Nat) : Except TreeError ListedTree := do
  return ⟨← Tree.ofSpans spans length, spans⟩

def intervals (listed : ListedTree) : List (Nat × Nat) :=
  (listed.spans.filter fun span => !span.isUnary).map fun span => (span.start, span.stop)

def rows (listed : ListedTree) : List NodeRow :=
  NodeRow.ofTree listed.intervals none listed.tree

def root (listed : ListedTree) : Nat := NodeRow.numberOf listed.intervals listed.tree

end ListedTree

end Constituency
