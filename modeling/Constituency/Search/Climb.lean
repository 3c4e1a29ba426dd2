import Constituency.Tree.Moves

/-!
Hill climbing: from a tree to ever better neighbours, until no move improves it.
-/

namespace Constituency

structure ClimbCounts where
  restarts : Nat := 0
  /-- Restarts at a tree that was climbed from before. -/
  duplicates : Nat := 0
  withoutTree : Nat := 0
  sweeps : Nat := 0
  /-- Neighbours that were scored. -/
  scored : Nat := 0
  improvements : Nat := 0
deriving DecidableEq, Repr

namespace ClimbCounts

def add (a b : ClimbCounts) : ClimbCounts where
  restarts := a.restarts + b.restarts
  duplicates := a.duplicates + b.duplicates
  withoutTree := a.withoutTree + b.withoutTree
  sweeps := a.sweeps + b.sweeps
  scored := a.scored + b.scored
  improvements := a.improvements + b.improvements

instance : Add ClimbCounts := ⟨add⟩

end ClimbCounts

/-- The tree reached, its score, the score after each sweep, and the counts so far. -/
structure Climb (α : Type) where
  tree : Tree
  score : α
  /-- The spans that were scored and that the tree was read from. -/
  spans : List Span := tree.spans
  trace : List α := []
  counts : ClimbCounts := {}

namespace Climb

open Score

variable {α : Type} [Score α]

def treeScore (problem : Problem α) (secondOrder : Bool) (tree : Tree) : Except DecodeError α :=
  problem.scoreWith secondOrder tree.spans tree.parents

/-- The best of some trees and its score, if it is better than a score; of equal ones the first. -/
def bestAbove (problem : Problem α) (secondOrder : Bool) (score : α) (trees : List Tree) :
    Except DecodeError (Option (Tree × α)) :=
  trees.foldlM
    (fun best tree => do
      let candidate ← treeScore problem secondOrder tree
      let top := (best.map Prod.snd).getD score
      return if top < candidate then some (tree, candidate) else best)
    none

/-- Takes the best move at a node, if it improves the tree. The tree is read anew from the spans
that the move leads to. -/
def improveAt (problem : Problem α) (secondOrder : Bool) (climb : Climb α) (path : Path) :
    Except DecodeError (Climb α) := do
  let trees := climb.tree.moves problem.grammar problem.sentence path
  let best ← bestAbove problem secondOrder climb.score trees
  let counts := { climb.counts with scored := climb.counts.scored + trees.length }
  match best with
  | none => return { climb with counts := counts }
  | some (tree, score) =>
    let spans := tree.spans
    let tree ← (Tree.ofSpans spans problem.length).mapError .malformed
    return { climb with
      tree := tree
      spans := spans
      score := score
      counts := { counts with improvements := counts.improvements + 1 } }

instance : Nonempty (Climb α) := ⟨⟨.leaf ⟨0, none⟩ 0, zero, [], [], {}⟩⟩

/-- Improves the tree at the node at a place. Ends if the tree that has been reached by then has no
node there. -/
def improveNext (problem : Problem α) (secondOrder : Bool) :
    Nat × Climb α → Except DecodeError (Nat × Climb α ⊕ Climb α)
  | (place, climb) =>
    match climb.tree.paths[place]? with
    | none => return .inr climb
    | some path => return .inl (place + 1, ← climb.improveAt problem secondOrder path)

/-- Improves the tree at one node after another from a place on. -/
def improveFrom (problem : Problem α) (secondOrder : Bool) (place : Nat) (climb : Climb α) :
    Except DecodeError (Climb α) :=
  repeatM (improveNext problem secondOrder) (place, climb)

/-- Improves the tree at every node in turn. -/
def sweep (problem : Problem α) (secondOrder : Bool) (climb : Climb α) :
    Except DecodeError (Climb α) := do
  let counts := { climb.counts with sweeps := climb.counts.sweeps + 1 }
  let climb ← improveFrom problem secondOrder 0 { climb with counts := counts }
  return { climb with trace := climb.trace ++ [climb.score] }

/-- Sweeps until a sweep improves nothing, at most as often as given. -/
def run (problem : Problem α) (secondOrder : Bool) : Nat → Climb α → Except DecodeError (Climb α)
  | 0, climb => return climb
  | sweeps + 1, climb => do
    let next ← climb.sweep problem secondOrder
    if climb.counts.improvements < next.counts.improvements then
      run problem secondOrder sweeps next
    else return next

def ofSpans (problem : Problem α) (secondOrder : Bool) (maxSweeps : Nat) (spans : List Span) :
    Except DecodeError (Climb α) := do
  let tree ← (Tree.ofSpans spans problem.length).mapError .malformed
  let score ← treeScore problem secondOrder tree
  run problem secondOrder maxSweeps { tree := tree, score := score }

def derivation (climb : Climb α) : Derivation α := ⟨climb.spans, climb.score⟩

end Climb

end Constituency
