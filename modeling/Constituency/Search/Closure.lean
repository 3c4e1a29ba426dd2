import Constituency.Score.Basic
import Constituency.Grammar.Rule

/-!
Closing a cell under unary rules. A cell holds the best scores of all labels over one interval;
closing it finds for each label the best score with unary rules on top, and the chain of unary
rules that gives it.
-/

namespace Constituency

/-- How the best tree of an item ends in its interval, below all unary rules. -/
inductive Origin
  | none
  | terminal
  | binary (rule split : Nat)
deriving DecidableEq, Repr

/-- How a label gets its score with unary rules: it has none, it keeps the score it had without
them, or a unary rule builds it from a child. -/
inductive Link
  | none
  | keep
  | unary (child : Label)
deriving DecidableEq, Repr

/-- The best scores of an item, before and after unary rules. -/
structure Entry (α : Type) where
  before : α
  origin : Origin
  after : α
  link : Link

structure UnaryEdge (α : Type) where
  rule : UnaryRule
  score : α

namespace Entry

def absent {α : Type} [Score α] : Entry α := ⟨Score.absent, .none, Score.absent, .none⟩

end Entry

abbrev Cell (α : Type) := Array (Entry α)

namespace Cell

open Score

variable {α : Type} [Score α]

def entry (cell : Cell α) (label : Label) : Entry α := cell.getD label.toNat .absent

def after (cell : Cell α) (label : Label) : α := (cell.entry label).after

def link (cell : Cell α) (label : Label) : Link := (cell.entry label).link

/-- Gives a label the score that it has without unary rules. -/
def keep (cell : Cell α) (label : Label) : Cell α :=
  cell.modify label.toNat fun entry =>
    if absent < entry.before then { entry with after := entry.before, link := .keep } else entry

/-- Gives each of the first labels the score that it has without unary rules. The number of labels
is kept as a label. -/
def keepAll (cell : Cell α) (count : Nat) : Cell α :=
  (Label.below count.toUInt16).foldl keep cell

/-- Whether the chain of a label comes through another one, as far as it can be followed. -/
def chainMeets (cell : Cell α) (target : Label) : Nat → Label → Bool
  | 0, _ => true
  | steps + 1, label =>
    label == target ||
      match cell.link label with
      | .unary child => cell.chainMeets target steps child
      | _ => false

/-- A cell with the parents improved in the pass under way and the number of improvements. -/
structure Pass (α : Type) where
  cell : Cell α
  changed : List Label := []
  updates : Nat := 0

/-- Improves the parent of a rule if its child scores at least `floor` and its chain does not come
through the parent. -/
def relax (count : Nat) (floor : α) (pass : Pass α) (edge : UnaryEdge α) : Pass α :=
  let ⟨parent, child⟩ := edge.rule
  let childScore := pass.cell.after child
  let score := childScore + edge.score
  if childScore == absent || childScore < floor then pass
  else if pass.cell.after parent < score && !pass.cell.chainMeets parent (count + 1) child then
    { cell := pass.cell.modify parent.toNat fun entry =>
        { entry with after := score, link := .unary child }
      changed :=
        if pass.changed.contains parent then pass.changed else pass.changed ++ [parent]
      updates := pass.updates + 1 }
  else pass

/-- Applies all rules in passes until a pass improves nothing. Without that within `passes` passes
the labels improved last are the error. -/
def settle (count : Nat) (floor : α) (edges : List (UnaryEdge α)) :
    Nat → Pass α → Cell α × Except (List Label) Nat
  | 0, pass => (pass.cell, .error pass.changed)
  | passes + 1, pass =>
    let next := edges.foldl (relax count floor) { pass with changed := [] }
    if next.changed.isEmpty then (next.cell, .ok next.updates)
    else settle count floor edges passes next

def passLimit : Nat := 10

def close (cell : Cell α) (count : Nat) (floor : α) (edges : List (UnaryEdge α)) :
    Cell α × Except (List Label) Nat :=
  settle count floor edges passLimit { cell := cell.keepAll count }

end Cell

end Constituency
