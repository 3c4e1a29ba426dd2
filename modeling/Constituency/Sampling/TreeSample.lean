import Constituency.Sampling.Draw
import Constituency.Sampling.MassChart

/-!
Drawing trees from a chart of masses, each in proportion to its score. How a choice is made is left
open, so that the same steps draw one tree from a source of numbers or run through all choices.
-/

namespace Constituency.MassChart

open Score

variable {α σ : Type} [LogScore α] {m : Type → Type} [Monad m]

/-- The ways to get an item with unary rules: as it is without them, or from a child. -/
def unaryOptions (chart : MassChart α) (start stop : Nat) (label : Label) :
    List (Option Label × α) :=
  let kept := chart.mass start stop label .beforeUnary
  let keep := if absent < kept then [(none, kept)] else []
  keep ++ (chart.problem.grammar.unaryWithParent label).filterMap fun number => do
    let score ← chart.unaryScores[(start, stop, number)]?
    let rule ← chart.problem.grammar.unaryRule? number
    let mass := chart.mass start stop rule.child .beforeUnary
    if absent < mass then some (some rule.child, mass + score) else none

/-- The ways to get an item without unary rules: a split and a rule. -/
def binaryOptions (chart : MassChart α) (start stop : Nat) (label : Label) :
    List ((Nat × BinaryRule) × α) :=
  (splits start stop).flatMap fun split =>
    (chart.problem.grammar.binaryWithParent label).filterMap fun number => do
      let score ← chart.binaryScores[(start, split, stop, number)]?
      let rule ← chart.problem.grammar.binaryRule? number
      let mass := chart.mass start split rule.left .afterUnary +
        chart.mass split stop rule.right .afterUnary + score
      if absent < mass then some ((split, rule), mass) else none

/-- A way to choose one of some options by the logarithms of their weights, if any has one. -/
abbrev Choice (m : Type → Type) (α : Type) := ∀ {β : Type}, List (β × α) → m (Option β)

/-- Chooses an option for an item, which has to have one. -/
def choose {β : Type} (choice : Choice m α) (item : Item) (options : List (β × α)) :
    ExceptT DecodeError m β := do
  match ← ExceptT.lift (choice options) with
  | some option => return option
  | none => throw (.malformed (.missingChild item))

mutual

/-- Chooses a tree of an item with its unary rules, as spans, parents first and left before
right. -/
def treeAfter (chart : MassChart α) (choice : Choice m α) (start stop : Nat) (label : Label) :
    ExceptT DecodeError m (List Span) := do
  match ← choose choice ⟨start, stop, label⟩ (chart.unaryOptions start stop label) with
  | none => chart.treeBefore choice start stop label
  | some child =>
    return .unary start stop ⟨label, child⟩ :: (← chart.treeBefore choice start stop child)
termination_by (stop - start, 1)

def treeBefore (chart : MassChart α) (choice : Choice m α) (start stop : Nat) (label : Label) :
    ExceptT DecodeError m (List Span) := do
  if stop = start + 1 then
    if chart.mass start stop label .beforeUnary == absent then
      throw (.malformed (.missingChild ⟨start, stop, label⟩))
    return [.terminal start label]
  let (split, rule) ←
    choose choice ⟨start, stop, label⟩ (chart.binaryOptions start stop label)
  if _inside : start < split ∧ split < stop then
    let left ← chart.treeAfter choice start split rule.left
    let right ← chart.treeAfter choice split stop rule.right
    return .binary start split stop ⟨label, rule.left, rule.right⟩ :: (left ++ right)
  else throw (.malformed (.missingChild ⟨start, stop, label⟩))
termination_by (stop - start, 0)

end

def tree (chart : MassChart α) (choice : Choice m α) :
    ExceptT DecodeError m (Option (List Span)) := do
  match ← ExceptT.lift (choice chart.roots) with
  | none => return none
  | some root => return some (← chart.treeAfter choice 0 chart.length root)

/-- Draws a tree of the sentence, if it has one, and keeps what it has taken from the source. -/
def sample (chart : MassChart α) (draw : Draw σ α) :
    ExceptT DecodeError (StateM σ) (Option (List Span)) :=
  chart.tree draw.option

end Constituency.MassChart
