import Std.Data.HashMap
import Constituency.Cells.Live
import Constituency.Derivation.Basic
import Constituency.Search.Exact

/-!
Charts of probability mass: for every item the sum over the trees it has, with at most one unary
rule over each constituent, as far as the items below stay within a threshold of the largest mass
of their interval.
-/

namespace Constituency

structure MassChart (α : Type) where
  problem : Problem α
  before : Table α
  after : Table α
  live : Live
  /-- The scores of the unary rules that were added, by interval and number. -/
  unaryScores : Std.HashMap (Nat × Nat × Nat) α := {}
  /-- The scores of the binary rules that were added, by start, split, stop and number. -/
  binaryScores : Std.HashMap (Nat × Nat × Nat × Nat) α := {}

namespace MassChart

open Score

variable {α : Type} [LogScore α]

def create (problem : Problem α) : MassChart α where
  problem := problem
  before := .create problem.length problem.grammar.labelCount absent
  after := .create problem.length problem.grammar.labelCount absent
  live := .none problem.length problem.grammar.labelCount

def length (chart : MassChart α) : Nat := chart.problem.length

/-- The mass of an item with its unary rules or without, `absent` if the item is not live. -/
def mass (chart : MassChart α) (start stop : Nat) (label : Label) (phase : Phase) : α :=
  if chart.live.isLive start stop label phase then
    match phase with
    | .beforeUnary => chart.before.get start stop label
    | .afterUnary => chart.after.get start stop label
  else absent

def survives (floor mass : α) : Bool := absent < mass && floor ≤ mass

def addBefore (chart : MassChart α) (start stop : Nat) (label : Label) (score : α) :
    MassChart α :=
  { chart with before := .join .mass chart.before start stop label score }

def keepBefore (threshold : α) (chart : MassChart α) (start stop : Nat) : MassChart α :=
  let floor := chart.before.largest start stop - threshold
  (Label.below chart.problem.grammar.labelCount.toUInt16).foldl
    (fun chart label =>
      let ⟨problem, before, after, live, unaryScores, binaryScores⟩ := chart
      let score := before.get start stop label
      let stays := survives floor score
      ⟨problem, before, if stays then after.set start stop label score else after,
        live.set start stop label .beforeUnary stays, unaryScores, binaryScores⟩)
    chart

def addUnary (start stop : Nat) (chart : MassChart α) (rule : UnaryRule × Nat) : MassChart α :=
  let (rule, number) := rule
  if chart.live.isLive start stop rule.child .beforeUnary then
    let ⟨problem, before, after, live, unaryScores, binaryScores⟩ := chart
    let score := problem.unaryScore start stop rule number
    ⟨problem, before,
      .join .mass after start stop rule.parent (before.get start stop rule.child + score), live,
      unaryScores.insert (start, stop, number) score, binaryScores⟩
  else chart

def keepAfter (threshold : α) (chart : MassChart α) (start stop : Nat) : MassChart α :=
  let floor := chart.after.largest start stop - threshold
  (Label.below chart.problem.grammar.labelCount.toUInt16).foldl
    (fun chart label =>
      let ⟨problem, before, after, live, unaryScores, binaryScores⟩ := chart
      let stays := survives floor (after.get start stop label)
      ⟨problem, before, after, live.set start stop label .afterUnary stays, unaryScores,
        binaryScores⟩)
    chart

/-- Finishes an interval: keeps what survives, adds one level of unary rules, and keeps what
survives with them. -/
def close (threshold : α) (chart : MassChart α) (start stop : Nat) : MassChart α :=
  let chart := keepBefore threshold chart start stop
  let chart := chart.problem.grammar.numberedUnary.foldl (addUnary start stop) chart
  keepAfter threshold chart start stop

def addTerminals (chart : MassChart α) (position : Nat) : MassChart α :=
  let problem := chart.problem
  (problem.terminalsAt position).foldl
    (fun chart label =>
      chart.addBefore position (position + 1) label (problem.terminalScore position label))
    chart

def binaryScore (problem : Problem α) (start split stop : Nat) (rule : BinaryRule)
    (number : Nat) : α :=
  problem.binaryModelScore start split stop number + problem.costOf ⟨start, stop, rule.parent⟩

def addBinary (start split stop : Nat) (chart : MassChart α) (rule : BinaryRule × Nat) :
    MassChart α :=
  let (rule, number) := rule
  if chart.live.isLive start split rule.left .afterUnary &&
      chart.live.isLive split stop rule.right .afterUnary then
    let ⟨problem, before, after, live, unaryScores, binaryScores⟩ := chart
    let score := binaryScore problem start split stop rule number
    ⟨problem,
      .join .mass before start stop rule.parent
        (after.get start split rule.left + after.get split stop rule.right + score),
      after, live, unaryScores, binaryScores.insert (start, split, stop, number) score⟩
  else chart

def addBinaries (chart : MassChart α) (start stop : Nat) : MassChart α :=
  let rules := chart.problem.grammar.numberedBinary
  (splits start stop).foldl
    (fun chart split => rules.foldl (addBinary start split stop) chart) chart

def fill (problem : Problem α) (threshold : α) : MassChart α :=
  let chart := (narrowIntervals problem.length).foldl
    (fun chart (start, stop) => close threshold (chart.addTerminals start) start stop)
    (create problem)
  (wideIntervals problem.length).foldl
    (fun chart (start, stop) => close threshold (chart.addBinaries start stop) start stop) chart

def liveMasses (chart : MassChart α) (start stop : Nat) (phase : Phase) : List (Label × α) :=
  (chart.problem.grammar.allLabels.filter fun label =>
    chart.live.isLive start stop label phase).map fun label =>
      (label, chart.mass start stop label phase)

def roots (chart : MassChart α) : List (Label × α) :=
  if chart.length = 0 then []
  else
    (chart.problem.grammar.roots.toList.map fun label =>
      (label, chart.mass 0 chart.length label .afterUnary)).filter fun (_, mass) => absent < mass

def isEmpty (chart : MassChart α) : Bool := chart.roots.isEmpty

def total (chart : MassChart α) : α := LogScore.logSum (chart.roots.map Prod.snd)

def rootProbabilities (chart : MassChart α) : List (Label × α) :=
  (chart.roots.map Prod.fst).zip (LogScore.normalize (chart.roots.map Prod.snd))

def logProbability (chart : MassChart α) (score : α) : α := score - chart.total

end MassChart

end Constituency
