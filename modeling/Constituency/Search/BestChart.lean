import Constituency.Cells.Live
import Constituency.Derivation.Basic
import Constituency.Search.Closure

/-!
Charts of best scores: the best tree of every item, from which the best tree of a sentence is read.
-/

namespace Constituency

structure BestChart (α : Type) where
  entries : Table (Entry α)

namespace BestChart

open Score

variable {α : Type} [Score α]

def create (words labels : Nat) : BestChart α := ⟨.create words labels .absent⟩

def words (chart : BestChart α) : Nat := chart.entries.words

def labels (chart : BestChart α) : Nat := chart.entries.labels

def before (chart : BestChart α) (start stop : Nat) (label : Label) : α :=
  (chart.entries.get start stop label).before

def after (chart : BestChart α) (start stop : Nat) (label : Label) : α :=
  (chart.entries.get start stop label).after

def cell (chart : BestChart α) (start stop : Nat) : Cell α :=
  (chart.entries.cell start stop).toArray

def topBefore (chart : BestChart α) (start stop : Nat) : α :=
  largest ((chart.entries.cell start stop).map Entry.before)

def topAfter (chart : BestChart α) (start stop : Nat) : α :=
  largest ((chart.entries.cell start stop).map Entry.after)

def setBefore (chart : BestChart α) (start stop : Nat) (label : Label) (score : α) :
    BestChart α :=
  ⟨chart.entries.modify start stop label fun entry => { entry with before := score }⟩

def setTerminal (chart : BestChart α) (position : Nat) (label : Label) (score : α) :
    BestChart α :=
  ⟨chart.entries.modify position (position + 1) label fun entry =>
    { entry with before := score, origin := .terminal }⟩

def setTerminals (chart : BestChart α) (problem : Problem α) : BestChart α :=
  (List.range problem.length).foldl
    (fun chart position =>
      (problem.terminalsAt position).foldl
        (fun chart label =>
          chart.setTerminal position label (problem.terminalScore position label))
        chart)
    chart

def takes (chart : BestChart α) (start stop : Nat) (label : Label) (score : α) : Bool :=
  chart.before start stop label < score

/-- Takes a binary rule for an item if it scores better than what the item has. -/
def offer (chart : BestChart α) (start stop : Nat) (label : Label) (score : α)
    (rule split : Nat) : BestChart α :=
  ⟨chart.entries.modify start stop label fun entry =>
    if entry.before < score then { entry with before := score, origin := .binary rule split }
    else entry⟩

/-- The unary rules of a grammar in bottom-up order, with their scores over an interval. -/
def unaryEdges (problem : Problem α) (start stop : Nat) : List (UnaryEdge α) :=
  problem.grammar.unaryOrder.filterMap fun number =>
    (problem.grammar.unaryRule? number).map fun rule =>
      ⟨rule, problem.unaryScore start stop rule number⟩

/-- Closes the cell of an interval under unary rules and counts the improvements. The cell is left
as it is then, also where it does not settle. -/
def close (chart : BestChart α) (problem : Problem α) (start stop : Nat) (floor : α) :
    BestChart α × Except DecodeError Nat :=
  let (cell, outcome) :=
    (chart.cell start stop).close chart.labels floor (unaryEdges problem start stop)
  (⟨chart.entries.setCell start stop cell.toList⟩,
    outcome.mapError fun labels =>
      .unsettledCell start stop Cell.passLimit (labels.map problem.grammar.labelName))

def closed (chart : BestChart α) (problem : Problem α) (start stop : Nat) (floor : α) :
    Except DecodeError (BestChart α) :=
  match chart.close problem start stop floor with
  | (chart, .ok _) => .ok chart
  | (_, .error error) => .error error

/-- The best label accepted at the root of a tree over all words; of equal ones the first. -/
def bestRoot? (chart : BestChart α) (grammar : Grammar) : Option (Label × α) :=
  grammar.roots.toList.foldl
    (fun best label =>
      let score := chart.after 0 chart.words label
      if chart.labels ≤ label.toNat || score == absent then best
      else match best with
        | none => some (label, score)
        | some (_, top) => if top < score then some (label, score) else best)
    none

/-- How many spans a tree read off a chart may have when another one is to follow. -/
def spanLimit (chart : BestChart α) : Nat := 2 * chart.words * (chart.labels + 1)

/-- Reads spans off a chart, parents first and left before right. `pending` holds the items still
to read and `spans` those read, last one first. -/
def readItems (chart : BestChart α) (grammar : Grammar) (pending : List (Item × Phase))
    (spans : List Span) : Except DecodeError (List Span) :=
  match pending with
  | [] => .ok spans.reverse
  | (item, phase) :: pending =>
    if chart.spanLimit < spans.length then .error (.endlessTree item.start item.stop)
    else
      let ⟨start, stop, label⟩ := item
      let entry := chart.entries.get start stop label
      match phase with
      | .afterUnary =>
        match entry.link with
        | .none => .error (.malformed (.missingChild item))
        | .keep => chart.readItems grammar ((item, .beforeUnary) :: pending) spans
        | .unary child =>
          chart.readItems grammar ((⟨start, stop, child⟩, .afterUnary) :: pending)
            (.unary start stop ⟨label, child⟩ :: spans)
      | .beforeUnary =>
        match entry.origin with
        | .none => .error (.malformed (.missingChild item))
        | .terminal => chart.readItems grammar pending (.terminal start label :: spans)
        | .binary number split =>
          match grammar.binaryRule? number with
          | none => .error (.unknownRule ("binary rule #" ++ toString number))
          | some rule =>
            chart.readItems grammar
              ((⟨start, split, rule.left⟩, .afterUnary) ::
                (⟨split, stop, rule.right⟩, .afterUnary) :: pending)
              (.binary start split stop rule :: spans)
termination_by
  (chart.spanLimit + 1 - spans.length, pending.countP fun (_, phase) => phase == .afterUnary)
decreasing_by
  all_goals simp_wf
  · exact .right _ (by simp)
  all_goals exact .left _ _ (by omega)

def readTree (chart : BestChart α) (grammar : Grammar) (root : Label) :
    Except DecodeError (List Span) :=
  chart.readItems grammar [(⟨0, chart.words, root⟩, .afterUnary)] []

def best? (chart : BestChart α) (grammar : Grammar) :
    Except DecodeError (Option (Derivation α)) :=
  match chart.bestRoot? grammar with
  | none => .ok none
  | some (root, score) => return some ⟨← chart.readTree grammar root, score⟩

def checkUnary (grammar : Grammar) : Except DecodeError Unit :=
  match grammar.unaryCycle? with
  | some cycle => .error (.unaryCycle (cycle.map grammar.labelName))
  | none => .ok ()

end BestChart

end Constituency
