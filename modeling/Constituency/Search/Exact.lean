import Constituency.Search.BestChart

/-!
Exact search: the best tree that a grammar gives a sentence.
-/

namespace Constituency

def splits (start stop : Nat) : List Nat := List.range' (start + 1) (stop - start - 1)

def narrowIntervals (length : Nat) : List (Nat × Nat) :=
  (List.range length).map fun start => (start, start + 1)

/-- The intervals of more than one word, narrow ones first and then from left to right. -/
def wideIntervals (length : Nat) : List (Nat × Nat) :=
  (List.range' 2 (length - 1)).flatMap fun width =>
    (List.range (length + 1 - width)).map fun start => (start, start + width)

namespace Problem

open Score

variable {α : Type} [Score α]

def joined (problem : Problem α) (start split stop : Nat) (rule : BinaryRule) (number : Nat)
    (left right : α) : α :=
  left + right + problem.binaryModelScore start split stop number +
    problem.costOf ⟨start, stop, rule.parent⟩

end Problem

namespace Exact

open Score

variable {α : Type} [Score α]

/-- Offers a numbered binary rule over an interval, if its children have scores. -/
def offerRule (problem : Problem α) (start split stop : Nat) (chart : BestChart α)
    (rule : BinaryRule × Nat) : BestChart α :=
  let (rule, number) := rule
  let left := chart.after start split rule.left
  let right := chart.after split stop rule.right
  if left == absent || right == absent then chart
  else
    chart.offer start stop rule.parent (problem.joined start split stop rule number left right)
      number split

def offerAll (problem : Problem α) (chart : BestChart α) (start stop : Nat) : BestChart α :=
  let rules := problem.grammar.numberedBinary
  (splits start stop).foldl
    (fun chart split => rules.foldl (offerRule problem start split stop) chart) chart

def fill (problem : Problem α) : Except DecodeError (BestChart α) := do
  let chart := BestChart.create problem.length problem.grammar.labelCount
  let chart := chart.setTerminals problem
  let chart ← (narrowIntervals problem.length).foldlM
    (fun chart (start, stop) => chart.closed problem start stop absent) chart
  (wideIntervals problem.length).foldlM
    (fun chart (start, stop) =>
      (offerAll problem chart start stop).closed problem start stop absent)
    chart

def decode (problem : Problem α) : Except DecodeError (Option (Derivation α)) := do
  BestChart.checkUnary problem.grammar
  if problem.sentence.isEmpty then return none
  (← fill problem).best? problem.grammar

end Exact

end Constituency
