import Constituency.Grammar.Basic
import Constituency.Model.Cost
import Constituency.Tree.Parents

/-!
Derivations of a sentence and their scores.
-/

namespace Constituency

/-- What a search is about: the best trees that a grammar gives a sentence, under a model and the
cost of leaving a reference tree. -/
structure Problem (α : Type) where
  grammar : Grammar
  sentence : Sentence
  model : Model α
  cost : Option (Cost α) := none

/-- The searches that score each rule apart from its parent's label. -/
inductive FirstOrderSearch
  | exact
  | beam
deriving DecidableEq, Repr

namespace FirstOrderSearch

def name : FirstOrderSearch → String
  | exact => "CkyDecoder"
  | beam => "PrunedDecoder"

end FirstOrderSearch

inductive DecodeError
  | unaryCycle (names : List String)
  /-- Unary rules still improve labels of a cell after all passes. -/
  | unsettledCell (start stop passes : Nat) (names : List String)
  /-- A tree read off a chart has more spans than any tree. -/
  | endlessTree (start stop : Nat)
  | malformed (cause : TreeError)
  | unknownRule (rule : String)
  | firstOrderOnly (search : FirstOrderSearch)
deriving DecidableEq, Repr

namespace DecodeError

def message : DecodeError → String
  | unaryCycle names => "cyclic unary chain: " ++ " -> ".intercalate names
  | unsettledCell start stop passes names =>
    "cyclic unary chain: unary closure of [" ++ toString start ++ ", " ++ toString stop ++
      ") still changing after " ++ toString passes ++ " passes: " ++ ", ".intercalate names
  | endlessTree start stop =>
    "cyclic unary chain: backtrace through [" ++ toString start ++ ", " ++ toString stop ++
      ") does not terminate"
  | malformed cause => "malformed derivation: " ++ cause.message
  | unknownRule rule => "rule not in grammar: " ++ rule
  | firstOrderOnly search => search.name ++ " does not support second-order scoring"

end DecodeError

structure Derivation (α : Type) where
  spans : List Span
  score : α
deriving Repr

namespace Derivation

def rootLabel? (spans : List Span) : Option Label :=
  match Parents.ofSpans spans with
  | .ok parents => parents.root?.bind fun root => spans[root]?.map Span.label
  | .error _ => none

end Derivation

namespace Problem

open Score

variable {α : Type} [Score α]

def length (problem : Problem α) : Nat := problem.sentence.length

def site (problem : Problem α) (start stop split : Nat) : Site :=
  ⟨problem.sentence, start, stop, split⟩

def terminalsAt (problem : Problem α) (position : Nat) : List Label :=
  problem.grammar.terminalsFor (problem.sentence.number? position)

def costOf (problem : Problem α) (item : Item) : α := Cost.orZero problem.cost item

def terminalScore (problem : Problem α) (position : Nat) (label : Label) : α :=
  problem.model.score (.pack .terminal label.toNat)
      (problem.site position (position + 1) position) +
    problem.costOf ⟨position, position + 1, label⟩

def unaryScore (problem : Problem α) (start stop : Nat) (rule : UnaryRule) (number : Nat) : α :=
  problem.model.score (.pack .unary number) (problem.site start stop start) +
    problem.costOf ⟨start, stop, rule.parent⟩

/-- What a model gives a numbered binary rule over an interval, without the cost. -/
def binaryModelScore (problem : Problem α) (start split stop : Nat) (number : Nat) : α :=
  problem.model.score (.pack .binary number) (problem.site start stop split)

/-- The score of one span: its rule under the model, its rule below its parent's label where
`parent` is given, and its cost. -/
def addSpan (problem : Problem α) (total : α) (span : Span) (parent : Option Label) :
    Except DecodeError α :=
  match problem.grammar.ruleCode? span.rule with
  | none => .error (.unknownRule (problem.grammar.describe span.rule))
  | some code =>
    let site := Site.ofSpan problem.sentence span
    let total := total + problem.model.score code site
    let total :=
      match parent with
      | some label => total + problem.model.parentScore code label site
      | none => total
    .ok (total + problem.costOf span.item)

/-- The score of spans whose parents are known. Parents count only in second-order scores. -/
def scoreWith (problem : Problem α) (secondOrder : Bool) (spans : List Span)
    (parents : Parents) : Except DecodeError α :=
  (spans.zip parents).foldlM
    (fun total (span, parent) =>
      let label := if secondOrder then parent.bind fun p => spans[p]?.map Span.label else none
      problem.addSpan total span label)
    zero

def score (problem : Problem α) (secondOrder : Bool) (spans : List Span) :
    Except DecodeError α := do
  let parents ← (Parents.ofTree spans problem.length).mapError .malformed
  problem.scoreWith secondOrder spans parents

end Problem

end Constituency
