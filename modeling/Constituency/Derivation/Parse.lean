import Constituency.Cells.Live
import Constituency.Derivation.Basic

/-!
Parses: labelled trees over a sentence, apart from any way to find them. A problem admits a parse if
its words and rules are in the grammar; the parse is one of the sentence if it spans all words under
an accepted label.
-/

namespace Constituency

inductive Parse
  | word (label : Label) (position : Nat)
  | unary (label : Label) (child : Parse)
  | binary (label : Label) (left right : Parse)
deriving DecidableEq, Repr

namespace Parse

def label : Parse → Label
  | word label _ => label
  | unary label _ => label
  | binary label _ _ => label

def start : Parse → Nat
  | word _ position => position
  | unary _ child => child.start
  | binary _ left _ => left.start

def stop : Parse → Nat
  | word _ position => position + 1
  | unary _ child => child.stop
  | binary _ _ right => right.stop

def item (parse : Parse) : Item := ⟨parse.start, parse.stop, parse.label⟩

def top : Parse → Span
  | word label position => .terminal position label
  | unary label child => .unary child.start child.stop ⟨label, child.label⟩
  | binary label left right => .binary left.start left.stop right.stop ⟨label, left.label, right.label⟩

/-- All spans, parents first and left before right. -/
def spans : Parse → List Span
  | word label position => [top (word label position)]
  | unary label child => top (unary label child) :: child.spans
  | binary label left right => top (binary label left right) :: (left.spans ++ right.spans)

/-- The right child of a binary rule starts where the left one stops. -/
def Contiguous : Parse → Prop
  | word _ _ => True
  | unary _ child => child.Contiguous
  | binary _ left right => left.stop = right.start ∧ left.Contiguous ∧ right.Contiguous

def isUnary : Parse → Bool
  | unary _ _ => true
  | _ => false

/-- No unary rule stands right on top of another one. -/
def Flat : Parse → Prop
  | word _ _ => True
  | unary _ child => child.isUnary = false ∧ child.Flat
  | binary _ left right => left.Flat ∧ right.Flat

/-- The items below the top of a flat parse: the label of each constituent as it was produced,
before unary rules, and its outer label after them. -/
def innerItems : Parse → List (Item × Phase)
  | word label position => [((word label position).item, .beforeUnary)]
  | unary _ child => child.innerItems
  | binary label left right =>
    ((binary label left right).item, .beforeUnary) ::
      (((left.item, .afterUnary) :: left.innerItems) ++ ((right.item, .afterUnary) :: right.innerItems))

def items (parse : Parse) : List (Item × Phase) := (parse.item, .afterUnary) :: parse.innerItems

end Parse

namespace Problem

open Score

variable {α : Type} [Score α]

/-- Every word may stand under its label and every rule is in the grammar. -/
def Admits (problem : Problem α) : Parse → Prop
  | .word label position => position < problem.length ∧ label ∈ problem.terminalsAt position
  | .unary label child =>
    problem.grammar.contains (.unary ⟨label, child.label⟩) = true ∧ problem.Admits child
  | .binary label left right =>
    problem.grammar.contains (.binary ⟨label, left.label, right.label⟩) = true ∧
      left.stop = right.start ∧ problem.Admits left ∧ problem.Admits right

structure Parses (problem : Problem α) (parse : Parse) : Prop where
  admits : problem.Admits parse
  start_eq : parse.start = 0
  stop_eq : parse.stop = problem.length
  root : problem.grammar.isRoot parse.label = true

def spanScore (problem : Problem α) (span : Span) : α :=
  problem.model.score ((problem.grammar.ruleCode? span.rule).getD 0)
      (Site.ofSpan problem.sentence span) +
    problem.costOf span.item

def parseScore (problem : Problem α) : Parse → α
  | .word label position => problem.spanScore (Parse.word label position).top
  | .unary label child => problem.spanScore (Parse.unary label child).top + problem.parseScore child
  | .binary label left right =>
    problem.spanScore (Parse.binary label left right).top +
      (problem.parseScore left + problem.parseScore right)

end Problem

end Constituency
