import Constituency.Grammar.Rule

/-!
Spans: rules applied over intervals of a sentence. A tree is written as a list of spans.
-/

namespace Constituency

/-- A label over the words from `start` up to `stop`. -/
structure Item where
  start : Nat
  stop : Nat
  label : Label
deriving DecidableEq, Repr, Hashable

/-- A rule over the words from `start` up to `stop`. The right child of a binary rule starts at
`split`; other rules have their start there. -/
structure Span where
  start : Nat
  stop : Nat
  split : Nat
  rule : Rule
deriving DecidableEq, Repr, Hashable

namespace Span

def terminal (position : Nat) (label : Label) : Span :=
  ⟨position, position + 1, position, .terminal label⟩

def unary (start stop : Nat) (rule : UnaryRule) : Span := ⟨start, stop, start, .unary rule⟩

def binary (start split stop : Nat) (rule : BinaryRule) : Span :=
  ⟨start, stop, split, .binary rule⟩

def label (span : Span) : Label := span.rule.parent

def item (span : Span) : Item := ⟨span.start, span.stop, span.label⟩

/-- How many words the interval has, unless it stops before it starts. -/
def width? (span : Span) : Option Nat :=
  if span.start ≤ span.stop then some (span.stop - span.start) else none

def isTerminal (span : Span) : Bool := span.rule.shape = .terminal

def isUnary (span : Span) : Bool := span.rule.shape = .unary

def isBinary (span : Span) : Bool := span.rule.shape = .binary

/-- What the children must be, from left to right. -/
def slots (span : Span) : List Item :=
  match span.rule with
  | .terminal _ => []
  | .unary rule => [⟨span.start, span.stop, rule.child⟩]
  | .binary rule => [⟨span.start, span.split, rule.left⟩, ⟨span.split, span.stop, rule.right⟩]

/-- Whether the rule fits over the interval. -/
def isProper (span : Span) : Bool :=
  match span.rule with
  | .terminal _ => span.stop == span.start + 1
  | .unary _ => span.start < span.stop
  | .binary _ => span.start < span.split && span.split < span.stop

/-- Spans are ordered by start, stop and split, then by rule. -/
def order (a b : Span) : Ordering :=
  (compare a.start b.start).then <|
    (compare a.stop b.stop).then <|
      (compare a.split b.split).then <| Rule.order a.rule b.rule

def sorted (spans : List Span) : List Span := spans.mergeSort fun a b => (order a b).isLE

end Span

end Constituency
