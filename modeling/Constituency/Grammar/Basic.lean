import Constituency.Grammar.UnaryGraph

/-!
Grammars over labelled constituents: numbered labels, words and rules, the labels that stand over
words, and the labels accepted at the root of a tree.
-/

namespace Constituency

structure Grammar where
  labels : Numbering String := {}
  words : Numbering String := {}
  binaryRules : Numbering BinaryRule := {}
  binaryByParent : Std.HashMap Label (Array Nat) := {}
  unaryRules : Numbering UnaryRule := {}
  unaryByParent : Std.HashMap Label (Array Nat) := {}
  /-- Every unary rule once, after the rules that build its child. -/
  unaryOrder : List Nat := []
  terminals : Numbering Label := {}
  roots : Numbering Label := {}
  /-- The labels that a word may stand under, for words that name some. -/
  dictionary : Std.HashMap Nat (List Label) := {}

namespace Grammar

def empty : Grammar := {}

instance : Inhabited Grammar := ⟨empty⟩

def labelCount (grammar : Grammar) : Nat := grammar.labels.size

def allLabels (grammar : Grammar) : List Label := Label.first grammar.labelCount

def label? (grammar : Grammar) (name : String) : Option Label :=
  (grammar.labels.find? name).map Nat.toUInt16

/-- The name of a label; a label outside the table shows its number. -/
def labelName (grammar : Grammar) (label : Label) : String :=
  (grammar.labels.get? label.toNat).getD ("#" ++ toString label.toNat)

def word? (grammar : Grammar) (word : String) : Option Nat := grammar.words.find? word

def binaryRule? (grammar : Grammar) (number : Nat) : Option BinaryRule :=
  grammar.binaryRules.get? number

def unaryRule? (grammar : Grammar) (number : Nat) : Option UnaryRule :=
  grammar.unaryRules.get? number

def binaryWithParent (grammar : Grammar) (label : Label) : List Nat :=
  (grammar.binaryByParent.getD label #[]).toList

def unaryWithParent (grammar : Grammar) (label : Label) : List Nat :=
  (grammar.unaryByParent.getD label #[]).toList

def numberedBinary (grammar : Grammar) : List (BinaryRule × Nat) :=
  grammar.binaryRules.toList.zipIdx

def numberedUnary (grammar : Grammar) : List (UnaryRule × Nat) :=
  grammar.unaryRules.toList.zipIdx

def isTerminal (grammar : Grammar) (label : Label) : Bool := grammar.terminals.contains label

def isRoot (grammar : Grammar) (label : Label) : Bool := grammar.roots.contains label

/-- The labels that may stand over a word. A word without an entry in the dictionary, or outside
the vocabulary, takes every terminal label. -/
def terminalsFor (grammar : Grammar) (word : Option Nat) : List Label :=
  (word.bind (grammar.dictionary[·]?)).getD grammar.terminals.toList

/-- The number of a rule within its shape; a terminal rule goes by its label. -/
def ruleNumber? (grammar : Grammar) : Rule → Option Nat
  | .terminal label => if grammar.isTerminal label then some label.toNat else none
  | .unary rule => grammar.unaryRules.find? rule
  | .binary rule => grammar.binaryRules.find? rule

def contains (grammar : Grammar) (rule : Rule) : Bool := (grammar.ruleNumber? rule).isSome

def ruleCode? (grammar : Grammar) (rule : Rule) : Option RuleCode :=
  (grammar.ruleNumber? rule).map (RuleCode.pack rule.shape)

def ruleOfCode? (grammar : Grammar) (code : RuleCode) : Option Rule := do
  let (shape, number) ← code.unpack?
  match shape with
  | .terminal =>
    let label := number.toUInt16
    if grammar.isTerminal label then some (.terminal label) else none
  | .unary => (grammar.unaryRule? number).map .unary
  | .binary => (grammar.binaryRule? number).map .binary

def describe (grammar : Grammar) : Rule → String
  | .terminal label => grammar.labelName label ++ " -> <word>"
  | .unary rule => grammar.labelName rule.parent ++ " -> " ++ grammar.labelName rule.child
  | .binary rule =>
    grammar.labelName rule.parent ++ " -> " ++ grammar.labelName rule.left ++ " " ++
      grammar.labelName rule.right

def unaryChildren (grammar : Grammar) (label : Label) : List Label :=
  (grammar.unaryWithParent label).filterMap fun number =>
    (grammar.unaryRule? number).map UnaryRule.child

/-- A chain of unary rules that leads from a label back to it. -/
def unaryCycle? (grammar : Grammar) : Option (List Label) :=
  match UnaryGraph.leavingOrder grammar.labelCount grammar.unaryChildren with
  | .ok _ => none
  | .error cycle => some cycle

/-- The unary rules by the place of their child in the order in which labels are left; as they were
added where the rules form a cycle. -/
def bottomUpOrder (grammar : Grammar) : List Nat :=
  let numbers := List.range grammar.unaryRules.size
  match UnaryGraph.leavingOrder grammar.labelCount grammar.unaryChildren with
  | .error _ => numbers
  | .ok left =>
    let place (number : Nat) : Nat :=
      ((grammar.unaryRule? number).bind fun rule => left.find? rule.child).getD 0
    numbers.mergeSort fun a b => place a ≤ place b

end Grammar

end Constituency
