import Constituency.Grammar.Basic

/-!
Growing a grammar. Whatever is added twice keeps its first number, and a step that fails leaves in
place what was added before it.
-/

namespace Constituency

inductive GrammarError
  | tooManyLabels
  | tooManyRules (shape : Shape)
  | selfUnary (label : String)
deriving DecidableEq, Repr

namespace GrammarError

def message : GrammarError → String
  | tooManyLabels => "label space exhausted"
  | tooManyRules shape => "too many " ++ shape.name ++ " rules for a 16-bit rule id"
  | selfUnary label =>
    "unary rule " ++ label ++ " -> " ++ label ++ " rewrites a label to itself"

end GrammarError

namespace Grammar

/-- A step that may fail and keeps what it added until then. -/
abbrev Edit (β : Type) := ExceptT GrammarError (StateM Grammar) β

def addLabel (name : String) : Edit Label := ExceptT.mk fun grammar =>
  match grammar.labels.find? name with
  | some number => (.ok number.toUInt16, grammar)
  | none =>
    let number := grammar.labels.size
    if numberLimit ≤ number then (.error .tooManyLabels, grammar)
    else (.ok number.toUInt16, { grammar with labels := grammar.labels.push name })

/-- Numbers a word. Other than labels, words are numbered without a limit. -/
def addWord (word : String) : Edit Nat := ExceptT.mk fun grammar =>
  match grammar.words.find? word with
  | some number => (.ok number, grammar)
  | none => (.ok grammar.words.size, { grammar with words := grammar.words.push word })

def fileUnder (index : Std.HashMap Label (Array Nat)) (parent : Label) (number : Nat) :
    Std.HashMap Label (Array Nat) :=
  index.alter parent fun numbers => some ((numbers.getD #[]).push number)

def addBinary (rule : BinaryRule) : Edit Nat := ExceptT.mk fun grammar =>
  match grammar.binaryRules.find? rule with
  | some number => (.ok number, grammar)
  | none =>
    let number := grammar.binaryRules.size
    if numberLimit ≤ number then (.error (.tooManyRules .binary), grammar)
    else
      (.ok number,
        { grammar with
          binaryRules := grammar.binaryRules.push rule
          binaryByParent := fileUnder grammar.binaryByParent rule.parent number })

def reorder (grammar : Grammar) : Grammar :=
  let order := grammar.bottomUpOrder
  { grammar with unaryOrder := order }

def addUnary (rule : UnaryRule) : Edit Nat := ExceptT.mk fun grammar =>
  if rule.parent = rule.child then (.error (.selfUnary (grammar.labelName rule.parent)), grammar)
  else match grammar.unaryRules.find? rule with
  | some number => (.ok number, grammar)
  | none =>
    let number := grammar.unaryRules.size
    if numberLimit ≤ number then (.error (.tooManyRules .unary), grammar)
    else
      (.ok number, reorder
        { grammar with
          unaryRules := grammar.unaryRules.push rule
          unaryByParent := fileUnder grammar.unaryByParent rule.parent number })

def addTerminal (label : Label) : Edit Unit := ExceptT.mk fun grammar =>
  (.ok (), { grammar with terminals := grammar.terminals.insert label })

def addRoot (label : Label) : Edit Unit := ExceptT.mk fun grammar =>
  (.ok (), { grammar with roots := grammar.roots.insert label })

def addEntry (word : Nat) (label : Label) : Edit Unit := ExceptT.mk fun grammar =>
  (.ok (),
    { grammar with
      dictionary := grammar.dictionary.alter word fun labels =>
        let labels := labels.getD []
        some (if labels.contains label then labels else labels ++ [label]) })

def addLexical (label : Label) (word : String) : Edit Nat := do
  addTerminal label
  let number ← addWord word
  addEntry number label
  return number

def addBinaryNamed (parent left right : String) : Edit Nat := do
  let parent ← addLabel parent
  let left ← addLabel left
  let right ← addLabel right
  addBinary ⟨parent, left, right⟩

def addUnaryNamed (parent child : String) : Edit Nat := do
  let parent ← addLabel parent
  let child ← addLabel child
  addUnary ⟨parent, child⟩

def addLexicalNamed (label word : String) : Edit Nat := do
  let label ← addLabel label
  addLexical label word

def addTerminalNamed (name : String) : Edit Label := do
  let label ← addLabel name
  addTerminal label
  return label

def addRootNamed (name : String) : Edit Label := do
  let label ← addLabel name
  addRoot label
  return label

end Grammar

end Constituency
