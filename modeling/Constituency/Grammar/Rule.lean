/-!
Grammar rules and the codes under which a model knows them.
-/

namespace Constituency

/-- A constituent label, by its number in the grammar's label table. -/
abbrev Label := UInt16

/-- How many labels, and how many rules of one shape, have a number. -/
def numberLimit : Nat := 65536

namespace Label

def first (count : Nat) : List Label := (List.range count).map Nat.toUInt16

/-- The labels below the count, itself kept as a label. -/
def below (count : Label) : List Label := first count.toNat

@[simp] theorem mem_first (count : Nat) (label : Label) :
    label ∈ first count ↔ label.toNat < count := by
  simp only [first, List.mem_map, List.mem_range]
  constructor
  · rintro ⟨number, bound, rfl⟩
    exact Nat.lt_of_le_of_lt (Nat.mod_le number _) bound
  · intro bound
    exact ⟨label.toNat, bound, by simp⟩

theorem below_toUInt16 {count : Nat} (fits : count < numberLimit) :
    below count.toUInt16 = first count := by
  have same : count.toUInt16.toNat = count := Nat.mod_eq_of_lt fits
  rw [below, same]

end Label

inductive Shape
  | terminal
  | unary
  | binary
deriving DecidableEq, Repr, Hashable

namespace Shape

def rank : Shape → Nat
  | terminal => 0
  | unary => 1
  | binary => 2

def ofRank? : Nat → Option Shape
  | 0 => some terminal
  | 1 => some unary
  | 2 => some binary
  | _ => none

def name : Shape → String
  | terminal => "terminal"
  | unary => "unary"
  | binary => "binary"

def ofName? (name : String) : Option Shape :=
  [terminal, unary, binary].find? fun shape => shape.name == name

end Shape

structure UnaryRule where
  parent : Label
  child : Label
deriving DecidableEq, Repr, Hashable

structure BinaryRule where
  parent : Label
  left : Label
  right : Label
deriving DecidableEq, Repr, Hashable

/-- A terminal rule stands for its label over any word that the label may take. -/
inductive Rule
  | terminal (label : Label)
  | unary (rule : UnaryRule)
  | binary (rule : BinaryRule)
deriving DecidableEq, Repr, Hashable

namespace Rule

def shape : Rule → Shape
  | terminal _ => .terminal
  | unary _ => .unary
  | binary _ => .binary

def parent : Rule → Label
  | terminal label => label
  | unary rule => rule.parent
  | binary rule => rule.parent

def children : Rule → List Label
  | terminal _ => []
  | unary rule => [rule.child]
  | binary rule => [rule.left, rule.right]

def labels (rule : Rule) : List Label := rule.parent :: rule.children

def ofLabels? : List Label → Option Rule
  | [parent] => some (terminal parent)
  | [parent, child] => some (unary ⟨parent, child⟩)
  | [parent, left, right] => some (binary ⟨parent, left, right⟩)
  | _ => none

/-- Rules are ordered by shape, then by parent, then by children. -/
def order (a b : Rule) : Ordering :=
  (compare a.shape.rank b.shape.rank).then <|
    (compare a.parent b.parent).then <|
      match a, b with
      | unary r, unary s => compare r.child s.child
      | binary r, binary s => (compare r.left s.left).then (compare r.right s.right)
      | _, _ => .eq

end Rule

/-- The number of a rule among all rules: its shape over its number within the shape. -/
abbrev RuleCode := Nat

namespace RuleCode

def numberBits : Nat := 16

def maxNumber : Nat := numberLimit - 1

def pack (shape : Shape) (number : Nat) : RuleCode :=
  shape.rank * numberLimit + number % numberLimit

/-- A code whose shape bits name no shape has no parts. -/
def unpack? (code : RuleCode) : Option (Shape × Nat) :=
  (Shape.ofRank? (code / numberLimit)).map (·, code % numberLimit)

def shape? (code : RuleCode) : Option Shape := code.unpack?.map Prod.fst

end RuleCode

end Constituency
