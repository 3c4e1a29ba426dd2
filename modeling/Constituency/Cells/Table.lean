import Constituency.Score.Aggregate
import Constituency.Grammar.Rule

/-!
Tables with one slot for each interval of a sentence and each label. A slot keeps what was last put
into it, and no other slot changes with it.
-/

namespace Constituency

structure Table (α : Type) where
  words : Nat
  labels : Nat
  /-- What every slot holds at first, and what is read outside the table. -/
  blank : α
  slots : Array α

namespace Table

variable {α : Type}

/-- A blank table. Its size is a natural number, so that nothing limits the words and the labels. -/
def create (words labels : Nat) (blank : α) : Table α :=
  ⟨words, labels, blank, Array.replicate ((words + 1) * (words + 1) * labels) blank⟩

/-- Where the slots of an interval begin. For an interval of the sentence this is less than the
number of slots, and so is all that it is computed from: it wraps in no word that counts the
slots. -/
def offset (table : Table α) (start stop : Nat) : Nat :=
  (start * (table.words + 1) + stop) * table.labels

def place (table : Table α) (start stop : Nat) (label : Label) : Nat :=
  table.offset start stop + label.toNat

def get (table : Table α) (start stop : Nat) (label : Label) : α :=
  table.slots.getD (table.place start stop label) table.blank

def set (table : Table α) (start stop : Nat) (label : Label) (value : α) : Table α :=
  { table with slots := table.slots.setIfInBounds (table.place start stop label) value }

def modify (table : Table α) (start stop : Nat) (label : Label) (change : α → α) : Table α :=
  { table with slots := table.slots.modify (table.place start stop label) change }

def cell (table : Table α) (start stop : Nat) : List α :=
  let offset := table.offset start stop
  (table.slots.extract offset (offset + table.labels)).toList

def setCell (table : Table α) (start stop : Nat) (values : List α) : Table α :=
  let offset := table.offset start stop
  let slots := values.zipIdx.foldl
    (fun slots (value, label) => slots.setIfInBounds (offset + label) value) table.slots
  { table with slots := slots }

def join (aggregate : Aggregate α) (table : Table α) (start stop : Nat) (label : Label)
    (value : α) : Table α :=
  table.modify start stop label (aggregate.join · value)

theorem get_create (words labels : Nat) (blank : α) (start stop : Nat) (label : Label) :
    (create words labels blank).get start stop label = blank := by
  simp only [create, get, Array.getD_eq_getD_getElem?, Array.getElem?_replicate]
  split <;> rfl

def largest [Score α] (table : Table α) (start stop : Nat) : α :=
  Score.largest (table.cell start stop)

end Table

end Constituency
