import Mathlib
import Constituency.Tree.Span
import Constituency.Score.Float
import Constituency.Proofs.Table
import Constituency.Proofs.LargestScore

/-!
Runs of changes to a table. Each change goes to the slot of its own item, so what a slot holds in the
end is what the changes of its item, and no others, have made of the blank.
-/

namespace Constituency

open Score

structure Item.Within (item : Item) (words labels : Nat) : Prop where
  start_lt : item.start < item.stop
  stop_le : item.stop ≤ words
  label_lt : item.label.toNat < labels

theorem Item.Within.interval {item : Item} {words labels : Nat}
    (within : item.Within words labels) : item.start ≤ words ∧ item.stop ≤ words :=
  ⟨within.start_lt.le.trans within.stop_le, within.stop_le⟩

def Item.key (item : Item) : Nat × Nat × Nat := (item.start, item.stop, item.label.toNat)

namespace Table

/-- A value takes the place of the old one, or is joined to it. -/
inductive Change (α : Type)
  | put (value : α)
  | join (value : α)

structure Call (α : Type) where
  item : Item
  change : Change α

variable {α : Type} (aggregate : Aggregate α)

def Change.onValue (old : α) : Change α → α
  | put value => value
  | join value => aggregate.join old value

def apply (table : Table α) (call : Call α) : Table α :=
  match call.change with
  | .put value => table.set call.item.start call.item.stop call.item.label value
  | .join value => Table.join aggregate table call.item.start call.item.stop call.item.label value

def run (table : Table α) (calls : List (Call α)) : Table α := calls.foldl (apply aggregate) table

/-- What the calls on one key make of a value. -/
def settled (calls : List (Call α)) (key : Nat × Nat × Nat) (first : α) : α :=
  (calls.filter fun call => call.item.key = key).foldl
    (fun old call => call.change.onValue aggregate old) first

def Holds (table : Table α) (item : Item) : Prop :=
  table.place item.start item.stop item.label < table.slots.size

section Run

variable {aggregate} {table : Table α} {words labels : Nat} {blank : α} {start stop : Nat}

theorem apply_eq_modify (table : Table α) (call : Call α) :
    table.apply aggregate call = table.modify call.item.start call.item.stop call.item.label
      (fun old => call.change.onValue aggregate old) := by
  obtain ⟨item, change⟩ := call
  cases change with
  | put value => exact set_eq_modify _ _ _ _ _
  | join value => rfl

theorem Sized.apply (sized : table.Sized words labels blank) (aggregate : Aggregate α)
    (call : Call α) : (table.apply aggregate call).Sized words labels blank := by
  rw [apply_eq_modify]
  exact sized.modify _ _ _ _

theorem Sized.run (sized : table.Sized words labels blank) (aggregate : Aggregate α)
    (calls : List (Call α)) : (table.run aggregate calls).Sized words labels blank := by
  induction calls generalizing table with
  | nil => exact sized
  | cons call calls ih => exact ih (sized.apply aggregate call)

theorem Sized.holds (sized : table.Sized words labels blank) {item : Item}
    (within : item.Within words labels) : table.Holds item :=
  offset_add_lt sized.shaped (sized.covers within.interval)
    (sized.labels_eq.symm ▸ within.label_lt)

end Run

end Table

end Constituency
