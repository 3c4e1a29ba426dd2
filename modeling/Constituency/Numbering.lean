import Std.Data.HashMap

/-!
Numbered collections: distinct values, each with the number of values that came before it. The
list of the values is the view through which a collection is understood: pushing a value appends
it, and gives it the length of the list so far as its number.
-/

namespace Constituency

/-- Distinct values in the order they first came, with the number of each. Numbers have no limit and
never wrap: those of at most 2^32 values are the same in words of 32 bits. -/
structure Numbering (α : Type) [BEq α] [Hashable α] where
  items : Array α := #[]
  numbers : Std.HashMap α Nat := {}

namespace Numbering

variable {α : Type} [BEq α] [Hashable α]

def empty : Numbering α := {}

instance : Inhabited (Numbering α) := ⟨empty⟩

def size (values : Numbering α) : Nat := values.items.size

def isEmpty (values : Numbering α) : Bool := values.items.isEmpty

def toList (values : Numbering α) : List α := values.items.toList

def find? (values : Numbering α) (value : α) : Option Nat := values.numbers[value]?

def contains (values : Numbering α) (value : α) : Bool := values.numbers.contains value

def get? (values : Numbering α) (number : Nat) : Option α := values.items[number]?

def push (values : Numbering α) (value : α) : Numbering α :=
  let number := values.size
  ⟨values.items.push value, values.numbers.insert value number⟩

def insert (values : Numbering α) (value : α) : Numbering α :=
  if values.contains value then values else values.push value

@[simp] theorem size_empty : (empty : Numbering α).size = 0 := rfl

@[simp] theorem toList_empty : (empty : Numbering α).toList = [] := rfl

@[simp] theorem find?_empty (value : α) : (empty : Numbering α).find? value = none := by
  simp [find?, empty]

@[simp] theorem size_push (values : Numbering α) (value : α) :
    (values.push value).size = values.size + 1 := by
  simp [size, push]

@[simp] theorem toList_push (values : Numbering α) (value : α) :
    (values.push value).toList = values.toList ++ [value] := by
  simp [toList, push]

theorem get?_push (values : Numbering α) (value : α) (number : Nat) :
    (values.push value).get? number =
      if number = values.size then some value else values.get? number :=
  Array.getElem?_push

theorem find?_push [LawfulBEq α] [LawfulHashable α] (values : Numbering α) (value other : α) :
    (values.push value).find? other =
      if value == other then some values.size else values.find? other := by
  simp [find?, push, Std.HashMap.getElem?_insert]

theorem contains_eq_isSome_find? [LawfulBEq α] [LawfulHashable α] (values : Numbering α)
    (value : α) : values.contains value = (values.find? value).isSome := by
  simp [contains, find?]

end Numbering

end Constituency
