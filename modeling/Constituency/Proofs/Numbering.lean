import Constituency.Numbering

/-!
Sound numberings: the number of a value and the value with a number are the two ways along one
one-to-one relation. Every numbering grown from the empty one is sound.
-/

namespace Constituency.Numbering

variable {α : Type} [BEq α] [Hashable α]

def Sound (values : Numbering α) : Prop :=
  ∀ value number, values.find? value = some number ↔ values.get? number = some value

theorem get?_eq (values : Numbering α) (number : Nat) :
    values.get? number = values.toList[number]? := by
  simp [get?, toList]

theorem length_toList (values : Numbering α) : values.toList.length = values.size := by
  simp [toList, size]

theorem lt_size_of_get? {values : Numbering α} {value : α} {number : Nat}
    (found : values.get? number = some value) : number < values.size := by
  rw [get?_eq] at found
  rw [← length_toList]
  exact (List.getElem?_eq_some_iff.mp found).1

theorem mem_toList_iff (values : Numbering α) (value : α) :
    value ∈ values.toList ↔ ∃ number, values.get? number = some value := by
  simp only [get?_eq, List.mem_iff_getElem?]

theorem mem_toList_push (values : Numbering α) (value other : α) :
    other ∈ (values.push value).toList ↔ other ∈ values.toList ∨ other = value := by
  rw [toList_push, List.mem_append, List.mem_singleton]

namespace Sound

theorem empty : Sound (empty : Numbering α) := by
  intro value number
  rw [find?_empty, get?_eq, toList_empty]
  simp

theorem lt_size {values : Numbering α} (sound : values.Sound) {value : α} {number : Nat}
    (found : values.find? value = some number) : number < values.size :=
  lt_size_of_get? ((sound value number).mp found)

theorem toList_nodup {values : Numbering α} (sound : values.Sound) : values.toList.Nodup := by
  refine List.pairwise_iff_getElem.mpr ?_
  intro i j insideI insideJ before same
  have atFirst := (sound values.toList[i] i).mpr (by rw [get?_eq, List.getElem?_eq_getElem])
  have atSecond := (sound values.toList[i] j).mpr (by rw [get?_eq, same, List.getElem?_eq_getElem])
  rw [atFirst] at atSecond
  exact Nat.ne_of_lt before (Option.some.inj atSecond)

variable [LawfulBEq α] [LawfulHashable α]

theorem push {values : Numbering α} (sound : values.Sound) {value : α}
    (new : values.find? value = none) : (values.push value).Sound := by
  intro other number
  rw [find?_push, get?_push]
  by_cases same : value = other
  · subst same
    by_cases last : number = values.size
    · simp [last]
    · have missing : values.get? number ≠ some value := by
        intro found
        rw [(sound value number).mpr found] at new
        cases new
      simp [last, missing, Ne.symm last]
  · by_cases last : number = values.size
    · have missing : values.find? other ≠ some number := by
        intro found
        exact Nat.ne_of_lt (sound.lt_size found) last
      simpa [same, last] using last ▸ missing
    · simpa [same, last] using sound other number

theorem contains_iff {values : Numbering α} (sound : values.Sound) (value : α) :
    values.contains value = true ↔ value ∈ values.toList := by
  rw [contains_eq_isSome_find?, Option.isSome_iff_exists, mem_toList_iff]
  exact exists_congr (sound value)

theorem find?_isSome_iff {values : Numbering α} (sound : values.Sound) (value : α) :
    (values.find? value).isSome = true ↔ value ∈ values.toList := by
  rw [← contains_eq_isSome_find?, sound.contains_iff]

theorem insert {values : Numbering α} (sound : values.Sound) (value : α) :
    (values.insert value).Sound := by
  by_cases known : values.contains value = true
  · simpa [Numbering.insert, known] using sound
  · have new : values.find? value = none := by
      simpa [contains_eq_isSome_find?] using known
    simpa [Numbering.insert, known] using sound.push new

theorem mem_toList_insert {values : Numbering α} (sound : values.Sound) (value other : α) :
    other ∈ (values.insert value).toList ↔ other = value ∨ other ∈ values.toList := by
  by_cases known : values.contains value = true
  · have member := (sound.contains_iff value).mp known
    have unchanged : values.insert value = values := by simp [Numbering.insert, known]
    rw [unchanged]
    constructor
    · exact Or.inr
    · intro found
      rcases found with rfl | member'
      · exact member
      · exact member'
  · rw [Numbering.insert, if_neg known, mem_toList_push, or_comm]

end Sound

end Constituency.Numbering
