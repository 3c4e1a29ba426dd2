import Constituency.Sampling.Keystream
import Constituency.Score.LogSum

/-!
Drawing from a list of weights.
-/

namespace Constituency

/-- A source of numbers from 0 up to 1. -/
abbrev Draw (σ α : Type) := StateM σ α

namespace Draw

open Score LogScore

variable {α σ : Type}

def ofWord [Score α] (word : UInt64) : α := fraction (word >>> 11).toNat

def ofKeystream [Score α] : Draw Keystream α := fun stream =>
  let (word, stream) := stream.next
  (ofWord word, stream)

/-- The numbers of some words, over and over; the source counts the numbers taken. Without a word
all numbers are zero. -/
def cycling [Score α] (words : Array UInt64) : Draw Nat α := fun taken =>
  (ofWord (words.getD (taken % words.size) 0), taken + 1)

/-- The first place at which the sum of the probabilities, begun with `total`, exceeds a number. -/
def firstAbove? [Score α] (number : α) : α → List α → Option Nat
  | _, [] => none
  | total, probability :: rest =>
    if number < total + probability then some 0
    else (firstAbove? number (total + probability) rest).map (· + 1)

/-- The place that a number falls on; the last one, should the sum of all probabilities be short of
the number. -/
def placeOf [Score α] (number : α) (probabilities : List α) : Nat :=
  (firstAbove? number zero probabilities).getD (probabilities.length - 1)

variable [LogScore α]

/-- Draws a place in proportion to the weights whose logarithms are given. Nothing is drawn if no
weight is present. -/
def place (draw : Draw σ α) (weights : List α) : StateM σ (Option Nat) :=
  match normalize weights with
  | [] => pure none
  | probabilities => do
    let number ← draw
    return some (placeOf number probabilities)

def option {β : Type} (draw : Draw σ α) (options : List (β × α)) : StateM σ (Option β) := do
  let place ← draw.place (options.map Prod.snd)
  return place.bind fun place => options[place]?.map Prod.fst

end Draw

end Constituency
