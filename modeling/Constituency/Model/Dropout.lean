import Constituency.Model.Linear

/-!
Dropout: a linear model with some features left out, each by the outcome of a hash of the feature
and a seed.
-/

namespace Constituency

def hashWord (hash word : UInt64) : UInt64 :=
  (((hash <<< 5) ||| (hash >>> 59)) ^^^ word) * 0x517cc1b727220a95

/-- Spreads the bits of a word over all its places; no two words spread alike. -/
def spread (word : UInt64) : UInt64 :=
  let word := (word ^^^ (word >>> 30)) * 0xbf58476d1ce4e5b9
  let word := (word ^^^ (word >>> 27)) * 0x94d049bb133111eb
  word ^^^ (word >>> 31)

namespace Feature

private def wordParts : Option Nat → List Nat
  | none => [0]
  | some number => [1, number]

/-- The numbers that a feature is made of, the kind of feature first. -/
def parts : Feature → List Nat
  | rule code => [0, code]
  | emission code word => 1 :: code :: wordParts word
  | firstWord code word => 2 :: code :: wordParts word
  | lastWord code word => 3 :: code :: wordParts word
  | splitWord code word => 4 :: code :: wordParts word
  | width code bucket => [5, code, bucket]
  | parent code label => [6, code, label.toNat]

def hashWith (seed : UInt64) (feature : Feature) : UInt64 :=
  (seed :: feature.parts.map Nat.toUInt64).foldl hashWord 0

end Feature

/-- A linear model whose features are each left out with probability `rate`. -/
structure Dropout (α : Type) where
  model : LinearModel α
  rate : α
  seed : UInt64

namespace Dropout

open Score

variable {α : Type} [Score α]

/-- A rate outside `0` to `1` counts as the nearer of these. -/
def ofRate (model : LinearModel α) (rate : α) (seed : UInt64) : Dropout α :=
  ⟨model, clamp zero one rate, seed⟩

/-- Whether a hash falls below a rate, taken as a fraction of all words. -/
def isBelow (rate : α) (hash : UInt64) : Bool :=
  decide (fraction (spread hash >>> 11).toNat < rate)

def drops (dropout : Dropout α) (feature : Feature) : Bool :=
  !decide (dropout.rate ≤ zero) && isBelow dropout.rate (feature.hashWith dropout.seed)

def toModel (dropout : Dropout α) : Model α where
  score code site :=
    dropout.model.total ((Feature.atSite code site).filter fun feature => !dropout.drops feature)
  parentScore code label _ :=
    let feature := .parent code label
    if dropout.drops feature then zero else dropout.model.weight feature

end Dropout

end Constituency
