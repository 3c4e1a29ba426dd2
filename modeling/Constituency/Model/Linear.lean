import Std.Data.HashMap
import Constituency.Model.Feature

/-!
Linear models: a rule scores the sum of the weights of its features.
-/

namespace Constituency

/-- Weights of features; a feature without one weighs nothing. -/
structure LinearModel (α : Type) where
  weights : Std.HashMap Feature α := {}

namespace LinearModel

open Score

variable {α : Type} [Score α]

def size (model : LinearModel α) : Nat := model.weights.size

def weight (model : LinearModel α) (feature : Feature) : α := model.weights.getD feature zero

def set (model : LinearModel α) (feature : Feature) (weight : α) : LinearModel α :=
  ⟨model.weights.insert feature weight⟩

def update (model : LinearModel α) (feature : Feature) (change : α) : LinearModel α :=
  model.set feature (model.weight feature + change)

def total (model : LinearModel α) (features : List Feature) : α :=
  (features.map model.weight).foldl (· + ·) zero

def toModel (model : LinearModel α) : Model α where
  score code site := model.total (Feature.atSite code site)
  parentScore code label _ := model.weight (.parent code label)

end LinearModel

end Constituency
