import Constituency.Search.Restarts

/-!
Searchers: a way to search for trees together with its settings.
-/

namespace Constituency

inductive Strategy (α : Type)
  | exact
  | beam (threshold : α)
  | restarts (plan : RestartPlan α)

inductive SearchCounts
  | none
  | beam (counts : BeamCounts)
  | climbs (counts : ClimbCounts)
deriving DecidableEq, Repr

structure Searcher (α : Type) where
  strategy : Strategy α
  cost : Option (Cost α) := none
  secondOrder : Bool := false

namespace Searcher

variable {α : Type} [LogScore α]

def usualBeam : Searcher α := { strategy := .beam Beam.usualThreshold }

def usualRestarts : Searcher α := { strategy := .restarts .usual }

def setCost (searcher : Searcher α) (cost : Option (Cost α)) : Searcher α :=
  { searcher with cost := cost }

/-- Adds the usual cost to what a reference tree does not have, or no cost at all. -/
def setReference (searcher : Searcher α) (enabled : Bool) (reference : List Span) : Searcher α :=
  searcher.setCost (if enabled then some (.ofSpans reference Cost.usual) else none)

/-- Only a search by restarts can score rules under their parents' labels. -/
def setSecondOrder (searcher : Searcher α) (enabled : Bool) : Except DecodeError (Searcher α) :=
  match searcher.strategy, enabled with
  | .exact, true => throw (.firstOrderOnly .exact)
  | .beam _, true => throw (.firstOrderOnly .beam)
  | _, _ => return { searcher with secondOrder := enabled }

def run (searcher : Searcher α) (grammar : Grammar) (model : Model α) (sentence : Sentence) :
    Except DecodeError (Option (Derivation α) × SearchCounts) := do
  let problem : Problem α := ⟨grammar, sentence, model, searcher.cost⟩
  match searcher.strategy with
  | .exact => return (← Exact.decode problem, .none)
  | .beam threshold =>
    let (best, counts) ← Beam.decode problem threshold
    return (best, .beam counts)
  | .restarts plan =>
    let (best, counts) ← Restarts.decode problem searcher.secondOrder plan
    return (best, .climbs counts)

end Searcher

end Constituency
