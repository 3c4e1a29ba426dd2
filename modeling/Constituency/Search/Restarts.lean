import Constituency.Sampling.TreeSample
import Constituency.Search.Beam
import Constituency.Search.Climb

/-!
Search by restarts: trees are drawn from the chart of masses, each is climbed from once, and the
best tree reached is the answer.
-/

namespace Constituency

/-- How a search by restarts runs. Each worker draws from a stream of its own. -/
structure RestartPlan (α : Type) where
  workers : Nat
  restarts : Nat
  maxSweeps : Nat
  seed : Option UInt64
  threshold : α
  /-- The streams that workers come by without a seed. They may be any. -/
  entropy : Nat → Keystream := fun _ => .ofSeed 0

namespace RestartPlan

def usual {α : Type} [Score α] : RestartPlan α where
  workers := 4
  restarts := 8
  maxSweeps := 50
  seed := none
  threshold := Beam.usualThreshold

/-- The stream of a worker: that of the seed, which is counted on from worker to worker. -/
def workerStream {α : Type} (plan : RestartPlan α) (worker : Nat) : Keystream :=
  match plan.seed with
  | some seed => .ofSeed (seed + worker.toUInt64)
  | none => plan.entropy worker

end RestartPlan

namespace Restarts

open Score

variable {α : Type} [LogScore α]

/-- The trees climbed from so far, each as its spans in order. -/
abbrev Seen := Std.HashSet (List Span)

/-- The better of two answers; of equal ones the first. -/
def better (best found : Option (Derivation α)) : Option (Derivation α) :=
  match best, found with
  | none, _ => found
  | _, none => best
  | some a, some b => if a.score < b.score then found else best

structure Worker (α : Type) where
  stream : Keystream
  seen : Seen
  best : Option (Derivation α) := none
  counts : ClimbCounts := {}

/-- Draws a tree and climbs from it unless some worker did so before. -/
def restart (chart : MassChart α) (secondOrder : Bool) (maxSweeps : Nat) (worker : Worker α) :
    Except DecodeError (Worker α) := do
  let ⟨stream, seen, best, counts⟩ := worker
  let counts := { counts with restarts := counts.restarts + 1 }
  let (sample, stream) := (chart.sample Draw.ofKeystream).run stream
  match ← sample with
  | none => return ⟨stream, seen, best, { counts with withoutTree := counts.withoutTree + 1 }⟩
  | some spans =>
    let key := Span.sorted spans
    if seen.contains key then
      return ⟨stream, seen, best, { counts with duplicates := counts.duplicates + 1 }⟩
    else
      let climb ← Climb.ofSpans chart.problem secondOrder maxSweeps spans
      return ⟨stream, seen.insert key, better best (some climb.derivation),
        counts + climb.counts⟩

/-- Runs a worker after those that have left `seen`. -/
def runWorker (chart : MassChart α) (secondOrder : Bool) (plan : RestartPlan α) (seen : Seen)
    (number : Nat) : Except DecodeError (Worker α) :=
  (List.range plan.restarts).foldlM
    (fun worker _ => restart chart secondOrder plan.maxSweeps worker)
    { stream := plan.workerStream number, seen := seen }

/-- The best tree found for a sentence, if it has one, and the counts of the search. -/
def decode (problem : Problem α) (secondOrder : Bool) (plan : RestartPlan α) :
    Except DecodeError (Option (Derivation α) × ClimbCounts) := do
  if problem.sentence.isEmpty then return (none, {})
  let chart := MassChart.fill problem plan.threshold
  if chart.isEmpty then return (none, {})
  let (_, best, counts) ← (List.range (max plan.workers 1)).foldlM
    (fun (seen, best, counts) number => do
      let worker ← runWorker chart secondOrder plan seen number
      return (worker.seen, better best worker.best, counts + worker.counts))
    (({} : Seen), none, ({} : ClimbCounts))
  return (best, counts)

end Restarts

end Constituency
