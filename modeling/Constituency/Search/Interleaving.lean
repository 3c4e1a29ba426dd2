import Constituency.Search.Restarts

/-!
The workers of a search by restarts side by side. They share the trees seen so far and nothing else,
and a worker looks a tree up and enters it in one step. A schedule says whose turn it is.
-/

namespace Constituency.Restarts

variable {α : Type} [LogScore α]

/-- What a worker does at its next turn. -/
inductive Task
  | draw
  /-- Looks up a tree and enters it unless some worker did so before. -/
  | enter (spans : List Span)
  | climb (spans : List Span)
  /-- Nothing more, after an error. -/
  | fail (error : DecodeError)

/-- A worker with the restarts it has left. It remembers what came of the restarts it has dealt with
and which trees it has climbed from. -/
structure Runner (α : Type) where
  stream : Keystream
  left : Nat
  task : Task := .draw
  best : Option (Derivation α) := none
  counts : ClimbCounts := {}
  tried : List (Option (List Span)) := []
  climbed : List (List Span) := []

namespace Runner

/-- Draws for the next restart, after which `left` more are to come. -/
def draw (chart : MassChart α) (left : Nat) (runner : Runner α) : Runner α :=
  let ⟨stream, _, _, best, counts, tried, climbed⟩ := runner
  let counts := { counts with restarts := counts.restarts + 1 }
  let (sample, stream) := (chart.sample Draw.ofKeystream).run stream
  match sample with
  | .error error => ⟨stream, left, .fail error, best, counts, tried, climbed⟩
  | .ok none =>
    ⟨stream, left, .draw, best, { counts with withoutTree := counts.withoutTree + 1 },
      tried ++ [none], climbed⟩
  | .ok (some spans) => ⟨stream, left, .enter spans, best, counts, tried, climbed⟩

/-- Looks a tree up among those seen, the only step that concerns other workers. -/
def enter (seen : Seen) (spans : List Span) (runner : Runner α) : Seen × Runner α :=
  let ⟨stream, left, _, best, counts, tried, climbed⟩ := runner
  let key := Span.sorted spans
  let tried := tried ++ [some spans]
  if seen.contains key then
    let counts := { counts with duplicates := counts.duplicates + 1 }
    (seen, ⟨stream, left, .draw, best, counts, tried, climbed⟩)
  else (seen.insert key, ⟨stream, left, .climb spans, best, counts, tried, climbed⟩)

def climb (chart : MassChart α) (secondOrder : Bool) (maxSweeps : Nat) (spans : List Span)
    (runner : Runner α) : Runner α :=
  let ⟨stream, left, _, best, counts, tried, climbed⟩ := runner
  let climbed := climbed ++ [spans]
  match Climb.ofSpans chart.problem secondOrder maxSweeps spans with
  | .error error => ⟨stream, left, .fail error, best, counts, tried, climbed⟩
  | .ok climb =>
    ⟨stream, left, .draw, better best (some climb.derivation), counts + climb.counts, tried,
      climbed⟩

/-- A turn of a worker, with what it makes of the trees seen so far. -/
def turn (chart : MassChart α) (secondOrder : Bool) (maxSweeps : Nat) (seen : Seen)
    (runner : Runner α) : Seen × Runner α :=
  match runner.task, runner.left with
  | .draw, left + 1 => (seen, runner.draw chart left)
  | .enter spans, _ => runner.enter seen spans
  | .climb spans, _ => (seen, runner.climb chart secondOrder maxSweeps spans)
  | _, _ => (seen, runner)

def isDone (runner : Runner α) : Bool :=
  match runner.task with
  | .draw => runner.left == 0
  | .fail _ => true
  | _ => false

def answer (runner : Runner α) : Except DecodeError (Option (Derivation α) × ClimbCounts) :=
  match runner.task with
  | .fail error => .error error
  | _ => .ok (runner.best, runner.counts)

end Runner

/-- All workers with the trees that they have seen. -/
structure Crew (α : Type) where
  seen : Seen
  runners : List (Runner α)

namespace Crew

def start (plan : RestartPlan α) : Crew α where
  seen := {}
  runners := (List.range (max plan.workers 1)).map fun number =>
    { stream := plan.workerStream number, left := plan.restarts }

/-- The turn of one worker; that of a worker which is not there changes nothing. -/
def turn (chart : MassChart α) (secondOrder : Bool) (maxSweeps : Nat) (crew : Crew α)
    (number : Nat) : Crew α :=
  match crew.runners[number]? with
  | none => crew
  | some runner =>
    let (seen, runner) := runner.turn chart secondOrder maxSweeps crew.seen
    ⟨seen, crew.runners.set number runner⟩

/-- Where a schedule leads the workers of a plan. -/
def run (chart : MassChart α) (secondOrder : Bool) (plan : RestartPlan α) (schedule : List Nat) :
    Crew α :=
  schedule.foldl (turn chart secondOrder plan.maxSweeps) (start plan)

def isDone (crew : Crew α) : Bool := crew.runners.all Runner.isDone

def climbed (crew : Crew α) : List (List Span) := crew.runners.flatMap Runner.climbed

def answer (crew : Crew α) : Except DecodeError (Option (Derivation α) × ClimbCounts) :=
  crew.runners.foldlM
    (fun (best, counts) runner => do
      let (found, more) ← runner.answer
      return (better best found, counts + more))
    (none, {})

end Crew

/-- The search in which the workers take turns by a schedule. -/
def decodeBy (problem : Problem α) (secondOrder : Bool) (plan : RestartPlan α)
    (schedule : List Nat) : Except DecodeError (Option (Derivation α) × ClimbCounts) :=
  if problem.sentence.isEmpty then .ok (none, {})
  else
    let chart := MassChart.fill problem plan.threshold
    if chart.isEmpty then .ok (none, {})
    else (Crew.run chart secondOrder plan schedule).answer

end Constituency.Restarts
