import Constituency.Search.Exact

/-!
Beam search: the best tree among those that stay within a threshold of the best scores found so
far. Without a limit to the threshold it searches all trees.
-/

namespace Constituency

structure BeamCounts where
  scored : Nat := 0
  /-- Combinations with a child below the beam of its own interval. -/
  weakChildren : Nat := 0
  /-- Scored combinations below the beam of their interval. -/
  weakCandidates : Nat := 0
deriving DecidableEq, Repr

/-- A chart under construction, the best score of each finished interval, and the counts. -/
structure Beam (α : Type) where
  chart : BestChart α
  tops : Table α
  counts : BeamCounts := {}

namespace Beam

open Score

variable {α : Type} [Score α]

/-- How far below the best score of its interval a score may be unless something else is said. -/
def usualThreshold : α := ofNat 10

/-- A chart whose interval is being filled, with the best score found in it. -/
structure Filling (α : Type) where
  chart : BestChart α
  top : α
  counts : BeamCounts

def start (problem : Problem α) : Beam α where
  chart := (BestChart.create problem.length problem.grammar.labelCount).setTerminals problem
  tops := .create problem.length 1 absent

def top (beam : Beam α) (start stop : Nat) : α := beam.tops.get start stop 0

def closeInterval (problem : Problem α) (beam : Beam α) (start stop : Nat) (floor : α) :
    Except DecodeError (Beam α) := do
  let ⟨chart, tops, counts⟩ := beam
  let chart ← chart.closed problem start stop floor
  let top := chart.topAfter start stop
  return ⟨chart, .join .best tops start stop 0 top, counts⟩

/-- Offers a numbered binary rule over an interval, unless a child is below its floor or the
combination is below the beam of the interval. -/
def offerRule (problem : Problem α) (threshold : α) (start split stop : Nat)
    (leftFloor rightFloor : α) (filling : Filling α) (rule : BinaryRule × Nat) : Filling α :=
  let (rule, number) := rule
  let ⟨chart, top, counts⟩ := filling
  let left := chart.after start split rule.left
  let right := chart.after split stop rule.right
  if left == absent || right == absent then ⟨chart, top, counts⟩
  else if left < leftFloor || right < rightFloor then
    ⟨chart, top, { counts with weakChildren := counts.weakChildren + 1 }⟩
  else
    let score := problem.joined start split stop rule number left right
    let counts := { counts with scored := counts.scored + 1 }
    if score < top - threshold then
      ⟨chart, top, { counts with weakCandidates := counts.weakCandidates + 1 }⟩
    else ⟨chart.offer start stop rule.parent score number split, later top score, counts⟩

def offerAll (problem : Problem α) (threshold : α) (beam : Beam α) (start stop : Nat) :
    Filling α :=
  let rules := problem.grammar.numberedBinary
  let ⟨chart, tops, counts⟩ := beam
  (splits start stop).foldl
    (fun filling split =>
      let leftFloor := tops.get start split 0 - threshold
      let rightFloor := tops.get split stop 0 - threshold
      rules.foldl (offerRule problem threshold start split stop leftFloor rightFloor) filling)
    ⟨chart, absent, counts⟩

def fillInterval (problem : Problem α) (threshold : α) (beam : Beam α) (start stop : Nat) :
    Except DecodeError (Beam α) :=
  let tops := beam.tops
  let filling := offerAll problem threshold beam start stop
  closeInterval problem ⟨filling.chart, tops, filling.counts⟩ start stop (filling.top - threshold)

def fill (problem : Problem α) (threshold : α) : Except DecodeError (Beam α) := do
  let beam ← (narrowIntervals problem.length).foldlM
    (fun beam (start, stop) =>
      let floor := beam.chart.topBefore start stop - threshold
      closeInterval problem beam start stop floor)
    (Beam.start problem)
  (wideIntervals problem.length).foldlM
    (fun beam (start, stop) => fillInterval problem threshold beam start stop) beam

def decode (problem : Problem α) (threshold : α) :
    Except DecodeError (Option (Derivation α) × BeamCounts) := do
  BestChart.checkUnary problem.grammar
  if problem.sentence.isEmpty then return (none, {})
  let beam ← fill problem threshold
  return (← beam.chart.best? problem.grammar, beam.counts)

end Beam

end Constituency
