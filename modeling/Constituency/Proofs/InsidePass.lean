import Mathlib
import Constituency.Proofs.InsideRound

/-!
The inside pass interval by interval. Every interval is finished once, over narrower intervals that
stay as they are, so that the filled chart is in balance everywhere.
-/

namespace Constituency.MassChart

open Score LogScore ExtendedReal

variable {problem : Problem EReal} {chart next : MassChart EReal} {start stop : Nat}
  {label : Label} {threshold : EReal}

section Agreement

theorem Agree.weight (agree : Agree problem chart next (start, stop))
    (registered : problem.grammar.Registered label) (phase : Phase) :
    next.weight start stop label phase = chart.weight start stop label phase := by
  cases phase with
  | beforeUnary =>
    rw [weight_before, weight_before, agree.live label registered, agree.before label registered]
  | afterUnary =>
    rw [weight_after, weight_after, agree.live label registered, agree.after label registered]

theorem Agree.unaryWeight (agree : Agree problem chart next (start, stop))
    (coherent : problem.grammar.Coherent) (label : Label) :
    MassChart.unaryWeight problem next start stop label =
      MassChart.unaryWeight problem chart start stop label := by
  apply unaryWeight_congr coherent
  intro label registered
  exact agree.weight registered .beforeUnary

theorem Agree.finished (agree : Agree problem chart next (start, stop))
    (coherent : problem.grammar.Coherent) (finished : Finished problem threshold start stop chart) :
    Finished problem threshold start stop next := by
  refine ⟨?_, ?_, fun label registered => ?_, fun rule number found => ?_⟩
  · obtain ⟨floor, limit, live⟩ := finished.liveBefore
    refine ⟨floor, limit, fun label registered => ?_⟩
    rw [agree.live label registered, live label registered, agree.before label registered]
  · obtain ⟨floor, limit, live⟩ := finished.liveAfter
    refine ⟨floor, limit, fun label registered => ?_⟩
    rw [agree.live label registered, live label registered, agree.after label registered]
  · rw [agree.after label registered, finished.after label registered, agree.weight registered,
      agree.unaryWeight coherent]
  · rw [agree.unary number, finished.unary rule number found, agree.live _
      (coherent.registered_of_unaryRule? found).2]

theorem Agree.blank (agree : Agree problem chart next (start, stop))
    (blank : Blank problem chart start stop) : Blank problem next start stop :=
  ⟨fun label registered => (agree.before label registered).trans (blank.before label registered),
    fun label registered => (agree.after label registered).trans (blank.after label registered),
    fun number => (agree.unary number).trans (blank.unary number),
    fun split number => (agree.binary split number).trans (blank.binary split number)⟩

noncomputable def knowledge (problem : Problem EReal) (chart : MassChart EReal)
    (interval : Nat × Nat) :=
  ((fun label : { label // problem.grammar.Registered label } =>
      (chart.before.get interval.1 interval.2 label.1,
        chart.after.get interval.1 interval.2 label.1)),
    (fun label : { label // problem.grammar.Registered label } =>
      chart.live.isLive interval.1 interval.2 label.1),
    (fun number : Nat => chart.unaryScores[(interval.1, interval.2, number)]?),
    fun split number : Nat => chart.binaryScores[(interval.1, split, interval.2, number)]?)

theorem knowledge_eq_iff {interval : Nat × Nat} :
    knowledge problem next interval = knowledge problem chart interval ↔
      Agree problem chart next interval := by
  constructor
  · intro same
    simp only [knowledge, Prod.mk.injEq, funext_iff, Subtype.forall] at same
    obtain ⟨tables, live, unary, binary⟩ := same
    exact ⟨fun label known => (tables label known).1, fun label known => (tables label known).2,
      live, unary, binary⟩
  · intro agree
    simp only [knowledge, Prod.mk.injEq, funext_iff, Subtype.forall]
    exact ⟨fun label known => ⟨agree.before label known, agree.after label known⟩, agree.live,
      agree.unary, agree.binary⟩

end Agreement

theorem sized_create (problem : Problem EReal) : (create problem).Sized problem :=
  ⟨rfl, Table.sized_create _ _ _, Table.sized_create _ _ _, Live.sized_none _ _⟩

theorem blank_create (problem : Problem EReal) (start stop : Nat) :
    Blank problem (create problem) start stop :=
  ⟨fun _ _ => Table.get_create _ _ _ _ _ _, fun _ _ => Table.get_create _ _ _ _ _ _,
    fun _ => Std.HashMap.getElem?_empty, fun _ _ => Std.HashMap.getElem?_empty⟩

theorem exists_rounds (step : MassChart EReal → Nat × Nat → MassChart EReal)
    {intervals : List (Nat × Nat)} (ordered : intervals.Pairwise Fills)
    (inside : ∀ interval ∈ intervals, interval.1 ≤ problem.length ∧ interval.2 ≤ problem.length)
    (isLocal : ∀ interval ∈ intervals, ∀ state : MassChart EReal, state.Sized problem →
      Blank problem state interval.1 interval.2 →
        Local problem interval.1 interval.2 state (step state interval))
    (sized : chart.Sized problem)
    (blank : ∀ interval ∈ intervals, Blank problem chart interval.1 interval.2) :
    (intervals.foldl step chart).Sized problem ∧
      (∀ other : Nat × Nat, other.1 ≤ problem.length ∧ other.2 ≤ problem.length →
        other ∉ intervals → Agree problem chart (intervals.foldl step chart) other) ∧
      ∀ interval ∈ intervals, ∃ state : MassChart EReal, state.Sized problem ∧
        Blank problem state interval.1 interval.2 ∧
        Agree problem (step state interval) (intervals.foldl step chart) interval ∧
        ∀ other : Nat × Nat, other.1 ≤ problem.length ∧ other.2 ≤ problem.length →
          other.2 - other.1 < interval.2 - interval.1 →
            Agree problem state (intervals.foldl step chart) other := by
  obtain ⟨sized', others, visits⟩ := Fold.foldl_visits (Sized problem)
    (fun interval : Nat × Nat => interval.1 ≤ problem.length ∧ interval.2 ≤ problem.length)
    (knowledge problem)
    (fun interval known => ∀ state, knowledge problem state interval = known →
      Blank problem state interval.1 interval.2) step
    (by
      intro interval member state sized blank
      have next := isLocal interval member state sized (blank state rfl)
      exact ⟨next.sized, fun other within apart =>
        knowledge_eq_iff.mpr (next.others other within apart)⟩)
    (nodup_of_fills ordered) inside sized
    (fun interval member state same => (knowledge_eq_iff.mp same).blank (blank interval member))
  refine ⟨sized', fun other within outside => knowledge_eq_iff.mp (others other within outside),
    fun interval member => ?_⟩
  obtain ⟨earlier, later, whole⟩ := List.append_of_mem member
  obtain ⟨state, visit⟩ := visits earlier interval later whole
  refine ⟨state, visit.good, (knowledge_eq_iff.mp visit.fresh).blank (blank interval member),
    knowledge_eq_iff.mp visit.done.symm, fun other within narrower => ?_⟩
  exact knowledge_eq_iff.mp
    (visit.settled other within (not_mem_of_narrower (whole ▸ ordered) narrower)).symm

theorem Agree.binaryWeight (coherent : problem.grammar.Coherent)
    (agree : ∀ split, start < split ∧ split < stop →
      Agree problem chart next (start, split) ∧ Agree problem chart next (split, stop))
    (label : Label) :
    MassChart.binaryWeight problem next start stop label =
      MassChart.binaryWeight problem chart start stop label := by
  rw [MassChart.binaryWeight, MassChart.binaryWeight]
  congr 1
  refine List.map_congr_left fun split inside => ?_
  obtain ⟨left, right⟩ := agree split ((mem_splits start stop split).mp inside)
  congr 1
  refine List.map_congr_left fun rule member => ?_
  obtain ⟨_, first, second⟩ := coherent.registered_of_binaryRule?
    (mem_numberedBinary.mp (List.mem_of_mem_filter member))
  rw [left.weight first, right.weight second]

/-- A chart in which every interval of the sentence is finished and in balance. -/
structure Balanced (problem : Problem EReal) (threshold : EReal) (chart : MassChart EReal) :
    Prop where
  sized : chart.Sized problem
  finished : ∀ start stop, start < stop ∧ stop ≤ problem.length →
    Finished problem threshold start stop chart
  word : ∀ start, start < problem.length → ∀ label, problem.grammar.Registered label →
    EReal.exp (chart.before.get start (start + 1) label) = wordWeight problem start label
  wide : ∀ start stop, start + 1 < stop ∧ stop ≤ problem.length → ∀ label,
    problem.grammar.Registered label →
      EReal.exp (chart.before.get start stop label) = binaryWeight problem chart start stop label
  noted : ∀ start stop, start + 1 < stop ∧ stop ≤ problem.length → ∀ split rule number,
    start < split ∧ split < stop → problem.grammar.binaryRule? number = some rule →
      chart.binaryScores[(start, split, stop, number)]? =
        if chart.meets start stop (split, rule, number) then
          some (binaryScore problem start split stop rule number)
        else none

theorem fill_eq (problem : Problem EReal) (threshold : EReal) :
    fill problem threshold =
      (wideIntervals problem.length).foldl
        (fun chart interval =>
          close threshold (chart.addBinaries interval.1 interval.2) interval.1 interval.2)
        ((narrowIntervals problem.length).foldl
          (fun chart interval =>
            close threshold (chart.addTerminals interval.1) interval.1 interval.2)
          (create problem)) :=
  rfl

/-- A chart in which the single words are finished and nothing else has been touched. -/
structure Worded (problem : Problem EReal) (threshold : EReal) (chart : MassChart EReal) :
    Prop where
  sized : chart.Sized problem
  finished : ∀ start, start < problem.length →
    Finished problem threshold start (start + 1) chart
  before : ∀ start, start < problem.length → ∀ label, problem.grammar.Registered label →
    EReal.exp (chart.before.get start (start + 1) label) = wordWeight problem start label
  blank : ∀ interval ∈ wideIntervals problem.length, Blank problem chart interval.1 interval.2

theorem worded (coherent : problem.grammar.Coherent)
    (fits : problem.grammar.labelCount < numberLimit) (threshold : EReal) :
    Worded problem threshold ((narrowIntervals problem.length).foldl
      (fun chart interval => close threshold (chart.addTerminals interval.1) interval.1 interval.2)
      (create problem)) := by
  have inside : ∀ interval ∈ narrowIntervals problem.length,
      interval.1 ≤ problem.length ∧ interval.2 ≤ problem.length :=
    fun _ => within_of_mem_narrowIntervals
  have isLocal : ∀ interval ∈ narrowIntervals problem.length, ∀ state : MassChart EReal,
      state.Sized problem → Blank problem state interval.1 interval.2 →
        Local problem interval.1 interval.2 state
          (close threshold (state.addTerminals interval.1) interval.1 interval.2) := by
    intro interval member state sized blank
    obtain ⟨stops, bound⟩ := (mem_narrowIntervals _ interval.1 interval.2).mp member
    rw [stops] at blank ⊢
    exact (round_word coherent fits sized bound blank threshold).isLocal
  obtain ⟨sized, others, rounds⟩ := exists_rounds _ (narrowIntervals_pairwise problem.length) inside
    isLocal (sized_create problem) fun interval _ => blank_create problem interval.1 interval.2
  generalize (narrowIntervals problem.length).foldl _ (create problem) = final at *
  have round (start : Nat) (bound : start < problem.length) : ∃ next,
      Agree problem next final (start, start + 1) ∧
        Finished problem threshold start (start + 1) next ∧
        ∀ label, problem.grammar.Registered label →
          EReal.exp (next.before.get start (start + 1) label) = wordWeight problem start label := by
    obtain ⟨state, sized, blank, agree, _⟩ :=
      rounds _ ((mem_narrowIntervals _ start (start + 1)).mpr ⟨rfl, bound⟩)
    have round := round_word coherent fits sized bound blank threshold
    exact ⟨_, agree, round.finished, round.before⟩
  refine ⟨sized, ?_, ?_, ?_⟩
  · intro start bound
    obtain ⟨next, agree, finished, _⟩ := round start bound
    exact agree.finished coherent finished
  · intro start bound label registered
    obtain ⟨next, agree, _, before⟩ := round start bound
    rw [agree.before label registered, before label registered]
  · intro interval member
    have within := within_of_mem_wideIntervals member
    exact (others interval within (not_mem_narrowIntervals member)).blank
      (blank_create problem interval.1 interval.2)

theorem Agree.meets (coherent : problem.grammar.Coherent) {split number : Nat} {rule : BinaryRule}
    (found : problem.grammar.binaryRule? number = some rule)
    (left : Agree problem chart next (start, split))
    (right : Agree problem chart next (split, stop)) :
    next.meets start stop (split, rule, number) = chart.meets start stop (split, rule, number) := by
  obtain ⟨_, first, second⟩ := coherent.registered_of_binaryRule? found
  rw [MassChart.meets, MassChart.meets, left.live _ first, right.live _ second]

theorem agree_parts {state final : MassChart EReal} {split : Nat}
    (bounds : start + 1 < stop ∧ stop ≤ problem.length) (inside : start < split ∧ split < stop)
    (done : ∀ other : Nat × Nat, other.1 ≤ problem.length ∧ other.2 ≤ problem.length →
      other.2 - other.1 < stop - start → Agree problem state final other) :
    Agree problem state final (start, split) ∧ Agree problem state final (split, stop) := by
  constructor
  · exact done (start, split) (by simp only; omega) (by simp only; omega)
  · exact done (split, stop) (by simp only; omega) (by simp only; omega)

/-- The inside pass leaves a chart in balance. -/
theorem balanced_fill (coherent : problem.grammar.Coherent)
    (fits : problem.grammar.labelCount < numberLimit) (threshold : EReal) :
    Balanced problem threshold (fill problem threshold) := by
  have words := worded coherent fits threshold
  rw [fill_eq]
  generalize (narrowIntervals problem.length).foldl _ (create problem) = first at words ⊢
  have inside : ∀ interval ∈ wideIntervals problem.length,
      interval.1 ≤ problem.length ∧ interval.2 ≤ problem.length :=
    fun _ => within_of_mem_wideIntervals
  have isLocal : ∀ interval ∈ wideIntervals problem.length, ∀ state : MassChart EReal,
      state.Sized problem → Blank problem state interval.1 interval.2 →
        Local problem interval.1 interval.2 state
          (close threshold (state.addBinaries interval.1 interval.2) interval.1 interval.2) := by
    intro interval member state sized blank
    have wide := (mem_wideIntervals _ interval.1 interval.2).mp member
    exact (round_wide coherent fits sized (by omega) blank threshold).1.isLocal
  obtain ⟨sized, others, rounds⟩ := exists_rounds _ (wideIntervals_pairwise problem.length) inside
    isLocal words.sized words.blank
  generalize (wideIntervals problem.length).foldl _ first = final at *
  -- Rounds over wide intervals leave the words as they are, and read narrower intervals only.
  have kept (start : Nat) (bound : start < problem.length) :
      Agree problem first final (start, start + 1) := by
    apply others (start, start + 1) ⟨bound.le, bound⟩
    intro member
    have wide := (mem_wideIntervals _ _ _).mp member
    omega
  refine ⟨sized, ?_, ?_, ?_, ?_⟩
  · intro start stop bounds
    by_cases single : stop = start + 1
    · subst single
      exact (kept start bounds.2).finished coherent (words.finished start bounds.2)
    · have wide : start + 1 < stop ∧ stop ≤ problem.length := by omega
      obtain ⟨state, sized, blank, agree, _⟩ := rounds _ ((mem_wideIntervals _ _ _).mpr wide)
      have round := (round_wide coherent fits sized (by omega) blank threshold).1
      exact agree.finished coherent round.finished
  · intro start bound label registered
    rw [(kept start bound).before label registered, words.before start bound label registered]
  · intro start stop bounds label registered
    obtain ⟨state, sized, blank, agree, done⟩ := rounds _ ((mem_wideIntervals _ _ _).mpr bounds)
    have round := (round_wide coherent fits sized (by omega) blank threshold).1
    rw [agree.before label registered, round.before label registered]
    symm
    exact Agree.binaryWeight coherent (fun split inside => agree_parts bounds inside done) label
  · intro start stop bounds split rule number inside found
    obtain ⟨state, sized, blank, agree, done⟩ := rounds _ ((mem_wideIntervals _ _ _).mpr bounds)
    have noted := (round_wide coherent fits sized (by omega) blank threshold).2 split rule number
      inside found
    obtain ⟨left, right⟩ := agree_parts bounds inside done
    rw [agree.binary split number, noted, Agree.meets coherent found left right]

end Constituency.MassChart
