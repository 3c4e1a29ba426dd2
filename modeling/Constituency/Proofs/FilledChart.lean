import Mathlib
import Constituency.Proofs.BeamRounds

/-!
The chart that a search fills. Each of its entries starts from a production over the scores of
narrower intervals, no worse than those within the threshold of the best scores, and is closed under
the unary rules. Exact search is the search without a limit.
-/

namespace Constituency

open Score ExtendedReal

namespace BestChart

variable {problem : Problem EReal} {threshold : EReal} {rank : Label → Nat} {start stop : Nat}

/-- A way to produce a label over an interval without unary rules, and its score. -/
inductive Produces (problem : Problem EReal) (chart : BestChart EReal) (start stop : Nat)
    (label : Label) : Origin → EReal → Prop
  | terminal (single : stop = start + 1) (inside : start < problem.length)
    (allowed : label ∈ problem.terminalsAt start) :
    Produces problem chart start stop label .terminal (problem.terminalScore start label)
  | binary (split : Nat) (rule : BinaryRule) (number : Nat) (inside : start < split ∧ split < stop)
    (found : problem.grammar.binaryRule? number = some rule) (parent : rule.parent = label)
    (possible : chart.Possible start split stop rule) :
    Produces problem chart start stop label (.binary number split)
      (offered problem chart start split stop rule number)

/-- A chart whose scores are those of productions and of unary rules, with all productions taken
into account that are within the threshold. -/
structure Filled (problem : Problem EReal) (threshold : EReal) (chart : BestChart EReal) :
    Prop where
  sized : chart.Sized problem.length problem.grammar.labelCount
  word : ∀ position, position < problem.length → ∀ label ∈ problem.terminalsAt position,
    problem.terminalScore position label ≤
      ((chart.cell position (position + 1)).entry label).before
  wide : ∀ start split stop, start < split ∧ split < stop → stop ≤ problem.length →
    ∀ rule number, problem.grammar.binaryRule? number = some rule →
      chart.Possible start split stop rule →
      chart.topAfter start split - threshold ≤ (chart.cell start split).after rule.left →
      chart.topAfter split stop - threshold ≤ (chart.cell split stop).after rule.right →
      chart.topBefore start stop - threshold ≤
        offered problem chart start split stop rule number →
      offered problem chart start split stop rule number ≤
        ((chart.cell start stop).entry rule.parent).before
  attained : ∀ start stop, start < stop ∧ stop ≤ problem.length → ∀ label,
    ((chart.cell start stop).entry label).before ≠ ⊥ →
      Produces problem chart start stop label ((chart.cell start stop).entry label).origin
        ((chart.cell start stop).entry label).before
  closed : ∀ start stop, start < stop ∧ stop ≤ problem.length → ∃ first floor,
    floor ≤ chart.topBefore start stop - threshold ∧
      Cell.Closing first floor (unaryEdges problem start stop) (chart.cell start stop)

def Within (problem : Problem EReal) (interval : Nat × Nat) : Prop :=
  interval.1 ≤ problem.length ∧ interval.2 ≤ problem.length

noncomputable def scored (problem : Problem EReal) : BestChart EReal :=
  (create problem.length problem.grammar.labelCount).setTerminals problem

theorem scored_cell (coherent : problem.grammar.Coherent) :
    (scored problem).Sized problem.length problem.grammar.labelCount ∧
      ∀ start stop, start ≤ problem.length ∧ stop ≤ problem.length → ∀ label,
        ((scored problem).cell start stop).entry label =
          if stop = start + 1 ∧ (start, label) ∈ terminalPlaces problem then
            { before := problem.terminalScore start label, origin := .terminal
              after := absent, link := .none }
          else .absent := by
  obtain ⟨sized, entries⟩ := entry_setTerminals
    (sized_create problem.length problem.grammar.labelCount) fun position label member =>
      coherent.terminals_registered label (coherent.mem_terminalsFor member)
  refine ⟨sized, fun start stop within label => ?_⟩
  rw [scored, entries start stop within, entry_create within]
  rfl

theorem scored_fresh (coherent : problem.grammar.Coherent)
    (within : start ≤ problem.length ∧ stop ≤ problem.length) :
    ((scored problem).cell start stop).Fresh := by
  intro label
  rw [Cell.after, Cell.link, (scored_cell coherent).2 start stop within]
  split <;> exact ⟨rfl, rfl⟩

theorem tracked_start (ready : Ready problem rank) : (Beam.start problem).Tracked problem := by
  refine ⟨(scored_cell ready.coherent).1, Table.sized_create _ _ _, fun start stop within => ?_⟩
  refine (Table.get_create _ _ _ _ _ _).trans (Eq.symm ?_)
  exact topAfter_of_fresh (scored_cell ready.coherent).1 ready within
    (scored_fresh ready.coherent within)

theorem exists_narrow (ready : Ready problem rank) (threshold : EReal) :
    ∃ beam, (narrowIntervals problem.length).foldlM
        (fun beam interval => beam.closeInterval problem interval.1 interval.2
          (beam.chart.topBefore interval.1 interval.2 - threshold)) (Beam.start problem) =
          .ok beam ∧
      beam.Tracked problem ∧
      (∀ interval, Within problem interval → interval ∉ narrowIntervals problem.length →
        beam.chart.cell interval.1 interval.2 = (scored problem).cell interval.1 interval.2) ∧
      ∀ interval ∈ narrowIntervals problem.length,
        ((scored problem).cell interval.1 interval.2).Closing
          ((scored problem).topBefore interval.1 interval.2 - threshold)
          (unaryEdges problem interval.1 interval.2) (beam.chart.cell interval.1 interval.2) := by
  have inside : ∀ interval ∈ narrowIntervals problem.length, Within problem interval :=
    fun _ => within_of_mem_narrowIntervals
  obtain ⟨beam, ok, tracked, others, visits⟩ := Fold.foldlM_visits
    (Beam.Tracked problem) (Within problem)
    (fun beam interval => beam.chart.cell interval.1 interval.2) (fun _ cell => cell.Fresh)
    (fun beam interval => beam.closeInterval problem interval.1 interval.2
      (beam.chart.topBefore interval.1 interval.2 - threshold))
    (by
      intro interval member beam tracked fresh
      obtain ⟨next, ok, tracked', frame, _⟩ :=
        tracked.exists_closeInterval ready (inside _ member) fresh _
      exact ⟨next, ok, tracked', fun other within apart =>
        frame other.1 other.2 within (Ne.symm apart)⟩)
    (nodup_of_fills (narrowIntervals_pairwise problem.length)) inside (tracked_start ready)
    fun interval member => scored_fresh ready.coherent (inside interval member)
  refine ⟨beam, ok, tracked, others, fun interval member => ?_⟩
  -- The same round once more, from the state that it met, tells what it has left.
  obtain ⟨earlier, later, whole⟩ := List.append_of_mem member
  obtain ⟨state, next, visit⟩ := visits earlier interval later whole
  have same : state.chart.cell interval.1 interval.2 =
      (scored problem).cell interval.1 interval.2 := visit.fresh
  have fresh : (state.chart.cell interval.1 interval.2).Fresh :=
    same ▸ scored_fresh ready.coherent (inside _ member)
  obtain ⟨next', ok', _, _, closing⟩ :=
    visit.good.exists_closeInterval ready (inside _ member) fresh
      (state.chart.topBefore interval.1 interval.2 - threshold)
  obtain rfl : next' = next := Except.ok.inj (ok'.symm.trans visit.step_eq)
  rwa [visit.done, topBefore_eq, same, ← topBefore_eq] at closing

theorem exists_wide (ready : Ready problem rank) (threshold : EReal) {first : Beam EReal}
    (tracked : first.Tracked problem)
    (untouched : ∀ interval ∈ wideIntervals problem.length,
      first.chart.cell interval.1 interval.2 = (scored problem).cell interval.1 interval.2) :
    ∃ beam, (wideIntervals problem.length).foldlM
        (fun beam interval => beam.fillInterval problem threshold interval.1 interval.2) first =
          .ok beam ∧
      beam.Tracked problem ∧
      (∀ interval, Within problem interval → interval ∉ wideIntervals problem.length →
        beam.chart.cell interval.1 interval.2 = first.chart.cell interval.1 interval.2) ∧
      ∀ start stop, (start, stop) ∈ wideIntervals problem.length → ∃ state accepted filling,
        state.Tracked problem ∧
        (∀ other, Within problem other → other.2 - other.1 < stop - start →
          state.chart.cell other.1 other.2 = beam.chart.cell other.1 other.2) ∧
        Beam.Tried problem threshold state start stop (offers problem start stop) accepted
          filling ∧
        (filling.chart.cell start stop).Closing (filling.top - threshold)
          (unaryEdges problem start stop) (beam.chart.cell start stop) := by
  have inside : ∀ interval ∈ wideIntervals problem.length, Within problem interval :=
    fun _ => within_of_mem_wideIntervals
  have new : ∀ interval ∈ wideIntervals problem.length,
      (first.chart.cell interval.1 interval.2).Fresh ∧
        ∀ label, ((first.chart.cell interval.1 interval.2).entry label).before = ⊥ := by
    intro interval member
    have wide := (mem_wideIntervals _ interval.1 interval.2).mp member
    rw [untouched _ member]
    refine ⟨scored_fresh ready.coherent (inside _ member), fun label => ?_⟩
    rw [(scored_cell ready.coherent).2 _ _ (inside _ member), if_neg (by omega)]
    rfl
  have ordered := wideIntervals_pairwise problem.length
  obtain ⟨beam, ok, tracked', others, visits⟩ := Fold.foldlM_visits
    (Beam.Tracked problem) (Within problem)
    (fun beam interval => beam.chart.cell interval.1 interval.2)
    (fun _ cell => cell.Fresh ∧ ∀ label, (cell.entry label).before = ⊥)
    (fun beam interval => beam.fillInterval problem threshold interval.1 interval.2)
    (by
      intro interval member beam tracked new
      obtain ⟨_, _, next, _, ok, tracked', frame, _⟩ :=
        tracked.exists_fillInterval ready (le_of_mem_wideIntervals member) new.1 new.2
      exact ⟨next, ok, tracked', fun other within apart =>
        frame other.1 other.2 within (Ne.symm apart)⟩)
    (nodup_of_fills ordered) inside tracked new
  refine ⟨beam, ok, tracked', others, fun start stop member => ?_⟩
  -- As above, the round is made once more; narrower intervals are no longer touched after it.
  obtain ⟨earlier, later, whole⟩ := List.append_of_mem member
  obtain ⟨state, next, visit⟩ := visits earlier (start, stop) later whole
  have fresh := new (start, stop) member
  rw [← visit.fresh] at fresh
  obtain ⟨accepted, filling, next', tried, ok', _, _, closing⟩ :=
    visit.good.exists_fillInterval ready (le_of_mem_wideIntervals member) fresh.1 fresh.2
  obtain rfl : next' = next := Except.ok.inj (ok'.symm.trans visit.step_eq)
  rw [visit.done] at closing
  refine ⟨state, accepted, filling, visit.good, fun other within narrower => ?_, tried, closing⟩
  exact visit.settled other within (not_mem_of_narrower (whole ▸ ordered) narrower)

theorem possible_congr (problem : Problem EReal) {chart chart' : BestChart EReal} {split : Nat}
    (left : chart.cell start split = chart'.cell start split)
    (right : chart.cell split stop = chart'.cell split stop) (rule : BinaryRule) (number : Nat) :
    (chart.Possible start split stop rule ↔ chart'.Possible start split stop rule) ∧
      offered problem chart start split stop rule number =
        offered problem chart' start split stop rule number := by
  rw [Possible, Possible, offered, offered, left, right]
  exact ⟨Iff.rfl, rfl⟩

/-- What the rounds over all intervals leave in a chart. -/
structure Rounds (problem : Problem EReal) (threshold : EReal) (chart : BestChart EReal) :
    Prop where
  sized : chart.Sized problem.length problem.grammar.labelCount
  word : ∀ start, start < problem.length → ((scored problem).cell start (start + 1)).Closing
    ((scored problem).topBefore start (start + 1) - threshold)
    (unaryEdges problem start (start + 1)) (chart.cell start (start + 1))
  wide : ∀ start stop, start + 1 < stop ∧ stop ≤ problem.length → ∃ state accepted filling,
    state.Tracked problem ∧
    (∀ other, Within problem other → other.2 - other.1 < stop - start →
      state.chart.cell other.1 other.2 = chart.cell other.1 other.2) ∧
    Beam.Tried problem threshold state start stop (offers problem start stop) accepted filling ∧
    (filling.chart.cell start stop).Closing (filling.top - threshold)
      (unaryEdges problem start stop) (chart.cell start stop)

namespace Rounds

variable {chart : BestChart EReal}

theorem exists_settled (rounds : Rounds problem threshold chart)
    (bounds : start + 1 < stop ∧ stop ≤ problem.length) : ∃ state accepted filling,
      state.Tracked problem ∧
      (∀ split, start < split ∧ split < stop →
        state.chart.cell start split = chart.cell start split ∧
          state.chart.cell split stop = chart.cell split stop) ∧
      Beam.Tried problem threshold state start stop (offers problem start stop) accepted
        filling ∧
      (filling.chart.cell start stop).Closing (filling.top - threshold)
        (unaryEdges problem start stop) (chart.cell start stop) := by
  obtain ⟨state, accepted, filling, tracked, settled, tried, closing⟩ :=
    rounds.wide start stop bounds
  refine ⟨state, accepted, filling, tracked, fun split inside => ⟨?_, ?_⟩, tried, closing⟩
  · exact settled (start, split) (by simp only [Within]; omega) (by simp only; omega)
  · exact settled (split, stop) (by simp only [Within]; omega) (by simp only; omega)

theorem word_le (rounds : Rounds problem threshold chart) (coherent : problem.grammar.Coherent)
    {position : Nat} (inside : position < problem.length) {label : Label}
    (allowed : label ∈ problem.terminalsAt position) :
    problem.terminalScore position label ≤
      ((chart.cell position (position + 1)).entry label).before := by
  have place := mem_terminalPlaces.mpr ⟨inside, allowed⟩
  have entry := (scored_cell coherent).2 position (position + 1) ⟨inside.le, inside⟩ label
  rw [(rounds.word position inside).before label, entry, if_pos ⟨rfl, place⟩]

theorem offered_le (rounds : Rounds problem threshold chart) (ready : Ready problem rank)
    {split : Nat} (inside : start < split ∧ split < stop) (bound : stop ≤ problem.length)
    {rule : BinaryRule} {number : Nat} (found : problem.grammar.binaryRule? number = some rule)
    (possible : chart.Possible start split stop rule)
    (left : chart.topAfter start split - threshold ≤ (chart.cell start split).after rule.left)
    (right : chart.topAfter split stop - threshold ≤ (chart.cell split stop).after rule.right)
    (enough : chart.topBefore start stop - threshold ≤
      offered problem chart start split stop rule number) :
    offered problem chart start split stop rule number ≤
      ((chart.cell start stop).entry rule.parent).before := by
  have wide : start + 1 < stop := by omega
  obtain ⟨state, accepted, filling, tracked, settled, tried, closing⟩ :=
    rounds.exists_settled ⟨wide, bound⟩
  obtain ⟨onLeft, onRight⟩ := settled split inside
  obtain ⟨both, score⟩ := possible_congr problem onLeft onRight rule number
  have leftTop := tracked.tops start split (by omega)
  have rightTop := tracked.tops split stop (by omega)
  rw [topAfter_eq, onLeft, ← topAfter_eq] at leftTop
  rw [topAfter_eq, onRight, ← topAfter_eq] at rightTop
  have top : filling.top ≤ chart.topBefore start stop := tried.top_le.trans
    (topBefore_le_of_closing tried.offered.sized ready (by omega) closing)
  have member : (split, rule, number) ∈ accepted := by
    apply tried.kept split rule number (mem_offers.mpr ⟨inside, found⟩) (both.mpr possible)
    · rw [leftTop, onLeft]
      exact left
    · rw [rightTop, onRight]
      exact right
    · rw [score]
      exact (EReal.sub_le_sub top le_rfl).trans enough
  rw [closing.before, ← score]
  exact tried.offered.upper split rule number member (both.mpr possible)

theorem attained (rounds : Rounds problem threshold chart) (coherent : problem.grammar.Coherent)
    (bounds : start < stop ∧ stop ≤ problem.length) {label : Label}
    (present : ((chart.cell start stop).entry label).before ≠ ⊥) :
    Produces problem chart start stop label ((chart.cell start stop).entry label).origin
      ((chart.cell start stop).entry label).before := by
  by_cases single : stop = start + 1
  · subst single
    have within : start ≤ problem.length ∧ start + 1 ≤ problem.length := by omega
    have entry := (scored_cell coherent).2 start (start + 1) within label
    have word := rounds.word start bounds.2
    rw [word.before label, entry] at present
    rw [word.before label, word.origin label, entry]
    by_cases place : (start, label) ∈ terminalPlaces problem
    · obtain ⟨inside, allowed⟩ := mem_terminalPlaces.mp place
      rw [if_pos ⟨rfl, place⟩]
      exact .terminal rfl inside allowed
    · rw [if_neg fun both => place both.2] at present
      exact absurd rfl present
  · have wide : start + 1 < stop := by omega
    obtain ⟨state, accepted, filling, _, settled, tried, closing⟩ :=
      rounds.exists_settled ⟨wide, bounds.2⟩
    rw [closing.before label, closing.origin label] at *
    obtain ⟨split, rule, number, member, parent, possible, before, origin⟩ :=
      tried.offered.attained label present
    obtain ⟨inside, found⟩ := mem_offers.mp (tried.among _ member)
    obtain ⟨onLeft, onRight⟩ := settled split inside
    obtain ⟨both, score⟩ := possible_congr problem onLeft onRight rule number
    rw [before, origin, score]
    exact .binary split rule number inside found parent (both.mp possible)

theorem filled (rounds : Rounds problem threshold chart) (ready : Ready problem rank) :
    Filled problem threshold chart := by
  constructor
  · exact rounds.sized
  · intro position inside label allowed
    exact rounds.word_le ready.coherent inside allowed
  · intro start split stop inside bound rule number found possible left right enough
    exact rounds.offered_le ready inside bound found possible left right enough
  · intro start stop bounds label present
    exact rounds.attained ready.coherent bounds present
  · intro start stop bounds
    by_cases single : stop = start + 1
    · subst single
      have word := rounds.word start bounds.2
      have top := topBefore_le_of_closing (scored_cell ready.coherent).1 ready
        ⟨by omega, bounds.2⟩ word
      exact ⟨_, _, EReal.sub_le_sub top le_rfl, word⟩
    · have wide : start + 1 < stop := by omega
      obtain ⟨_, _, filling, _, _, tried, closing⟩ := rounds.exists_settled ⟨wide, bounds.2⟩
      have top := tried.top_le.trans
        (topBefore_le_of_closing tried.offered.sized ready (by omega) closing)
      exact ⟨_, _, EReal.sub_le_sub top le_rfl, closing⟩

end Rounds

end BestChart

namespace Beam

open BestChart

variable {problem : Problem EReal} {rank : Label → Nat}

theorem exists_fill (ready : Ready problem rank) (threshold : EReal) :
    ∃ beam, fill problem threshold = .ok beam ∧ Filled problem threshold beam.chart := by
  obtain ⟨first, filled, tracked, others, narrow⟩ := exists_narrow ready threshold
  have untouched : ∀ interval ∈ wideIntervals problem.length,
      first.chart.cell interval.1 interval.2 = (scored problem).cell interval.1 interval.2 := by
    intro interval member
    exact others interval (within_of_mem_wideIntervals member) (not_mem_narrowIntervals member)
  obtain ⟨beam, filled', tracked', others', wide⟩ := exists_wide ready threshold tracked untouched
  have rounds : Rounds problem threshold beam.chart := by
    refine ⟨tracked'.sized, fun start bound => ?_, fun start stop bounds => ?_⟩
    · have member := (mem_narrowIntervals problem.length start (start + 1)).mpr ⟨rfl, bound⟩
      have closing := narrow _ member
      rw [← others' (start, start + 1) ⟨bound.le, bound⟩ (by rw [mem_wideIntervals]; omega)]
        at closing
      exact closing
    · exact wide start stop ((mem_wideIntervals _ _ _).mpr bounds)
  refine ⟨beam, ?_, rounds.filled ready⟩
  rw [fill_eq, filled]
  exact filled'

end Beam

theorem Exact.exists_fill {problem : Problem EReal} {rank : Label → Nat}
    (ready : BestChart.Ready problem rank) :
    ∃ chart, fill problem = .ok chart ∧ BestChart.Filled problem ⊤ chart := by
  obtain ⟨beam, ok, filled⟩ := Beam.exists_fill ready ⊤
  refine ⟨beam.chart, ?_, filled⟩
  have same := Beam.fill_chart problem
  rw [unlimited_eq_top, ok] at same
  exact same.symm

end Constituency
