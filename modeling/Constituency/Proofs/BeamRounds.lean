import Mathlib
import Constituency.Proofs.BestCells
import Constituency.Proofs.UnlimitedBeam

/-!
Rounds of a beam search. The best score found in an interval only rises while rules are offered, so
no offer is cut off that is within the threshold of the score in the end; and the table of best
scores holds those of the finished intervals.
-/

namespace Constituency

open Score ExtendedReal BestChart

namespace Cell

theorem le_largest (cell : Cell EReal) (label : Label) {score : Entry EReal → EReal}
    (none : score .absent = ⊥) : score (cell.entry label) ≤ largest (cell.toList.map score) := by
  rw [entry, Array.getD_eq_getD_getElem?]
  cases found : cell[label.toNat]? with
  | none =>
    rw [Option.getD_none, none]
    exact bot_le
  | some entry =>
    refine ExtendedReal.le_largest (List.mem_map.mpr ⟨entry, ?_, rfl⟩)
    exact Array.mem_toList_iff.mpr (Array.mem_of_getElem? found)

theorem largest_le {cell : Cell EReal} (few : cell.size ≤ numberLimit)
    {score : Entry EReal → EReal} {bound : EReal}
    (below : ∀ label, score (cell.entry label) ≤ bound) :
    largest (cell.toList.map score) ≤ bound := by
  refine ExtendedReal.largest_le fun x member => ?_
  obtain ⟨entry, inside, rfl⟩ := List.mem_map.mp member
  obtain ⟨place, bounded, rfl⟩ := Array.mem_iff_getElem.mp (Array.mem_toList_iff.mp inside)
  have number : place.toUInt16.toNat = place :=
    UInt16.toNat_ofNat_of_lt' (Nat.lt_of_lt_of_le bounded few)
  have own := below place.toUInt16
  rw [Cell.entry, number, Array.getD_eq_getD_getElem?, Array.getElem?_eq_getElem bounded] at own
  exact own

end Cell

namespace BestChart

variable {problem : Problem EReal} {chart next : BestChart EReal} {rank : Label → Nat}
  {start stop : Nat}

/-- What a search relies on: a grammar whose tables fit together, fewer labels than there are
numbers, and ranks that fall along the unary rules. -/
structure Ready (problem : Problem EReal) (rank : Label → Nat) : Prop where
  coherent : problem.grammar.Coherent
  fits : problem.grammar.labelCount < numberLimit
  ranked : problem.grammar.Ranked rank

theorem exists_closed (ready : Ready problem rank)
    (sized : chart.Sized problem.length problem.grammar.labelCount)
    (within : start ≤ problem.length ∧ stop ≤ problem.length)
    (fresh : (chart.cell start stop).Fresh) (floor : EReal) :
    ∃ next, chart.closed problem start stop floor = .ok next ∧
      next.Sized problem.length problem.grammar.labelCount ∧
      (∀ start' stop', start' ≤ problem.length ∧ stop' ≤ problem.length →
        (start, stop) ≠ (start', stop') → next.cell start' stop' = chart.cell start' stop') ∧
      (chart.cell start stop).Closing floor (unaryEdges problem start stop)
        (next.cell start stop) := by
  obtain ⟨cell, updates, settled, closing⟩ := Cell.exists_close floor ready.fits
    (bottomUp_unaryEdges ready.coherent ready.ranked start stop) (sized.size_cell within) fresh
  obtain ⟨next, ok, sized', frame, rfl⟩ :=
    sized.exists_closed within settled (closing.size.trans (sized.size_cell within))
  exact ⟨next, ok, sized', frame, closing⟩

section Tops

theorem topBefore_eq (chart : BestChart EReal) (start stop : Nat) :
    chart.topBefore start stop = largest ((chart.cell start stop).toList.map Entry.before) := by
  rw [topBefore, cell, List.toList_toArray]

theorem topAfter_eq (chart : BestChart EReal) (start stop : Nat) :
    chart.topAfter start stop = largest ((chart.cell start stop).toList.map Entry.after) := by
  rw [topAfter, cell, List.toList_toArray]

theorem before_le_topBefore (chart : BestChart EReal) (start stop : Nat) (label : Label) :
    ((chart.cell start stop).entry label).before ≤ chart.topBefore start stop := by
  rw [topBefore_eq]
  exact Cell.le_largest _ label rfl

theorem after_le_topAfter (chart : BestChart EReal) (start stop : Nat) (label : Label) :
    (chart.cell start stop).after label ≤ chart.topAfter start stop := by
  rw [topAfter_eq]
  exact Cell.le_largest _ label rfl

variable (sized : chart.Sized problem.length problem.grammar.labelCount)
  (ready : Ready problem rank) (within : start ≤ problem.length ∧ stop ≤ problem.length)
  {bound : EReal}

include sized ready within

theorem topBefore_le (below : ∀ label, ((chart.cell start stop).entry label).before ≤ bound) :
    chart.topBefore start stop ≤ bound := by
  rw [topBefore_eq]
  exact Cell.largest_le (by rw [sized.size_cell within]; exact ready.fits.le) below

theorem topAfter_le (below : ∀ label, (chart.cell start stop).after label ≤ bound) :
    chart.topAfter start stop ≤ bound := by
  rw [topAfter_eq]
  exact Cell.largest_le (by rw [sized.size_cell within]; exact ready.fits.le) below

theorem topBefore_le_of_closing {floor : EReal} {edges : List (UnaryEdge EReal)}
    (closing : (chart.cell start stop).Closing floor edges (next.cell start stop)) :
    chart.topBefore start stop ≤ next.topBefore start stop := by
  refine topBefore_le sized ready within fun label => ?_
  rw [← closing.before]
  exact before_le_topBefore next start stop label

theorem topAfter_of_fresh (fresh : (chart.cell start stop).Fresh) :
    chart.topAfter start stop = ⊥ :=
  le_bot_iff.mp (topAfter_le sized ready within fun label => (fresh label).1.le)

end Tops

end BestChart

namespace Beam

variable {problem : Problem EReal} {threshold : EReal} {beam : Beam EReal} {rank : Label → Nat}
  {start stop : Nat}

/-- A beam whose table holds the best score of every interval. -/
structure Tracked (problem : Problem EReal) (beam : Beam EReal) : Prop where
  sized : beam.chart.Sized problem.length problem.grammar.labelCount
  table : beam.tops.Sized problem.length 1 ⊥
  tops : ∀ start stop, start ≤ problem.length ∧ stop ≤ problem.length →
    beam.top start stop = beam.chart.topAfter start stop

theorem Tracked.exists_closeInterval (ready : Ready problem rank) (tracked : Tracked problem beam)
    (within : start ≤ problem.length ∧ stop ≤ problem.length)
    (fresh : (beam.chart.cell start stop).Fresh) (floor : EReal) :
    ∃ next, closeInterval problem beam start stop floor = .ok next ∧ Tracked problem next ∧
      (∀ start' stop', start' ≤ problem.length ∧ stop' ≤ problem.length →
        (start, stop) ≠ (start', stop') →
          next.chart.cell start' stop' = beam.chart.cell start' stop') ∧
      (beam.chart.cell start stop).Closing floor (unaryEdges problem start stop)
        (next.chart.cell start stop) := by
  obtain ⟨chart, tops, counts⟩ := beam
  obtain ⟨next, ok, sized, others, closing⟩ :=
    exists_closed ready tracked.sized within fresh floor
  refine ⟨⟨next, .join .best tops start stop 0 (next.topAfter start stop), counts⟩, ?_,
    ⟨sized, tracked.table.modify _ _ _ _, fun start' stop' within' => ?_⟩, others, closing⟩
  · simp only [closeInterval, ok]
    rfl
  · have old := tracked.tops start' stop' within'
    have only : (0 : Label).toNat < 1 := Nat.zero_lt_one
    rw [top] at old ⊢
    refine (tracked.table.get_modify within within' only only _).trans ?_
    by_cases same : (start, stop) = (start', stop')
    · obtain ⟨rfl, rfl⟩ := Prod.mk.inj same
      rw [if_pos ⟨rfl, rfl⟩, old, topAfter_of_fresh tracked.sized ready within fresh]
      exact (later_eq_max _ _).trans (max_bot_left _)
    · rw [if_neg fun both => same both.1, old, topAfter_eq, topAfter_eq,
        others start' stop' within' same]

/-- A filling after some rules have been offered, of which some were accepted: those over children
within the threshold that score within it of the best score found so far. -/
structure Tried (problem : Problem EReal) (threshold : EReal) (beam : Beam EReal)
    (start stop : Nat) (made accepted : List (Nat × BinaryRule × Nat))
    (filling : Filling EReal) : Prop where
  offered : Offered problem beam.chart start stop accepted filling.chart
  among : ∀ offer ∈ accepted, offer ∈ made
  top : filling.top = ⊥ ∨ ∃ split rule number, (split, rule, number) ∈ accepted ∧
    beam.chart.Possible start split stop rule ∧
    filling.top = BestChart.offered problem beam.chart start split stop rule number
  kept : ∀ split rule number, (split, rule, number) ∈ made →
    beam.chart.Possible start split stop rule →
    beam.top start split - threshold ≤ (beam.chart.cell start split).after rule.left →
    beam.top split stop - threshold ≤ (beam.chart.cell split stop).after rule.right →
    filling.top - threshold ≤
      BestChart.offered problem beam.chart start split stop rule number →
    (split, rule, number) ∈ accepted

namespace Tried

variable {made accepted : List (Nat × BinaryRule × Nat)} {filling : Filling EReal} {split : Nat}
  {rule : BinaryRule} {number : Nat}

theorem skip (tried : Tried problem threshold beam start stop made accepted filling)
    (weak : beam.chart.Possible start split stop rule →
      beam.top start split - threshold ≤ (beam.chart.cell start split).after rule.left →
      beam.top split stop - threshold ≤ (beam.chart.cell split stop).after rule.right →
      BestChart.offered problem beam.chart start split stop rule number <
        filling.top - threshold) (counts : BeamCounts) :
    Tried problem threshold beam start stop (made ++ [(split, rule, number)]) accepted
      { filling with counts := counts } := by
  refine ⟨tried.offered, fun offer member => by simp [tried.among offer member], tried.top, ?_⟩
  intro split' rule' number' member possible left right enough
  rw [List.mem_append, List.mem_singleton, Prod.mk.injEq, Prod.mk.injEq] at member
  rcases member with old | ⟨rfl, rfl, rfl⟩
  · exact tried.kept split' rule' number' old possible left right enough
  · exact absurd enough (not_le.mpr (weak possible left right))

theorem accept (tried : Tried problem threshold beam start stop made accepted filling)
    (within : start ≤ problem.length ∧ stop ≤ problem.length)
    (registered : problem.grammar.Registered rule.parent)
    (possible : beam.chart.Possible start split stop rule) (counts : BeamCounts) :
    Tried problem threshold beam start stop (made ++ [(split, rule, number)])
      (accepted ++ [(split, rule, number)])
      ⟨filling.chart.offer start stop rule.parent
          (BestChart.offered problem beam.chart start split stop rule number) number split,
        later filling.top (BestChart.offered problem beam.chart start split stop rule number),
        counts⟩ := by
  refine ⟨tried.offered.offer within registered possible, ?_, ?_, ?_⟩
  · intro offer member
    rw [List.mem_append] at member ⊢
    exact member.imp_left (tried.among offer)
  · simp only [later_eq_max]
    rcases max_choice filling.top
        (BestChart.offered problem beam.chart start split stop rule number) with old | new
    · rw [old]
      refine tried.top.imp_right fun found => ?_
      obtain ⟨split', rule', number', member, rest⟩ := found
      exact ⟨split', rule', number', by simp [member], rest⟩
    · rw [new]
      exact .inr ⟨split, rule, number, by simp, possible, rfl⟩
  · intro split' rule' number' member possible' left right enough
    simp only [later_eq_max] at enough
    rw [List.mem_append] at member ⊢
    refine member.imp_left fun old => ?_
    -- The best score has risen at most, so the offer was within the threshold of the old one too.
    exact tried.kept split' rule' number' old possible' left right
      ((EReal.sub_le_sub (le_max_left _ _) le_rfl).trans enough)

theorem step (tried : Tried problem threshold beam start stop made accepted filling)
    (coherent : problem.grammar.Coherent) (within : start ≤ stop ∧ stop ≤ problem.length)
    (member : (split, rule, number) ∈ offers problem start stop) :
    ∃ accepted', Tried problem threshold beam start stop (made ++ [(split, rule, number)])
      accepted' (offerRule problem threshold start split stop (beam.top start split - threshold)
        (beam.top split stop - threshold) filling (rule, number)) := by
  obtain ⟨inside, found⟩ := mem_offers.mp member
  obtain ⟨parent, first, second⟩ := coherent.registered_of_binaryRule? found
  obtain ⟨onLeft, onRight⟩ := tried.offered.children within inside first second
  simp only [offerRule, onLeft, onRight]
  by_cases possible : beam.chart.Possible start split stop rule
  · rw [possible_iff.mp possible, if_neg Bool.false_ne_true]
    split
    · rename_i weak
      refine ⟨accepted, tried.skip (fun _ left right => ?_) _⟩
      rw [Bool.or_eq_true, decide_eq_true_eq, decide_eq_true_eq] at weak
      rcases weak with below | below
      · exact absurd left (not_le.mpr below)
      · exact absurd right (not_le.mpr below)
    · split
      · rename_i weak
        exact ⟨accepted, tried.skip (fun _ _ _ => weak) _⟩
      · exact ⟨_, tried.accept (by omega) parent
          possible _⟩
  · rw [Bool.eq_true_of_not_eq_false (possible_iff.not.mp possible), if_pos rfl]
    exact ⟨accepted, tried.skip (fun possible' => absurd possible' possible) _⟩

theorem top_le (tried : Tried problem threshold beam start stop made accepted filling) :
    filling.top ≤ filling.chart.topBefore start stop := by
  rcases tried.top with none | ⟨split, rule, number, member, possible, top⟩
  · rw [none]
    exact bot_le
  · rw [top]
    exact (tried.offered.upper split rule number member possible).trans
      (before_le_topBefore _ _ _ _)

end Tried

theorem exists_tried (threshold : EReal) (coherent : problem.grammar.Coherent)
    (sized : beam.chart.Sized problem.length problem.grammar.labelCount)
    (within : start ≤ stop ∧ stop ≤ problem.length)
    (blank : ∀ label, ((beam.chart.cell start stop).entry label).before = ⊥) :
    ∃ accepted, Tried problem threshold beam start stop (offers problem start stop) accepted
      (offerAll problem threshold beam start stop) := by
  rw [beamOffers_eq_foldl]
  refine Fold.foldl_holds (fun made filling =>
    ∃ accepted, Tried problem threshold beam start stop made accepted filling) ⟨[], ?_⟩ ?_
  · exact ⟨⟨sized, fun _ _ _ _ => rfl, fun _ => ⟨rfl, rfl⟩, by simp, fun label present =>
      absurd (blank label) present⟩, by simp, .inl rfl, by simp⟩
  · intro made offer later filling whole tried
    obtain ⟨accepted, tried⟩ := tried
    exact tried.step coherent within (by simp [whole])

theorem Tracked.exists_fillInterval (ready : Ready problem rank) (tracked : Tracked problem beam)
    (within : start ≤ stop ∧ stop ≤ problem.length) (fresh : (beam.chart.cell start stop).Fresh)
    (blank : ∀ label, ((beam.chart.cell start stop).entry label).before = ⊥) :
    ∃ accepted filling next,
      Tried problem threshold beam start stop (offers problem start stop) accepted filling ∧
      fillInterval problem threshold beam start stop = .ok next ∧ Tracked problem next ∧
      (∀ start' stop', start' ≤ problem.length ∧ stop' ≤ problem.length →
        (start, stop) ≠ (start', stop') →
          next.chart.cell start' stop' = beam.chart.cell start' stop') ∧
      (filling.chart.cell start stop).Closing (filling.top - threshold)
        (unaryEdges problem start stop) (next.chart.cell start stop) := by
  obtain ⟨accepted, tried⟩ :=
    exists_tried threshold ready.coherent tracked.sized within blank
  generalize filled : offerAll problem threshold beam start stop = filling at tried
  have offered := tried.offered
  have fresh' : (filling.chart.cell start stop).Fresh := by
    intro label
    rw [(offered.idle label).1, (offered.idle label).2]
    exact fresh label
  have tracked' : Tracked problem ⟨filling.chart, beam.tops, filling.counts⟩ := by
    refine ⟨offered.sized, tracked.table, fun start' stop' within' => ?_⟩
    refine (tracked.tops start' stop' within').trans ?_
    by_cases same : (start, stop) = (start', stop')
    · obtain ⟨rfl, rfl⟩ := Prod.mk.inj same
      rw [topAfter_of_fresh tracked.sized ready within' fresh,
        topAfter_of_fresh offered.sized ready within' fresh']
    · rw [topAfter_eq, topAfter_eq, offered.others start' stop' within' same]
  obtain ⟨next, ok, tracked', others, closing⟩ :=
    tracked'.exists_closeInterval ready (by omega) fresh' (filling.top - threshold)
  refine ⟨accepted, filling, next, tried, ?_, tracked', fun start' stop' within' apart => ?_,
    closing⟩
  · rw [fillInterval, filled]
    exact ok
  · exact (others start' stop' within' apart).trans (offered.others start' stop' within' apart)

end Beam

end Constituency
