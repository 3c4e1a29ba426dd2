import Mathlib
import Constituency.Proofs.ExactSearch

/-!
Beam search, without a limit and at every threshold. Without one it ends as exact search does, also
where scores tie. At any threshold the tree it finds is a parse with the score it is given, so exact
search finds one that scores no less. If a best parse stays within the threshold of the best scores
of the exact chart at all its constituents, it survives, since the scores of the beam never rise
above those of the exact chart, and the two searches find trees of the same score.
-/

namespace Constituency

open Score Grammar ExtendedReal

namespace BestChart

variable {problem : Problem EReal} {threshold : EReal} {chart : BestChart EReal}
  {rank : Label → Nat} {start stop : Nat}

theorem Reads.isUnary_eq_false {parse : Parse}
    (reads : chart.Reads problem.grammar .beforeUnary parse) : parse.isUnary = false := by
  cases reads with
  | word => rfl
  | binary => rfl

namespace Filled

variable {bound : EReal}

theorem topAfter_le (ready : Ready problem rank) (filled : Filled problem threshold chart)
    (linked : Linked problem chart) (bounds : start < stop ∧ stop ≤ problem.length)
    (scores : ∀ parse, problem.Admits parse → parse.start = start → parse.stop = stop →
      problem.parseScore parse ≤ bound) : chart.topAfter start stop ≤ bound := by
  refine BestChart.topAfter_le filled.sized ready (by omega) fun label => ?_
  by_cases absent : (chart.cell start stop).after label = ⊥
  · rw [absent]
    exact bot_le
  · have link : (chart.cell start stop).link label ≠ .none := fun none =>
      absent ((linked.cells start stop (by omega)).after label none)
    obtain ⟨parse, admits, rfl, rfl, rfl, reads⟩ :=
      linked.exists_parse ready.coherent ready.ranked start stop bounds label link
    have score := filled.parseScore_eq ready.coherent reads admits absent
    exact score.symm.le.trans (scores parse admits rfl rfl)

theorem topBefore_le (ready : Ready problem rank) (filled : Filled problem threshold chart)
    (linked : Linked problem chart) (bounds : start < stop ∧ stop ≤ problem.length)
    (scores : ∀ parse, problem.Admits parse → parse.isUnary = false → parse.start = start →
      parse.stop = stop → problem.parseScore parse ≤ bound) :
    chart.topBefore start stop ≤ bound := by
  refine BestChart.topBefore_le filled.sized ready (by omega) fun label => ?_
  by_cases absent : ((chart.cell start stop).entry label).before = ⊥
  · rw [absent]
    exact bot_le
  · have produced : ((chart.cell start stop).entry label).origin ≠ .none := fun none =>
      absent ((linked.cells start stop (by omega)).before label none)
    obtain ⟨parse, admits, rfl, rfl, rfl, reads⟩ :=
      linked.exists_grounded ready.coherent bounds
        (fun start stop bounds _ =>
          linked.exists_parse ready.coherent ready.ranked start stop bounds)
        produced
    have score := filled.parseScore_eq ready.coherent reads admits absent
    exact score.symm.le.trans (scores parse admits reads.isUnary_eq_false rfl rfl)

variable {exact : BestChart EReal}

theorem tops_le (ready : Ready problem rank) (filled : Filled problem threshold chart)
    (linked : Linked problem chart) (all : Filled problem ⊤ exact)
    (bounds : start < stop ∧ stop ≤ problem.length) :
    chart.topBefore start stop ≤ exact.topBefore start stop ∧
      chart.topAfter start stop ≤ exact.topAfter start stop := by
  constructor
  · refine topBefore_le ready filled linked bounds fun parse admits bare starts stops => ?_
    subst starts stops
    exact ((all.parseScore_le ready admits (keeps_unlimited _ _ _)).1 bare).trans
      (before_le_topBefore _ _ _ _)
  · refine topAfter_le ready filled linked bounds fun parse admits starts stops => ?_
    subst starts stops
    exact (all.parseScore_le ready admits (keeps_unlimited _ _ _)).2.trans
      (after_le_topAfter _ _ _ _)

end Filled

theorem Keeps.mono {chart' : BestChart EReal} {parse : Parse}
    (keeps : Keeps problem chart' threshold parse) (admits : problem.Admits parse)
    (tops : ∀ start stop, start < stop ∧ stop ≤ problem.length →
      chart.topBefore start stop ≤ chart'.topBefore start stop ∧
        chart.topAfter start stop ≤ chart'.topAfter start stop) :
    Keeps problem chart threshold parse := by
  have floors {parse : Parse} (admits : problem.Admits parse) :
      chart.topBefore parse.start parse.stop - threshold ≤
          chart'.topBefore parse.start parse.stop - threshold ∧
        chart.topAfter parse.start parse.stop - threshold ≤
          chart'.topAfter parse.start parse.stop - threshold :=
    (tops _ _ ⟨admits.contiguous.start_lt_stop, admits.stop_le⟩).imp
      (EReal.sub_le_sub · le_rfl) (EReal.sub_le_sub · le_rfl)
  induction parse with
  | word label position =>
    obtain ⟨before, after⟩ := floors admits
    exact ⟨before.trans keeps.1, after.trans keeps.2⟩
  | unary label child ih =>
    exact ⟨(floors admits).2.trans keeps.1, ih keeps.2 admits.2⟩
  | binary label left right ihLeft ihRight =>
    obtain ⟨before, after⟩ := floors admits
    obtain ⟨floor, floor', onLeft, onRight⟩ := keeps
    exact ⟨before.trans floor, after.trans floor', ihLeft onLeft admits.2.2.1,
      ihRight onRight admits.2.2.2⟩

theorem Filled.keeps_of_alike (ready : Ready problem rank)
    (filled : Filled problem threshold chart) (linked : Linked problem chart) {score : EReal}
    (alike : ∀ parse, problem.parseScore parse = score) {parse : Parse}
    (admits : problem.Admits parse) : Keeps problem chart 0 parse := by
  have floors {parse : Parse} (admits : problem.Admits parse) (same : Parse) :
      chart.topBefore parse.start parse.stop - 0 ≤ problem.parseScore same ∧
        chart.topAfter parse.start parse.stop - 0 ≤ problem.parseScore same := by
    have bounds := And.intro admits.contiguous.start_lt_stop admits.stop_le
    rw [sub_zero, sub_zero, alike]
    exact ⟨topBefore_le ready filled linked bounds fun parse _ _ _ _ => (alike parse).le,
      topAfter_le ready filled linked bounds fun parse _ _ _ => (alike parse).le⟩
  induction parse with
  | word label position => exact floors admits _
  | unary label child ih => exact ⟨(floors admits _).2, ih admits.2⟩
  | binary label left right ihLeft ihRight =>
    obtain ⟨before, after⟩ := floors admits (.binary label left right)
    exact ⟨before, after, ihLeft admits.2.2.1, ihRight admits.2.2.2⟩

end BestChart

namespace Beam

section Unlimited

/-- Without a limit beam search gives the answer of exact search, be it a tree, none or an error,
and reports that nothing was cut off. -/
theorem decode_unlimited {α : Type} [Score α] [Grounded α] (problem : Problem α) :
    ∃ scored, decode problem unlimited =
      (Exact.decode problem).map fun best => (best, { scored := scored }) := by
  have chart := fill_chart problem
  rw [decode, Exact.decode]
  cases BestChart.checkUnary problem.grammar with
  | error error => exact ⟨0, rfl⟩
  | ok _ =>
    by_cases empty : problem.sentence.isEmpty = true
    · refine ⟨0, ?_⟩
      simp [empty, bind, Except.bind, pure, Except.pure, Except.map]
    · cases filled : fill problem unlimited with
      | error error =>
        rw [filled] at chart
        refine ⟨0, ?_⟩
        simp [empty, ← chart, bind, Except.bind, Except.map]
      | ok beam =>
        rw [filled] at chart
        obtain ⟨scored, counts⟩ := (fill_uncut filled).exists_scored
        refine ⟨scored, ?_⟩
        cases best : beam.chart.best? problem.grammar <;>
          simp [empty, ← chart, best, counts, bind, Except.bind, pure, Except.pure, Except.map]

/-- A word that is a row in two ways: its trees share the best score, and both searches give the
same one of them. -/
theorem decode_unlimited_twofold :
    let problem : Problem EReal := .uniform twofold oneWord
    let word : Parse := .word 0 0
    let raised : Parse := .unary 0 (.word 1 0)
    ∃ best scored, decode problem unlimited = .ok (some best, { scored := scored }) ∧
      Exact.decode problem = .ok (some best) ∧
      (best.spans = word.spans ∨ best.spans = raised.spans) ∧ word.spans ≠ raised.spans ∧
      problem.score false word.spans = .ok best.score ∧
      problem.score false raised.spans = .ok best.score := by
  intro problem word raised
  have coherent := twofold_built.coherent
  obtain ⟨rank, ranked⟩ := coherent.unary.exists_ranked twofold_acyclic
  have either (parse : Parse) : problem.Parses parse ↔ parse = word ∨ parse = raised :=
    Problem.twofold_parses_iff _ _ parse
  have scored {parse : Parse} (parses : problem.Parses parse) :
      problem.score false parse.spans = .ok 0 := by
    have nodup := parses.admits.nodup_of_ranked coherent ranked
    rw [problem.score_eq_parseScore coherent parses nodup (.refl _), Problem.uniform_parseScore]
  have onWord := (either word).mpr (.inl rfl)
  have onRaised := (either raised).mpr (.inr rfl)
  obtain ⟨best, found, parse, parses, spans, score, -⟩ :=
    Exact.exists_best_of_parses ⟨coherent, twofold_fits, ranked⟩
      (Problem.uniform_finite twofold oneWord) onWord
  obtain ⟨count, same⟩ := decode_unlimited problem
  rw [Problem.uniform_parseScore] at score
  rw [found] at same
  refine ⟨best, count, same, found, ?_, by decide, score ▸ scored onWord, score ▸ scored onRaised⟩
  rw [spans]
  exact ((either parse).mp parses).imp (congrArg Parse.spans) (congrArg Parse.spans)

end Unlimited

variable {problem : Problem EReal} {rank : Label → Nat}

theorem exists_beam (ready : BestChart.Ready problem rank) (threshold : EReal) :
    ∃ beam, fill problem threshold = .ok beam ∧
      BestChart.Filled problem threshold beam.chart ∧ BestChart.Linked problem beam.chart := by
  obtain ⟨beam, ok, filled⟩ := exists_fill ready threshold
  obtain ⟨beam', ok', linked⟩ := exists_fill_linked ready.coherent ready.ranked threshold
  obtain rfl := Except.ok.inj (ok.symm.trans ok')
  exact ⟨beam, ok, filled, linked⟩

/-- Beam search gives a best parse of those that stay within the threshold of the best scores of the
exact chart. -/
theorem exists_best (ready : BestChart.Ready problem rank) (finite : problem.Finite)
    (threshold : EReal) {exact : BestChart EReal} (all : BestChart.Filled problem ⊤ exact) :
    ∃ result counts, decode problem threshold = .ok (result, counts) ∧
      problem.IsBest (BestChart.Keeps problem exact threshold) result := by
  have checked := ready.coherent.checkUnary_eq ready.ranked.acyclic
  by_cases words : problem.length = 0
  · refine ⟨none, {}, ?_, problem.isBest_none words _⟩
    rw [decode, checked, (problem.isEmpty_iff).mpr words]
    rfl
  · obtain ⟨beam, ok, filled, linked⟩ := exists_beam ready threshold
    obtain ⟨result, read, best⟩ := filled.exists_best ready linked finite words
    refine ⟨result, beam.counts, ?_, best.mono fun parse parses keeps => ?_⟩
    · rw [decode, checked, Bool.eq_false_of_not_eq_true ((problem.isEmpty_iff).not.mpr words), ok]
      simp only [bind, Except.bind, read]
      rfl
    · exact keeps.mono parses.admits fun start stop bounds =>
        filled.tops_le ready linked all bounds

/-- Beam search ends without an error, with a parse that has the score it is given or without a
tree. A parse found makes exact search find one too, which scores no less. -/
theorem decode_sound (built : problem.grammar.Built)
    (fits : problem.grammar.labelCount < numberLimit) (acyclic : problem.grammar.Acyclic)
    (finite : problem.Finite) (threshold : EReal) :
    ∃ best counts, decode problem threshold = .ok (best, counts) ∧ ∀ tree ∈ best, ∃ parse top,
      problem.Parses parse ∧ tree.spans = parse.spans ∧
      problem.score false tree.spans = .ok tree.score ∧
      Exact.decode problem = .ok (some top) ∧ tree.score ≤ top.score := by
  have coherent := built.coherent
  obtain ⟨rank, ranked⟩ := coherent.unary.exists_ranked acyclic
  have ready : BestChart.Ready problem rank := ⟨coherent, fits, ranked⟩
  obtain ⟨exact, _, all, _⟩ := Exact.exists_chart ready
  obtain ⟨result, counts, ok, best⟩ := exists_best ready finite threshold all
  refine ⟨result, counts, ok, fun tree member => ?_⟩
  obtain rfl := Option.mem_def.mp member
  obtain ⟨parse, parses, spans, score, _⟩ := best
  obtain ⟨top, found, _, _, _, _, most⟩ := Exact.exists_best_of_parses ready finite parses
  refine ⟨parse, top, parses, spans, ?_, found, score ▸ most parse parses trivial⟩
  rw [spans, ← score]
  exact problem.score_eq_parseScore coherent parses
    (parses.admits.nodup_of_ranked coherent ranked) (.refl _)

theorem decode_sound_row : ∃ best counts,
    decode (.uniform row twoWords) 0 = .ok (best, counts) ∧ ∀ tree ∈ best, ∃ top,
      Exact.decode (.uniform row twoWords) = .ok (some top) ∧ tree.score ≤ top.score := by
  obtain ⟨best, counts, ok, sound⟩ := @decode_sound (.uniform row twoWords) row_built row_fits
    row_acyclic (Problem.uniform_finite _ _) 0
  refine ⟨best, counts, ok, fun tree member => ?_⟩
  obtain ⟨_, top, _, _, _, found, bound⟩ := sound tree member
  exact ⟨top, found, bound⟩

/-- If a best parse stays within the threshold of the best scores of the exact chart at all its
constituents, beam search finds a tree of the score that exact search finds. -/
theorem decode_within (built : problem.grammar.Built)
    (fits : problem.grammar.labelCount < numberLimit) (acyclic : problem.grammar.Acyclic)
    (finite : problem.Finite) (threshold : EReal) {chart : BestChart EReal}
    (whole : Exact.fill problem = .ok chart) {parse : Parse} (parses : problem.Parses parse)
    (best : ∀ other, problem.Parses other → problem.parseScore other ≤ problem.parseScore parse)
    (keeps : BestChart.Keeps problem chart threshold parse) :
    ∃ tree counts top, decode problem threshold = .ok (some tree, counts) ∧
      Exact.decode problem = .ok (some top) ∧ tree.score = top.score := by
  have coherent := built.coherent
  obtain ⟨rank, ranked⟩ := coherent.unary.exists_ranked acyclic
  have ready : BestChart.Ready problem rank := ⟨coherent, fits, ranked⟩
  obtain ⟨exact, ok, all, _⟩ := Exact.exists_chart ready
  obtain rfl := Except.ok.inj (ok.symm.trans whole)
  obtain ⟨result, counts, ok, within⟩ := exists_best ready finite threshold all
  obtain ⟨top, found, other, parses', _, score', most⟩ :=
    Exact.exists_best_of_parses ready finite parses
  cases result with
  | none => exact absurd keeps (within parse parses)
  | some tree =>
    obtain ⟨own, parses'', _, score, enough⟩ := within
    refine ⟨tree, counts, top, ok, found, le_antisymm ?_ ?_⟩
    · exact score ▸ most own parses'' trivial
    · calc top.score = problem.parseScore other := score'.symm
        _ ≤ problem.parseScore parse := best other parses'
        _ ≤ tree.score := enough parse parses keeps

theorem decode_within_row : ∃ tree counts top,
    decode (.uniform row twoWords) 0 = .ok (some tree, counts) ∧
      Exact.decode (.uniform row twoWords) = .ok (some top) ∧ tree.score = top.score := by
  obtain ⟨rank, ranked⟩ := row_built.coherent.unary.exists_ranked row_acyclic
  have ready : BestChart.Ready (.uniform row twoWords) rank :=
    ⟨row_built.coherent, row_fits, ranked⟩
  obtain ⟨chart, ok, filled, linked⟩ := Exact.exists_chart ready
  have alike := Problem.uniform_parseScore row twoWords
  have parses := Problem.row_parses (α := EReal) (.constant zero) none
  exact decode_within row_built row_fits row_acyclic (Problem.uniform_finite _ _) 0 ok parses
    (fun other _ => (alike other).le.trans (alike _).ge)
    (filled.keeps_of_alike ready linked alike parses.admits)

end Beam

end Constituency
