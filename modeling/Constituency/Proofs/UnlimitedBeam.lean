import Constituency.Search.Beam
import Constituency.Proofs.Grounded
import Constituency.Proofs.Fold

/-!
A beam without a limit cuts nothing off: beam search then builds the chart of exact search round by
round, with the same links where scores tie.
-/

namespace Constituency

open Score

variable {α : Type} [Score α]

namespace Cell

variable {floor floor' : α}

theorem relax_congr_floor (low : ∀ x : α, ¬ x < floor) (low' : ∀ x : α, ¬ x < floor')
    (count : Nat) : relax count floor = relax count floor' := by
  funext pass edge
  simp [relax, low, low']

theorem settle_congr_floor (low : ∀ x : α, ¬ x < floor) (low' : ∀ x : α, ¬ x < floor')
    (count : Nat) (edges : List (UnaryEdge α)) (passes : Nat) (pass : Pass α) :
    settle count floor edges passes pass = settle count floor' edges passes pass := by
  induction passes generalizing pass with
  | zero => rfl
  | succ passes ih => simp only [settle, relax_congr_floor low low', ih]

end Cell

theorem BestChart.closed_congr_floor {floor floor' : α} (low : ∀ x : α, ¬ x < floor)
    (low' : ∀ x : α, ¬ x < floor') (chart : BestChart α) (problem : Problem α)
    (start stop : Nat) :
    chart.closed problem start stop floor = chart.closed problem start stop floor' := by
  simp only [closed, close, Cell.close, Cell.settle_congr_floor low low']

def BeamCounts.Uncut (counts : BeamCounts) : Prop :=
  counts.weakChildren = 0 ∧ counts.weakCandidates = 0

theorem BeamCounts.Uncut.exists_scored {counts : BeamCounts} (uncut : counts.Uncut) :
    ∃ scored, counts = { scored := scored } := by
  obtain ⟨scored, weakChildren, weakCandidates⟩ := counts
  obtain ⟨children, candidates⟩ := uncut
  exact ⟨scored, by simp_all⟩

namespace Beam

variable [Grounded α]

theorem offerRule_unlimited (problem : Problem α) (start split stop : Nat) (left right : α)
    (filling : Filling α) (rule : BinaryRule × Nat) :
    (offerRule problem unlimited start split stop (left - unlimited) (right - unlimited) filling
        rule).chart = Exact.offerRule problem start split stop filling.chart rule ∧
      (filling.counts.Uncut →
        (offerRule problem unlimited start split stop (left - unlimited) (right - unlimited)
          filling rule).counts.Uncut) := by
  have low := Grounded.not_lt_sub_unlimited (α := α)
  by_cases missing : (filling.chart.after start split rule.1.left == absent ||
      filling.chart.after split stop rule.1.right == absent) = true
  · simp [offerRule, Exact.offerRule, missing]
  · simp [offerRule, Exact.offerRule, missing, low, BeamCounts.Uncut]

theorem offerAll_unlimited (problem : Problem α) (beam : Beam α) (start stop : Nat) :
    (offerAll problem unlimited beam start stop).chart =
        Exact.offerAll problem beam.chart start stop ∧
      (beam.counts.Uncut → (offerAll problem unlimited beam start stop).counts.Uncut) := by
  constructor
  · refine (List.foldl_hom Filling.chart fun filling split => ?_).symm
    exact List.foldl_hom Filling.chart fun filling rule =>
      (offerRule_unlimited problem start split stop (beam.tops.get start split 0)
        (beam.tops.get split stop 0) filling rule).1.symm
  · intro uncut
    refine List.foldlRecOn (motive := fun filling : Filling α => filling.counts.Uncut) _ _
      uncut ?_
    intro filling uncut split _
    refine List.foldlRecOn (motive := fun filling : Filling α => filling.counts.Uncut) _ _
      uncut ?_
    intro filling uncut rule _
    exact (offerRule_unlimited problem start split stop _ _ filling rule).2 uncut

omit [Grounded α] in
theorem closeInterval_chart (problem : Problem α) (beam : Beam α) (start stop : Nat)
    (floor : α) :
    (closeInterval problem beam start stop floor).map Beam.chart =
      beam.chart.closed problem start stop floor := by
  obtain ⟨chart, tops, counts⟩ := beam
  cases closed : chart.closed problem start stop floor <;>
    simp [closeInterval, closed, Except.map, bind, Except.bind, pure, Except.pure]

omit [Grounded α] in
theorem closeInterval_counts {problem : Problem α} {beam next : Beam α} {start stop : Nat}
    {floor : α} (ok : closeInterval problem beam start stop floor = .ok next) :
    next.counts = beam.counts := by
  obtain ⟨chart, tops, counts⟩ := beam
  cases closed : chart.closed problem start stop floor with
  | error error =>
    rw [closeInterval, closed] at ok
    cases ok
  | ok chart =>
    rw [closeInterval, closed] at ok
    cases ok
    rfl

theorem fillInterval_chart (problem : Problem α) (beam : Beam α) (start stop : Nat) :
    (fillInterval problem unlimited beam start stop).map Beam.chart =
      (Exact.offerAll problem beam.chart start stop).closed problem start stop absent := by
  rw [fillInterval, closeInterval_chart, ← (offerAll_unlimited problem beam start stop).1]
  exact BestChart.closed_congr_floor (fun x => Grounded.not_lt_sub_unlimited x _)
    Grounded.not_lt_absent _ _ _ _

theorem fillInterval_uncut {problem : Problem α} {beam next : Beam α} {start stop : Nat}
    (uncut : beam.counts.Uncut)
    (ok : fillInterval problem unlimited beam start stop = .ok next) : next.counts.Uncut := by
  rw [fillInterval] at ok
  rw [closeInterval_counts ok]
  exact (offerAll_unlimited problem beam start stop).2 uncut

omit [Grounded α] in
theorem fill_eq (problem : Problem α) (threshold : α) :
    fill problem threshold =
      (narrowIntervals problem.length).foldlM
          (fun beam interval => closeInterval problem beam interval.1 interval.2
            (beam.chart.topBefore interval.1 interval.2 - threshold)) (Beam.start problem) >>=
        (wideIntervals problem.length).foldlM fun beam interval =>
          fillInterval problem threshold beam interval.1 interval.2 :=
  rfl

omit [Grounded α] in
theorem exactFill_eq (problem : Problem α) :
    Exact.fill problem =
      (narrowIntervals problem.length).foldlM
          (fun chart interval => chart.closed problem interval.1 interval.2 absent)
          (Beam.start problem).chart >>=
        (wideIntervals problem.length).foldlM fun chart interval =>
          (Exact.offerAll problem chart interval.1 interval.2).closed problem interval.1
            interval.2 absent :=
  rfl

theorem fill_chart (problem : Problem α) :
    (fill problem unlimited).map Beam.chart = Exact.fill problem := by
  rw [fill_eq, exactFill_eq, Fold.map_bind Beam.chart Beam.chart]
  · congr 1
    apply Fold.map_foldlM
    intro beam interval
    rw [closeInterval_chart]
    exact BestChart.closed_congr_floor (fun x => Grounded.not_lt_sub_unlimited x _)
      Grounded.not_lt_absent _ _ _ _
  · intro beam
    apply Fold.map_foldlM
    intro beam interval
    exact fillInterval_chart problem beam interval.1 interval.2

theorem fill_uncut {problem : Problem α} {beam : Beam α}
    (ok : fill problem unlimited = .ok beam) : beam.counts.Uncut := by
  rw [fill_eq] at ok
  obtain ⟨first, narrow, wide⟩ := Fold.exists_of_bind_ok ok
  have uncut : first.counts.Uncut := by
    apply Fold.foldlM_keeps (fun beam => beam.counts.Uncut) _ _ _ ⟨rfl, rfl⟩ narrow
    intro beam interval next uncut ok
    rw [closeInterval_counts ok]
    exact uncut
  apply Fold.foldlM_keeps (fun beam => beam.counts.Uncut) _ _ _ uncut wide
  intro beam interval next uncut ok
  exact fillInterval_uncut uncut ok

end Beam

end Constituency
