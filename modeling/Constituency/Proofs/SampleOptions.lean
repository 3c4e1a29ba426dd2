import Mathlib
import Constituency.Sampling.TreeSample
import Constituency.Proofs.Partition

/-!
The options of the sampler. They are the rules whose children are live, each with its share of the
mass of the item it is chosen for, and these shares add up to that mass.
-/

namespace Constituency.MassChart

open Score LogScore ExtendedReal Problem

variable {problem : Problem EReal} {chart : MassChart EReal} {threshold : EReal}
  {start stop : Nat} {label : Label}

section Present

theorem weigh_ne_top (finite : problem.Finite) (parses : List Parse) :
    problem.weigh parses ≠ ⊤ := by
  unfold weigh
  induction parses with
  | nil => simp
  | cons parse parses ih =>
    obtain ⟨score, real⟩ := finite.parseScore parse
    rw [List.map_cons, List.sum_cons, real]
    exact ENNReal.add_ne_top.mpr ⟨by simp, ih⟩

theorem exists_mass (coherent : problem.grammar.Coherent) (finite : problem.Finite)
    (balanced : Balanced problem threshold chart) (bounds : start < stop ∧ stop ≤ problem.length)
    (registered : problem.grammar.Registered label) {phase : Phase}
    (alive : chart.live.isLive start stop label phase = true) :
    ∃ amount : ℝ, chart.mass start stop label phase = amount := by
  have some := weight_ne_zero balanced bounds registered alive
  have limited : chart.weight start stop label phase ≠ ⊤ := by
    have sums := sums_of_balanced coherent balanced start stop bounds label registered
    cases phase with
    | beforeUnary => exact sums.1 ▸ weigh_ne_top finite _
    | afterUnary => exact sums.2 ▸ weigh_ne_top finite _
  unfold weight at some limited
  rw [ne_eq, EReal.exp_eq_zero_iff] at some
  rw [ne_eq, EReal.exp_eq_top_iff] at limited
  lift chart.mass start stop label phase to ℝ using ⟨limited, some⟩ with amount
  exact ⟨amount, rfl⟩

theorem absent_lt_mass_iff (coherent : problem.grammar.Coherent) (finite : problem.Finite)
    (balanced : Balanced problem threshold chart) (bounds : start < stop ∧ stop ≤ problem.length)
    (registered : problem.grammar.Registered label) (phase : Phase) :
    absent < chart.mass start stop label phase ↔
      chart.live.isLive start stop label phase = true := by
  constructor
  · intro present
    by_contra dead
    unfold mass at present
    rw [if_neg dead] at present
    exact lt_irrefl _ present
  · intro alive
    obtain ⟨amount, real⟩ := exists_mass coherent finite balanced bounds registered alive
    rw [real]
    exact EReal.bot_lt_coe amount

theorem exp_telescope (middle : ℝ) (more below above : EReal) :
    EReal.exp (middle + more - above) * EReal.exp (below - middle) =
      EReal.exp (more + below - above) := by
  have cancel : (middle : EReal) + -middle = 0 := by
    rw [← EReal.coe_neg, ← EReal.coe_add, add_neg_cancel, EReal.coe_zero]
  rw [← EReal.exp_add]
  simp only [sub_eq_add_neg]
  calc EReal.exp (middle + more + -above + (below + -middle))
      = EReal.exp (more + below + -above + (middle + -middle)) := by
        congr 1
        ac_rfl
    _ = EReal.exp (more + below + -above) := by rw [cancel, add_zero]

theorem exp_telescope_pair (first second : ℝ) (more left right above : EReal) :
    EReal.exp (first + second + more - above) *
        (EReal.exp (left - first) * EReal.exp (right - second)) =
      EReal.exp (more + (left + right) - above) := by
  have outer := exp_telescope first (second + more) left above
  rw [← add_assoc] at outer
  rw [← mul_assoc, outer]
  have inner := exp_telescope second (more + left) right above
  have sorted : (second : EReal) + more + left = second + (more + left) := add_assoc _ _ _
  rw [sorted, inner, add_assoc more left right]

end Present

section Options

theorem filterMap_ite {ι β : Type} (items : List ι) (keep : ι → Bool) (value : ι → β) :
    (items.filterMap fun item => if keep item then some (value item) else none) =
      (items.filter keep).map value := by
  induction items with
  | nil => rfl
  | cons item items ih =>
    by_cases kept : keep item = true <;> simp [kept, ih]

theorem sum_filter {ι : Type} (items : List ι) (keep : ι → Bool) (part : ι → ENNReal)
    (lost : ∀ item ∈ items, keep item = false → part item = 0) :
    ((items.filter keep).map part).sum = (items.map part).sum := by
  induction items with
  | nil => rfl
  | cons item items ih =>
    have rest := ih fun other member => lost other (List.mem_cons_of_mem _ member)
    cases kept : keep item with
    | true => rw [List.filter_cons_of_pos kept, List.map_cons, List.map_cons, List.sum_cons,
        List.sum_cons, rest]
    | false =>
      have none := lost item List.mem_cons_self kept
      rw [List.filter_cons_of_neg (by simp [kept]), rest, List.map_cons, List.sum_cons, none,
        zero_add]

theorem unaryWithParent_eq (coherent : problem.grammar.Coherent) (label : Label) :
    problem.grammar.unaryWithParent label = (problem.unaryUnder label).map Prod.snd :=
  coherent.unary.filed.index_eq label

theorem binaryWithParent_eq (coherent : problem.grammar.Coherent) (label : Label) :
    problem.grammar.binaryWithParent label = (problem.binaryUnder label).map Prod.snd :=
  coherent.binary.index_eq label

theorem unaryOptions_eq (coherent : problem.grammar.Coherent) (finite : problem.Finite)
    (balanced : Balanced problem threshold chart) (bounds : start < stop ∧ stop ≤ problem.length)
    (registered : problem.grammar.Registered label) :
    chart.unaryOptions start stop label =
      (if chart.live.isLive start stop label .beforeUnary then
        [(none, chart.mass start stop label .beforeUnary)] else []) ++
      ((problem.unaryUnder label).filter (chart.carries start stop)).map fun rule =>
        (some rule.1.child, chart.mass start stop rule.1.child .beforeUnary +
          problem.unaryScore start stop rule.1 rule.2) := by
  have keeps := absent_lt_mass_iff coherent finite balanced bounds registered .beforeUnary
  unfold unaryOptions
  rw [balanced.sized.problem_eq, unaryWithParent_eq coherent, List.filterMap_map, ← filterMap_ite]
  simp only [keeps]
  congr 1
  apply List.filterMap_congr
  intro entry member
  obtain ⟨rule, number⟩ := entry
  obtain ⟨found, rfl⟩ := mem_unaryUnder.mp member
  have child := (coherent.registered_of_unaryRule? found).2
  have present := absent_lt_mass_iff coherent finite balanced bounds child .beforeUnary
  have noted : chart.unaryScores[(start, stop, number)]? =
      if chart.carries start stop (rule, number) then
        some (problem.unaryScore start stop rule number) else none :=
    (balanced.finished start stop bounds).unary rule number found
  simp only [Function.comp_apply, noted, found]
  by_cases alive : chart.carries start stop (rule, number) = true
  · rw [if_pos alive, if_pos alive]
    exact if_pos (present.mpr alive)
  · rw [if_neg alive, if_neg alive]
    rfl

theorem logSum_unaryOptions (coherent : problem.grammar.Coherent) (finite : problem.Finite)
    (balanced : Balanced problem threshold chart) (bounds : start < stop ∧ stop ≤ problem.length)
    (registered : problem.grammar.Registered label)
    (alive : chart.live.isLive start stop label .afterUnary = true) :
    logSum ((chart.unaryOptions start stop label).map Prod.snd) =
      chart.mass start stop label .afterUnary := by
  have dead {label : Label} (lost : chart.live.isLive start stop label .beforeUnary = false) :
      chart.weight start stop label .beforeUnary = 0 := by
    rw [weight_before, lost, if_neg Bool.false_ne_true]
  have kept : ((if chart.live.isLive start stop label .beforeUnary then
      [((none : Option Label), chart.mass start stop label .beforeUnary)] else []).map
        fun option => EReal.exp option.2).sum = chart.weight start stop label .beforeUnary := by
    cases lost : chart.live.isLive start stop label .beforeUnary with
    | true => simp [weight]
    | false => simp [dead lost]
  rw [← EReal.log_exp (logSum _), exp_logSum, List.map_map,
    unaryOptions_eq coherent finite balanced bounds registered, List.map_append, List.sum_append,
    List.map_map]
  have rules : (((problem.unaryUnder label).filter (chart.carries start stop)).map
      fun rule => EReal.exp (chart.mass start stop rule.1.child .beforeUnary +
        problem.unaryScore start stop rule.1 rule.2)).sum =
      unaryWeight problem chart start stop label := by
    simp only [EReal.exp_add]
    apply sum_filter
    intro rule _ lost
    have none : chart.weight start stop rule.1.child .beforeUnary = 0 := dead lost
    unfold weight at none
    rw [none, zero_mul]
  have after := (balanced.finished start stop bounds).after label registered
  change ENNReal.log ((List.map (fun option : Option Label × EReal => EReal.exp option.2) _).sum +
    (List.map (fun rule : UnaryRule × Nat => EReal.exp (_ + problem.unaryScore _ _ _ _)) _).sum) = _
  rw [kept, rules]
  rw [← after, EReal.log_exp]
  unfold mass
  rw [if_pos alive]

theorem exists_masses (coherent : problem.grammar.Coherent) (finite : problem.Finite)
    (balanced : Balanced problem threshold chart) {split number : Nat}
    (inside : start < split ∧ split < stop) (bound : stop ≤ problem.length) {rule : BinaryRule}
    (found : problem.grammar.binaryRule? number = some rule)
    (alive : chart.meets start stop (split, rule, number) = true) :
    ∃ first second : ℝ, chart.mass start split rule.left .afterUnary = first ∧
      chart.mass split stop rule.right .afterUnary = second := by
  obtain ⟨left, right⟩ := Bool.and_eq_true_iff.mp alive
  obtain ⟨_, onLeft, onRight⟩ := coherent.registered_of_binaryRule? found
  obtain ⟨first, leftMass⟩ := exists_mass coherent finite balanced (by omega) onLeft left
  obtain ⟨second, rightMass⟩ := exists_mass coherent finite balanced (by omega) onRight right
  exact ⟨first, second, leftMass, rightMass⟩

theorem binaryOptions_eq (coherent : problem.grammar.Coherent) (finite : problem.Finite)
    (balanced : Balanced problem threshold chart)
    (bounds : start + 1 < stop ∧ stop ≤ problem.length) (label : Label) :
    chart.binaryOptions start stop label = (splits start stop).flatMap fun split =>
      ((problem.binaryUnder label).filter fun rule =>
        chart.meets start stop (split, rule.1, rule.2)).map fun rule =>
          ((split, rule.1), chart.mass start split rule.1.left .afterUnary +
            chart.mass split stop rule.1.right .afterUnary +
              binaryScore problem start split stop rule.1 rule.2) := by
  unfold binaryOptions
  apply List.flatMap_congr
  intro split member
  have inside := (mem_splits start stop split).mp member
  rw [balanced.sized.problem_eq, binaryWithParent_eq coherent, List.filterMap_map, ← filterMap_ite]
  apply List.filterMap_congr
  intro entry member
  obtain ⟨rule, number⟩ := entry
  obtain ⟨found, rfl⟩ := mem_binaryUnder.mp member
  have noted := balanced.noted start stop bounds split rule number inside found
  simp only [Function.comp_apply, noted, found]
  by_cases alive : chart.meets start stop (split, rule, number) = true
  · obtain ⟨first, second, onLeft, onRight⟩ :=
      exists_masses coherent finite balanced inside bounds.2 found alive
    obtain ⟨score, own⟩ := finite.spanScore (.binary start split stop rule)
    rw [Problem.spanScore_binary coherent found] at own
    rw [if_pos alive, if_pos alive]
    apply if_pos
    change ⊥ < chart.mass start split rule.left .afterUnary +
      chart.mass split stop rule.right .afterUnary + (problem.binaryModelScore _ _ _ _ +
        problem.costOf _)
    rw [own, onLeft, onRight, ← EReal.coe_add, ← EReal.coe_add]
    exact EReal.bot_lt_coe _
  · rw [if_neg alive, if_neg alive]
    rfl

theorem logSum_binaryOptions (coherent : problem.grammar.Coherent) (finite : problem.Finite)
    (balanced : Balanced problem threshold chart)
    (bounds : start + 1 < stop ∧ stop ≤ problem.length)
    (registered : problem.grammar.Registered label)
    (alive : chart.live.isLive start stop label .beforeUnary = true) :
    logSum ((chart.binaryOptions start stop label).map Prod.snd) =
      chart.mass start stop label .beforeUnary := by
  have before := balanced.wide start stop bounds label registered
  rw [← EReal.log_exp (logSum _), exp_logSum, List.map_map,
    binaryOptions_eq coherent finite balanced bounds label, List.map_flatMap, sum_flatMap]
  have rules : ((splits start stop).map fun split =>
      ((((problem.binaryUnder label).filter fun rule =>
        chart.meets start stop (split, rule.1, rule.2)).map fun rule =>
          ((split, rule.1), chart.mass start split rule.1.left .afterUnary +
            chart.mass split stop rule.1.right .afterUnary +
              binaryScore problem start split stop rule.1 rule.2)).map
        (EReal.exp ∘ Prod.snd)).sum).sum = binaryWeight problem chart start stop label := by
    unfold binaryWeight
    congr 1
    apply List.map_congr_left
    intro split _
    rw [List.map_map]
    have summed := sum_filter (problem.binaryUnder label)
      (fun rule => chart.meets start stop (split, rule.1, rule.2)) (fun rule =>
        chart.weight start split rule.1.left .afterUnary *
          chart.weight split stop rule.1.right .afterUnary *
            EReal.exp (binaryScore problem start split stop rule.1 rule.2)) (by
        intro rule _ lost
        rw [weight_after, weight_after]
        rcases Bool.and_eq_false_iff.mp lost with left | right
        · rw [left, if_neg Bool.false_ne_true, zero_mul, zero_mul]
        · rw [right, if_neg Bool.false_ne_true, mul_zero, zero_mul])
    refine Eq.trans ?_ summed
    congr 1
    apply List.map_congr_left
    intro rule _
    simp only [Function.comp_apply, EReal.exp_add, weight]
  rw [rules, ← before, EReal.log_exp]
  unfold mass
  rw [if_pos alive]

end Options

end Constituency.MassChart
