import Mathlib
import Constituency.Proofs.InsidePass
import Constituency.Proofs.LiveParses
import Constituency.Proofs.ParseScore

/-!
The masses of a chart are sums over parses. Each surviving parse counts once, by its top rule and
the parses below, and the root sums over all of them.
-/

namespace Constituency

open Score LogScore ExtendedReal

namespace Problem

variable {problem : Problem EReal} {live : Live} {start split stop : Nat} {label : Label}

/-- The probabilities of some parses, before they are normalized, taken together. -/
noncomputable def weigh (problem : Problem EReal) (parses : List Parse) : ENNReal :=
  (parses.map fun parse => EReal.exp (problem.parseScore parse)).sum

theorem weigh_append (problem : Problem EReal) (parses more : List Parse) :
    problem.weigh (parses ++ more) = problem.weigh parses + problem.weigh more := by
  rw [weigh, List.map_append, List.sum_append]
  rfl

theorem weigh_flatMap {ι : Type} (problem : Problem EReal) (items : List ι)
    (parts : ι → List Parse) :
    problem.weigh (items.flatMap parts) =
      (items.map fun item => problem.weigh (parts item)).sum := by
  rw [weigh, List.map_flatMap, MassChart.sum_flatMap]
  rfl

theorem weigh_map (problem : Problem EReal) (build : Parse → Parse) (score : EReal)
    {parses : List Parse}
    (built : ∀ parse ∈ parses, problem.parseScore (build parse) =
      score + problem.parseScore parse) :
    problem.weigh (parses.map build) = EReal.exp score * problem.weigh parses := by
  rw [weigh, weigh, List.map_map, ← List.sum_map_mul_left]
  congr 1
  refine List.map_congr_left fun parse member => ?_
  rw [Function.comp_apply, built parse member, EReal.exp_add]

theorem weigh_unary {child : Label} {parses : List Parse}
    (below : ∀ parse ∈ parses, Survives problem live start stop child .beforeUnary parse) :
    problem.weigh (parses.map (.unary label)) =
      EReal.exp (problem.spanScore (.unary start stop ⟨label, child⟩)) * problem.weigh parses := by
  refine problem.weigh_map _ _ fun parse member => ?_
  obtain ⟨_, _, rfl, rfl, rfl, _⟩ := below parse member
  rfl

theorem weigh_binary {rule : BinaryRule} {lefts rights : List Parse}
    (onLeft : ∀ parse ∈ lefts, Survives problem live start split rule.left .afterUnary parse)
    (onRight : ∀ parse ∈ rights, Survives problem live split stop rule.right .afterUnary parse) :
    problem.weigh (lefts.flatMap fun left => rights.map (.binary rule.parent left)) =
      EReal.exp (problem.spanScore (.binary start split stop rule)) *
        (problem.weigh lefts * problem.weigh rights) := by
  have joined (left : Parse) (member : left ∈ lefts) :
      problem.weigh (rights.map (.binary rule.parent left)) =
        EReal.exp (problem.spanScore (.binary start split stop rule)) *
          (EReal.exp (problem.parseScore left) * problem.weigh rights) := by
    rw [← mul_assoc, ← EReal.exp_add]
    refine problem.weigh_map _ _ fun right inside => ?_
    obtain ⟨_, _, rfl, rfl, leftLabel, _⟩ := onLeft left member
    obtain ⟨_, _, _, rfl, rightLabel, _⟩ := onRight right inside
    rw [parseScore, Parse.top, leftLabel, rightLabel, add_assoc]
  rw [weigh_flatMap, List.map_congr_left joined, List.sum_map_mul_left, List.sum_map_mul_right]
  rfl

end Problem

namespace MassChart

variable {problem : Problem EReal} {chart : MassChart EReal} {threshold : EReal}

open Problem

theorem wordWeight_eq (coherent : problem.grammar.Coherent) (start : Nat) (label : Label) :
    wordWeight problem start label =
      if label ∈ problem.terminalsAt start then EReal.exp (problem.terminalScore start label)
      else 0 := by
  have distinct : (problem.terminalsAt start).Nodup := coherent.terminalsFor_nodup _
  rw [wordWeight, List.filter_eq, List.map_replicate, List.sum_replicate]
  by_cases allowed : label ∈ problem.terminalsAt start
  · rw [if_pos allowed, List.count_eq_one_of_mem distinct allowed, one_smul]
  · rw [if_neg allowed, List.count_eq_zero_of_not_mem allowed, zero_smul]

/-- The masses of an item are the sums over its surviving parses. -/
def Sums (problem : Problem EReal) (chart : MassChart EReal) (start stop : Nat) : Prop :=
  ∀ label, problem.grammar.Registered label →
    problem.weigh (problem.parsesBefore chart.live start stop label) =
        chart.weight start stop label .beforeUnary ∧
      problem.weigh (problem.parsesAfter chart.live start stop label) =
        chart.weight start stop label .afterUnary

theorem weigh_parsesBefore_word (coherent : problem.grammar.Coherent)
    (balanced : Balanced problem threshold chart) {start : Nat} (bound : start < problem.length)
    {label : Label} (registered : problem.grammar.Registered label) :
    problem.weigh (problem.parsesBefore chart.live start (start + 1) label) =
      chart.weight start (start + 1) label .beforeUnary := by
  rw [parsesBefore, weight_before, balanced.word start bound label registered,
    wordWeight_eq coherent, if_pos rfl]
  by_cases alive : chart.live.isLive start (start + 1) label .beforeUnary = true
  · rw [if_pos alive, if_pos alive]
    by_cases allowed : label ∈ problem.terminalsAt start
    · have score : problem.parseScore (.word label start) = problem.terminalScore start label :=
        problem.spanScore_terminal coherent (coherent.mem_terminalsFor allowed) start
      rw [if_pos allowed, if_pos allowed]
      simp [weigh, score]
    · rw [if_neg allowed, if_neg allowed]
      rfl
  · rw [if_neg alive, if_neg alive]
    rfl

theorem weigh_parsesBefore_wide (coherent : problem.grammar.Coherent)
    (balanced : Balanced problem threshold chart) {start stop : Nat}
    (bounds : start + 1 < stop ∧ stop ≤ problem.length)
    (narrower : ∀ start' stop', start' < stop' ∧ stop' ≤ problem.length →
      stop' - start' < stop - start → Sums problem chart start' stop')
    {label : Label} (registered : problem.grammar.Registered label) :
    problem.weigh (problem.parsesBefore chart.live start stop label) =
      chart.weight start stop label .beforeUnary := by
  rw [parsesBefore, weight_before, balanced.wide start stop bounds label registered]
  by_cases alive : chart.live.isLive start stop label .beforeUnary = true
  · rw [if_pos alive, if_pos alive, if_neg (by omega), weigh_flatMap, binaryWeight]
    congr 1
    refine List.map_congr_left fun split member => ?_
    have inside := (mem_splits start stop split).mp member
    rw [dif_pos inside, weigh_flatMap]
    congr 1
    apply List.map_congr_left
    intro entry member
    obtain ⟨rule, number⟩ := entry
    obtain ⟨found, rfl⟩ := mem_binaryUnder.mp member
    obtain ⟨_, first, second⟩ := coherent.registered_of_binaryRule? found
    have left := narrower start split (by omega) (by omega) rule.left first
    have right := narrower split stop (by omega) (by omega) rule.right second
    rw [weigh_binary
      (fun parse => (mem_parses_iff coherent chart.live start split (by omega) _ parse).2.mp)
      (fun parse => (mem_parses_iff coherent chart.live split stop (by omega) _ parse).2.mp),
      left.2, right.2, Problem.spanScore_binary coherent found, mul_comm]
    rfl
  · rw [if_neg alive, if_neg alive]
    rfl

theorem weigh_parsesAfter (coherent : problem.grammar.Coherent)
    (balanced : Balanced problem threshold chart) {start stop : Nat}
    (bounds : start < stop ∧ stop ≤ problem.length)
    (before : ∀ label, problem.grammar.Registered label →
      problem.weigh (problem.parsesBefore chart.live start stop label) =
        chart.weight start stop label .beforeUnary)
    {label : Label} (registered : problem.grammar.Registered label) :
    problem.weigh (problem.parsesAfter chart.live start stop label) =
      chart.weight start stop label .afterUnary := by
  rw [parsesAfter, weight_after, (balanced.finished start stop bounds).after label registered]
  by_cases alive : chart.live.isLive start stop label .afterUnary = true
  · rw [if_pos alive, if_pos alive, weigh_append, weigh_flatMap, before label registered,
      unaryWeight]
    congr 2
    apply List.map_congr_left
    intro entry member
    obtain ⟨rule, number⟩ := entry
    obtain ⟨found, rfl⟩ := mem_unaryUnder.mp member
    have known := coherent.registered_of_unaryRule? found
    rw [weigh_unary
      (fun parse => (mem_parses_iff coherent chart.live start stop bounds _ parse).1.mp),
      before _ known.2, Problem.spanScore_unary coherent.unaryTables found, mul_comm]
  · rw [if_neg alive, if_neg alive]
    rfl

theorem sums_of_balanced (coherent : problem.grammar.Coherent)
    (balanced : Balanced problem threshold chart) (start stop : Nat)
    (bounds : start < stop ∧ stop ≤ problem.length) : Sums problem chart start stop := by
  induction width : stop - start using Nat.strong_induction_on generalizing start stop with
  | h width ih =>
    subst width
    have before (label : Label) (registered : problem.grammar.Registered label) :
        problem.weigh (problem.parsesBefore chart.live start stop label) =
          chart.weight start stop label .beforeUnary := by
      by_cases single : stop = start + 1
      · subst single
        exact weigh_parsesBefore_word coherent balanced bounds.2 registered
      · exact weigh_parsesBefore_wide coherent balanced (by omega)
          (fun start' stop' bounds' less => ih _ less start' stop' bounds' rfl) registered
    exact fun label registered =>
      ⟨before label registered, weigh_parsesAfter coherent balanced bounds before registered⟩

theorem sum_present {ι : Type} (options : List (ι × EReal)) :
    (((options.filter fun option => absent < option.2).map Prod.snd).map EReal.exp).sum =
      (options.map fun option => EReal.exp option.2).sum := by
  induction options with
  | nil => rfl
  | cons option options ih =>
    rw [List.map_cons, List.sum_cons, ← ih]
    by_cases present : absent < option.2
    · rw [List.filter_cons_of_pos (by simpa using present)]
      rfl
    · have none : option.2 = ⊥ := not_bot_lt_iff.mp present
      rw [List.filter_cons_of_neg (by simpa using present), none, EReal.exp_bot, zero_add]

theorem exp_total (coherent : problem.grammar.Coherent)
    (balanced : Balanced problem threshold chart) :
    EReal.exp chart.total = problem.weigh (problem.parses chart.live) := by
  have problem_eq := balanced.sized.problem_eq
  rw [total, exp_logSum, MassChart.roots, parses, length, problem_eq]
  by_cases words : problem.length = 0
  · rw [if_pos words, if_pos words]
    rfl
  · rw [if_neg words, if_neg words, weigh_flatMap]
    refine (sum_present _).trans ?_
    rw [List.map_map]
    congr 1
    refine List.map_congr_left fun label member => ?_
    have sums := sums_of_balanced coherent balanced 0 problem.length (by omega) label
      (coherent.roots_registered label member)
    rw [sums.2]
    rfl

section Unlimited

theorem survives_ne_bot {floor score : EReal} (stays : survives floor score = true) :
    score ≠ ⊥ := by
  simp only [survives, absent_eq_bot, Bool.and_eq_true, decide_eq_true_eq] at stays
  exact stays.1.ne'

theorem survives_bot {score : EReal} (present : score ≠ ⊥) : survives ⊥ score = true := by
  simp [survives, bot_lt_iff_ne_bot, present]

variable {start stop : Nat} {label : Label}

theorem weight_ne_zero (balanced : Balanced problem threshold chart)
    (bounds : start < stop ∧ stop ≤ problem.length)
    (registered : problem.grammar.Registered label) {phase : Phase}
    (alive : chart.live.isLive start stop label phase = true) :
    chart.weight start stop label phase ≠ 0 := by
  have finished := balanced.finished start stop bounds
  cases phase with
  | beforeUnary =>
    obtain ⟨floor, _, live⟩ := finished.liveBefore
    rw [weight_before, if_pos alive, ne_eq, EReal.exp_eq_zero_iff]
    exact survives_ne_bot ((live label registered).symm.trans alive)
  | afterUnary =>
    obtain ⟨floor, _, live⟩ := finished.liveAfter
    rw [weight_after, if_pos alive, ne_eq, EReal.exp_eq_zero_iff]
    exact survives_ne_bot ((live label registered).symm.trans alive)

theorem live_before_of_unlimited (balanced : Balanced problem ⊤ chart)
    (bounds : start < stop ∧ stop ≤ problem.length)
    (registered : problem.grammar.Registered label)
    (some : EReal.exp (chart.before.get start stop label) ≠ 0) :
    chart.live.isLive start stop label .beforeUnary = true := by
  obtain ⟨floor, limit, live⟩ := (balanced.finished start stop bounds).liveBefore
  rw [live label registered, limit rfl]
  exact survives_bot fun none => some (EReal.exp_eq_zero_iff.mpr none)

theorem live_after_of_unlimited (balanced : Balanced problem ⊤ chart)
    (bounds : start < stop ∧ stop ≤ problem.length)
    (registered : problem.grammar.Registered label)
    (some : chart.weight start stop label .beforeUnary +
      unaryWeight problem chart start stop label ≠ 0) :
    chart.live.isLive start stop label .afterUnary = true := by
  have finished := balanced.finished start stop bounds
  obtain ⟨floor, limit, live⟩ := finished.liveAfter
  rw [live label registered, limit rfl]
  refine survives_bot fun none => some ?_
  rw [← finished.after label registered, none, EReal.exp_bot]

theorem exp_spanScore_ne_zero (finite : problem.Finite) (span : Span) :
    EReal.exp (problem.spanScore span) ≠ 0 := by
  obtain ⟨score, real⟩ := finite.spanScore span
  rw [real, ne_eq, EReal.exp_eq_zero_iff]
  exact EReal.coe_ne_bot score

theorem mem_innerItems_of_bare {parse : Parse} (bare : parse.isUnary = false) :
    (parse.item, Phase.beforeUnary) ∈ parse.innerItems := by
  cases parse with
  | word label position => simp [Parse.innerItems]
  | unary label child => cases bare
  | binary label left right => simp [Parse.innerItems]

theorem allLive_items_of_inner (coherent : problem.grammar.Coherent)
    (balanced : Balanced problem ⊤ chart) {parse : Parse} (admits : problem.Admits parse)
    (bare : parse.isUnary = false) (inner : AllLive chart.live parse.innerItems) :
    AllLive chart.live parse.items := by
  have bounds := And.intro admits.contiguous.start_lt_stop admits.stop_le
  have registered := admits.registered coherent
  refine AllLive.cons_iff.mpr ⟨live_after_of_unlimited balanced bounds registered ?_, inner⟩
  have own := weight_ne_zero balanced bounds registered (inner _ (mem_innerItems_of_bare bare))
  exact fun none => own (add_eq_zero.mp none).1

theorem live_word (coherent : problem.grammar.Coherent) (finite : problem.Finite)
    (balanced : Balanced problem ⊤ chart) (inside : start < problem.length)
    (allowed : label ∈ problem.terminalsAt start) :
    chart.live.isLive start (start + 1) label .beforeUnary = true := by
  have terminal := coherent.mem_terminalsFor allowed
  have registered := coherent.terminals_registered label terminal
  apply live_before_of_unlimited balanced (by omega) registered
  rw [balanced.word start inside label registered, wordWeight_eq coherent, if_pos allowed,
    ← Problem.spanScore_terminal coherent terminal]
  exact exp_spanScore_ne_zero finite _

theorem live_unary (coherent : problem.grammar.Coherent) (finite : problem.Finite)
    (balanced : Balanced problem ⊤ chart) (bounds : start < stop ∧ stop ≤ problem.length)
    {rule : UnaryRule} (known : problem.grammar.contains (.unary rule) = true)
    (below : chart.live.isLive start stop rule.child .beforeUnary = true) :
    chart.live.isLive start stop rule.parent .afterUnary = true := by
  have listed := (coherent.contains_unary_iff rule).mp known
  obtain ⟨number, found⟩ := (Numbering.mem_toList_iff _ _).mp listed
  obtain ⟨parent, child⟩ := coherent.unary.registered rule listed
  apply live_after_of_unlimited balanced bounds parent
  intro none
  have product := List.sum_eq_zero_iff.mp (add_eq_zero.mp none).2 _
    (List.mem_map_of_mem (mem_unaryUnder.mpr ⟨found, rfl⟩))
  rcases mul_eq_zero.mp product with lost | lost
  · exact weight_ne_zero balanced bounds child below lost
  · rw [← Problem.spanScore_unary coherent.unaryTables found] at lost
    exact exp_spanScore_ne_zero finite _ lost

theorem live_binary (coherent : problem.grammar.Coherent) (finite : problem.Finite)
    (balanced : Balanced problem ⊤ chart) {split : Nat} (inside : start < split ∧ split < stop)
    (bound : stop ≤ problem.length) {rule : BinaryRule}
    (known : problem.grammar.contains (.binary rule) = true)
    (left : chart.live.isLive start split rule.left .afterUnary = true)
    (right : chart.live.isLive split stop rule.right .afterUnary = true) :
    chart.live.isLive start stop rule.parent .beforeUnary = true := by
  have listed := (coherent.contains_binary_iff rule).mp known
  obtain ⟨number, found⟩ := (Numbering.mem_toList_iff _ _).mp listed
  obtain ⟨parent, first, second⟩ := coherent.registered_of_mem_binaryRules listed
  apply live_before_of_unlimited balanced (by omega) parent
  rw [balanced.wide start stop (by omega) rule.parent parent]
  intro none
  have divided := List.sum_eq_zero_iff.mp none _
    (List.mem_map_of_mem ((mem_splits start stop split).mpr inside))
  have product := List.sum_eq_zero_iff.mp divided _
    (List.mem_map_of_mem (mem_binaryUnder.mpr ⟨found, rfl⟩))
  rcases mul_eq_zero.mp product with children | lost
  · rcases mul_eq_zero.mp children with lost | lost
    · exact weight_ne_zero balanced (by omega) first left lost
    · exact weight_ne_zero balanced (by omega) second right lost
  · change EReal.exp (problem.binaryModelScore _ _ _ _ + problem.costOf _) = 0 at lost
    rw [← Problem.spanScore_binary coherent found] at lost
    exact exp_spanScore_ne_zero finite _ lost

theorem allLive_of_unlimited (coherent : problem.grammar.Coherent) (finite : problem.Finite)
    (balanced : Balanced problem ⊤ chart) {parse : Parse} (admits : problem.Admits parse)
    (flat : parse.Flat) : AllLive chart.live parse.items := by
  induction parse with
  | word label position =>
    have own := live_word coherent finite balanced admits.1 admits.2
    apply allLive_items_of_inner coherent balanced admits rfl
    exact AllLive.cons_iff.mpr ⟨own, by simp [AllLive]⟩
  | unary label child ih =>
    obtain ⟨known, below⟩ := admits
    have inner := (AllLive.cons_iff.mp (ih below flat.2)).2
    have bounds := And.intro below.contiguous.start_lt_stop below.stop_le
    have own := live_unary coherent finite balanced bounds known
      (inner _ (mem_innerItems_of_bare flat.1))
    exact AllLive.cons_iff.mpr ⟨own, inner⟩
  | binary label left right ihLeft ihRight =>
    obtain ⟨known, meet, onLeft, onRight⟩ := id admits
    have liveLeft := ihLeft onLeft flat.1
    have liveRight := ihRight onRight flat.2
    have first := onLeft.contiguous.start_lt_stop
    have second := onRight.contiguous.start_lt_stop
    have ownRight := (AllLive.cons_iff.mp liveRight).1
    simp only [Parse.item, ← meet] at ownRight
    have inside : left.start < left.stop ∧ left.stop < right.stop := by omega
    have own := live_binary coherent finite balanced inside onRight.stop_le known
      (AllLive.cons_iff.mp liveLeft).1 ownRight
    apply allLive_items_of_inner coherent balanced admits rfl
    exact AllLive.cons_iff.mpr ⟨own, AllLive.append_iff.mpr ⟨liveLeft, liveRight⟩⟩

end Unlimited

theorem mass_eq_log (coherent : problem.grammar.Coherent)
    (balanced : Balanced problem threshold chart) {start stop : Nat}
    (bounds : start < stop ∧ stop ≤ problem.length) {label : Label}
    (registered : problem.grammar.Registered label) (phase : Phase) :
    ∃ trees : Finset Parse,
      (∀ parse, parse ∈ trees ↔ Survives problem chart.live start stop label phase parse) ∧
      chart.mass start stop label phase =
        ENNReal.log (∑ parse ∈ trees, EReal.exp (problem.parseScore parse)) := by
  obtain ⟨before, after⟩ := sums_of_balanced coherent balanced start stop bounds label registered
  obtain ⟨onceBefore, onceAfter⟩ := nodup_parses coherent chart.live start stop bounds label
  have member (parse : Parse) := mem_parses_iff coherent chart.live start stop bounds label parse
  cases phase with
  | beforeUnary =>
    refine ⟨(problem.parsesBefore chart.live start stop label).toFinset,
      fun parse => List.mem_toFinset.trans (member parse).1, ?_⟩
    rw [List.sum_toFinset _ onceBefore, ← weigh, before, weight, EReal.log_exp]
  | afterUnary =>
    refine ⟨(problem.parsesAfter chart.live start stop label).toFinset,
      fun parse => List.mem_toFinset.trans (member parse).2, ?_⟩
    rw [List.sum_toFinset _ onceAfter, ← weigh, after, weight, EReal.log_exp]

/-- The masses of a chart are exact. The total is the sum over the parses of the sentence with at
most one unary rule over each constituent all of whose items are live, and so is the mass of each
live item over its own parses; without a limit the items of all these parses are live. -/
theorem fill_sums {problem : Problem EReal} (built : problem.grammar.Built)
    (fits : problem.grammar.labelCount < numberLimit) (finite : problem.Finite)
    (threshold : EReal) :
    (∃ trees : Finset Parse,
      (∀ parse, parse ∈ trees ↔ problem.Parses parse ∧ parse.Flat ∧
        AllLive (fill problem threshold).live parse.items) ∧
      (∀ parse ∈ trees, problem.score false parse.spans = .ok (problem.parseScore parse)) ∧
      EReal.exp (fill problem threshold).total =
        ∑ parse ∈ trees, EReal.exp (problem.parseScore parse)) ∧
    (∀ start stop, start < stop ∧ stop ≤ problem.length → ∀ label,
      problem.grammar.Registered label → ∀ phase,
        (fill problem threshold).live.isLive start stop label phase = true →
          ∃ trees : Finset Parse,
            (∀ parse, parse ∈ trees ↔
              Survives problem (fill problem threshold).live start stop label phase parse) ∧
            (fill problem threshold).mass start stop label phase =
              ENNReal.log (∑ parse ∈ trees, EReal.exp (problem.parseScore parse))) ∧
    (threshold = ⊤ → ∀ parse, problem.Admits parse → parse.Flat →
      AllLive (fill problem threshold).live parse.items) := by
  have coherent := built.coherent
  have balanced := balanced_fill coherent fits threshold
  generalize fill problem threshold = chart at balanced ⊢
  refine ⟨⟨(problem.parses chart.live).toFinset, fun parse => ?_, fun parse member => ?_, ?_⟩,
    fun start stop bounds label registered phase _ =>
      mass_eq_log coherent balanced bounds registered phase, ?_⟩
  · exact List.mem_toFinset.trans (mem_parses coherent)
  · obtain ⟨parses, flat, _⟩ := (mem_parses coherent).mp (List.mem_toFinset.mp member)
    exact problem.score_eq_parseScore coherent parses
      (parses.admits.nodup_of_flat coherent flat) (.refl _)
  · rw [List.sum_toFinset _ (parses_nodup coherent chart.live)]
    exact exp_total coherent balanced
  · intro unlimited parse admits flat
    subst unlimited
    exact allLive_of_unlimited coherent finite balanced admits flat

theorem fill_sums_loop : ∃ trees : Finset Parse,
    (∀ parse, parse ∈ trees ↔ Problem.Parses (.uniform Grammar.loop twoWords) parse ∧ parse.Flat ∧
      AllLive (fill (.uniform Grammar.loop twoWords) 1).live parse.items) ∧
    EReal.exp (fill (.uniform Grammar.loop twoWords) 1).total =
      ∑ parse ∈ trees, EReal.exp ((uniform Grammar.loop twoWords).parseScore parse) := by
  have sums := @fill_sums (.uniform Grammar.loop twoWords) Grammar.loop_built Grammar.loop_fits
    (uniform_finite _ _) 1
  obtain ⟨⟨trees, member, _, total⟩, _⟩ := sums
  exact ⟨trees, member, total⟩

end MassChart

end Constituency
