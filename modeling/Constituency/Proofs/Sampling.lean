import Mathlib
import Constituency.Proofs.NumbersDrawn
import Constituency.Proofs.SampleOptions

/-!
Sampling in proportion. The probabilities of the choices for a tree telescope along it, from the
mass of the sentence down to the scores of its spans, and every surviving parse has one run. The
sampler goes the way of a run just where the numbers it draws lead there.
-/

namespace Constituency.MassChart

open Score LogScore ExtendedReal Problem Runs

variable {problem : Problem EReal} {chart : MassChart EReal} {threshold : EReal}
  {start stop : Nat} {label : Label}

theorem yields_choose {β : Type} (item : Item) {options : List (β × EReal)}
    (present : logSum (options.map Prod.snd) ≠ ⊥) :
    Yields (choose pick item options) (options.map fun option =>
      (EReal.exp (option.2 - logSum (options.map Prod.snd)), option.1)) := by
  have lifted := Yields.lift (pick options)
  rw [outcomes_pick present] at lifted
  generalize logSum (options.map Prod.snd) = total at lifted
  have listed : options.map (fun option => (EReal.exp (option.2 - total), option.1)) =
      (options.map fun option => (EReal.exp (option.2 - total), some option.1)).flatMap
        fun value => (value.2.toList.map fun option => ((1 : ENNReal), option)).map
          fun last => (value.1 * last.1, last.2) := by
    rw [List.flatMap_map, List.map_eq_flatMap]
    simp
  rw [listed]
  unfold choose
  apply lifted.bind fun option => option.toList.map fun option => ((1 : ENNReal), option)
  intro value member
  obtain ⟨option, _, rfl⟩ := List.mem_map.mp member
  exact Yields.pure option.1

/-- What a sampler draws: the spans of some parses, each in proportion to its score. -/
noncomputable def drawn (problem : Problem EReal) (mass : EReal) (parses : List Parse) :
    List (ENNReal × List Span) :=
  parses.map fun parse => (EReal.exp (problem.parseScore parse - mass), parse.spans)

theorem drawn_telescope (problem : Problem EReal) (middle : ℝ) (above : EReal)
    (parses : List Parse) :
    (drawn problem middle parses).map (fun last =>
      (EReal.exp (middle - above) * last.1, last.2)) = drawn problem above parses := by
  unfold drawn
  rw [List.map_map]
  apply List.map_congr_left
  intro parse _
  have telescoped := exp_telescope middle 0 (problem.parseScore parse) above
  rw [add_zero, zero_add] at telescoped
  exact Prod.ext telescoped rfl

theorem flatMap_filter_of_nil {ι β : Type} (items : List ι) (keep : ι → Bool)
    {parts parts' : ι → List β} (same : ∀ item ∈ items, keep item = true → parts item = parts' item)
    (lost : ∀ item ∈ items, keep item = false → parts' item = []) :
    (items.filter keep).flatMap parts = items.flatMap parts' := by
  induction items with
  | nil => rfl
  | cons item items ih =>
    have rest := ih (fun other member => same other (List.mem_cons_of_mem _ member))
      fun other member => lost other (List.mem_cons_of_mem _ member)
    cases kept : keep item with
    | true =>
      rw [List.filter_cons_of_pos kept, List.flatMap_cons, List.flatMap_cons, rest,
        same item List.mem_cons_self kept]
    | false =>
      rw [List.filter_cons_of_neg (by simp [kept]), rest, List.flatMap_cons,
        lost item List.mem_cons_self kept, List.nil_append]

theorem parsesBefore_of_dead (problem : Problem EReal) {live : Live}
    (dead : live.isLive start stop label .beforeUnary = false) :
    problem.parsesBefore live start stop label = [] := by
  rw [parsesBefore, dead, if_neg Bool.false_ne_true]

theorem parsesAfter_of_dead (problem : Problem EReal) {live : Live}
    (dead : live.isLive start stop label .afterUnary = false) :
    problem.parsesAfter live start stop label = [] := by
  rw [parsesAfter, dead, if_neg Bool.false_ne_true]

/-- What is drawn for an item once its unary rule is chosen. -/
noncomputable def drawnBelow (problem : Problem EReal) (chart : MassChart EReal)
    (start stop : Nat) (label : Label) : Option Label → List (ENNReal × List Span)
  | none => drawn problem (chart.mass start stop label .beforeUnary)
      (problem.parsesBefore chart.live start stop label)
  | some child => (drawn problem (chart.mass start stop child .beforeUnary)
      (problem.parsesBefore chart.live start stop child)).map fun last =>
        (last.1, .unary start stop ⟨label, child⟩ :: last.2)

theorem drawn_unary (coherent : problem.grammar.Coherent) {rule : UnaryRule} {number : Nat}
    (found : problem.grammar.unaryRule? number = some rule) {live : Live} {parses : List Parse}
    (below : ∀ parse ∈ parses, Survives problem live start stop rule.child .beforeUnary parse)
    (middle : ℝ) (above : EReal) :
    drawn problem above (parses.map (.unary rule.parent)) =
      ((drawn problem middle parses).map fun last =>
        (last.1, Span.unary start stop rule :: last.2)).map fun last =>
          (EReal.exp (middle + problem.unaryScore start stop rule number - above) * last.1,
            last.2) := by
  unfold drawn
  rw [List.map_map, List.map_map, List.map_map]
  apply List.map_congr_left
  intro parse member
  obtain ⟨_, _, rfl, rfl, child, _⟩ := below parse member
  have telescoped := exp_telescope middle
    (problem.unaryScore parse.start parse.stop rule number) (problem.parseScore parse) above
  have top : (Parse.unary rule.parent parse).top = .unary parse.start parse.stop rule := by
    rw [Parse.top, child]
  rw [← Problem.spanScore_unary coherent.unaryTables found] at telescoped ⊢
  refine Prod.ext ?_ ?_
  · simp only [Function.comp_apply]
    rw [telescoped, parseScore, top]
  · simp only [Function.comp_apply, Parse.spans, top]

theorem drawn_kept (coherent : problem.grammar.Coherent) (finite : problem.Finite)
    (balanced : Balanced problem threshold chart) (bounds : start < stop ∧ stop ≤ problem.length)
    (registered : problem.grammar.Registered label) (above : EReal) :
    drawn problem above (problem.parsesBefore chart.live start stop label) =
      (if chart.live.isLive start stop label .beforeUnary then
        [((none : Option Label), chart.mass start stop label .beforeUnary)] else []).flatMap
          fun option => (drawnBelow problem chart start stop label option.1).map fun last =>
            (EReal.exp (option.2 - above) * last.1, last.2) := by
  cases lives : chart.live.isLive start stop label .beforeUnary with
  | false =>
    rw [parsesBefore_of_dead problem lives]
    rfl
  | true =>
    obtain ⟨amount, real⟩ := exists_mass coherent finite balanced bounds registered lives
    have telescoped := drawn_telescope problem amount above
      (problem.parsesBefore chart.live start stop label)
    rw [if_pos rfl, List.flatMap_singleton, drawnBelow, real]
    exact telescoped.symm

theorem drawn_carried (coherent : problem.grammar.Coherent) (finite : problem.Finite)
    (balanced : Balanced problem threshold chart) (bounds : start < stop ∧ stop ≤ problem.length)
    (label : Label) (above : EReal) :
    drawn problem above ((problem.unaryUnder label).flatMap fun rule =>
      (problem.parsesBefore chart.live start stop rule.1.child).map (.unary label)) =
      (((problem.unaryUnder label).filter (chart.carries start stop)).map fun rule =>
        (some rule.1.child, chart.mass start stop rule.1.child .beforeUnary +
          problem.unaryScore start stop rule.1 rule.2)).flatMap fun option =>
            (drawnBelow problem chart start stop label option.1).map fun last =>
              (EReal.exp (option.2 - above) * last.1, last.2) := by
  rw [List.flatMap_map]
  unfold drawn
  rw [List.map_flatMap]
  symm
  apply flatMap_filter_of_nil
  · intro entry member lives
    obtain ⟨rule, number⟩ := entry
    obtain ⟨found, rfl⟩ := mem_unaryUnder.mp member
    have child := (coherent.registered_of_unaryRule? found).2
    obtain ⟨amount, real⟩ := exists_mass coherent finite balanced bounds child lives
    have below (parse : Parse) :=
      (mem_parses_iff coherent chart.live start stop bounds rule.child parse).1.mp
    rw [drawnBelow, real]
    exact (drawn_unary coherent found below amount above).symm
  · intro entry member lost
    rw [parsesBefore_of_dead problem lost]
    rfl

theorem drawn_parsesAfter (coherent : problem.grammar.Coherent) (finite : problem.Finite)
    (balanced : Balanced problem threshold chart) (bounds : start < stop ∧ stop ≤ problem.length)
    (registered : problem.grammar.Registered label)
    (alive : chart.live.isLive start stop label .afterUnary = true) (above : EReal) :
    drawn problem above (problem.parsesAfter chart.live start stop label) =
      ((chart.unaryOptions start stop label).map fun option =>
        (EReal.exp (option.2 - above), option.1)).flatMap fun value =>
          (drawnBelow problem chart start stop label value.2).map fun last =>
            (value.1 * last.1, last.2) := by
  have kept := drawn_kept coherent finite balanced bounds registered above
  have rules := drawn_carried coherent finite balanced bounds label above
  rw [unaryOptions_eq coherent finite balanced bounds registered, List.map_append,
    List.flatMap_append, parsesAfter, if_pos alive, List.flatMap_map, List.flatMap_map]
  unfold drawn at kept rules ⊢
  rw [List.map_append]
  exact congrArg₂ (· ++ ·) kept rules

noncomputable def drawnPair (problem : Problem EReal) (onLeft onRight : EReal) (span : Span)
    (lefts rights : List Parse) : List (ENNReal × List Span) :=
  (drawn problem onLeft lefts).flatMap fun left =>
    ((drawn problem onRight rights).map fun right =>
      (right.1, span :: (left.2 ++ right.2))).map fun last => (left.1 * last.1, last.2)

theorem drawn_binary (coherent : problem.grammar.Coherent) {rule : BinaryRule} {number : Nat}
    (found : problem.grammar.binaryRule? number = some rule) {live : Live} {split : Nat}
    {lefts rights : List Parse}
    (onLeft : ∀ parse ∈ lefts, Survives problem live start split rule.left .afterUnary parse)
    (onRight : ∀ parse ∈ rights, Survives problem live split stop rule.right .afterUnary parse)
    (first second : ℝ) (above : EReal) :
    drawn problem above (lefts.flatMap fun left => rights.map (.binary rule.parent left)) =
      (drawnPair problem first second (.binary start split stop rule) lefts rights).map fun last =>
        (EReal.exp (first + second + binaryScore problem start split stop rule number - above) *
          last.1, last.2) := by
  unfold drawnPair drawn
  rw [List.map_flatMap, List.map_flatMap, List.flatMap_map]
  apply List.flatMap_congr
  intro left member
  rw [List.map_map, List.map_map, List.map_map, List.map_map]
  apply List.map_congr_left
  intro right inside
  obtain ⟨_, _, rfl, rfl, leftLabel, _⟩ := onLeft left member
  obtain ⟨_, _, meet, rfl, rightLabel, _⟩ := onRight right inside
  have telescoped := exp_telescope_pair first second
    (binaryScore problem left.start left.stop right.stop rule number) (problem.parseScore left)
    (problem.parseScore right) above
  have top : (Parse.binary rule.parent left right).top =
      .binary left.start left.stop right.stop rule := by
    rw [Parse.top, leftLabel, rightLabel]
  have score : problem.spanScore (.binary left.start left.stop right.stop rule) =
      binaryScore problem left.start left.stop right.stop rule number :=
    Problem.spanScore_binary coherent found _ _ _
  refine Prod.ext ?_ ?_
  · simp only [Function.comp_apply]
    rw [telescoped, parseScore, top, score]
  · simp only [Function.comp_apply, Parse.spans, top]

noncomputable def drawnUnder (problem : Problem EReal) (chart : MassChart EReal)
    (start stop : Nat) (label : Label) (chosen : Nat × BinaryRule) : List (ENNReal × List Span) :=
  drawnPair problem (chart.mass start chosen.1 chosen.2.left .afterUnary)
    (chart.mass chosen.1 stop chosen.2.right .afterUnary)
    (.binary start chosen.1 stop ⟨label, chosen.2.left, chosen.2.right⟩)
    (problem.parsesAfter chart.live start chosen.1 chosen.2.left)
    (problem.parsesAfter chart.live chosen.1 stop chosen.2.right)

theorem drawn_parsesBefore (coherent : problem.grammar.Coherent) (finite : problem.Finite)
    (balanced : Balanced problem threshold chart)
    (bounds : start + 1 < stop ∧ stop ≤ problem.length)
    (alive : chart.live.isLive start stop label .beforeUnary = true) (above : EReal) :
    drawn problem above (problem.parsesBefore chart.live start stop label) =
      ((chart.binaryOptions start stop label).map fun option =>
        (EReal.exp (option.2 - above), option.1)).flatMap fun value =>
          (drawnUnder problem chart start stop label value.2).map fun last =>
            (value.1 * last.1, last.2) := by
  rw [binaryOptions_eq coherent finite balanced bounds, parsesBefore, if_pos alive,
    if_neg (by omega), List.map_flatMap, List.flatMap_assoc]
  unfold drawn
  rw [List.map_flatMap]
  apply List.flatMap_congr
  intro split member
  have inside := (mem_splits start stop split).mp member
  rw [dif_pos inside, List.map_flatMap, List.map_map, List.flatMap_map]
  symm
  apply flatMap_filter_of_nil
  · intro entry member lives
    obtain ⟨rule, number⟩ := entry
    obtain ⟨found, rfl⟩ := mem_binaryUnder.mp member
    obtain ⟨first, second, onLeft, onRight⟩ :=
      exists_masses coherent finite balanced inside bounds.2 found lives
    simp only [Function.comp_apply, drawnUnder, onLeft, onRight]
    exact (drawn_binary coherent found
      (fun parse => (mem_parses_iff coherent chart.live start split (by omega) _ parse).2.mp)
      (fun parse => (mem_parses_iff coherent chart.live split stop (by omega) _ parse).2.mp)
      first second above).symm
  · intro entry member lost
    obtain ⟨rule, number⟩ := entry
    rcases Bool.and_eq_false_iff.mp lost with left | right
    · rw [parsesAfter_of_dead problem left]
      rfl
    · rw [parsesAfter_of_dead problem right]
      simp

theorem drawn_word (coherent : problem.grammar.Coherent) (finite : problem.Finite)
    (balanced : Balanced problem threshold chart) (bound : start < problem.length)
    (registered : problem.grammar.Registered label)
    (alive : chart.live.isLive start (start + 1) label .beforeUnary = true) :
    drawn problem (chart.mass start (start + 1) label .beforeUnary)
      (problem.parsesBefore chart.live start (start + 1) label) =
        [(1, [.terminal start label])] := by
  obtain ⟨amount, real⟩ := exists_mass coherent finite balanced (by omega) registered alive
  have some := weight_ne_zero balanced (by omega) registered alive
  have sums := weigh_parsesBefore_word coherent balanced bound registered
  rw [← sums] at some
  rw [parsesBefore, if_pos alive, if_pos rfl] at sums some ⊢
  by_cases allowed : label ∈ problem.terminalsAt start
  · rw [if_pos allowed] at sums ⊢
    have own : problem.parseScore (.word label start) = amount := by
      rw [← real, ← EReal.log_exp (chart.mass _ _ _ _)]
      change _ = ENNReal.log (chart.weight start (start + 1) label .beforeUnary)
      rw [← sums]
      simp [weigh]
    rw [drawn, real, List.map_singleton, own, ← EReal.coe_sub, sub_self, EReal.coe_zero,
      EReal.exp_zero]
    rfl
  · rw [if_neg allowed] at some
    exact absurd rfl some

theorem yields_treeBefore_word (coherent : problem.grammar.Coherent) (finite : problem.Finite)
    (balanced : Balanced problem threshold chart) (bound : start < problem.length)
    (registered : problem.grammar.Registered label)
    (alive : chart.live.isLive start (start + 1) label .beforeUnary = true) :
    Yields (chart.treeBefore pick start (start + 1) label)
      (drawn problem (chart.mass start (start + 1) label .beforeUnary)
        (problem.parsesBefore chart.live start (start + 1) label)) := by
  have present := (absent_lt_mass_iff coherent finite balanced (by omega) registered _).mpr alive
  rw [drawn_word coherent finite balanced bound registered alive, treeBefore, if_pos rfl]
  simp only [beq_eq_decide, present.ne', decide_false, Bool.false_eq_true, if_false]
  exact Yields.pure _

/-- What the sampler draws for an item with its unary rules is in proportion. -/
def Proportional (problem : Problem EReal) (chart : MassChart EReal) (start stop : Nat) : Prop :=
  ∀ label, problem.grammar.Registered label →
    chart.live.isLive start stop label .afterUnary = true →
      Yields (chart.treeAfter pick start stop label)
        (drawn problem (chart.mass start stop label .afterUnary)
          (problem.parsesAfter chart.live start stop label))

theorem yields_treeBefore_wide (coherent : problem.grammar.Coherent) (finite : problem.Finite)
    (balanced : Balanced problem threshold chart)
    (bounds : start + 1 < stop ∧ stop ≤ problem.length)
    (narrower : ∀ start' stop', start' < stop' ∧ stop' ≤ problem.length →
      stop' - start' < stop - start → Proportional problem chart start' stop')
    (registered : problem.grammar.Registered label)
    (alive : chart.live.isLive start stop label .beforeUnary = true) :
    Yields (chart.treeBefore pick start stop label)
      (drawn problem (chart.mass start stop label .beforeUnary)
        (problem.parsesBefore chart.live start stop label)) := by
  obtain ⟨amount, real⟩ := exists_mass coherent finite balanced (by omega) registered alive
  have total := logSum_binaryOptions coherent finite balanced bounds registered alive
  have chosen := yields_choose ⟨start, stop, label⟩ (total.trans_ne (by simp [real]))
  rw [total] at chosen
  rw [drawn_parsesBefore coherent finite balanced bounds alive, treeBefore, if_neg (by omega)]
  apply chosen.bind (drawnUnder problem chart start stop label)
  intro value member
  obtain ⟨option, listed, rfl⟩ := List.mem_map.mp member
  rw [binaryOptions_eq coherent finite balanced bounds] at listed
  obtain ⟨split, inside, pairs⟩ := List.mem_flatMap.mp listed
  obtain ⟨⟨rule, number⟩, kept, rfl⟩ := List.mem_map.mp pairs
  obtain ⟨under, lives⟩ := List.mem_filter.mp kept
  obtain ⟨found, _⟩ := mem_binaryUnder.mp under
  obtain ⟨left, right⟩ := Bool.and_eq_true_iff.mp lives
  have inner := (mem_splits start stop split).mp inside
  obtain ⟨_, first, second⟩ := coherent.registered_of_binaryRule? found
  have onLeft := narrower start split (by omega) (by omega) rule.left first left
  have onRight := narrower split stop (by omega) (by omega) rule.right second right
  simp only [dif_pos inner]
  apply onLeft.bind fun first => (drawn problem (chart.mass split stop rule.right .afterUnary)
    (problem.parsesAfter chart.live split stop rule.right)).map fun last =>
      (last.1, .binary start split stop ⟨label, rule.left, rule.right⟩ :: (first ++ last.2))
  intro first _
  exact onRight.map fun spans => .binary start split stop ⟨label, rule.left, rule.right⟩ ::
    (first.2 ++ spans)

theorem yields_treeAfter (coherent : problem.grammar.Coherent) (finite : problem.Finite)
    (balanced : Balanced problem threshold chart) (bounds : start < stop ∧ stop ≤ problem.length)
    (before : ∀ label, problem.grammar.Registered label →
      chart.live.isLive start stop label .beforeUnary = true →
        Yields (chart.treeBefore pick start stop label)
          (drawn problem (chart.mass start stop label .beforeUnary)
            (problem.parsesBefore chart.live start stop label))) :
    Proportional problem chart start stop := by
  intro label registered alive
  obtain ⟨amount, real⟩ := exists_mass coherent finite balanced bounds registered alive
  have total := logSum_unaryOptions coherent finite balanced bounds registered alive
  have chosen := yields_choose ⟨start, stop, label⟩ (total.trans_ne (by simp [real]))
  rw [total] at chosen
  rw [drawn_parsesAfter coherent finite balanced bounds registered alive, treeAfter]
  apply chosen.bind (drawnBelow problem chart start stop label)
  intro value member
  obtain ⟨option, listed, rfl⟩ := List.mem_map.mp member
  rw [unaryOptions_eq coherent finite balanced bounds registered] at listed
  rcases List.mem_append.mp listed with keep | rules
  · cases lives : chart.live.isLive start stop label .beforeUnary with
    | false =>
      rw [lives] at keep
      cases keep
    | true =>
      rw [lives, if_pos rfl, List.mem_singleton] at keep
      rw [keep]
      exact before label registered lives
  · obtain ⟨⟨rule, number⟩, kept, rfl⟩ := List.mem_map.mp rules
    obtain ⟨under, lives⟩ := List.mem_filter.mp kept
    obtain ⟨found, _⟩ := mem_unaryUnder.mp under
    have child := (coherent.registered_of_unaryRule? found).2
    exact (before rule.child child lives).map fun spans =>
      .unary start stop ⟨label, rule.child⟩ :: spans

theorem proportional (coherent : problem.grammar.Coherent) (finite : problem.Finite)
    (balanced : Balanced problem threshold chart) (start stop : Nat)
    (bounds : start < stop ∧ stop ≤ problem.length) : Proportional problem chart start stop := by
  induction width : stop - start using Nat.strong_induction_on generalizing start stop with
  | h width ih =>
    subst width
    apply yields_treeAfter coherent finite balanced bounds
    intro label registered alive
    by_cases single : stop = start + 1
    · subst single
      exact yields_treeBefore_word coherent finite balanced bounds.2 registered alive
    · exact yields_treeBefore_wide coherent finite balanced (by omega)
        (fun start' stop' bounds' less => ih _ less start' stop' bounds' rfl) registered alive

theorem roots_eq (coherent : problem.grammar.Coherent) (finite : problem.Finite)
    (balanced : Balanced problem threshold chart) (words : problem.length ≠ 0) :
    chart.roots = (problem.grammar.roots.toList.filter fun label =>
      chart.live.isLive 0 problem.length label .afterUnary).map fun label =>
        (label, chart.mass 0 problem.length label .afterUnary) := by
  rw [MassChart.roots, length, balanced.sized.problem_eq, if_neg words, List.filter_map]
  congr 1
  apply List.filter_congr
  intro label member
  have registered := coherent.roots_registered label member
  have whole : 0 < problem.length ∧ problem.length ≤ problem.length := by omega
  have present := absent_lt_mass_iff coherent finite balanced whole registered .afterUnary
  rw [Bool.eq_iff_iff]
  simpa using present

theorem roots_of_no_words (balanced : Balanced problem threshold chart)
    (words : problem.length = 0) : chart.roots = [] := by
  rw [MassChart.roots, length, balanced.sized.problem_eq, if_pos words]

theorem total_eq_bot_iff (chart : MassChart EReal) :
    chart.total = ⊥ ↔ chart.isEmpty = true := by
  rw [total, logSum_eq_bot_iff, isEmpty, List.isEmpty_iff]
  constructor
  · intro none
    apply List.eq_nil_iff_forall_not_mem.mpr
    intro root member
    have lost := none root.2 (List.mem_map_of_mem member)
    rw [MassChart.roots] at member
    split at member
    · cases member
    · have present : absent < root.2 := of_decide_eq_true (List.mem_filter.mp member).2
      rw [lost] at present
      exact lt_irrefl _ present
  · intro none
    simp [none]

theorem exists_total (coherent : problem.grammar.Coherent) (finite : problem.Finite)
    (balanced : Balanced problem threshold chart) (some : chart.isEmpty = false) :
    ∃ amount : ℝ, chart.total = amount := by
  have present : chart.total ≠ ⊥ := by
    rw [ne_eq, total_eq_bot_iff, some]
    exact Bool.false_ne_true
  have limited : chart.total ≠ ⊤ := by
    rw [ne_eq, ← EReal.exp_eq_top_iff, exp_total coherent balanced]
    exact weigh_ne_top finite _
  lift chart.total to ℝ using ⟨limited, present⟩ with amount
  exact ⟨amount, rfl⟩

noncomputable def drawnRoot (problem : Problem EReal) (chart : MassChart EReal) :
    Option Label → List (ENNReal × Option (List Span))
  | none => [(1, none)]
  | some root => (drawn problem (chart.mass 0 problem.length root .afterUnary)
      (problem.parsesAfter chart.live 0 problem.length root)).map fun last => (last.1, some last.2)

theorem drawn_parses (coherent : problem.grammar.Coherent) (finite : problem.Finite)
    (balanced : Balanced problem threshold chart) (above : EReal) :
    (drawn problem above (problem.parses chart.live)).map (fun last => (last.1, some last.2)) =
      (chart.roots.map fun root => (EReal.exp (root.2 - above), some root.1)).flatMap fun value =>
        (drawnRoot problem chart value.2).map fun last => (value.1 * last.1, last.2) := by
  rw [parses]
  by_cases words : problem.length = 0
  · rw [if_pos words, roots_of_no_words balanced words]
    rfl
  · rw [if_neg words, roots_eq coherent finite balanced words, drawn, List.map_flatMap,
      List.map_flatMap, List.map_map, List.flatMap_map]
    symm
    apply flatMap_filter_of_nil
    · intro root member lives
      obtain ⟨amount, real⟩ := exists_mass coherent finite balanced (by omega)
        (coherent.roots_registered root member) lives
      have telescoped := drawn_telescope problem amount above
        (problem.parsesAfter chart.live 0 problem.length root)
      simp only [Function.comp_apply, drawnRoot, real]
      change _ = (drawn problem above _).map _
      rw [← telescoped, List.map_map, List.map_map]
      rfl
    · intro root _ lost
      rw [parsesAfter_of_dead problem lost]
      rfl

theorem yields_tree (coherent : problem.grammar.Coherent) (finite : problem.Finite)
    (balanced : Balanced problem threshold chart) (trees : chart.isEmpty = false) :
    Yields (chart.tree pick) ((drawn problem chart.total (problem.parses chart.live)).map
      fun last => (last.1, some last.2)) := by
  have present : logSum (chart.roots.map Prod.snd) ≠ ⊥ := by
    obtain ⟨amount, real⟩ := exists_total coherent finite balanced trees
    exact real.trans_ne (EReal.coe_ne_bot amount)
  have chosen := Yields.lift (pick chart.roots)
  rw [outcomes_pick present] at chosen
  rw [drawn_parses coherent finite balanced]
  apply chosen.bind (drawnRoot problem chart)
  intro value member
  obtain ⟨root, listed, rfl⟩ := List.mem_map.mp member
  by_cases words : problem.length = 0
  · rw [roots_of_no_words balanced words] at listed
    cases listed
  · rw [roots_eq coherent finite balanced words] at listed
    obtain ⟨label, kept, rfl⟩ := List.mem_map.mp listed
    obtain ⟨accepted, lives⟩ := List.mem_filter.mp kept
    have below := proportional coherent finite balanced 0 problem.length (by omega) label
      (coherent.roots_registered label accepted) lives
    have length : chart.length = problem.length := by rw [length, balanced.sized.problem_eq]
    simp only [length]
    exact below.map Option.some

theorem tree_of_empty (empty : chart.isEmpty = true) :
    (chart.tree pick).run.all = [⟨[], 1, .ok none⟩] := by
  have chosen := pick_of_absent ((total_eq_bot_iff chart).mpr empty)
  have opened : (chart.tree pick).run =
      (pick chart.roots >>= fun root => Pure.pure (Except.ok root)) >>= ExceptT.bindCont
        fun root => match root with
          | none => Pure.pure none
          | some root => do return some (← chart.treeAfter pick 0 chart.length root) := rfl
  rw [opened, bind_all, bind_all, chosen]
  simp [Run.follow, ExceptT.bindCont, Pure.pure, ExceptT.pure, ExceptT.mk]

theorem isEmpty_of_parse (coherent : problem.grammar.Coherent) (finite : problem.Finite)
    (balanced : Balanced problem threshold chart) {parse : Parse}
    (member : parse ∈ problem.parses chart.live) : chart.isEmpty = false := by
  rw [← Bool.not_eq_true, ← total_eq_bot_iff, ← EReal.exp_eq_zero_iff,
    exp_total coherent balanced, weigh, List.sum_eq_zero_iff]
  intro none
  obtain ⟨score, real⟩ := finite.parseScore parse
  have lost := none _ (List.mem_map_of_mem member)
  rw [real, EReal.exp_eq_zero_iff] at lost
  exact EReal.coe_ne_bot score lost

theorem results_tree (coherent : problem.grammar.Coherent) (finite : problem.Finite)
    (balanced : Balanced problem threshold chart) (trees : chart.isEmpty = false) :
    (chart.tree pick).run.all.map (fun run => (run.chance, run.result)) =
      (problem.parses chart.live).map fun parse =>
        (EReal.exp (problem.parseScore parse - chart.total), .ok (some parse.spans)) := by
  have yields := yields_tree coherent finite balanced trees
  unfold Yields outcomes drawn at yields
  rw [yields, List.map_map, List.map_map]
  rfl

theorem exists_parse_of_run (coherent : problem.grammar.Coherent) (finite : problem.Finite)
    (balanced : Balanced problem threshold chart) (trees : chart.isEmpty = false)
    {run : Run (Except DecodeError (Option (List Span)))}
    (inside : run ∈ (chart.tree pick).run.all) : ∃ parse ∈ problem.parses chart.live,
      run.chance = EReal.exp (problem.parseScore parse - chart.total) ∧
        run.result = .ok (some parse.spans) := by
  have given := List.mem_map_of_mem (f := fun run => (run.chance, run.result)) inside
  rw [results_tree coherent finite balanced trees] at given
  obtain ⟨parse, member, same⟩ := List.mem_map.mp given
  obtain ⟨chance, result⟩ := Prod.mk.inj same
  exact ⟨parse, member, chance.symm, result.symm⟩

theorem exists_run_of_parse (coherent : problem.grammar.Coherent) (finite : problem.Finite)
    (balanced : Balanced problem threshold chart) {parse : Parse}
    (member : parse ∈ problem.parses chart.live) : ∃ run ∈ (chart.tree pick).run.all,
      run.chance = EReal.exp (problem.parseScore parse - chart.total) ∧
        run.result = .ok (some parse.spans) := by
  have trees := isEmpty_of_parse coherent finite balanced member
  have given := List.mem_map_of_mem (f := fun parse => (EReal.exp (problem.parseScore parse -
    chart.total), (Except.ok (some parse.spans) : Except DecodeError _))) member
  rw [← results_tree coherent finite balanced trees] at given
  obtain ⟨run, inside, same⟩ := List.mem_map.mp given
  obtain ⟨chance, result⟩ := Prod.mk.inj same
  exact ⟨run, inside, chance, result⟩

theorem sum_chances (coherent : problem.grammar.Coherent) (finite : problem.Finite)
    (balanced : Balanced problem threshold chart) (trees : chart.isEmpty = false) :
    ((chart.tree pick).run.all.map Run.chance).sum = 1 := by
  obtain ⟨amount, real⟩ := exists_total coherent finite balanced trees
  have results := congrArg (List.map Prod.fst) (results_tree coherent finite balanced trees)
  rw [List.map_map, List.map_map] at results
  have whole : ((problem.parses chart.live).map fun parse =>
      EReal.exp (problem.parseScore parse - chart.total)).sum =
        EReal.exp (chart.total - chart.total) := by
    simp only [sub_eq_add_neg, EReal.exp_add, List.sum_map_mul_right]
    rw [exp_total coherent balanced]
    rfl
  refine (congrArg List.sum results).trans (whole.trans ?_)
  rw [real, ← EReal.coe_sub, sub_self, EReal.coe_zero, EReal.exp_zero]

theorem results_nodup (coherent : problem.grammar.Coherent) (finite : problem.Finite)
    (balanced : Balanced problem threshold chart) (trees : chart.isEmpty = false) :
    ((chart.tree pick).run.all.map Run.result).Nodup := by
  have results := congrArg (List.map Prod.snd) (results_tree coherent finite balanced trees)
  rw [List.map_map, List.map_map] at results
  refine (congrArg List.Nodup results).mpr ((parses_nodup coherent chart.live).map ?_)
  intro parse parse' same
  exact Parse.spans_injective (Option.some.inj (Except.ok.inj same))

theorem eq_of_result_eq (coherent : problem.grammar.Coherent) (finite : problem.Finite)
    (balanced : Balanced problem threshold chart)
    {run other : Run (Except DecodeError (Option (List Span)))}
    (inside : run ∈ (chart.tree pick).run.all) (inside' : other ∈ (chart.tree pick).run.all)
    (same : run.result = other.result) : run = other := by
  cases empty : chart.isEmpty with
  | true =>
    rw [tree_of_empty empty, List.mem_singleton] at inside inside'
    rw [inside, inside']
  | false =>
    have distinct := results_nodup coherent finite balanced empty
    exact List.inj_on_of_nodup_map distinct inside inside' same

theorem chance_ne_zero (coherent : problem.grammar.Coherent) (finite : problem.Finite)
    (balanced : Balanced problem threshold chart)
    {run : Run (Except DecodeError (Option (List Span)))}
    (inside : run ∈ (chart.tree pick).run.all) : run.chance ≠ 0 := by
  cases empty : chart.isEmpty with
  | true =>
    rw [tree_of_empty empty, List.mem_singleton] at inside
    rw [inside]
    exact one_ne_zero
  | false =>
    obtain ⟨parse, _, chance, _⟩ := exists_parse_of_run coherent finite balanced empty inside
    obtain ⟨score, real⟩ := finite.parseScore parse
    obtain ⟨amount, real'⟩ := exists_total coherent finite balanced empty
    rw [chance, real, real', ← EReal.coe_sub, ne_eq, EReal.exp_eq_zero_iff]
    exact EReal.coe_ne_bot _

/-- The sampler goes the way of a run just where the numbers from zero up to one that it draws lead
to the choices of the run, and it takes one number for each of them. The chance of the run is the
product of the lengths of the intervals of these choices; of independent numbers that are spread
evenly, those for which the sampler gives what the run gives have this chance. -/
structure Follows (chart : MassChart EReal) (run : Run (Except DecodeError (Option (List Span)))) :
    Prop where
  result_iff {σ : Type} (draw : Draw σ EReal) (state : σ) (proper : draw.Proper state) :
    ((chart.sample draw).run state).1 = run.result ↔ draw.LeadsTo run.choices state
  state_eq {σ : Type} (draw : Draw σ EReal) (state : σ) (proper : draw.Proper state) :
    draw.LeadsTo run.choices state →
      ((chart.sample draw).run state).2 = draw.after run.choices.length state
  chance_eq : run.chance = (run.choices.map fun chosen => MeasureTheory.volume chosen.numbers).prod
  even_eq : evenNumbers {numbers | ((chart.sample (.reading numbers)).run 0).1 = run.result} =
    run.chance

theorem follows (coherent : problem.grammar.Coherent) (finite : problem.Finite)
    (balanced : Balanced problem threshold chart)
    {run : Run (Except DecodeError (Option (List Span)))}
    (inside : run ∈ (chart.tree pick).run.all) : chart.Follows run := by
  have drawn {σ : Type} (draw : Draw σ EReal) :=
    tree_related (.drawing draw) (fun options => Parametric.drawing_option draw options) chart
  have weighed : run.chance =
      (run.choices.map fun chosen => MeasureTheory.volume chosen.numbers).prod :=
    tree_related .weighed (fun options => Parametric.weighed_pick options) chart run inside
  have result {σ : Type} (draw : Draw σ EReal) (state : σ) (proper : draw.Proper state) :
      ((chart.sample draw).run state).1 = run.result ↔ draw.LeadsTo run.choices state := by
    obtain ⟨each, other, inside', led⟩ := drawn draw state proper
    constructor
    · intro same
      have leads := led (chance_ne_zero coherent finite balanced inside')
      have other_result : ((chart.sample draw).run state).1 = other.result :=
        congrArg Prod.fst (each other inside' leads)
      rwa [eq_of_result_eq coherent finite balanced inside inside' (same.symm.trans other_result)]
    · exact fun leads => congrArg Prod.fst (each run inside leads)
  refine ⟨result, fun draw state proper leads => ?_, weighed, ?_⟩
  · exact congrArg Prod.snd ((drawn draw state proper).1 run inside leads)
  · rw [weighed, ← evenNumbers_leadsTo]
    apply MeasureTheory.measure_congr
    exact ae_proper.mono fun numbers proper => propext (result _ 0 proper)

/-- The sampler is exact. No two of its runs choose alike; it goes the way of a run just where the
numbers lead there, so that every run occurs with its chance. Each surviving parse is given by one
run, with the probability that belongs to its score; where there is a tree no run gives anything
else, and the probabilities of all runs sum up to one. -/
theorem sample_exact {problem : Problem EReal} (built : problem.grammar.Built)
    (fits : problem.grammar.labelCount < numberLimit) (finite : problem.Finite)
    (threshold : EReal) :
    let chart := fill problem threshold
    let runs := (chart.tree pick).run.all
    (runs.map Run.places).Nodup ∧ (∀ run ∈ runs, chart.Follows run) ∧
    (∀ (σ : Type) (draw : Draw σ EReal) (state : σ), ∃ run ∈ runs,
      run.result = ((chart.sample draw).run state).1) ∧
    (∀ parse, problem.Parses parse → parse.Flat → AllLive chart.live parse.items →
      ∃ run ∈ runs, run.result = .ok (some parse.spans) ∧
        (∃ score, problem.score false parse.spans = .ok score ∧
          run.chance = EReal.exp (chart.logProbability score)) ∧
        ∀ other ∈ runs, other.result = .ok (some parse.spans) → other = run) ∧
    (chart.isEmpty = false → (runs.map Run.chance).sum = 1 ∧ ∀ run ∈ runs, ∃ parse,
      problem.Parses parse ∧ parse.Flat ∧ AllLive chart.live parse.items ∧
        run.result = .ok (some parse.spans)) ∧
    (chart.isEmpty = true → runs = [⟨[], 1, .ok none⟩]) := by
  have coherent := built.coherent
  have balanced := balanced_fill coherent fits threshold
  intro chart runs
  refine ⟨?_, fun run inside => follows coherent finite balanced inside, ?_, ?_, ?_,
    fun empty => tree_of_empty empty⟩
  · have each {β : Type} (options : List (β × EReal)) :
        Parametric.apart.rel (pick options) (pick options) := Apart.pick options
    exact Apart.nodup (tree_related .apart each chart)
  · intro σ draw state
    exact tree_related (.follows σ) (fun options => follows_option draw options) chart state
  · intro parse parses flat live
    have member := (mem_parses coherent).mpr ⟨parses, flat, live⟩
    obtain ⟨run, inside, chance, result⟩ := exists_run_of_parse coherent finite balanced member
    refine ⟨run, inside, result, ⟨_, problem.score_eq_parseScore coherent parses
      (parses.admits.nodup_of_flat coherent flat) (.refl _), chance⟩, ?_⟩
    intro other inside' result'
    exact eq_of_result_eq coherent finite balanced inside' inside (result'.trans result.symm)
  · intro trees
    refine ⟨sum_chances coherent finite balanced trees, ?_⟩
    intro run inside
    obtain ⟨parse, member, _, result⟩ := exists_parse_of_run coherent finite balanced trees inside
    obtain ⟨parses, flat, live⟩ := (mem_parses coherent).mp member
    exact ⟨parse, parses, flat, live, result⟩

section Twofold

open Grammar

theorem exp_total_twofold :
    EReal.exp (fill (.uniform twofold oneWord) (⊤ : EReal)).total = 2 := by
  have coherent := twofold_built.coherent
  have finite := uniform_finite twofold oneWord
  have balanced := @balanced_fill (.uniform twofold oneWord) coherent twofold_fits ⊤
  have listed : (Problem.parses (.uniform twofold oneWord)
      (fill (.uniform twofold oneWord) (⊤ : EReal)).live).Perm
        [.word 0 0, .unary 0 (.word 1 0)] := by
    refine (List.perm_ext_iff_of_nodup (parses_nodup coherent _) (by decide)).mpr fun parse => ?_
    rw [mem_parses coherent, List.mem_cons, List.mem_singleton]
    refine (and_iff_left_of_imp fun parses => ?_).trans (twofold_parses_iff _ _ parse)
    have flat := flat_of_twofold parses
    exact ⟨flat, allLive_of_unlimited coherent finite balanced parses.admits flat⟩
  rw [exp_total coherent balanced, weigh, (listed.map _).sum_eq]
  simp [uniform_parseScore, one_add_one_eq_two]

/-- A word that is a row in two ways is drawn in both of them alike. -/
theorem sample_exact_twofold :
    let chart := fill (.uniform twofold oneWord) (⊤ : EReal)
    let spans : List Span := [.unary 0 1 ⟨0, 1⟩, .terminal 0 1]
    ∃ run ∈ (chart.tree pick).run.all, run.result = .ok (some spans) ∧ run.chance = 2⁻¹ ∧
      evenNumbers {numbers | ((chart.sample (.reading numbers)).run 0).1 = .ok (some spans)} = 2⁻¹ ∧
      (((chart.sample Draw.ofKeystream).run (.ofSeed 7)).1 = .ok (some spans) ↔
        Draw.ofKeystream.LeadsTo run.choices (.ofSeed 7)) ∧
      ∃ other ∈ (chart.tree pick).run.all, other.result = .ok (some [.terminal 0 0]) ∧
        other.chance = 2⁻¹ := by
  intro chart spans
  have coherent := twofold_built.coherent
  have finite := uniform_finite twofold oneWord
  have balanced := @balanced_fill (.uniform twofold oneWord) coherent twofold_fits ⊤
  obtain ⟨-, follows, -, each, -, -⟩ :=
    @sample_exact (.uniform twofold oneWord) twofold_built twofold_fits finite ⊤
  have drawn {parse : Parse} (either : parse = .word 0 0 ∨ parse = .unary 0 (.word 1 0)) :
      ∃ run ∈ (chart.tree pick).run.all, run.result = .ok (some parse.spans) ∧
        run.chance = 2⁻¹ := by
    have parses : Problem.Parses (.uniform twofold oneWord) parse :=
      (twofold_parses_iff _ _ parse).mpr either
    have flat := flat_of_twofold parses
    have live := allLive_of_unlimited coherent finite balanced parses.admits flat
    obtain ⟨run, inside, result, ⟨score, scored, chance⟩, -⟩ := each parse parses flat live
    have own := Problem.score_eq_parseScore coherent parses
      (parses.admits.nodup_of_flat coherent flat) (.refl _)
    rw [uniform_parseScore] at own
    obtain rfl := Except.ok.inj (scored.symm.trans own)
    refine ⟨run, inside, result, ?_⟩
    rw [chance, logProbability, zero_sub, EReal.exp_neg, exp_total_twofold]
  obtain ⟨run, inside, result, chance⟩ := drawn (.inr rfl)
  have goes := follows run inside
  have even := goes.even_eq
  have led := goes.result_iff Draw.ofKeystream (.ofSeed 7) (Draw.proper_ofKeystream _)
  rw [result] at even led
  exact ⟨run, inside, result, chance, even.trans chance, led, drawn (.inl rfl)⟩

end Twofold

end Constituency.MassChart
