import Mathlib
import Constituency.Model.Dropout
import Constituency.Proofs.Accepted
import Constituency.Proofs.ParseScore

/-!
Scores as sums over features. A derivation scores under a linear model what its features weigh, each
as often as it occurs in the derivation. So a weight counts as often as its feature does, and dropout
takes out of the sum the features that it drops and no others.
-/

namespace Constituency

open Score

section Features

/-- The features of the rule of a span where it is applied. -/
def Grammar.spanFeatures (grammar : Grammar) (sentence : Sentence) (span : Span) : List Feature :=
  (grammar.ruleCode? span.rule).elim [] fun code => Feature.atSite code (.ofSpan sentence span)

/-- The feature that a span has below its parent; one at the top has none. -/
def Grammar.parentFeature? (grammar : Grammar) (spans : List Span) (span : Span)
    (parent : Option Nat) : Option Feature := do
  let above ← parent.bind (spans[·]?)
  let code ← grammar.ruleCode? span.rule
  return .parent code above.label

/-- The features of all spans and, in second-order scores, those of spans below their parents. -/
def Grammar.features (grammar : Grammar) (sentence : Sentence) (secondOrder : Bool)
    (spans : List Span) (parents : Parents) : List Feature :=
  spans.flatMap (grammar.spanFeatures sentence) ++
    if secondOrder then
      (spans.zip parents).filterMap fun entry => grammar.parentFeature? spans entry.1 entry.2
    else []

end Features

/-- A model whose scores are sums of weights of features. -/
structure Model.Weighs (model : Model EReal) (weight : Feature → EReal) : Prop where
  score : ∀ code site, model.score code site = ((Feature.atSite code site).map weight).sum
  parentScore : ∀ code label site, model.parentScore code label site = weight (.parent code label)

namespace LinearModel

theorem total_eq_sum (model : LinearModel EReal) (features : List Feature) :
    model.total features = (features.map model.weight).sum := by
  rw [total, ExtendedReal.zero_eq_zero, List.sum_eq_foldl]

theorem weighs (model : LinearModel EReal) : model.toModel.Weighs model.weight where
  score code site := model.total_eq_sum (Feature.atSite code site)
  parentScore _ _ _ := rfl

theorem weight_update (model : LinearModel EReal) (feature other : Feature) (change : EReal) :
    (model.update feature change).weight other =
      model.weight other + if feature = other then change else 0 := by
  rw [update, set, weight, Std.HashMap.getD_insert]
  by_cases same : feature = other
  · subst same
    simp
  · simp [same, weight]

end LinearModel

theorem Dropout.weighs (dropout : Dropout EReal) :
    dropout.toModel.Weighs fun feature =>
      if dropout.drops feature then 0 else dropout.model.weight feature where
  score code site := by
    change dropout.model.total _ = _
    rw [dropout.model.total_eq_sum]
    induction Feature.atSite code site with
    | nil => rfl
    | cons feature features ih =>
      rw [List.filter_cons, List.map_cons, List.sum_cons, ← ih]
      cases dropout.drops feature <;> simp
  parentScore code label site := by
    change (if dropout.drops _ then zero else _) = _
    rw [ExtendedReal.zero_eq_zero]

section Sums

variable (weight : Feature → EReal)

theorem sum_map_eq_finsum (features : List Feature) :
    (features.map weight).sum = ∑ᶠ feature, features.count feature • weight feature := by
  rw [Finset.sum_list_map_count, finsum_eq_sum_of_support_subset]
  intro feature occurs
  rw [Finset.mem_coe, List.mem_toFinset]
  by_contra absent
  rw [Function.mem_support, List.count_eq_zero.mpr absent, zero_nsmul] at occurs
  exact occurs rfl

theorem sum_map_add_at (features : List Feature) (feature : Feature) (change : EReal) :
    (features.map fun other => weight other + if feature = other then change else 0).sum =
      (features.map weight).sum + features.count feature • change := by
  induction features with
  | nil => simp
  | cons other features ih =>
    rw [List.map_cons, List.sum_cons, ih, List.map_cons, List.sum_cons, List.count_cons, add_nsmul,
      add_add_add_comm, add_comm (_ • change)]
    by_cases same : feature = other
    · simp [same]
    · simp [same, Ne.symm same]

theorem sum_filterMap (entries : List (Span × Option Nat))
    (part : Span × Option Nat → Option Feature) :
    ((entries.filterMap part).map weight).sum =
      (entries.map fun entry => (part entry).elim 0 weight).sum := by
  induction entries with
  | nil => rfl
  | cons entry entries ih =>
    rw [List.map_cons, List.sum_cons, ← ih, List.filterMap_cons]
    cases part entry with
    | none => simp
    | some feature => simp

end Sums

namespace Problem

variable {problem : Problem EReal} {weight : Feature → EReal} {spans : List Span}
  {parents : Parents}

theorem placedScore_eq (weighs : problem.model.Weighs weight) (free : problem.cost = none)
    {span : Span} (known : problem.grammar.contains span.rule = true) (parent : Option Nat) :
    problem.placedScore span (parent.bind fun p => spans[p]?.map Span.label) =
      ((problem.grammar.spanFeatures problem.sentence span).map weight).sum +
        (problem.grammar.parentFeature? spans span parent).elim 0 weight := by
  obtain ⟨code, found⟩ := Grammar.exists_ruleCode known
  have costless : problem.costOf span.item = 0 := by
    rw [costOf, Cost.orZero, free]
    exact ExtendedReal.zero_eq_zero
  have above : (parent.bind fun p => spans[p]?.map Span.label) =
      (parent.bind (spans[·]?)).map Span.label := by
    rw [Option.map_bind]
    rfl
  rw [above, Grammar.spanFeatures, found, Option.elim_some, Grammar.parentFeature?]
  cases parent.bind (spans[·]?) with
  | none =>
    rw [Option.map_none, placedScore, spanScore, found, Option.getD_some, costless, weighs.score]
    rfl
  | some upper =>
    simp only [Option.map_some, placedScore, found, Option.getD_some, costless, add_zero,
      weighs.score, weighs.parentScore]
    rfl

theorem spanScore_eq (weighs : problem.model.Weighs weight) (free : problem.cost = none)
    {span : Span} (known : problem.grammar.contains span.rule = true) :
    problem.spanScore span =
      ((problem.grammar.spanFeatures problem.sentence span).map weight).sum := by
  have placed := @placedScore_eq problem weight [] weighs free span known none
  exact placed.trans (add_zero _)

theorem scoreWith_eq_features (weighs : problem.model.Weighs weight) (free : problem.cost = none)
    (known : ∀ span ∈ spans, problem.grammar.contains span.rule = true)
    (length : parents.length = spans.length) (secondOrder : Bool) :
    problem.scoreWith secondOrder spans parents =
      .ok ((problem.grammar.features problem.sentence secondOrder spans parents).map weight).sum := by
  have firsts : (spans.zip parents).map Prod.fst = spans := List.map_fst_zip length.ge
  have own : ((spans.flatMap (problem.grammar.spanFeatures problem.sentence)).map weight).sum =
      (spans.map fun span =>
        ((problem.grammar.spanFeatures problem.sentence span).map weight).sum).sum := by
    rw [List.map_flatMap, List.flatMap_def, List.sum_flatten, List.map_map]
    rfl
  rw [problem.scoreWith_eq_sum secondOrder known, Grammar.features, List.map_append,
    List.sum_append, own]
  refine congrArg Except.ok ?_
  cases secondOrder with
  | false =>
    rw [← firsts, List.map_map, firsts, if_neg Bool.false_ne_true, List.map_nil, List.sum_nil,
      add_zero]
    refine congrArg List.sum (List.map_congr_left fun entry member => ?_)
    exact spanScore_eq weighs free (known _ (List.of_mem_zip member).1)
  | true =>
    have split : ((spans.zip parents).map fun entry =>
        problem.placedScore entry.1 (entry.2.bind fun p => spans[p]?.map Span.label)) =
        (spans.zip parents).map fun entry =>
          ((problem.grammar.spanFeatures problem.sentence entry.1).map weight).sum +
            (problem.grammar.parentFeature? spans entry.1 entry.2).elim 0 weight :=
      List.map_congr_left fun entry member =>
        placedScore_eq weighs free (known _ (List.of_mem_zip member).1) entry.2
    simp only [if_true]
    rw [split, List.sum_map_add, sum_filterMap, ← firsts, List.map_map, firsts]
    rfl

/-- A derivation scores the sum over all features of what each weighs, as often as it occurs in the
derivation; a change of one weight counts as often as the feature occurs; and under dropout the sum
is the same, over the features that are not dropped. -/
theorem score_linear {grammar : Grammar} {sentence : Sentence} {spans : List Span}
    {parents : Parents} (formed : Parents.ofTree spans sentence.length = .ok parents)
    (known : ∀ span ∈ spans, grammar.contains span.rule = true) (secondOrder : Bool)
    (model : LinearModel EReal) :
    let count feature := (grammar.features sentence secondOrder spans parents).count feature
    let total : EReal := ∑ᶠ feature, count feature • model.weight feature
    (Problem.mk grammar sentence model.toModel none).score secondOrder spans = .ok total ∧
      (∀ feature change,
        (Problem.mk grammar sentence (model.update feature change).toModel none).score
          secondOrder spans = .ok (total + count feature • change)) ∧
      ∀ rate seed,
        (Problem.mk grammar sentence (Dropout.ofRate model rate seed).toModel none).score
          secondOrder spans = .ok (∑ᶠ (feature) (_ : (Dropout.ofRate model rate seed).drops feature =
            false), count feature • model.weight feature) := by
  intro count total
  have length := (Parents.of_ofTree formed).1.length_eq
  have scores {view : Model EReal} {weight : Feature → EReal} (weighs : view.Weighs weight) :
      (Problem.mk grammar sentence view none).score secondOrder spans =
        .ok ((grammar.features sentence secondOrder spans parents).map weight).sum := by
    have free : (Problem.mk grammar sentence view none).cost = none := rfl
    rw [score, Problem.length, formed]
    exact scoreWith_eq_features weighs free known length secondOrder
  refine ⟨?_, fun feature change => ?_, fun rate seed => ?_⟩
  · rw [scores model.weighs, sum_map_eq_finsum]
  · have changed : (model.update feature change).weight =
        fun other => model.weight other + if feature = other then change else 0 :=
      funext fun other => model.weight_update feature other change
    rw [scores (model.update feature change).weighs, changed, sum_map_add_at, sum_map_eq_finsum]
  · rw [scores (Dropout.weighs _), sum_map_eq_finsum]
    refine congrArg Except.ok (finsum_congr fun feature => ?_)
    rw [finsum_eq_if]
    cases (Dropout.ofRate model rate seed).drops feature
    · rfl
    · exact smul_zero _

/-- Both words of a row stand under a word label below a row label, so that they share a feature. -/
theorem score_linear_row :
    let spans := (Parse.binary 0 (.word 1 0) (.unary 0 (.word 1 1))).spans
    let parents := [none, some 0, some 0, some 2]
    let model : LinearModel EReal := LinearModel.update {} (.parent 1 0) 3
    Parents.ofTree spans twoWords.length = .ok parents ∧
      (∀ span ∈ spans, Grammar.row.contains span.rule = true) ∧
      (Grammar.row.features twoWords true spans parents).count (.parent 1 0) = 2 ∧
      (Problem.mk Grammar.row twoWords model.toModel none).score true spans = .ok (3 + 3) := by
  intro spans parents model
  have formed : Parents.ofTree spans twoWords.length = .ok parents := by cbv
  have known : ∀ span ∈ spans, Grammar.row.contains span.rule = true := by
    rw [← List.all_eq_true]
    cbv
  have twice : (Grammar.row.features twoWords true spans parents).count (.parent 1 0) = 2 := by cbv
  have weightless (feature : Feature) : LinearModel.weight (α := EReal) {} feature = 0 := by
    simp [LinearModel.weight]
  obtain ⟨_, updated, _⟩ := score_linear formed known true {}
  have scored := updated (.parent 1 0) 3
  simp only [weightless, smul_zero, finsum_zero, zero_add, twice, two_nsmul] at scored
  exact ⟨formed, known, twice, scored⟩

end Problem

end Constituency
