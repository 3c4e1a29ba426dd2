import Mathlib
import Constituency.Proofs.Admitted
import Constituency.Proofs.ExtendedReal

/-!
Scores of parses. In exact arithmetic the score of a tree is the sum over its spans, in whatever
order they are listed, and charts score the same rules at the same places.
-/

namespace Constituency

open Score Grammar

theorem Grammar.exists_ruleCode {grammar : Grammar} {rule : Rule}
    (known : grammar.contains rule = true) : ∃ code, grammar.ruleCode? rule = some code := by
  obtain ⟨number, found⟩ := Option.isSome_iff_exists.mp known
  exact ⟨.pack rule.shape number, by rw [ruleCode?, found]; rfl⟩

namespace Problem

section Spans

variable {α : Type} [Score α] {problem : Problem α}

/-- What the span of a known rule adds to a score, below the label of its parent if that counts. -/
def placedScore (problem : Problem α) (span : Span) : Option Label → α
  | none => problem.spanScore span
  | some label =>
    let code := (problem.grammar.ruleCode? span.rule).getD 0
    let site := Site.ofSpan problem.sentence span
    problem.model.score code site + problem.model.parentScore code label site +
      problem.costOf span.item

theorem exists_addSpan (problem : Problem α) (total : α) {span : Span}
    (known : problem.grammar.contains span.rule = true) (parent : Option Label) :
    ∃ next, problem.addSpan total span parent = .ok next := by
  obtain ⟨code, found⟩ := exists_ruleCode known
  simp only [addSpan, found]
  exact ⟨_, rfl⟩

theorem spanScore_terminal (coherent : problem.grammar.Coherent) {label : Label}
    (known : label ∈ problem.grammar.terminals.toList) (position : Nat) :
    problem.spanScore (.terminal position label) = problem.terminalScore position label := by
  have terminal : problem.grammar.isTerminal label = true :=
    (coherent.terminals.contains_iff label).mpr known
  have code : problem.grammar.ruleCode? (.terminal label) =
      some (.pack .terminal label.toNat) := by
    simp [ruleCode?, ruleNumber?, terminal, Rule.shape]
  simp only [spanScore, Span.terminal, code, Option.getD_some]
  rfl

theorem spanScore_unary (tables : problem.grammar.UnaryTables) {rule : UnaryRule} {number : Nat}
    (found : problem.grammar.unaryRule? number = some rule) (start stop : Nat) :
    problem.spanScore (.unary start stop rule) = problem.unaryScore start stop rule number := by
  have numbered : problem.grammar.unaryRules.find? rule = some number :=
    (tables.filed.sound rule number).mpr found
  have code : problem.grammar.ruleCode? (.unary rule) = some (.pack .unary number) := by
    simp [ruleCode?, ruleNumber?, numbered, Rule.shape]
  simp only [spanScore, Span.unary, code, Option.getD_some]
  rfl

theorem spanScore_binary (coherent : problem.grammar.Coherent) {rule : BinaryRule} {number : Nat}
    (found : problem.grammar.binaryRule? number = some rule) (start split stop : Nat) :
    problem.spanScore (.binary start split stop rule) =
      problem.binaryModelScore start split stop number +
        problem.costOf ⟨start, stop, rule.parent⟩ := by
  have numbered : problem.grammar.binaryRules.find? rule = some number :=
    (coherent.binary.sound rule number).mpr found
  have code : problem.grammar.ruleCode? (.binary rule) = some (.pack .binary number) := by
    simp [ruleCode?, ruleNumber?, numbered, Rule.shape]
  simp only [spanScore, Span.binary, code, Option.getD_some]
  rfl

end Spans

variable {problem : Problem EReal} {parse : Parse}

theorem addSpan_eq (problem : Problem EReal) (total : EReal) {span : Span}
    (known : problem.grammar.contains span.rule = true) (parent : Option Label) :
    problem.addSpan total span parent = .ok (total + problem.placedScore span parent) := by
  obtain ⟨code, found⟩ := exists_ruleCode known
  cases parent with
  | none => simp only [addSpan, placedScore, spanScore, found, Option.getD_some, add_assoc]
  | some label => simp only [addSpan, placedScore, found, Option.getD_some, add_assoc]

theorem foldlM_addSpan (problem : Problem EReal) {entries : List (Span × Option Label)}
    (known : ∀ entry ∈ entries, problem.grammar.contains entry.1.rule = true) (total : EReal) :
    entries.foldlM (fun total entry => problem.addSpan total entry.1 entry.2) total =
      .ok (total + (entries.map fun entry => problem.placedScore entry.1 entry.2).sum) := by
  induction entries generalizing total with
  | nil => simp [pure, Except.pure]
  | cons entry entries ih =>
    obtain ⟨first, rest⟩ := List.forall_mem_cons.mp known
    rw [List.foldlM_cons, addSpan_eq problem total first]
    refine (ih rest _).trans ?_
    rw [List.map_cons, List.sum_cons, add_assoc]

theorem scoreWith_eq_sum (problem : Problem EReal) (secondOrder : Bool) {spans : List Span}
    (known : ∀ span ∈ spans, problem.grammar.contains span.rule = true) (parents : Parents) :
    problem.scoreWith secondOrder spans parents =
      .ok ((spans.zip parents).map fun entry => problem.placedScore entry.1
        (if secondOrder then entry.2.bind fun p => spans[p]?.map Span.label else none)).sum := by
  let placed (entry : Span × Option Nat) : Span × Option Label :=
    (entry.1, if secondOrder then entry.2.bind fun p => spans[p]?.map Span.label else none)
  have known' : ∀ entry ∈ (spans.zip parents).map placed,
      problem.grammar.contains entry.1.rule = true := by
    intro entry member
    obtain ⟨linked, inside, rfl⟩ := List.mem_map.mp member
    exact known _ (List.of_mem_zip inside).1
  have sum := problem.foldlM_addSpan known' zero
  rw [List.foldlM_map, List.map_map] at sum
  refine Eq.trans sum (congrArg Except.ok ?_)
  rw [ExtendedReal.zero_eq_zero, zero_add]
  rfl

theorem scoreWith_eq (problem : Problem EReal) {spans : List Span}
    (known : ∀ span ∈ spans, problem.grammar.contains span.rule = true) (parents : Parents)
    (length : parents.length = spans.length) :
    problem.scoreWith false spans parents = .ok (spans.map problem.spanScore).sum := by
  have firsts : (spans.zip parents).map Prod.fst = spans := List.map_fst_zip length.ge
  rw [scoreWith_eq_sum problem false known, ← firsts, List.map_map, firsts]
  rfl

theorem parseScore_eq_sum (problem : Problem EReal) (parse : Parse) :
    problem.parseScore parse = (parse.spans.map problem.spanScore).sum := by
  induction parse with
  | word label position => simp [parseScore, Parse.spans]
  | unary label child ih => simp [parseScore, Parse.spans, ih]
  | binary label left right ihLeft ihRight => simp [parseScore, Parse.spans, ihLeft, ihRight]

theorem score_eq_parseScore (coherent : problem.grammar.Coherent) (parses : problem.Parses parse)
    (distinct : (parse.spans.map Span.item).Nodup) {spans : List Span}
    (perm : spans.Perm parse.spans) :
    problem.score false spans = .ok (problem.parseScore parse) := by
  have parents := parse.ofTree_eq parses.admits.contiguous distinct perm parses.start_eq
    parses.stop_eq
  have known : ∀ span ∈ spans, problem.grammar.contains span.rule = true := fun span member =>
    parses.admits.contains_rule coherent span (perm.mem_iff.mp member)
  rw [score, parents, parseScore_eq_sum, ← (perm.map problem.spanScore).sum_eq]
  exact problem.scoreWith_eq known _ (by simp [Parents.bySlot])

end Problem

/-- All scores of the model are real numbers, and so is the cost of an unwanted constituent. -/
structure Problem.Finite (problem : Problem EReal) : Prop where
  model : ∀ code site, ∃ score : ℝ, problem.model.score code site = score
  cost : ∀ cost, problem.cost = some cost → ∃ amount : ℝ, cost.amount = amount

namespace Problem.Finite

variable {problem : Problem EReal}

theorem spanScore (finite : problem.Finite) (span : Span) :
    ∃ score : ℝ, problem.spanScore span = score := by
  obtain ⟨score, model⟩ := finite.model ((problem.grammar.ruleCode? span.rule).getD 0)
    (Site.ofSpan problem.sentence span)
  have cost : ∃ amount : ℝ, problem.costOf span.item = amount := by
    cases given : problem.cost with
    | none => exact ⟨0, by simp [costOf, Cost.orZero, given]⟩
    | some cost =>
      obtain ⟨amount, known⟩ := finite.cost cost given
      have either : problem.costOf span.item =
          if cost.reference.contains span.item then zero else cost.amount := by
        rw [costOf, Cost.orZero, given]
        rfl
      rw [either]
      split
      · exact ⟨0, by simp⟩
      · exact ⟨amount, known⟩
  obtain ⟨amount, cost⟩ := cost
  exact ⟨score + amount, by rw [Problem.spanScore, model, cost, EReal.coe_add]⟩

theorem parseScore (finite : problem.Finite) (parse : Parse) :
    ∃ score : ℝ, problem.parseScore parse = score := by
  induction parse with
  | word label position => exact finite.spanScore _
  | unary label child ih =>
    obtain ⟨own, top⟩ := finite.spanScore (Parse.unary label child).top
    obtain ⟨below, rest⟩ := ih
    exact ⟨own + below, by rw [Problem.parseScore, top, rest, EReal.coe_add]⟩
  | binary label left right ihLeft ihRight =>
    obtain ⟨own, top⟩ := finite.spanScore (Parse.binary label left right).top
    obtain ⟨first, onLeft⟩ := ihLeft
    obtain ⟨second, onRight⟩ := ihRight
    exact ⟨own + (first + second), by
      rw [Problem.parseScore, top, onLeft, onRight, EReal.coe_add, EReal.coe_add]⟩

end Problem.Finite

/-- A problem in which all rules score alike and nothing costs. -/
noncomputable def Problem.uniform (grammar : Grammar) (sentence : Sentence) : Problem EReal :=
  ⟨grammar, sentence, .constant zero, none⟩

theorem Problem.uniform_finite (grammar : Grammar) (sentence : Sentence) :
    (uniform grammar sentence).Finite where
  model _ _ := ⟨0, ExtendedReal.zero_eq_zero⟩
  cost _ none := by cases none

theorem Problem.uniform_spanScore (grammar : Grammar) (sentence : Sentence) (span : Span) :
    (uniform grammar sentence).spanScore span = 0 := by
  rw [spanScore, costOf, Cost.orZero, uniform]
  exact (congrArg₂ (· + ·) ExtendedReal.zero_eq_zero ExtendedReal.zero_eq_zero).trans (add_zero 0)

theorem Problem.uniform_parseScore (grammar : Grammar) (sentence : Sentence) (parse : Parse) :
    (uniform grammar sentence).parseScore parse = 0 := by
  have span := uniform_spanScore grammar sentence
  induction parse with
  | word label position => exact span _
  | unary label child ih => rw [parseScore, span, ih, add_zero]
  | binary label left right ihLeft ihRight =>
    rw [parseScore, span, ihLeft, ihRight, add_zero, add_zero]

end Constituency
