import Mathlib
import Constituency.Proofs.FilledChart
import Constituency.Proofs.ReadOff

/-!
Scores of a filled chart and scores of parses. The chart bounds the score of every parse that stays
within the threshold of the best scores, and the links of the chart lead to parses of just the
scores that it has.
-/

namespace Constituency

open Score ExtendedReal

def Entry.score {α : Type} (entry : Entry α) : Phase → α
  | .beforeUnary => entry.before
  | .afterUnary => entry.after

namespace BestChart

/-- Every constituent of a parse is within a threshold of the best scores of its interval: what
stands without unary rules both of the best score without them and of the best score with them, and
what a unary rule builds of the latter. -/
def Keeps (problem : Problem EReal) (chart : BestChart EReal) (threshold : EReal) : Parse → Prop
  | .word label position =>
    chart.topBefore position (position + 1) - threshold ≤
        problem.parseScore (.word label position) ∧
      chart.topAfter position (position + 1) - threshold ≤
        problem.parseScore (.word label position)
  | .unary label child =>
    chart.topAfter child.start child.stop - threshold ≤
        problem.parseScore (.unary label child) ∧
      Keeps problem chart threshold child
  | .binary label left right =>
    chart.topBefore left.start right.stop - threshold ≤
        problem.parseScore (.binary label left right) ∧
      chart.topAfter left.start right.stop - threshold ≤
        problem.parseScore (.binary label left right) ∧
      Keeps problem chart threshold left ∧ Keeps problem chart threshold right

variable {problem : Problem EReal} {threshold : EReal} {chart : BestChart EReal} {parse : Parse}
  {rank : Label → Nat}

theorem Keeps.topAfter_le (keeps : Keeps problem chart threshold parse) :
    chart.topAfter parse.start parse.stop - threshold ≤ problem.parseScore parse := by
  cases parse with
  | word label position => exact keeps.2
  | unary label child => exact keeps.1
  | binary label left right => exact keeps.2.1

theorem keeps_unlimited (problem : Problem EReal) (chart : BestChart EReal) (parse : Parse) :
    Keeps problem chart ⊤ parse := by
  have low (x y : EReal) : x - ⊤ ≤ y := not_lt.mp (Grounded.not_lt_sub_unlimited y x)
  induction parse with
  | word label position => exact ⟨low _ _, low _ _⟩
  | unary label child ih => exact ⟨low _ _, ih⟩
  | binary label left right ihLeft ihRight => exact ⟨low _ _, low _ _, ihLeft, ihRight⟩

namespace Filled

theorem offered_eq (coherent : problem.grammar.Coherent) {split : Nat} {rule : BinaryRule}
    {number : Nat} (found : problem.grammar.binaryRule? number = some rule) (start stop : Nat) :
    offered problem chart start split stop rule number =
      problem.spanScore (.binary start split stop rule) +
        ((chart.cell start split).after rule.left + (chart.cell split stop).after rule.right) := by
  rw [offered, Problem.joined, Problem.spanScore_binary coherent found, add_assoc, add_comm]

theorem binary_le (coherent : problem.grammar.Coherent) (filled : Filled problem threshold chart)
    {label : Label} {left right : Parse}
    (admits : problem.Admits (.binary label left right))
    (keeps : Keeps problem chart threshold (.binary label left right))
    (onLeft : problem.parseScore left ≤ (chart.cell left.start left.stop).after left.label)
    (onRight : problem.parseScore right ≤ (chart.cell right.start right.stop).after right.label) :
    problem.parseScore (.binary label left right) ≤
      ((chart.cell left.start right.stop).entry label).before := by
  obtain ⟨known, meet, admitsLeft, admitsRight⟩ := admits
  obtain ⟨floor, _, keepsLeft, keepsRight⟩ := keeps
  obtain ⟨number, found⟩ := (Numbering.mem_toList_iff _ _).mp
    ((coherent.contains_binary_iff _).mp known)
  have first := admitsLeft.contiguous.start_lt_stop
  have second := admitsRight.contiguous.start_lt_stop
  have leftTop := keepsLeft.topAfter_le.trans onLeft
  have rightTop := keepsRight.topAfter_le.trans onRight
  rw [← meet] at onRight rightTop second
  have score : problem.parseScore (.binary label left right) ≤
      offered problem chart left.start left.stop right.stop ⟨label, left.label, right.label⟩
        number := by
    rw [offered_eq coherent found, Problem.parseScore, Parse.top]
    exact add_le_add_right (add_le_add onLeft onRight) _
  by_cases possible : chart.Possible left.start left.stop right.stop
      ⟨label, left.label, right.label⟩
  · exact score.trans (filled.wide left.start left.stop right.stop ⟨first, second⟩
      admitsRight.stop_le _ number found possible leftTop rightTop (floor.trans score))
  · have none : (chart.cell left.start left.stop).after left.label +
        (chart.cell left.stop right.stop).after right.label = ⊥ := by
      rw [Possible, ← not_or, not_not] at possible
      rcases possible with absent | absent
      · rw [absent, EReal.bot_add]
      · rw [absent, EReal.add_bot]
    rw [offered_eq coherent found, none, EReal.add_bot] at score
    exact score.trans bot_le

theorem unary_le (ready : Ready problem rank) (filled : Filled problem threshold chart)
    {label : Label} {child : Parse} (admits : problem.Admits (.unary label child))
    (keeps : Keeps problem chart threshold (.unary label child))
    (below : problem.parseScore child ≤ (chart.cell child.start child.stop).after child.label) :
    problem.parseScore (.unary label child) ≤
      (chart.cell child.start child.stop).after label := by
  obtain ⟨known, onChild⟩ := admits
  have bounds := And.intro onChild.contiguous.start_lt_stop onChild.stop_le
  obtain ⟨_, floor, low, closing⟩ := filled.closed child.start child.stop bounds
  have edge : UnaryEdge.mk ⟨label, child.label⟩
      (problem.spanScore (.unary child.start child.stop ⟨label, child.label⟩)) ∈
        unaryEdges problem child.start child.stop :=
    (mem_unaryEdges ready.coherent.unaryTables).mpr
      ⟨(ready.coherent.contains_unary_iff _).mp known, rfl⟩
  rw [Problem.parseScore, Parse.top, add_comm]
  rcases closing.relaxed _ edge with absent | less | high
  · have none : problem.parseScore child = ⊥ := le_bot_iff.mp (below.trans absent.le)
    rw [none, EReal.bot_add]
    exact bot_le
  · -- The floor goes by the best score without unary rules, which the one with them is not below.
    have top : chart.topBefore child.start child.stop ≤ chart.topAfter child.start child.stop :=
      topBefore_le filled.sized ready (by omega) fun lower =>
        (closing.above lower).trans (after_le_topAfter chart _ _ lower)
    have high := (EReal.sub_le_sub top le_rfl).trans (keeps.2.topAfter_le.trans below)
    exact absurd less (not_lt.mpr (low.trans high))
  · exact (add_le_add_left below _).trans high

/-- The chart bounds the score of every parse that stays within the threshold. -/
theorem parseScore_le (ready : Ready problem rank) (filled : Filled problem threshold chart)
    (admits : problem.Admits parse) (keeps : Keeps problem chart threshold parse) :
    (parse.isUnary = false →
        problem.parseScore parse ≤
          ((chart.cell parse.start parse.stop).entry parse.label).before) ∧
      problem.parseScore parse ≤ (chart.cell parse.start parse.stop).after parse.label := by
  have coherent := ready.coherent
  have above {parse : Parse} (admits : problem.Admits parse)
      (bound : problem.parseScore parse ≤
        ((chart.cell parse.start parse.stop).entry parse.label).before) :
      problem.parseScore parse ≤ (chart.cell parse.start parse.stop).after parse.label := by
    obtain ⟨_, _, _, closing⟩ := filled.closed parse.start parse.stop
      ⟨admits.contiguous.start_lt_stop, admits.stop_le⟩
    exact bound.trans (closing.above parse.label)
  induction parse with
  | word label position =>
    have bound : problem.parseScore (.word label position) ≤
        ((chart.cell position (position + 1)).entry label).before := by
      rw [Problem.parseScore, Parse.top,
        Problem.spanScore_terminal coherent (coherent.mem_terminalsFor admits.2)]
      exact filled.word position admits.1 label admits.2
    exact ⟨fun _ => bound, above admits bound⟩
  | unary label child ih =>
    refine ⟨fun bare => ?_, unary_le ready filled admits keeps (ih admits.2 keeps.2).2⟩
    cases bare
  | binary label left right ihLeft ihRight =>
    have bound := binary_le coherent filled admits keeps (ihLeft admits.2.2.1 keeps.2.2.1).2
      (ihRight admits.2.2.2 keeps.2.2.2).2
    exact ⟨fun _ => bound, above admits bound⟩

/-- A parse that the links lead to scores what the chart says, if that is a score at all. -/
theorem parseScore_eq (coherent : problem.grammar.Coherent)
    (filled : Filled problem threshold chart) {phase : Phase}
    (reads : chart.Reads problem.grammar phase parse) (admits : problem.Admits parse)
    (present : ((chart.cell parse.start parse.stop).entry parse.label).score phase ≠ ⊥) :
    problem.parseScore parse =
      ((chart.cell parse.start parse.stop).entry parse.label).score phase := by
  have stored {parse : Parse} (admits : problem.Admits parse) :
      chart.entries.get parse.start parse.stop parse.label =
        (chart.cell parse.start parse.stop).entry parse.label :=
    filled.sized.get_eq_entry
      ⟨(admits.contiguous.start_lt_stop.trans_le admits.stop_le).le, admits.stop_le⟩
      (admits.registered coherent)
  have bounds {parse : Parse} (admits : problem.Admits parse) :
      parse.start < parse.stop ∧ parse.stop ≤ problem.length :=
    ⟨admits.contiguous.start_lt_stop, admits.stop_le⟩
  -- The links tell how a score came about, and the filled chart how much it is then.
  induction reads with
  | @word label position origin =>
    have produced := filled.attained position (position + 1) (bounds admits) label present
    have made : ((chart.cell position (position + 1)).entry label).origin = .terminal :=
      stored admits ▸ origin
    change _ = ((chart.cell position (position + 1)).entry label).before
    rw [made] at produced
    generalize ((chart.cell position (position + 1)).entry label).before = score at produced ⊢
    cases produced
    exact Problem.spanScore_terminal coherent (coherent.mem_terminalsFor admits.2) position
  | @binary label left right number origin found meet onLeft onRight ihLeft ihRight =>
    have produced := filled.attained left.start right.stop (bounds admits) label present
    have made : ((chart.cell left.start right.stop).entry label).origin =
        .binary number left.stop := stored admits ▸ origin
    change _ = ((chart.cell left.start right.stop).entry label).before
    rw [made] at produced
    generalize ((chart.cell left.start right.stop).entry label).before = score at produced ⊢
    cases produced with
    | binary _ rule _ inside found' parent possible =>
      obtain rfl := Option.some.inj (found'.symm.trans found)
      have first := ihLeft admits.2.2.1 possible.1
      have second := ihRight admits.2.2.2 (by rw [← meet]; exact possible.2)
      rw [Problem.parseScore, first, second, offered_eq coherent found, Parse.top, ← meet]
      rfl
  | @keep parse link below ih =>
    obtain ⟨_, _, _, closing⟩ := filled.closed parse.start parse.stop (bounds admits)
    have accounted := closing.accounted parse.label
    rw [stored admits] at link
    rw [Cell.link, link] at accounted
    have same : ((chart.cell parse.start parse.stop).entry parse.label).after =
        ((chart.cell parse.start parse.stop).entry parse.label).before := accounted.1
    exact (ih admits (by rw [Entry.score, ← same]; exact present)).trans same.symm
  | @unary label child link below ih =>
    obtain ⟨_, _, _, closing⟩ := filled.closed child.start child.stop (bounds admits.2)
    have accounted := closing.accounted label
    have made : ((chart.cell child.start child.stop).entry label).link = .unary child.label :=
      stored admits ▸ link
    rw [Cell.link, made] at accounted
    obtain ⟨edge, member, rule, above, _, sum⟩ := accounted
    have score := ((mem_unaryEdges coherent.unaryTables).mp member).2
    rw [rule] at score
    have own := ih admits.2 above
    change _ = (chart.cell child.start child.stop).after label
    rw [Problem.parseScore, sum, score, own, add_comm, Parse.top]
    rfl

end Filled

end BestChart

end Constituency
