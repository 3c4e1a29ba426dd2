import Constituency.Proofs.LastLabel

/-!
Chains of unary rules over one interval. Where the rules form no cycle, closing a cell takes one
pass that works and one that finds nothing left to improve, and gives every label the best score of
all chains below it, of any length, with links that spell such a chain.
-/

namespace Constituency

section Chains

variable {α : Type} [Score α]

/-- The links from a label lead over the labels listed and end where a score is kept. -/
def Cell.Spells (cell : Cell α) : Label → List Label → Prop
  | label, [] => cell.link label = .keep
  | label, child :: below => cell.link label = .unary child ∧ cell.Spells child below

/-- What a chain of unary rules gives its topmost label: the score that the lowest one has without
unary rules, and what every rule adds. -/
def Problem.chainScore (problem : Problem α) (start stop : Nat) (before : Label → α) :
    Label → List Label → α
  | label, [] => before label
  | label, child :: below =>
    problem.chainScore start stop before child below +
      problem.spanScore (.unary start stop ⟨label, child⟩)

end Chains

namespace Cell.Closing

variable {problem : Problem EReal} {start stop : Nat} {first cell : Cell EReal} {floor : EReal}
  {rank : Label → Nat}

theorem chainScore_le (closing : Closing first ⊥ (BestChart.unaryEdges problem start stop) cell)
    (tables : problem.grammar.UnaryTables) (below : List Label) (label : Label)
    (linked : (label :: below).IsChain problem.grammar.UnaryStep) :
    problem.chainScore start stop (fun label => (first.entry label).before) label below ≤
      cell.after label := by
  induction below generalizing label with
  | nil =>
    rw [Problem.chainScore, ← closing.before label]
    exact closing.above label
  | cons child below ih =>
    rw [List.isChain_cons_cons] at linked
    have lower := ih child linked.2
    have edge : ⟨⟨label, child⟩, problem.spanScore (.unary start stop ⟨label, child⟩)⟩ ∈
        BestChart.unaryEdges problem start stop :=
      (BestChart.mem_unaryEdges tables).mpr ⟨linked.1, rfl⟩
    rw [Problem.chainScore]
    rcases closing.relaxed _ edge with absent | floored | relaxed
    · rw [le_bot_iff.mp (lower.trans_eq absent), EReal.bot_add]
      exact bot_le
    · exact absurd floored not_lt_bot
    · exact (add_le_add lower le_rfl).trans relaxed

/-- The links of a label with a score spell a chain that gives the label just that score. -/
theorem exists_spelled
    (closing : Closing first floor (BestChart.unaryEdges problem start stop) cell)
    (tables : problem.grammar.UnaryTables) (ranked : problem.grammar.Ranked rank) (label : Label)
    (present : cell.after label ≠ ⊥) :
    ∃ below, cell.Spells label below ∧ (label :: below).IsChain problem.grammar.UnaryStep ∧
      problem.chainScore start stop (fun label => (first.entry label).before) label below =
        cell.after label := by
  induction bound : rank label using Nat.strong_induction_on generalizing label with
  | h height ih =>
    have accounted := closing.accounted label
    cases link : cell.link label with
    | none =>
      rw [link] at accounted
      exact absurd accounted present
    | keep =>
      rw [link] at accounted
      refine ⟨[], link, .singleton label, ?_⟩
      rw [Problem.chainScore, ← closing.before label]
      exact accounted.1.symm
    | unary child =>
      rw [link] at accounted
      obtain ⟨edge, member, rule, present', _, sum⟩ := accounted
      obtain ⟨step, score⟩ := (BestChart.mem_unaryEdges tables).mp member
      rw [rule] at step score
      have lower := bound ▸ ranked.falls _ step
      obtain ⟨below, spells, linked, total⟩ := ih _ lower child present' rfl
      refine ⟨child :: below, ⟨link, spells⟩, .cons_cons step linked, ?_⟩
      rw [Problem.chainScore, total, sum, score]

end Cell.Closing

namespace BestChart

variable {problem : Problem EReal} {chart : BestChart EReal} {start stop : Nat}

/-- Without a cycle of unary rules a fresh cell is closed in two passes, whatever the floor. Without
a floor each label scores the most that any chain of unary rules gives it, and if that is a score,
the links of the label spell a chain that gives it. -/
theorem close_exact (built : problem.grammar.Built)
    (fits : problem.grammar.labelCount < numberLimit) (acyclic : problem.grammar.Acyclic)
    (sized : chart.Sized problem.length problem.grammar.labelCount)
    (within : start ≤ problem.length ∧ stop ≤ problem.length)
    (fresh : (chart.cell start stop).Fresh) (floor : EReal) :
    ∃ closed updates, chart.close problem start stop floor = (closed, .ok updates) ∧
      Cell.settle problem.grammar.labelCount floor (unaryEdges problem start stop) 2
          { cell := (chart.cell start stop).keepAll problem.grammar.labelCount } =
        (closed.cell start stop, .ok updates) ∧
      (floor = ⊥ →
        let score := problem.chainScore start stop fun label =>
          ((chart.cell start stop).entry label).before
        ∀ label, IsGreatest
            {best | ∃ below, (label :: below).IsChain problem.grammar.UnaryStep ∧
              score label below = best}
            ((closed.cell start stop).after label) ∧
          ((closed.cell start stop).after label ≠ ⊥ → ∃ below,
            (closed.cell start stop).Spells label below ∧
            (label :: below).IsChain problem.grammar.UnaryStep ∧
            score label below = (closed.cell start stop).after label)) := by
  have coherent := built.coherent
  have tables := coherent.unaryTables
  obtain ⟨rank, ranked⟩ := coherent.unary.exists_ranked acyclic
  have bottomUp := bottomUp_unaryEdges coherent ranked start stop
  have size := sized.size_cell within
  obtain ⟨cell, updates, settled, closing⟩ := Cell.exists_close floor fits bottomUp size fresh
  have count : chart.labels = problem.grammar.labelCount := sized.labels_eq
  have closed : chart.close problem start stop floor =
      ((chart.close problem start stop floor).1, .ok updates) := by
    simp only [close, count, settled]
    rfl
  have cell_eq : (chart.close problem start stop floor).1.cell start stop = cell := by
    rw [sized.cell_close problem within floor, settled]
  refine ⟨_, updates, closed, ?_, ?_⟩
  · rw [cell_eq, ← settled]
    exact (Cell.settle_eq bottomUp size (fresh.falls rank) 0).trans
      (Cell.close_eq bottomUp size (fresh.falls rank)).symm
  · rintro rfl score label
    rw [cell_eq]
    have spelled := closing.exists_spelled tables ranked label
    refine ⟨⟨?_, ?_⟩, spelled⟩
    · by_cases present : cell.after label = ⊥
      · -- A label that scores nothing has no score without unary rules either.
        refine ⟨[], .singleton label, ?_⟩
        have above := closing.above label
        rw [closing.before label, present, le_bot_iff] at above
        rw [present]
        exact above
      · obtain ⟨below, _, linked, total⟩ := spelled present
        exact ⟨below, linked, total⟩
    · rintro _ ⟨below, linked, rfl⟩
      exact closing.chainScore_le tables below label linked

section Row

open Grammar

theorem row_unaryStep : row.UnaryStep 0 1 := by
  rw [UnaryStep, row_eq]
  decide

theorem close_exact_row : ∃ closed updates,
    (lone 2 2 1).close (.uniform row twoWords) 0 1 ⊥ = (closed, .ok updates) ∧
      0 ≤ (closed.cell 0 1).after 0 ∧ ∃ below, (closed.cell 0 1).Spells 0 below := by
  have within : 0 ≤ 2 ∧ 1 ≤ 2 := by decide
  have some : (1 : Label).toNat < 2 := by decide
  have sized : (lone 2 2 1).Sized twoWords.length row.labelCount := by
    rw [row_labelCount]
    exact sized_lone 2 2 1
  obtain ⟨closed, updates, ok, _, exact⟩ := @close_exact (.uniform row twoWords) _ 0 1 row_built
    row_fits row_acyclic sized within (fresh_lone within some) ⊥
  obtain ⟨⟨_, most⟩, spelled⟩ := exact rfl 0
  have high : 0 ≤ (closed.cell 0 1).after 0 := by
    refine most ⟨[1], .cons_cons row_unaryStep (.singleton 1), ?_⟩
    simp [Problem.chainScore, entry_lone within some, Problem.uniform_spanScore]
  obtain ⟨below, spells, _⟩ := spelled fun none => absurd (none ▸ high) (by simp)
  exact ⟨closed, updates, ok, high, below, spells⟩

end Row

end BestChart

end Constituency
