import Mathlib
import Constituency.Proofs.ChartScores
import Constituency.Proofs.Outcomes

/-!
Exact search is exact. The scores of its chart bound those of all parses, the links account for
them by parses of just these scores, and the tree that is read off is the best one.
-/

namespace Constituency

open Score Grammar ExtendedReal

namespace BestChart

def BestSeen (chart : BestChart EReal) (seen : List Label) : Option (Label × EReal) → Prop
  | none => ∀ label ∈ seen, chart.after 0 chart.words label = ⊥
  | some (best, score) => best ∈ seen ∧ chart.after 0 chart.words best = score ∧ score ≠ ⊥ ∧
      ∀ label ∈ seen, chart.after 0 chart.words label ≤ score

namespace BestSeen

variable {chart : BestChart EReal} {seen : List Label} {best : Option (Label × EReal)}
  {label : Label}

theorem skip (held : chart.BestSeen seen best) (absent : chart.after 0 chart.words label = ⊥) :
    chart.BestSeen (seen ++ [label]) best := by
  cases best with
  | none => exact List.forall_mem_append.mpr ⟨held, List.forall_mem_singleton.mpr absent⟩
  | some top =>
    obtain ⟨member, score, present, upper⟩ := held
    refine ⟨List.mem_append_left _ member, score, present, List.forall_mem_append.mpr
      ⟨upper, List.forall_mem_singleton.mpr ?_⟩⟩
    rw [absent]
    exact bot_le

theorem take (held : chart.BestSeen seen best) (present : chart.after 0 chart.words label ≠ ⊥)
    (improves : ∀ top ∈ best, top.2 < chart.after 0 chart.words label) :
    chart.BestSeen (seen ++ [label]) (some (label, chart.after 0 chart.words label)) := by
  refine ⟨by simp, rfl, present, List.forall_mem_append.mpr
    ⟨fun other member => ?_, List.forall_mem_singleton.mpr le_rfl⟩⟩
  cases best with
  | none =>
    rw [held other member]
    exact bot_le
  | some top => exact (held.2.2.2 other member).trans (improves top rfl).le

theorem keep {top : Label × EReal} (held : chart.BestSeen seen (some top))
    (enough : ¬ top.2 < chart.after 0 chart.words label) :
    chart.BestSeen (seen ++ [label]) (some top) := by
  obtain ⟨member, score, present, upper⟩ := held
  exact ⟨List.mem_append_left _ member, score, present, List.forall_mem_append.mpr
    ⟨upper, List.forall_mem_singleton.mpr (not_lt.mp enough)⟩⟩

end BestSeen

theorem bestSeen_bestRoot? (chart : BestChart EReal) (grammar : Grammar)
    (registered : ∀ label ∈ grammar.roots.toList, label.toNat < chart.labels) :
    chart.BestSeen grammar.roots.toList (chart.bestRoot? grammar) := by
  refine Fold.foldl_holds chart.BestSeen (by simp [BestSeen]) ?_
  intro earlier label later best whole seen
  have known : ¬ chart.labels ≤ label.toNat :=
    Nat.not_le.mpr (registered label (by simp [whole]))
  simp only [known, decide_false, Bool.false_or, absent_eq_bot, beq_eq_decide, decide_eq_true_eq]
  by_cases absent : chart.after 0 chart.words label = ⊥
  · rw [if_pos absent]
    exact seen.skip absent
  · rw [if_neg absent]
    cases best with
    | none => exact seen.take absent (by simp)
    | some top =>
      simp only
      split
      · rename_i improves
        exact seen.take absent (by simpa using improves)
      · rename_i enough
        exact seen.keep enough

variable {problem : Problem EReal} {threshold : EReal} {chart : BestChart EReal}
  {rank : Label → Nat}

theorem Filled.parseScore_le_root (ready : Ready problem rank)
    (filled : Filled problem threshold chart) {parse : Parse} (parses : problem.Parses parse)
    (keeps : Keeps problem chart threshold parse) :
    problem.parseScore parse ≤ chart.after 0 chart.words parse.label := by
  have bound := (filled.parseScore_le ready parses.admits keeps).2
  rw [parses.start_eq, parses.stop_eq] at bound
  rwa [after_words filled.sized (parses.admits.registered ready.coherent)]

end BestChart

namespace Problem

/-- The answer of a search that keeps some parses: a parse that scores no less than those kept, or
that none is kept. -/
def IsBest (problem : Problem EReal) (kept : Parse → Prop) : Option (Derivation EReal) → Prop
  | none => ∀ parse, problem.Parses parse → ¬ kept parse
  | some best => ∃ parse, problem.Parses parse ∧ best.spans = parse.spans ∧
      problem.parseScore parse = best.score ∧
      ∀ other, problem.Parses other → kept other → problem.parseScore other ≤ best.score

theorem isBest_none {problem : Problem EReal} (words : problem.length = 0)
    (kept : Parse → Prop) : problem.IsBest kept none :=
  fun _ parses => absurd words parses.length_ne_zero

theorem IsBest.mono {problem : Problem EReal} {kept kept' : Parse → Prop}
    {result : Option (Derivation EReal)} (best : problem.IsBest kept result)
    (fewer : ∀ parse, problem.Parses parse → kept' parse → kept parse) :
    problem.IsBest kept' result := by
  cases result with
  | none =>
    intro parse parses keeps
    exact best parse parses (fewer parse parses keeps)
  | some tree =>
    obtain ⟨parse, parses, spans, score, most⟩ := best
    refine ⟨parse, parses, spans, score, fun other parses' keeps => ?_⟩
    exact most other parses' (fewer other parses' keeps)

end Problem

namespace BestChart

variable {problem : Problem EReal} {threshold : EReal} {chart : BestChart EReal}
  {rank : Label → Nat}

theorem Filled.exists_best (ready : Ready problem rank) (filled : Filled problem threshold chart)
    (linked : Linked problem chart) (finite : problem.Finite) (words : problem.length ≠ 0) :
    ∃ result, chart.best? problem.grammar = .ok result ∧
      problem.IsBest (Keeps problem chart threshold) result := by
  have coherent := ready.coherent
  have accepted {parse : Parse} (parses : problem.Parses parse) :
      parse.label ∈ problem.grammar.roots.toList := (coherent.isRoot_iff _).mp parses.root
  have seen := bestSeen_bestRoot? chart problem.grammar fun label member => by
    rw [BestChart.labels, filled.sized.labels_eq]
    exact coherent.roots_registered label member
  rcases linked.exists_best coherent ready.ranked words with
    ⟨root, read⟩ | ⟨parse, parses, reads, root, read⟩
  · rw [root] at seen
    refine ⟨none, read, fun parse parses keeps => ?_⟩
    obtain ⟨score, real⟩ := finite.parseScore parse
    have low := filled.parseScore_le_root ready parses keeps
    rw [seen _ (accepted parses), real] at low
    exact EReal.coe_ne_bot score (le_bot_iff.mp low)
  · rw [root] at seen
    obtain ⟨_, _, present, most⟩ := seen
    refine ⟨_, read, parse, parses, rfl, ?_, fun other parses' keeps =>
      (filled.parseScore_le_root ready parses' keeps).trans (most _ (accepted parses'))⟩
    rw [after_words linked.sized (parses.admits.registered coherent)] at present ⊢
    have score := filled.parseScore_eq coherent reads parses.admits
    rw [parses.start_eq, parses.stop_eq] at score
    exact score present

end BestChart

namespace Exact

variable {problem : Problem EReal} {rank : Label → Nat}

theorem exists_chart (ready : BestChart.Ready problem rank) :
    ∃ chart, fill problem = .ok chart ∧ BestChart.Filled problem ⊤ chart ∧
      BestChart.Linked problem chart := by
  obtain ⟨chart, ok, filled⟩ := exists_fill ready
  obtain ⟨chart', ok', linked⟩ := exists_fill_linked ready.coherent ready.ranked
  obtain rfl := Except.ok.inj (ok.symm.trans ok')
  exact ⟨chart, ok, filled, linked⟩

theorem exists_best (ready : BestChart.Ready problem rank) (finite : problem.Finite) :
    ∃ result, decode problem = .ok result ∧ problem.IsBest (fun _ => True) result := by
  have checked := ready.coherent.checkUnary_eq ready.ranked.acyclic
  by_cases words : problem.length = 0
  · refine ⟨none, ?_, problem.isBest_none words _⟩
    rw [decode, checked, (problem.isEmpty_iff).mpr words]
    rfl
  · obtain ⟨chart, ok, filled, linked⟩ := exists_chart ready
    obtain ⟨result, read, best⟩ := filled.exists_best ready linked finite words
    refine ⟨result, ?_, best.mono fun parse _ _ => BestChart.keeps_unlimited problem chart parse⟩
    rw [decode, checked, Bool.eq_false_of_not_eq_true ((problem.isEmpty_iff).not.mpr words), ok]
    exact read

theorem exists_best_of_parses (ready : BestChart.Ready problem rank) (finite : problem.Finite)
    {parse : Parse} (parses : problem.Parses parse) :
    ∃ best, decode problem = .ok (some best) ∧ problem.IsBest (fun _ => True) (some best) := by
  obtain ⟨result, ok, best⟩ := exists_best ready finite
  cases result with
  | none => exact absurd trivial (best parse parses)
  | some tree => exact ⟨tree, ok, best⟩

/-- Exact search finds no tree just if there is none. Otherwise it finds a parse with the score that
the parse has as a tree, and no other parse scores more, in whatever order its spans are listed. -/
theorem decode_exact {problem : Problem EReal} (built : problem.grammar.Built)
    (fits : problem.grammar.labelCount < numberLimit) (acyclic : problem.grammar.Acyclic)
    (finite : problem.Finite) :
    (decode problem = .ok none ↔ ¬ ∃ parse, problem.Parses parse) ∧
      ((∃ parse, problem.Parses parse) → ∃ best parse, decode problem = .ok (some best) ∧
        problem.Parses parse ∧ best.spans = parse.spans ∧
        problem.score false best.spans = .ok best.score ∧
        ∀ other, problem.Parses other → ∀ spans, spans.Perm other.spans →
          ∃ score, problem.score false spans = .ok score ∧ score ≤ best.score) := by
  have coherent := built.coherent
  obtain ⟨rank, ranked⟩ := coherent.unary.exists_ranked acyclic
  have listed {parse : Parse} (parses : problem.Parses parse) {spans : List Span}
      (perm : spans.Perm parse.spans) :
      problem.score false spans = .ok (problem.parseScore parse) :=
    problem.score_eq_parseScore coherent parses
      (parses.admits.nodup_of_ranked coherent ranked) perm
  obtain ⟨result, ok, best⟩ := exists_best ⟨coherent, fits, ranked⟩ finite
  cases result with
  | none =>
    have none : ¬ ∃ parse, problem.Parses parse := fun ⟨parse, parses⟩ =>
      best parse parses trivial
    exact ⟨⟨fun _ => none, fun _ => ok⟩, fun some => absurd some none⟩
  | some tree =>
    obtain ⟨parse, parses, spans, score, most⟩ := best
    refine ⟨⟨fun absent => ?_, fun none => absurd ⟨parse, parses⟩ none⟩, fun _ =>
      ⟨tree, parse, ok, parses, spans, ?_, fun other parses' spans' perm => ?_⟩⟩
    · rw [ok] at absent
      cases absent
    · rw [spans, ← score]
      exact listed parses (.refl _)
    · exact ⟨_, listed parses' perm, most other parses' trivial⟩

theorem decode_exact_row : ∃ best parse, decode (.uniform row twoWords) = .ok (some best) ∧
    Problem.Parses (.uniform row twoWords) parse ∧ best.spans = parse.spans := by
  have decoded := @decode_exact (.uniform row twoWords) row_built row_fits row_acyclic
    (Problem.uniform_finite _ _)
  obtain ⟨best, parse, ok, parses, spans, _⟩ := decoded.2 ⟨_, Problem.row_parses _ _⟩
  exact ⟨best, parse, ok, parses, spans⟩

end Exact

end Constituency
