import Constituency.Proofs.Sampling

/-!
Drawing never fails. Whatever numbers are drawn, the sampler gives a surviving parse of the sentence
as its spans, or no tree where there is none.
-/

namespace Constituency.MassChart

open Problem Runs

variable {problem : Problem EReal} {threshold : EReal} {σ : Type}

/-- The spans of a tree that may be drawn: a parse of the sentence without stacked unary rules, all
of whose items survive, with its parents first. -/
structure Legal (problem : Problem EReal) (live : Live) (spans : List Span) : Prop where
  ordered : spans.Pairwise fun earlier later => earlier.item ∉ later.slots
  whole : Parents.ofTree spans problem.length = .ok (Parents.bySlot spans)
  known : ∀ span ∈ spans, problem.grammar.contains span.rule = true
  parse : ∃ parse, spans = parse.spans ∧ problem.Parses parse ∧ parse.Flat ∧
    AllLive live parse.items

theorem legal_spans (coherent : problem.grammar.Coherent) {live : Live} {parse : Parse}
    (parses : problem.Parses parse) (flat : parse.Flat) (alive : AllLive live parse.items) :
    Legal problem live parse.spans := by
  have contiguous := parses.admits.contiguous
  have distinct := parses.admits.nodup_of_flat coherent flat
  constructor
  · exact parse.parents_first contiguous distinct
  · exact parse.ofTree_eq contiguous distinct (.refl _) parses.start_eq parses.stop_eq
  · exact parses.admits.contains_rule coherent
  · exact ⟨parse, rfl, parses, flat, alive⟩

theorem sample_result (coherent : problem.grammar.Coherent)
    (fits : problem.grammar.labelCount < numberLimit) (finite : problem.Finite)
    (draw : Draw σ EReal) (state : σ) :
    let chart := fill problem threshold
    let result := ((chart.sample draw).run state).1
    chart.isEmpty = true ∧ result = .ok none ∨
      chart.isEmpty = false ∧ ∃ spans, result = .ok (some spans) ∧
        Legal problem chart.live spans := by
  intro chart result
  have balanced := balanced_fill coherent fits threshold
  obtain ⟨run, member, same⟩ := tree_related (.follows σ)
    (fun options => follows_option draw options) chart state
  cases empty : chart.isEmpty with
  | true =>
    left
    rw [tree_of_empty empty, List.mem_singleton] at member
    subst member
    exact ⟨rfl, same.symm⟩
  | false =>
    right
    have given := List.mem_map_of_mem (f := fun run => (run.chance, run.result)) member
    rw [results_tree coherent finite balanced empty] at given
    obtain ⟨parse, survives, result'⟩ := List.mem_map.mp given
    obtain ⟨parses, flat, alive⟩ := (Problem.mem_parses coherent).mp survives
    exact ⟨rfl, parse.spans, same.symm.trans (Prod.mk.inj result').2.symm,
      legal_spans coherent parses flat alive⟩

/-- Whatever is drawn, the sampler does not fail. It gives no tree just if the chart has none, and
otherwise the spans of a legal tree. -/
theorem sample_legal {problem : Problem EReal} (built : problem.grammar.Built)
    (fits : problem.grammar.labelCount < numberLimit) (finite : problem.Finite)
    (threshold : EReal) (draw : Draw σ EReal) (state : σ) :
    let chart := fill problem threshold
    let result := ((chart.sample draw).run state).1
    (∀ error, result ≠ .error error) ∧ (result = .ok none ↔ chart.isEmpty = true) ∧
      ∀ spans, result = .ok (some spans) → Legal problem chart.live spans := by
  intro chart result
  rcases sample_result built.coherent fits finite draw state with
    ⟨empty, none⟩ | ⟨filled, spans, some, legal⟩
  · refine ⟨fun error failed => ?_, ⟨fun _ => empty, fun _ => none⟩, fun spans found => ?_⟩
    · cases none.symm.trans failed
    · cases none.symm.trans found
  · refine ⟨fun error failed => ?_, ⟨fun none => ?_, fun empty => ?_⟩, fun spans' found => ?_⟩
    · cases some.symm.trans failed
    · cases some.symm.trans none
    · cases filled.symm.trans empty
    · obtain rfl := Option.some.inj (Except.ok.inj (some.symm.trans found))
      exact legal

theorem sample_legal_row :
    ∃ spans, (((fill (.uniform Grammar.row twoWords) ⊤).sample
        (pure 0 : Draw Unit EReal)).run ()).1 = .ok (some spans) ∧
      Legal (.uniform Grammar.row twoWords) (fill (.uniform Grammar.row twoWords) ⊤).live
        spans := by
  have fits := Grammar.row_fits
  have finite := uniform_finite Grammar.row twoWords
  have coherent := Grammar.row_built.coherent
  obtain ⟨total, none, legal⟩ := @sample_legal Unit (.uniform Grammar.row twoWords)
    Grammar.row_built fits finite ⊤ (pure 0) ()
  have balanced := @balanced_fill (.uniform Grammar.row twoWords) coherent fits ⊤
  have parses := row_parses (.constant (Score.zero : EReal)) Option.none
  have live := allLive_of_unlimited coherent finite balanced parses.admits
    ⟨trivial, rfl, trivial⟩
  have trees := isEmpty_of_parse coherent finite balanced
    ((mem_parses coherent).mpr ⟨parses, ⟨trivial, rfl, trivial⟩, live⟩)
  cases result : (((fill (.uniform Grammar.row twoWords) ⊤).sample
      (pure 0 : Draw Unit EReal)).run ()).1 with
  | error error => exact absurd result (total error)
  | ok tree =>
    cases tree with
    | none => exact absurd (none.mp result) (Bool.eq_false_iff.mp trees)
    | some spans => exact ⟨spans, rfl, legal spans result⟩

end Constituency.MassChart
