import Mathlib
import Constituency.Proofs.Interleaving

/-!
What a search by restarts finds, in whatever order its workers take turns: a parse of the sentence
with the score that its spans have, at least that of every tree drawn, or none if the chart is
empty.
-/

namespace Constituency.Restarts

open Grammar MassChart

section Found

variable {problem : Problem EReal} {secondOrder : Bool} {plan : RestartPlan EReal}
  {best : Option (Derivation EReal)} {counts : ClimbCounts}
  {result : Except DecodeError (Option (Derivation EReal) × ClimbCounts)}

/-- What is found is a parse of the sentence with its own score. Every tree drawn scores at most as
much; if parents do not count and unary rules form no cycle, some tree of exact search scores at
least as much. -/
structure SoundAnswer (problem : Problem EReal) (secondOrder : Bool) (plan : RestartPlan EReal)
    (best : Option (Derivation EReal)) : Prop where
  none_iff : best = none ↔ (fill problem plan.threshold).isEmpty = true
  parse : ∀ found ∈ best, ∃ parse, problem.Parses parse ∧ parse.Flat ∧ found.spans = parse.spans
  scored : ∀ found ∈ best, problem.score secondOrder found.spans = .ok found.score
  above : ∀ found ∈ best, ∀ spans,
    .ok (some spans) ∈ samples (fill problem plan.threshold) plan →
      ∃ score, problem.score secondOrder spans = .ok score ∧ score ≤ found.score
  below : secondOrder = false → problem.grammar.Acyclic → ∀ found ∈ best, ∃ top,
    Exact.decode problem = .ok (some top) ∧ found.score ≤ top.score

theorem soundAnswer_none (empty : (fill problem plan.threshold).isEmpty = true) :
    SoundAnswer problem secondOrder plan none where
  none_iff := iff_of_true rfl empty
  parse := by simp
  scored := by simp
  above := by simp
  below := by simp

variable (coherent : problem.grammar.Coherent) (fits : problem.grammar.labelCount < numberLimit)
  (finite : problem.Finite) (restarts : 1 ≤ plan.restarts)

include coherent fits finite restarts

theorem Settled.soundAnswer {climbed : List (List Span)} {seen : Seen}
    (settled : Settled (fill problem plan.threshold) secondOrder plan.maxSweeps
      (samples (fill problem plan.threshold) plan) climbed seen best counts)
    (filled : (fill problem plan.threshold).isEmpty = false) :
    SoundAnswer problem secondOrder plan best := by
  have drawable := drawable_fill plan coherent fits finite
  have same := (balanced_fill coherent fits plan.threshold).sized.problem_eq
  obtain ⟨spans, member⟩ := exists_drawn plan coherent fits finite filled restarts
  obtain ⟨top, here, _⟩ := settled.exists_above drawable member
  obtain rfl := Option.mem_def.mp here
  obtain ⟨final, rfl, sound⟩ := settled.exists_sound drawable rfl
  have above (spans : List Span)
      (drew : .ok (some spans) ∈ samples (fill problem plan.threshold) plan) :=
    settled.exists_above drawable drew
  rw [same] at sound above
  constructor
  · simp [filled]
  · rintro found ⟨rfl⟩
    exact ⟨_, sound.parses, final.tree.flat_parse, sound.spans_eq⟩
  · rintro found ⟨rfl⟩
    exact sound.score_spans coherent
  · rintro found ⟨rfl⟩ spans drew
    obtain ⟨other, here, low⟩ := above spans drew
    obtain rfl := Option.some.inj here
    exact low
  · rintro rfl acyclic found ⟨rfl⟩
    exact sound.exists_exact coherent fits finite acyclic

/-- A search finds a sound answer if it finds nothing where there is no tree and otherwise accounts
for all draws. -/
theorem exists_soundAnswer
    (nothing : problem.sentence.isEmpty = true ∨ (fill problem plan.threshold).isEmpty = true →
      result = .ok (none, {}))
    (answers : problem.sentence.isEmpty = false → (fill problem plan.threshold).isEmpty = false →
      Answers (fill problem plan.threshold) secondOrder plan result) :
    ∃ best counts, result = .ok (best, counts) ∧ SoundAnswer problem secondOrder plan best := by
  cases empty : (fill problem plan.threshold).isEmpty with
  | true => exact ⟨none, {}, nothing (.inr empty), soundAnswer_none empty⟩
  | false =>
    have words : problem.sentence.isEmpty = false := by
      rw [← Bool.not_eq_true, problem.isEmpty_iff]
      intro length
      have lost := roots_of_no_words (balanced_fill coherent fits plan.threshold) length
      rw [isEmpty, lost] at empty
      cases empty
    have ends := answers words empty
    cases result with
    | error error =>
      obtain ⟨sample, member, fails⟩ := ends
      exact absurd fails ((drawable_fill plan coherent fits finite).not_fails member)
    | ok answer =>
      obtain ⟨climbed, seen, settled⟩ := ends
      exact ⟨answer.1, answer.2, rfl,
        settled.soundAnswer coherent fits finite restarts empty⟩

end Found

/-- Search by restarts never fails and finds a sound answer, be it with one worker after another or
with workers that take turns in any way. -/
theorem decode_never_fails {problem : Problem EReal} (built : problem.grammar.Built)
    (fits : problem.grammar.labelCount < numberLimit) (finite : problem.Finite)
    (secondOrder : Bool) (plan : RestartPlan EReal) (restarts : 1 ≤ plan.restarts) :
    (∃ best counts, decode problem secondOrder plan = .ok (best, counts) ∧
      SoundAnswer problem secondOrder plan best) ∧
    ∀ schedule,
      (Crew.run (fill problem plan.threshold) secondOrder plan schedule).isDone = true →
        ∃ best counts, decodeBy problem secondOrder plan schedule = .ok (best, counts) ∧
          SoundAnswer problem secondOrder plan best := by
  constructor
  · refine exists_soundAnswer built.coherent fits finite restarts (fun none => ?_)
      fun words filled => decode_answers words secondOrder rfl filled
    rcases none with none | none <;> simp [decode, none] <;> rfl
  · intro schedule done
    refine exists_soundAnswer built.coherent fits finite restarts (fun none => ?_)
      fun words filled => decodeBy_answers words secondOrder filled done
    rcases none with none | none <;> simp [decodeBy, none]

/-- Two workers in turn find a parse that scores at most as much as the best one. -/
theorem decode_never_fails_row : ∃ found counts top,
    decodeBy (.uniform row twoWords) false twoWorkers (List.replicate 9 [1, 0]).flatten =
        .ok (some found, counts) ∧
      (∃ parse, Problem.Parses (.uniform row twoWords) parse ∧ found.spans = parse.spans) ∧
      Exact.decode (.uniform row twoWords) = .ok (some top) ∧ found.score ≤ top.score := by
  have done : (Crew.run (fill (.uniform row twoWords) (⊤ : EReal)) false twoWorkers
      (List.replicate 9 [1, 0]).flatten).isDone = true :=
    Crew.isDone_run _ _ _ (by decide)
  obtain ⟨best, counts, ok, sound⟩ := (@decode_never_fails (.uniform row twoWords) row_built
    row_fits (Problem.uniform_finite _ _) false twoWorkers (by decide)).2 _ done
  cases best with
  | none => cases isEmpty_row.symm.trans (sound.none_iff.mp rfl)
  | some found =>
    obtain ⟨parse, parses, _, spans⟩ := sound.parse found rfl
    obtain ⟨top, best, low⟩ := sound.below rfl row_acyclic found rfl
    exact ⟨found, counts, top, ok, ⟨parse, parses, spans⟩, best, low⟩

end Constituency.Restarts
