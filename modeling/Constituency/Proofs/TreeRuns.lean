import Mathlib
import Constituency.Proofs.Runs
import Constituency.Proofs.DrawnPlace

/-!
The runs of the sampler. Programs that choose in related ways choose related trees; so no two runs
choose alike, and a tree that is drawn is one that a run gives.
-/

namespace Constituency.MassChart

open Score LogScore ExtendedReal

section Related

variable {m m' : Type → Type} [Monad m] [Monad m'] {chart : MassChart EReal}

theorem choose_related (related : Parametric m m') {choice : Choice m EReal}
    {choice' : Choice m' EReal}
    (each : ∀ {β : Type} (options : List (β × EReal)),
      related.rel (choice options) (choice' options))
    {β : Type} (item : Item) (options : List (β × EReal)) :
    related.rel (choose choice item options).run (choose choice' item options).run := by
  apply related.bind_run
  · exact related.map _ (each options)
  · intro value
    cases value with
    | none => exact related.pure _
    | some option => exact related.pure _

theorem treeAfter_related (related : Parametric m m') {choice : Choice m EReal}
    {choice' : Choice m' EReal}
    (each : ∀ {β : Type} (options : List (β × EReal)),
      related.rel (choice options) (choice' options))
    (start stop : Nat) (label : Label) :
    related.rel (chart.treeAfter choice start stop label).run
      (chart.treeAfter choice' start stop label).run := by
  induction width : stop - start using Nat.strong_induction_on generalizing start stop label with
  | h width ih =>
    subst width
    have before (label : Label) : related.rel (chart.treeBefore choice start stop label).run
        (chart.treeBefore choice' start stop label).run := by
      rw [treeBefore, treeBefore]
      split
      · split
        · exact related.bind_run (related.pure _) fun _ => related.pure _
        · exact related.pure _
      · apply related.bind_run (choose_related related each _ _)
        intro option
        simp only
        split
        · rename_i inside
          apply related.bind_run (ih _ (by omega) _ _ _ rfl)
          intro left
          apply related.bind_run (ih _ (by omega) _ _ _ rfl)
          intro right
          exact related.pure _
        · exact related.pure _
    rw [treeAfter, treeAfter]
    apply related.bind_run (choose_related related each _ _)
    intro option
    cases option with
    | none => exact before label
    | some child =>
      apply related.bind_run (before child)
      intro spans
      exact related.pure _

theorem tree_related (related : Parametric m m') {choice : Choice m EReal}
    {choice' : Choice m' EReal}
    (each : ∀ {β : Type} (options : List (β × EReal)),
      related.rel (choice options) (choice' options)) (chart : MassChart EReal) :
    related.rel (chart.tree choice).run (chart.tree choice').run := by
  unfold tree
  apply related.bind_run
  · exact related.map _ (each chart.roots)
  · intro root
    cases root with
    | none => exact related.pure _
    | some root =>
      apply related.bind_run (treeAfter_related related each _ _ _)
      intro spans
      exact related.pure _

end Related

section Drawn

variable {σ : Type}

/-- A draw chooses one of the options, or none where there is none. -/
theorem follows_option (draw : Draw σ EReal) {β : Type} (options : List (β × EReal)) :
    (Parametric.follows σ).rel (draw.option options) (Runs.pick options) := by
  intro state
  by_cases absent : ∀ weight ∈ options.map Prod.snd, weight = ⊥
  · rw [Runs.pick_of_absent ((logSum_eq_bot_iff _).mpr absent), Draw.option_apply,
      Draw.place_of_absent absent]
    exact ⟨_, List.mem_singleton_self _, rfl⟩
  · have present : ExtendedReal.total (options.map Prod.snd) ≠ 0 :=
      mt (total_eq_zero_iff _).mp absent
    rw [Draw.option_apply, Draw.place_of_present present]
    have inside := Draw.placeOf_lt (draw state).1 present
    rw [List.length_map] at inside
    have found := List.getElem?_eq_getElem inside
    have some := mt (logSum_eq_bot_iff _).mp absent
    refine ⟨_, (Runs.mem_pick_iff some).mpr ⟨_, _, found, rfl⟩, ?_⟩
    rw [Option.bind_some, found, Option.map_some]

end Drawn

end Constituency.MassChart
