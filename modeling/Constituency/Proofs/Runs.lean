import Mathlib
import Constituency.Sampling.TreeSample
import Constituency.Proofs.DrawnPlace

/-!
All runs of a program that makes choices. A run keeps its choices and the product of their
probabilities; no two runs of one program choose alike.
-/

namespace Constituency

open Score ExtendedReal

/-- A choice of one of some options: the logarithms of their weights, and the place of the one. -/
structure Chosen where
  weights : List EReal
  place : Nat

/-- The numbers from zero up to one that lead to a choice. -/
def Chosen.numbers (chosen : Chosen) : Set ℝ :=
  {number | Draw.FallsOn (Draw.chances chosen.weights) number chosen.place}

/-- One way for a program to go. -/
structure Run (β : Type) where
  choices : List Chosen
  chance : ENNReal
  result : β

structure Runs (β : Type) where
  all : List (Run β)

namespace Run

variable {β γ : Type}

def places (run : Run β) : List Nat := run.choices.map Chosen.place

noncomputable def follow (run : Run β) (next : Run γ) : Run γ :=
  ⟨run.choices ++ next.choices, run.chance * next.chance, next.result⟩

theorem places_follow (run : Run β) (next : Run γ) :
    (run.follow next).places = run.places ++ next.places :=
  List.map_append

end Run

namespace Runs

variable {β γ : Type}

noncomputable instance : Monad Runs where
  pure value := ⟨[⟨[], 1, value⟩]⟩
  bind runs rest := ⟨runs.all.flatMap fun run => (rest run.result).all.map run.follow⟩

theorem bind_all (runs : Runs β) (rest : β → Runs γ) :
    (runs >>= rest).all = runs.all.flatMap fun run => (rest run.result).all.map run.follow :=
  rfl

/-- Every choice of one of some options, by the logarithms of their weights. -/
noncomputable def pick : MassChart.Choice Runs EReal := fun options =>
  let chances := LogScore.normalize (options.map Prod.snd)
  if chances.isEmpty then pure none
  else ⟨(options.zip chances).zipIdx.map fun ((option, chance), place) =>
    ⟨[⟨options.map Prod.snd, place⟩], chance.toENNReal, some option.1⟩⟩

theorem pick_eq {options : List (β × EReal)}
    (present : LogScore.logSum (options.map Prod.snd) ≠ ⊥) :
    (pick options).all = options.zipIdx.map fun option =>
      ⟨[⟨options.map Prod.snd, option.2⟩],
        EReal.exp (option.1.2 - LogScore.logSum (options.map Prod.snd)), some option.1.1⟩ := by
  have chances := normalize_of_present _ present
  have some : options ≠ [] := by
    intro none
    apply present
    rw [none, logSum_eq_bot_iff]
    simp
  generalize LogScore.logSum (options.map Prod.snd) = total at chances
  rw [List.map_map] at chances
  unfold pick
  rw [chances]
  simp only [List.isEmpty_map, List.isEmpty_eq_false_iff.mpr some, Bool.false_eq_true, if_false]
  change (options.zip (options.map fun option => ((EReal.exp (option.2 - total) : ENNReal) :
    EReal))).zipIdx.map _ = _
  rw [← List.map_prod_left_eq_zip, List.zipIdx_map, List.map_map]
  apply List.map_congr_left
  intro item _
  simp

theorem mem_pick_iff {options : List (β × EReal)}
    (present : LogScore.logSum (options.map Prod.snd) ≠ ⊥) {run : Run (Option β)} :
    run ∈ (pick options).all ↔ ∃ place option, options[place]? = some option ∧
      ⟨[⟨options.map Prod.snd, place⟩],
        EReal.exp (option.2 - LogScore.logSum (options.map Prod.snd)), some option.1⟩ = run := by
  rw [pick_eq present, List.mem_map]
  constructor
  · rintro ⟨⟨option, place⟩, listed, rfl⟩
    exact ⟨place, option, List.mem_zipIdx_iff_getElem?.mp listed, rfl⟩
  · rintro ⟨place, option, found, rfl⟩
    exact ⟨(option, place), List.mem_zipIdx_iff_getElem?.mpr found, rfl⟩

theorem pick_of_absent {options : List (β × EReal)}
    (absent : LogScore.logSum (options.map Prod.snd) = ⊥) :
    (pick options).all = [⟨[], 1, none⟩] := by
  unfold pick LogScore.normalize
  rw [absent]
  simp
  rfl

def outcomes (runs : Runs β) : List (ENNReal × β) :=
  runs.all.map fun run => (run.chance, run.result)

theorem outcomes_pick {options : List (β × EReal)}
    (present : LogScore.logSum (options.map Prod.snd) ≠ ⊥) :
    outcomes (pick options) = options.map fun option =>
      (EReal.exp (option.2 - LogScore.logSum (options.map Prod.snd)), some option.1) := by
  unfold outcomes
  rw [pick_eq present, List.map_map]
  have places := List.zipIdx_map_fst 0 options
  generalize LogScore.logSum (options.map Prod.snd) = total
  calc _ = (options.zipIdx.map Prod.fst).map fun option =>
        (EReal.exp (option.2 - total), some option.1) := by rw [List.map_map]; rfl
    _ = _ := by rw [places]

theorem outcomes_bind (runs : Runs β) (rest : β → Runs γ) :
    outcomes (runs >>= rest) = (outcomes runs).flatMap fun first =>
      (outcomes (rest first.2)).map fun next => (first.1 * next.1, next.2) := by
  unfold outcomes
  rw [bind_all, List.map_flatMap, List.flatMap_map]
  apply List.flatMap_congr
  intro run _
  rw [List.map_map, List.map_map]
  rfl

/-- A program does not fail, and its runs give these values with these probabilities. -/
def Yields (program : ExceptT DecodeError Runs β) (values : List (ENNReal × β)) : Prop :=
  outcomes program.run = values.map fun value => (value.1, .ok value.2)

theorem Yields.pure (value : β) :
    Yields (Pure.pure value : ExceptT DecodeError Runs β) [(1, value)] :=
  rfl

theorem Yields.lift (runs : Runs β) :
    Yields (ExceptT.lift runs : ExceptT DecodeError Runs β) (outcomes runs) := by
  have opened : (ExceptT.lift runs : ExceptT DecodeError Runs β).run =
      (runs >>= fun value => Pure.pure (Except.ok value)) := rfl
  unfold Yields
  rw [opened, outcomes_bind, List.map_eq_flatMap]
  apply List.flatMap_congr
  intro value _
  simp [outcomes, Pure.pure]

theorem Yields.bind {program : ExceptT DecodeError Runs β} {values : List (ENNReal × β)}
    {rest : β → ExceptT DecodeError Runs γ} (first : Yields program values)
    (next : β → List (ENNReal × γ))
    (after : ∀ value ∈ values, Yields (rest value.2) (next value.2)) :
    Yields (program >>= rest) (values.flatMap fun value =>
      (next value.2).map fun last => (value.1 * last.1, last.2)) := by
  have opened : (program >>= rest).run = (program.run >>= ExceptT.bindCont rest) := rfl
  unfold Yields
  rw [opened, outcomes_bind, first, List.flatMap_map, List.map_flatMap]
  apply List.flatMap_congr
  intro value member
  have last : outcomes (ExceptT.bindCont rest (.ok value.2)) = _ := after value member
  rw [last, List.map_map, List.map_map]
  rfl

theorem Yields.map {program : ExceptT DecodeError Runs β} {values : List (ENNReal × β)}
    (first : Yields program values) (change : β → γ) :
    Yields (program >>= fun value => Pure.pure (change value))
      (values.map fun value => (value.1, change value.2)) := by
  have listed : values.map (fun value => (value.1, change value.2)) =
      values.flatMap fun value =>
        [((1 : ENNReal), change value.2)].map fun last => (value.1 * last.1, last.2) := by
    rw [List.map_eq_flatMap]
    simp
  rw [listed]
  apply first.bind fun value => [(1, change value)]
  intro value _
  exact Yields.pure _

/-- No run has made all choices of another one and then more. -/
def Apart (runs : Runs β) : Prop :=
  runs.all.Pairwise fun run other =>
    ¬ run.places <+: other.places ∧ ¬ other.places <+: run.places

theorem Apart.nodup {runs : Runs β} (apart : runs.Apart) : (runs.all.map Run.places).Nodup := by
  unfold List.Nodup
  rw [List.pairwise_map]
  apply apart.imp
  intro run other differ same
  exact differ.1 (same ▸ List.prefix_refl _)

theorem Apart.pure (value : β) : Apart (Pure.pure value : Runs β) :=
  List.pairwise_singleton _ _

theorem Apart.bind {runs : Runs β} {rest : β → Runs γ} (first : runs.Apart)
    (after : ∀ value, (rest value).Apart) : (runs >>= rest).Apart := by
  unfold Apart
  rw [bind_all, List.pairwise_flatMap]
  constructor
  · intro run _
    rw [List.pairwise_map]
    apply (after run.result).imp
    intro next other differ
    simp only [Run.places_follow, List.prefix_append_right_inj]
    exact differ
  · apply first.imp
    intro run other differ next member next' member'
    obtain ⟨last, _, rfl⟩ := List.mem_map.mp member
    obtain ⟨last', _, rfl⟩ := List.mem_map.mp member'
    have never (whole : List Nat) : run.places <+: whole → ¬ other.places <+: whole := by
      intro here there
      rcases List.prefix_or_prefix_of_prefix here there with early | late
      · exact differ.1 early
      · exact differ.2 late
    rw [Run.places_follow, Run.places_follow]
    constructor
    · intro extends'
      exact never _ ((List.prefix_append _ _).trans extends') (List.prefix_append _ _)
    · intro extends'
      exact never _ (List.prefix_append _ _) ((List.prefix_append _ _).trans extends')

theorem Apart.pick (options : List (β × EReal)) : (pick options).Apart := by
  by_cases absent : LogScore.logSum (options.map Prod.snd) = ⊥
  · unfold Apart
    rw [pick_of_absent absent]
    exact List.pairwise_singleton _ _
  · unfold Apart
    rw [pick_eq absent, List.pairwise_map]
    have places : (options.zipIdx.map Prod.snd).Nodup := by
      rw [List.zipIdx_map_snd]
      exact List.nodup_range'
    apply (List.pairwise_map.mp places).imp
    intro option other differ
    simp [Run.places, differ, Ne.symm differ]

end Runs

/-- A relation between programs of two kinds that is kept when programs are put together. -/
structure Parametric (m m' : Type → Type) [Monad m] [Monad m'] where
  rel : ∀ {β : Type}, m β → m' β → Prop
  pure : ∀ {β : Type} (value : β), rel (Pure.pure value) (Pure.pure value)
  map : ∀ {β γ : Type} (change : β → γ) {first : m β} {first' : m' β}, rel first first' →
    rel (change <$> first) (change <$> first')
  bind : ∀ {β γ : Type} {first : m β} {first' : m' β} {rest : β → m γ} {rest' : β → m' γ},
    rel first first' → (∀ value, rel (rest value) (rest' value)) →
      rel (first >>= rest) (first' >>= rest')

namespace Parametric

variable {m m' : Type → Type} [Monad m] [Monad m'] (related : Parametric m m') {β γ ε σ : Type}

theorem bind_run {first : ExceptT ε m β} {first' : ExceptT ε m' β} {rest : β → ExceptT ε m γ}
    {rest' : β → ExceptT ε m' γ} (here : related.rel first.run first'.run)
    (after : ∀ value, related.rel (rest value).run (rest' value).run) :
    related.rel (first >>= rest).run (first' >>= rest').run := by
  apply related.bind here
  intro value
  cases value with
  | ok value => exact after value
  | error error => exact related.pure _

def apart : Parametric Runs Runs where
  rel runs _ := runs.Apart
  pure := .pure
  map := by
    intro β γ change first first' here
    exact Runs.Apart.bind here fun _ => .pure _
  bind := .bind

/-- From every state a program ends like one of some runs. -/
noncomputable def follows (σ : Type) : Parametric (StateM σ) Runs where
  rel program runs := ∀ state, ∃ run ∈ runs.all, run.result = (program state).1
  pure value _ := ⟨⟨[], 1, value⟩, List.mem_singleton_self _, rfl⟩
  map := by
    intro β γ change first first' here state
    obtain ⟨run, member, result⟩ := here state
    refine ⟨run.follow ⟨[], 1, change run.result⟩, ?_, congrArg change result⟩
    exact List.mem_flatMap.mpr ⟨run, member, List.mem_singleton_self _⟩
  bind := by
    intro β γ first first' rest rest' here after state
    obtain ⟨run, member, result⟩ := here state
    obtain ⟨next, inside, last⟩ := after run.result (first state).2
    refine ⟨run.follow next, ?_, ?_⟩
    · rw [Runs.bind_all, List.mem_flatMap]
      exact ⟨run, member, List.mem_map_of_mem inside⟩
    · rw [result] at last
      exact last

end Parametric

end Constituency
