import Mathlib
import Constituency.Search.Interleaving
import Constituency.Proofs.RestartSearch

/-!
Workers side by side. Whatever the schedule, a tree that is drawn is entered once and climbed from
once, by whichever worker comes first, so that the accounts of all workers together are those of
workers that run one after another.
-/

namespace Constituency.Restarts

open Fold

variable {chart : MassChart EReal} {secondOrder : Bool} {maxSweeps : Nat}

namespace Runner

/-- The trees that a worker has climbed from or is about to climb from. -/
def begun (runner : Runner EReal) : List (List Span) :=
  match runner.task with
  | .climb spans => runner.climbed ++ [spans]
  | _ => runner.climbed

variable (chart secondOrder maxSweeps) in
/-- What a worker keeps of its draws from turn to turn. After an error only the cause is known. -/
def Keeps (own : List (Except DecodeError (Option (List Span)))) (runner : Runner EReal) : Prop :=
  let climb := Climb.ofSpans chart.problem secondOrder maxSweeps
  let Holds (drawn : List (Option (List Span))) (pending : Nat) :=
    own = drawn.map .ok ++ draws chart runner.left runner.stream ∧
      Accounts climb drawn runner.climbed pending runner.best runner.counts
  match runner.task with
  | .draw => Holds runner.tried 0
  | .enter spans => Holds (runner.tried ++ [some spans]) 1
  | .climb spans => Holds runner.tried 1 ∧ some spans ∈ runner.tried
  | .fail _ => ∃ sample ∈ own, Fails climb sample

variable {own : List (Except DecodeError (Option (List Span)))} {runner : Runner EReal}

theorem Keeps.draw {left : Nat} (keeps : Keeps chart secondOrder maxSweeps own runner)
    (task : runner.task = .draw) (more : runner.left = left + 1) :
    Keeps chart secondOrder maxSweeps own (runner.draw chart left) := by
  obtain ⟨stream, _, _, best, counts, tried, climbed⟩ := runner
  subst task more
  obtain ⟨whole, accounts⟩ := keeps
  rcases given : (chart.sample Draw.ofKeystream).run stream with ⟨sample, next⟩
  simp only [draws, given] at whole
  simp only [Runner.draw, given]
  cases sample with
  | error error =>
    refine ⟨.error error, ?_, .inl ⟨error, rfl⟩⟩
    rw [whole]
    simp
  | ok tree =>
    cases tree with
    | none => exact ⟨by simp [whole], accounts.drawNone⟩
    | some spans => exact ⟨by simp [whole], accounts.drawSome spans⟩

theorem Keeps.enter {spans : List Span} (keeps : Keeps chart secondOrder maxSweeps own runner)
    (task : runner.task = .enter spans) (seen : Seen) :
    Keeps chart secondOrder maxSweeps own (runner.enter seen spans).2 := by
  obtain ⟨stream, left, _, best, counts, tried, climbed⟩ := runner
  subst task
  obtain ⟨whole, accounts⟩ := keeps
  simp only [Runner.enter]
  split
  · exact ⟨whole, accounts.duplicate⟩
  · exact ⟨⟨whole, accounts⟩, by simp⟩

theorem Keeps.climb {spans : List Span} (keeps : Keeps chart secondOrder maxSweeps own runner)
    (task : runner.task = .climb spans) :
    Keeps chart secondOrder maxSweeps own (runner.climb chart secondOrder maxSweeps spans) := by
  obtain ⟨stream, left, _, best, counts, tried, climbed⟩ := runner
  subst task
  obtain ⟨⟨whole, accounts⟩, member⟩ := keeps
  simp only [Runner.climb]
  cases ok : Climb.ofSpans chart.problem secondOrder maxSweeps spans with
  | error error =>
    refine ⟨.ok (some spans), ?_, .inr ⟨spans, error, rfl, ok⟩⟩
    rw [whole]
    exact List.mem_append_left _ (List.mem_map_of_mem member)
  | ok final => exact ⟨whole, accounts.climbs ok⟩

theorem Keeps.turn (keeps : Keeps chart secondOrder maxSweeps own runner) (seen : Seen) :
    Keeps chart secondOrder maxSweeps own (runner.turn chart secondOrder maxSweeps seen).2 := by
  simp only [Runner.turn]
  split
  · rename_i task more
    exact keeps.draw task more
  · rename_i task
    exact keeps.enter task seen
  · rename_i task
    exact keeps.climb task
  · exact keeps

/-- A turn keeps what was entered, along with what other workers have entered. -/
theorem entered_turn {drawn : List (Option (List Span))} {climbed : List (List Span)} {seen : Seen}
    (entered : Entered (drawn ++ runner.tried) (climbed ++ runner.begun) seen) :
    Entered (drawn ++ (runner.turn chart secondOrder maxSweeps seen).2.tried)
      (climbed ++ (runner.turn chart secondOrder maxSweeps seen).2.begun)
      (runner.turn chart secondOrder maxSweeps seen).1 := by
  obtain ⟨stream, left, task, best, counts, tried, begun'⟩ := runner
  cases task with
  | draw =>
    cases left with
    | zero => exact entered
    | succ left =>
      simp only [Runner.turn, Runner.draw]
      rcases (chart.sample Draw.ofKeystream).run stream with ⟨sample, next⟩
      cases sample with
      | error error => exact entered
      | ok tree =>
        cases tree with
        | none =>
          rw [← List.append_assoc]
          exact entered.drawNone
        | some spans => exact entered
  | enter spans =>
    simp only [Runner.turn, Runner.enter]
    split
    · rename_i old
      rw [← List.append_assoc]
      exact entered.duplicate old
    · rename_i new
      simp only [Runner.begun]
      rw [← List.append_assoc, ← List.append_assoc]
      exact entered.fresh (Bool.eq_false_of_not_eq_true new)
  | climb spans =>
    -- The key of the tree was taken when it was entered, so that even a failing climb changes nothing.
    simp only [Runner.turn, Runner.climb]
    cases Climb.ofSpans chart.problem secondOrder maxSweeps spans <;> exact entered
  | fail error => exact entered

theorem begun_eq (done : runner.isDone = true) : runner.begun = runner.climbed := by
  obtain ⟨stream, left, task, best, counts, tried, climbed⟩ := runner
  cases task with
  | draw => rfl
  | enter spans => rfl
  | climb spans => cases done
  | fail error => rfl

theorem Keeps.answer_ends (keeps : Keeps chart secondOrder maxSweeps own runner)
    (done : runner.isDone = true) :
    Ends (fun result => own = runner.tried.map .ok ∧
        Accounts (Climb.ofSpans chart.problem secondOrder maxSweeps) runner.tried runner.climbed 0
          result.1 result.2)
      (fun _ => ∃ sample ∈ own, Fails (Climb.ofSpans chart.problem secondOrder maxSweeps) sample)
      runner.answer := by
  obtain ⟨stream, left, task, best, counts, tried, climbed⟩ := runner
  cases task with
  | draw =>
    obtain rfl : left = 0 := beq_iff_eq.mp done
    obtain ⟨whole, accounts⟩ := keeps
    exact ⟨by simpa [draws] using whole, accounts⟩
  | enter spans => cases done
  | climb spans => cases done
  | fail error => exact keeps

/-- How many turns a worker needs at most. -/
def work {α : Type} (runner : Runner α) : Nat :=
  match runner.task with
  | .draw => 3 * runner.left
  | .enter _ => 3 * runner.left + 2
  | .climb _ => 3 * runner.left + 1
  | .fail _ => 0

theorem isDone_of_work {α : Type} {runner : Runner α} (none : runner.work = 0) :
    runner.isDone = true := by
  obtain ⟨stream, left, task, best, counts, tried, climbed⟩ := runner
  cases task with
  | draw => exact beq_iff_eq.mpr (by simpa [work] using none)
  | enter spans => cases none
  | climb spans => cases none
  | fail error => rfl

theorem work_turn {α : Type} [LogScore α] (chart : MassChart α) (secondOrder : Bool)
    (maxSweeps : Nat) (seen : Seen) (runner : Runner α) :
    (runner.turn chart secondOrder maxSweeps seen).2.work ≤ runner.work - 1 := by
  obtain ⟨stream, left, task, best, counts, tried, climbed⟩ := runner
  cases task with
  | draw =>
    cases left with
    | zero => exact Nat.zero_le _
    | succ left =>
      simp only [turn, draw]
      rcases (chart.sample Draw.ofKeystream).run stream with ⟨_ | _ | _, _⟩ <;>
        simp only [work] <;> omega
  | enter spans =>
    simp only [turn, enter]
    split <;> simp only [work] <;> omega
  | climb spans =>
    simp only [turn, Runner.climb]
    split <;> simp only [work] <;> omega
  | fail error => exact Nat.zero_le _

end Runner

namespace Crew

section Turns

variable {α : Type} [LogScore α]

theorem getElem?_turn (chart : MassChart α) (secondOrder : Bool) (maxSweeps : Nat) (crew : Crew α)
    (number other : Nat) :
    (crew.turn chart secondOrder maxSweeps number).runners[other]? =
      if number = other then
        crew.runners[other]?.map fun runner =>
          (runner.turn chart secondOrder maxSweeps crew.seen).2
      else crew.runners[other]? := by
  simp only [turn]
  split
  · rename_i absent
    split
    · rename_i same
      rw [← same, absent]
      rfl
    · rfl
  · rename_i runner there
    obtain ⟨inside, _⟩ := List.getElem?_eq_some_iff.mp there
    rw [List.getElem?_set, if_pos inside]
    split
    · rename_i same
      rw [← same, there]
      rfl
    · rfl

theorem work_le (chart : MassChart α) (secondOrder : Bool) (maxSweeps : Nat) (number : Nat)
    (schedule : List Nat) (crew : Crew α) :
    ∀ runner ∈ (schedule.foldl (turn chart secondOrder maxSweeps) crew).runners[number]?,
      ∃ before ∈ crew.runners[number]?, runner.work ≤ before.work - schedule.count number := by
  induction schedule generalizing crew with
  | nil => exact fun runner here => ⟨runner, here, by simp⟩
  | cons first schedule ih =>
    intro runner here
    obtain ⟨next, there, low⟩ := ih _ runner here
    rw [getElem?_turn] at there
    split at there
    · rename_i same
      obtain ⟨before, first', rfl⟩ := Option.mem_map.mp there
      have less := Runner.work_turn chart secondOrder maxSweeps crew.seen before
      refine ⟨before, first', ?_⟩
      rw [same, List.count_cons_self]
      omega
    · rename_i other
      refine ⟨next, there, ?_⟩
      rwa [List.count_cons_of_ne other]

/-- A schedule that gives every worker three turns for each of its restarts lets all of them end. -/
theorem isDone_run (chart : MassChart α) (secondOrder : Bool) (plan : RestartPlan α)
    {schedule : List Nat}
    (often : ∀ number < max plan.workers 1, 3 * plan.restarts ≤ schedule.count number) :
    (run chart secondOrder plan schedule).isDone = true := by
  refine List.all_eq_true.mpr fun runner member => ?_
  obtain ⟨number, here⟩ := List.mem_iff_getElem?.mp member
  obtain ⟨before, there, low⟩ :=
    work_le chart secondOrder plan.maxSweeps number schedule (start plan) runner here
  simp only [start, List.getElem?_map, Option.mem_map] at there
  obtain ⟨place, there, rfl⟩ := there
  obtain ⟨inside, rfl⟩ := List.getElem?_eq_some_iff.mp there
  have enough := often number (by simpa using inside)
  refine Runner.isDone_of_work (Nat.le_zero.mp (low.trans ?_))
  exact (Nat.sub_eq_zero_of_le enough).le

end Turns

section Sound

variable {plan : RestartPlan EReal} {crew : Crew EReal}

def tried (crew : Crew EReal) : List (Option (List Span)) := crew.runners.flatMap Runner.tried

def begun (crew : Crew EReal) : List (List Span) := crew.runners.flatMap Runner.begun

variable (chart secondOrder plan) in
/-- Every worker keeps to its own draws, and the trees seen are those that the workers have entered
between them. -/
structure Sound (crew : Crew EReal) : Prop where
  length : crew.runners.length = max plan.workers 1
  each (number : Nat) (runner : Runner EReal) (here : runner ∈ crew.runners[number]?) :
    runner.Keeps chart secondOrder plan.maxSweeps (workerDraws chart plan number)
  entered : Entered crew.tried crew.begun crew.seen

theorem sound_start (chart : MassChart EReal) (secondOrder : Bool) (plan : RestartPlan EReal) :
    Sound chart secondOrder plan (start plan) where
  length := by simp [start]
  each number runner here := by
    simp only [start, List.getElem?_map, Option.mem_map] at here
    obtain ⟨place, there, rfl⟩ := here
    obtain ⟨inside, same⟩ := List.getElem?_eq_some_iff.mp there
    rw [List.getElem_range] at same
    subst same
    exact ⟨rfl, .nil⟩
  entered := by
    have nothing : (start plan).tried = [] := by simp [tried, start, List.flatMap_map]
    have nothing' : (start plan).begun = [] := by
      simp [begun, start, List.flatMap_map, Runner.begun]
    rw [nothing, nothing']
    exact .nil

theorem entered_iff {front back : List (Runner EReal)} {runner : Runner EReal} {seen : Seen} :
    Entered (tried ⟨seen, front ++ runner :: back⟩) (begun ⟨seen, front ++ runner :: back⟩) seen ↔
      Entered ((front ++ back).flatMap Runner.tried ++ runner.tried)
        ((front ++ back).flatMap Runner.begun ++ runner.begun) seen := by
  have apart {β : Type} (view : Runner EReal → List β) :
      ((front ++ runner :: back).flatMap view).Perm ((front ++ back).flatMap view ++ view runner) :=
    (List.perm_middle.flatMap_right view).trans List.perm_append_comm
  exact ⟨fun entered => entered.perm (fun _ => (apart _).mem_iff.symm) (apart _).symm,
    fun entered => entered.perm (fun _ => (apart _).mem_iff) (apart _)⟩

theorem Sound.turn (sound : Sound chart secondOrder plan crew) (number : Nat) :
    Sound chart secondOrder plan (crew.turn chart secondOrder plan.maxSweeps number) := by
  obtain ⟨length, each, entered⟩ := sound
  refine ⟨?_, fun other runner here => ?_, ?_⟩
  · simp only [Crew.turn]
    split
    · exact length
    · rw [List.length_set]
      exact length
  · rw [getElem?_turn] at here
    split at here
    · obtain ⟨before, there, rfl⟩ := Option.mem_map.mp here
      exact (each other before there).turn crew.seen
    · exact each other runner here
  · obtain ⟨seen, runners⟩ := crew
    simp only [Crew.turn]
    split
    · exact entered
    · rename_i runner there
      obtain ⟨inside, rfl⟩ := List.getElem?_eq_some_iff.mp there
      have split : runners = runners.take number ++ runners[number] :: runners.drop (number + 1) := by
        rw [← List.drop_eq_getElem_cons inside, List.take_append_drop]
      rw [split] at entered
      rw [List.set_eq_take_append_cons_drop, if_pos inside]
      -- All that the others have entered stands before what this worker has, as in `entered_turn`.
      exact entered_iff.mpr (Runner.entered_turn (entered_iff.mp entered))

theorem sound_run (chart : MassChart EReal) (secondOrder : Bool) (plan : RestartPlan EReal)
    (schedule : List Nat) : Sound chart secondOrder plan (run chart secondOrder plan schedule) :=
  foldl_holds (fun _ crew => Sound chart secondOrder plan crew) (sound_start ..)
    fun _ number _ _ _ sound => sound.turn number

theorem Sound.entered_climbed (sound : Sound chart secondOrder plan crew)
    (done : crew.isDone = true) : Entered crew.tried crew.climbed crew.seen := by
  have same : crew.begun = crew.climbed :=
    List.flatMap_congr fun runner member => runner.begun_eq (List.all_eq_true.mp done runner member)
  rw [← same]
  exact sound.entered

theorem Sound.runner_ends (sound : Sound chart secondOrder plan crew) (done : crew.isDone = true)
    {earlier later : List (Runner EReal)} {runner : Runner EReal}
    (whole : crew.runners = earlier ++ runner :: later) :
    Ends (fun result => workerDraws chart plan earlier.length = runner.tried.map .ok ∧
        Accounts (Climb.ofSpans chart.problem secondOrder plan.maxSweeps) runner.tried
          runner.climbed 0 result.1 result.2)
      (fun _ => ∃ sample ∈ samples chart plan,
        Fails (Climb.ofSpans chart.problem secondOrder plan.maxSweeps) sample)
      runner.answer := by
  have here : crew.runners[earlier.length]? = some runner := by simp [whole]
  have inside : earlier.length < max plan.workers 1 := by
    rw [← sound.length]
    exact (List.getElem?_eq_some_iff.mp here).1
  have ends := (sound.each _ runner here).answer_ends
    (List.all_eq_true.mp done runner (List.mem_of_getElem? here))
  refine ends.mono (fun _ good => good) fun _ bad => ?_
  obtain ⟨sample, member, fails⟩ := bad
  exact ⟨sample, List.mem_flatMap.mpr ⟨_, List.mem_range.mpr inside, member⟩, fails⟩

theorem Sound.answer_ends (sound : Sound chart secondOrder plan crew) (done : crew.isDone = true) :
    Ends (fun result => Settled chart secondOrder plan.maxSweeps (samples chart plan) crew.climbed
        crew.seen result.1 result.2)
      (fun _ => ∃ sample ∈ samples chart plan,
        Fails (Climb.ofSpans chart.problem secondOrder plan.maxSweeps) sample)
      crew.answer := by
  have ends : Ends (fun result : Option (Derivation EReal) × ClimbCounts =>
        (List.range crew.runners.length).flatMap (workerDraws chart plan) = crew.tried.map .ok ∧
          Accounts (Climb.ofSpans chart.problem secondOrder plan.maxSweeps) crew.tried crew.climbed 0
            result.1 result.2)
      (fun _ => ∃ sample ∈ samples chart plan,
        Fails (Climb.ofSpans chart.problem secondOrder plan.maxSweeps) sample)
      crew.answer := by
    refine foldlM_ends
      (fun earlier (result : Option (Derivation EReal) × ClimbCounts) =>
        (List.range earlier.length).flatMap (workerDraws chart plan) =
            (earlier.flatMap Runner.tried).map .ok ∧
          Accounts (Climb.ofSpans chart.problem secondOrder plan.maxSweeps)
            (earlier.flatMap Runner.tried) (earlier.flatMap Runner.climbed) 0 result.1 result.2)
      ⟨rfl, .nil⟩ ?_
    intro earlier runner later result whole held
    obtain ⟨drawn, accounts⟩ := held
    refine (sound.runner_ends done whole).bind fun found own => ⟨?_, ?_⟩
    · rw [List.length_append, List.length_singleton, List.range_succ, List.flatMap_append,
        List.flatMap_append, List.map_append, drawn, List.flatMap_singleton, List.flatMap_singleton]
      exact congrArg _ own.1
    · rw [List.flatMap_append, List.flatMap_append, List.flatMap_singleton, List.flatMap_singleton]
      exact accounts.append own.2
  rw [sound.length] at ends
  exact ends.mono
    (fun result good => ⟨crew.tried, good.1, good.2, sound.entered_climbed done⟩) fun _ bad => bad

end Sound

end Crew

section Decode

open Grammar MassChart

/-- What a search comes to, whichever of equally good trees it finds. -/
def outcome (result : Except DecodeError (Option (Derivation EReal) × ClimbCounts)) :
    Option (Option EReal × ClimbCounts) :=
  result.toOption.map fun (best, counts) => (best.map Derivation.score, counts)

theorem decodeBy_eq {problem : Problem EReal} (words : problem.sentence.isEmpty = false)
    (secondOrder : Bool) {plan : RestartPlan EReal}
    (some : (fill problem plan.threshold).isEmpty = false) (schedule : List Nat) :
    decodeBy problem secondOrder plan schedule =
      (Crew.run (fill problem plan.threshold) secondOrder plan schedule).answer := by
  simp [decodeBy, words, some]

theorem decodeBy_answers {problem : Problem EReal} (words : problem.sentence.isEmpty = false)
    (secondOrder : Bool) {plan : RestartPlan EReal}
    (some : (fill problem plan.threshold).isEmpty = false) {schedule : List Nat}
    (done : (Crew.run (fill problem plan.threshold) secondOrder plan schedule).isDone = true) :
    Answers (fill problem plan.threshold) secondOrder plan
      (decodeBy problem secondOrder plan schedule) := by
  have ends := (Crew.sound_run _ secondOrder plan schedule).answer_ends done
  rw [decodeBy_eq words secondOrder some]
  exact ends.mono (fun _ settled => ⟨_, _, settled⟩) fun _ bad => bad

theorem outcome_congr {result result' : Except DecodeError (Option (Derivation EReal) × ClimbCounts)}
    {plan : RestartPlan EReal} (ends : Answers chart secondOrder plan result)
    (ends' : Answers chart secondOrder plan result') :
    outcome result = outcome result' := by
  cases result with
  | error error =>
    cases result' with
    | error error' => rfl
    | ok answer' =>
      obtain ⟨sample, member, fails⟩ := ends
      obtain ⟨_, _, settled⟩ := ends'
      exact absurd fails (settled.not_fails member)
  | ok answer =>
    obtain ⟨_, _, settled⟩ := ends
    cases result' with
    | error error' =>
      obtain ⟨sample, member, fails⟩ := ends'
      exact absurd fails (settled.not_fails member)
    | ok answer' =>
      obtain ⟨_, _, settled'⟩ := ends'
      obtain ⟨counts, score⟩ := settled.alike settled'
      exact congrArg some (Prod.ext score counts)

theorem outcome_eq (problem : Problem EReal) (secondOrder : Bool) (plan : RestartPlan EReal)
    (schedule : List Nat)
    (done : (Crew.run (fill problem plan.threshold) secondOrder plan schedule).isDone = true) :
    outcome (decodeBy problem secondOrder plan schedule) =
      outcome (decode problem secondOrder plan) := by
  cases words : problem.sentence.isEmpty with
  | true =>
    simp only [decodeBy, decode, words, if_true]
    rfl
  | false =>
    cases empty : (fill problem plan.threshold).isEmpty with
    | true =>
      simp only [decodeBy, decode, words, empty, if_true, Bool.false_eq_true, if_false]
      rfl
    | false =>
      exact outcome_congr (decodeBy_answers words secondOrder empty done)
        (decode_answers words secondOrder rfl empty)

/-- Workers that take turns in any way come to the same best score and the same counts as workers
that run one after another. No tree is climbed from twice, and unless a draw or a climb fails every
tree that is drawn is climbed from. In exact arithmetic none fails. -/
theorem decode_interleaved (problem : Problem EReal) (secondOrder : Bool)
    (plan : RestartPlan EReal) (schedule : List Nat)
    (done : (Crew.run (fill problem plan.threshold) secondOrder plan schedule).isDone = true) :
    let chart := fill problem plan.threshold
    let crew := Crew.run chart secondOrder plan schedule
    outcome (decodeBy problem secondOrder plan schedule) =
        outcome (decode problem secondOrder plan) ∧
      (crew.climbed.map Span.sorted).Nodup ∧
      (∀ result, crew.answer = .ok result →
        ∀ spans, spans ∈ crew.climbed ↔ .ok (some spans) ∈ samples chart plan) ∧
      (problem.grammar.Built → problem.grammar.labelCount < numberLimit → problem.Finite →
        ∃ result, crew.answer = .ok result) := by
  intro chart crew
  have sound : Crew.Sound chart secondOrder plan crew := Crew.sound_run ..
  have ends := sound.answer_ends done
  refine ⟨outcome_eq problem secondOrder plan schedule done, (sound.entered_climbed done).distinct,
    fun result ok => ?_, fun built fits finite => ?_⟩
  · rw [ok] at ends
    exact ends.mem_iff
  · have drawable : Drawable chart plan := drawable_fill plan built.coherent fits finite
    cases answer : crew.answer with
    | ok result => exact ⟨result, rfl⟩
    | error error =>
      rw [answer] at ends
      obtain ⟨sample, member, fails⟩ := ends
      exact absurd fails (drawable.not_fails member)

theorem decode_interleaved_row : ∃ best best' counts,
    decodeBy (.uniform row twoWords) false twoWorkers (List.replicate 9 [1, 0]).flatten =
        .ok (best, counts) ∧
      decode (.uniform row twoWords) false twoWorkers = .ok (best', counts) ∧
      best.map Derivation.score = best'.map Derivation.score := by
  have done : (Crew.run (fill (.uniform row twoWords) (⊤ : EReal)) false twoWorkers
      (List.replicate 9 [1, 0]).flatten).isDone = true :=
    Crew.isDone_run _ _ _ (by decide)
  obtain ⟨same, _, _, answers⟩ := decode_interleaved (.uniform row twoWords) false
    twoWorkers (List.replicate 9 [1, 0]).flatten done
  obtain ⟨⟨best, counts⟩, ok⟩ := answers row_built row_fits (Problem.uniform_finite _ _)
  have ok' : decodeBy (.uniform row twoWords) false twoWorkers
      (List.replicate 9 [1, 0]).flatten = .ok (best, counts) :=
    (@decodeBy_eq (.uniform row twoWords) rfl false twoWorkers isEmpty_row _).trans ok
  rw [ok'] at same
  cases result : decode (.uniform row twoWords) false twoWorkers with
  | error error =>
    rw [result] at same
    cases same
  | ok answer =>
    rw [result] at same
    obtain ⟨score, rfl⟩ := Prod.mk.inj (Option.some.inj same)
    exact ⟨best, answer.1, answer.2, ok', rfl, score⟩

end Decode

end Constituency.Restarts
