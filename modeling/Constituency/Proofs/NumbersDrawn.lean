import Mathlib
import Constituency.Proofs.TreeRuns

/-!
The numbers that are drawn. A program that draws goes the way of the run to whose choices the next
numbers of its source lead, and takes one number for each of them. Of independent numbers, spread
evenly from zero up to one, those that lead to a run have its chance.
-/

namespace Constituency

open MeasureTheory Score ExtendedReal

namespace Draw

section Source

variable {σ : Type} {draw : Draw σ EReal}

/-- The state of a source once some numbers are taken. -/
def after {α : Type} (draw : Draw σ α) : Nat → σ → σ
  | 0, state => state
  | count + 1, state => draw.after count (draw state).2

theorem after_add (draw : Draw σ EReal) (first later : Nat) (state : σ) :
    draw.after (first + later) state = draw.after later (draw.after first state) := by
  induction first generalizing state with
  | zero => rw [Nat.zero_add, after]
  | succ first ih => rw [Nat.succ_add, after, after, ih]

/-- From a state on a source gives real numbers from zero up to one. -/
def Proper (draw : Draw σ EReal) (state : σ) : Prop :=
  ∀ count, ∃ number : ℝ, (draw (draw.after count state)).1 = number ∧ 0 ≤ number ∧ number < 1

theorem Proper.after {state : σ} (proper : draw.Proper state) (count : Nat) :
    draw.Proper (draw.after count state) := by
  intro more
  rw [← after_add]
  exact proper (count + more)

/-- The next numbers of a source lead to some choices, one number to each. -/
def LeadsTo (draw : Draw σ EReal) : List Chosen → σ → Prop
  | [], _ => True
  | chosen :: later, state =>
    (∃ number ∈ chosen.numbers, (draw state).1 = (number : EReal)) ∧
      draw.LeadsTo later (draw state).2

theorem leadsTo_append (draw : Draw σ EReal) (first later : List Chosen) (state : σ) :
    draw.LeadsTo (first ++ later) state ↔
      draw.LeadsTo first state ∧ draw.LeadsTo later (draw.after first.length state) := by
  induction first generalizing state with
  | nil => exact iff_of_eq (true_and _).symm
  | cons chosen first ih =>
    rw [List.cons_append, LeadsTo, LeadsTo, ih, and_assoc]
    rfl

theorem exists_ofWord (word : UInt64) :
    ∃ number : ℝ, (ofWord word : EReal) = number ∧ 0 ≤ number ∧ number < 1 := by
  refine ⟨(word >>> 11).toNat / 2 ^ 53, rfl, by positivity, ?_⟩
  have less : (word >>> 11).toNat < 2 ^ 53 := by
    rw [UInt64.toNat_shiftRight, Nat.shiftRight_eq_div_pow]
    have bound := word.toNat_lt
    change word.toNat / 2 ^ 11 < 2 ^ 53
    omega
  rw [div_lt_one (by positivity)]
  exact_mod_cast less

theorem proper_ofKeystream (stream : Keystream) :
    (ofKeystream : Draw Keystream EReal).Proper stream :=
  fun _ => exists_ofWord _

end Source

/-- The source that gives the numbers of a sequence and counts those taken. -/
def reading (numbers : ℕ → ℝ) : Draw Nat EReal := fun taken => (numbers taken, taken + 1)

theorem after_reading (numbers : ℕ → ℝ) (count taken : Nat) :
    (reading numbers).after count taken = taken + count := by
  induction count generalizing taken with
  | zero => rfl
  | succ count ih =>
    rw [after, ih, Nat.add_comm count, ← Nat.add_assoc]
    rfl

theorem leadsTo_reading_iff (numbers : ℕ → ℝ) (choices : List Chosen) (taken : Nat) :
    (reading numbers).LeadsTo choices taken ↔
      ∀ place (inside : place < choices.length),
        numbers (taken + place) ∈ choices[place].numbers := by
  induction choices generalizing taken with
  | nil => simp [LeadsTo]
  | cons chosen choices ih =>
    have first : (∃ number ∈ chosen.numbers, (numbers taken : EReal) = (number : EReal)) ↔
        numbers taken ∈ chosen.numbers := by
      simp
    rw [LeadsTo]
    change (∃ number ∈ chosen.numbers, (numbers taken : EReal) = (number : EReal)) ∧
      (reading numbers).LeadsTo choices (taken + 1) ↔ _
    rw [first, ih]
    constructor
    · rintro ⟨here, later⟩ (_ | place) inside
      · exact here
      · have there := later place (Nat.lt_of_succ_lt_succ inside)
        rwa [Nat.add_assoc, Nat.add_comm 1] at there
    · intro all
      refine ⟨all 0 (Nat.succ_pos _), fun place inside => ?_⟩
      have there := all (place + 1) (Nat.succ_lt_succ inside)
      rwa [← Nat.add_assoc, Nat.add_right_comm] at there

end Draw

theorem Chosen.measurableSet_numbers (chosen : Chosen) : MeasurableSet chosen.numbers :=
  measurableSet_Ico

theorem Chosen.numbers_subset (chosen : Chosen) : chosen.numbers ⊆ Set.Ico 0 1 := by
  intro number falls
  by_cases absent : ExtendedReal.total chosen.weights = 0
  · have none : Draw.chances chosen.weights = [] := by
      rw [Draw.chances, (normalize_eq_nil_iff _).mpr ((total_eq_zero_iff _).mp absent)]
      rfl
    rw [numbers, none] at falls
    exact absurd falls Draw.not_fallsOn_nil
  · exact ⟨falls.nonneg (Draw.chances_nonneg absent), falls.lt_one absent⟩

section Even

/-- A number that is spread evenly from zero up to one. -/
noncomputable def evenNumber : Measure ℝ := volume.restrict (Set.Ico 0 1)

instance : IsProbabilityMeasure evenNumber := ⟨by simp [evenNumber]⟩

/-- A sequence of independent numbers of this kind. -/
noncomputable def evenNumbers : Measure (ℕ → ℝ) := Measure.infinitePi fun _ => evenNumber

theorem ae_proper : ∀ᵐ numbers ∂evenNumbers, (Draw.reading numbers).Proper 0 := by
  have each (place : ℕ) : ∀ᵐ numbers ∂evenNumbers, numbers place ∈ Set.Ico (0 : ℝ) 1 := by
    have one : ∀ᵐ number ∂evenNumber, number ∈ Set.Ico (0 : ℝ) 1 :=
      ae_restrict_mem measurableSet_Ico
    exact (measurePreserving_eval_infinitePi (fun _ : ℕ => evenNumber)
      place).quasiMeasurePreserving.ae one
  refine (ae_all_iff.mpr each).mono fun numbers inside count => ?_
  rw [Draw.after_reading]
  exact ⟨_, rfl, (inside _).1, (inside _).2⟩

theorem evenNumbers_leadsTo (choices : List Chosen) :
    evenNumbers {numbers | (Draw.reading numbers).LeadsTo choices 0} =
      (choices.map fun chosen => volume chosen.numbers).prod := by
  have box : {numbers | (Draw.reading numbers).LeadsTo choices 0} =
      (Finset.range choices.length : Set ℕ).pi fun place =>
        (choices[place]?.map Chosen.numbers).getD Set.univ := by
    ext numbers
    rw [Set.mem_ofPred_eq, Draw.leadsTo_reading_iff, Set.mem_pi]
    refine forall_congr' fun place => ?_
    rw [Finset.coe_range, Set.mem_Iio, Nat.zero_add]
    refine forall_congr' fun inside => ?_
    rw [List.getElem?_eq_getElem inside]
    rfl
  have one (chosen : Chosen) : evenNumber chosen.numbers = volume chosen.numbers :=
    Measure.restrict_eq_self _ chosen.numbers_subset
  rw [box, evenNumbers, Measure.infinitePi_pi]
  · rw [Finset.prod_range, ← Fin.prod_univ_fun_getElem]
    refine Finset.prod_congr rfl fun place _ => ?_
    rw [List.getElem?_eq_getElem place.isLt]
    exact one _
  · intro place member
    rw [List.getElem?_eq_getElem (Finset.mem_range.mp member)]
    exact Chosen.measurableSet_numbers _

end Even

namespace Parametric

variable {σ β : Type}

/-- The chance of a run is made up of the lengths of the intervals that lead to its choices. -/
noncomputable def weighed : Parametric Runs Runs where
  rel runs _ := ∀ run ∈ runs.all,
    run.chance = (run.choices.map fun chosen => volume chosen.numbers).prod
  pure value := by
    intro run member
    rw [List.mem_singleton.mp member]
    rfl
  map := by
    intro β γ change first first' here run member
    obtain ⟨earlier, inside, only⟩ := List.mem_flatMap.mp member
    rw [List.mem_singleton.mp only]
    simp [Run.follow, here earlier inside]
  bind := by
    intro β γ first first' rest rest' here after run member
    rw [Runs.bind_all] at member
    obtain ⟨earlier, inside, made⟩ := List.mem_flatMap.mp member
    obtain ⟨later, inside', rfl⟩ := List.mem_map.mp made
    rw [Run.follow, List.map_append, List.prod_append, here earlier inside,
      after earlier.result later inside']

theorem weighed_pick (options : List (β × EReal)) :
    weighed.rel (Runs.pick options) (Runs.pick options) := by
  intro run member
  by_cases absent : ∀ weight ∈ options.map Prod.snd, weight = ⊥
  · rw [Runs.pick_of_absent ((logSum_eq_bot_iff _).mpr absent)] at member
    rw [List.mem_singleton.mp member]
    rfl
  · have present : ExtendedReal.total (options.map Prod.snd) ≠ 0 :=
      mt (total_eq_zero_iff _).mp absent
    obtain ⟨place, option, found, rfl⟩ :=
      (Runs.mem_pick_iff (mt (logSum_eq_bot_iff _).mp absent)).mp member
    obtain ⟨inside, rfl⟩ := List.getElem?_eq_some_iff.mp found
    have length := Draw.volume_fallsOn present (by simpa using inside)
    rw [List.getElem_map, ← exp_sub_logSum] at length
    rw [List.map_singleton, List.prod_singleton]
    exact length.symm

/-- A program that draws goes the way of a run and takes one number for each of its choices if the
numbers lead to them. Some run is led to, unless it has no chance. -/
noncomputable def drawing (draw : Draw σ EReal) : Parametric (StateM σ) Runs where
  rel program runs := ∀ state, draw.Proper state →
    (∀ run ∈ runs.all, draw.LeadsTo run.choices state →
      program state = (run.result, draw.after run.choices.length state)) ∧
    ∃ run ∈ runs.all, run.chance ≠ 0 → draw.LeadsTo run.choices state
  pure value := by
    intro state _
    refine ⟨fun run member _ => ?_, _, List.mem_singleton_self _, fun _ => trivial⟩
    rw [List.mem_singleton.mp member]
    rfl
  map := by
    intro β γ change first first' here state proper
    obtain ⟨each, run, inside, led⟩ := here state proper
    constructor
    · intro last member leads
      obtain ⟨run, inside, only⟩ := List.mem_flatMap.mp member
      rw [List.mem_singleton.mp only] at leads ⊢
      rw [Run.follow, List.append_nil] at leads
      change (change (first state).1, (first state).2) = _
      rw [each run inside leads, Run.follow, List.append_nil]
    · refine ⟨run.follow ⟨[], 1, change run.result⟩,
        List.mem_flatMap.mpr ⟨run, inside, List.mem_singleton_self _⟩, fun some => ?_⟩
      rw [Run.follow, mul_one] at some
      rw [Run.follow, List.append_nil]
      exact led some
  bind := by
    intro β γ first first' rest rest' here after state proper
    obtain ⟨each, run, inside, led⟩ := here state proper
    constructor
    · intro last member leads
      rw [Runs.bind_all] at member
      obtain ⟨earlier, inside, made⟩ := List.mem_flatMap.mp member
      obtain ⟨later, inside', rfl⟩ := List.mem_map.mp made
      obtain ⟨before, behind⟩ := (Draw.leadsTo_append draw _ _ state).mp leads
      change rest (first state).1 (first state).2 = _
      rw [each earlier inside before, Run.follow, List.length_append, Draw.after_add]
      exact (after earlier.result _ (proper.after _)).1 later inside' behind
    · obtain ⟨_, next, inside', led'⟩ := after run.result _ (proper.after run.choices.length)
      refine ⟨run.follow next, ?_, fun some => ?_⟩
      · rw [Runs.bind_all]
        exact List.mem_flatMap.mpr ⟨run, inside, List.mem_map_of_mem inside'⟩
      · obtain ⟨some, some'⟩ := mul_ne_zero_iff.mp some
        exact (Draw.leadsTo_append draw _ _ state).mpr ⟨led some, led' some'⟩

/-- A draw chooses the option in whose interval the number lies. -/
theorem drawing_option (draw : Draw σ EReal) (options : List (β × EReal)) :
    (drawing draw).rel (draw.option options) (Runs.pick options) := by
  intro state proper
  by_cases absent : ∀ weight ∈ options.map Prod.snd, weight = ⊥
  · rw [Runs.pick_of_absent ((logSum_eq_bot_iff _).mpr absent)]
    refine ⟨fun run member _ => ?_, _, List.mem_singleton_self _, fun _ => trivial⟩
    rw [List.mem_singleton.mp member, Draw.option_apply, Draw.place_of_absent absent]
    rfl
  · have present : ExtendedReal.total (options.map Prod.snd) ≠ 0 :=
      mt (total_eq_zero_iff _).mp absent
    have some := mt (logSum_eq_bot_iff _).mp absent
    constructor
    · intro run member leads
      obtain ⟨place, option, found, rfl⟩ := (Runs.mem_pick_iff some).mp member
      obtain ⟨⟨number, falls, drawn⟩, _⟩ := leads
      rw [Draw.option_apply, Draw.place_of_fallsOn drawn present falls, Option.bind_some, found]
      rfl
    · obtain ⟨number, drawn, reached, below⟩ := proper 0
      by_cases limited : ∀ weight ∈ options.map Prod.snd, weight < ⊤
      · obtain ⟨place, falls⟩ := Draw.exists_fallsOn limited present reached below
        obtain ⟨weight, found, _⟩ := Draw.exists_weight present falls
        rw [List.getElem?_map, Option.map_eq_some_iff] at found
        obtain ⟨option, found, _⟩ := found
        exact ⟨_, (Runs.mem_pick_iff some).mpr ⟨place, option, found, rfl⟩,
          fun _ => ⟨⟨number, falls, drawn⟩, trivial⟩⟩
      · have inside := Draw.placeOf_lt number present
        rw [List.length_map] at inside
        have found := List.getElem?_eq_getElem inside
        refine ⟨_, (Runs.mem_pick_iff some).mpr ⟨_, _, found, rfl⟩, fun chance => ?_⟩
        rw [exp_sub_logSum] at chance
        exact absurd (Draw.limited_of_share_ne_zero chance) limited

end Parametric

end Constituency
