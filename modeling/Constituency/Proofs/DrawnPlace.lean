import Mathlib
import Constituency.Sampling.Draw
import Constituency.Proofs.LogSpace

/-!
The place that a draw falls on. The chances of some weights cut the numbers from zero up to one into
intervals, one for each place and as long as its chance, and a number gives the place in whose
interval it lies.
-/

namespace Constituency.Draw

open Score LogScore ExtendedReal

section Walk

variable {chances : List ℝ} {number total : ℝ} {place : Nat}

/-- A number lies in the interval of a place: the chances ahead of the place do not sum up to more
than the number, but with the chance of the place they do. -/
def FallsOn (chances : List ℝ) (number : ℝ) (place : Nat) : Prop :=
  (chances.take place).sum ≤ number ∧ number < (chances.take place).sum + chances.getD place 0

theorem not_fallsOn_nil : ¬ FallsOn [] number place := by
  unfold FallsOn
  rw [List.take_nil, List.getD_nil, List.sum_nil, add_zero, not_and, not_lt]
  exact id

theorem fallsOn_cons_zero (chance : ℝ) (chances : List ℝ) :
    FallsOn (chance :: chances) number 0 ↔ 0 ≤ number ∧ number < chance := by
  simp [FallsOn]

theorem fallsOn_cons_succ (chance : ℝ) (chances : List ℝ) :
    FallsOn (chance :: chances) number (place + 1) ↔ FallsOn chances (number - chance) place := by
  unfold FallsOn
  rw [List.take_succ_cons, List.sum_cons, List.getD_cons_succ, le_sub_iff_add_le',
    sub_lt_iff_lt_add', add_assoc]

theorem FallsOn.nonneg (falls : FallsOn chances number place)
    (nonneg : ∀ chance ∈ chances, 0 ≤ chance) : 0 ≤ number :=
  (List.sum_nonneg fun chance member => nonneg chance (List.mem_of_mem_take member)).trans falls.1

theorem FallsOn.lt_sum (falls : FallsOn chances number place)
    (nonneg : ∀ chance ∈ chances, 0 ≤ chance) : number < chances.sum := by
  induction chances generalizing number place with
  | nil => exact absurd falls not_fallsOn_nil
  | cons chance chances ih =>
    have later := (List.forall_mem_cons.mp nonneg).2
    rw [List.sum_cons]
    cases place with
    | zero =>
      have here := (fallsOn_cons_zero chance chances).mp falls
      exact here.2.trans_le (le_add_of_nonneg_right (List.sum_nonneg later))
    | succ place =>
      have rest := ih ((fallsOn_cons_succ chance chances).mp falls) later
      exact sub_lt_iff_lt_add'.mp rest

theorem FallsOn.chance_pos (falls : FallsOn chances number place) : 0 < chances.getD place 0 :=
  pos_of_lt_add_right (falls.1.trans_lt falls.2)

theorem firstAbove?_cons (number total chance : ℝ) (chances : List ℝ) :
    firstAbove? (number : EReal) total ((chance :: chances).map (↑)) =
      if number < total + chance then some 0
      else (firstAbove? (number : EReal) ((total + chance : ℝ) : EReal) (chances.map (↑))).map
        (· + 1) := by
  rw [List.map_cons, firstAbove?, EReal.coe_add]
  congr 1
  rw [eq_iff_iff, ← EReal.coe_add, EReal.coe_lt_coe_iff]

/-- Once the total has not passed the number, the walk stops where the rest of the number falls, and
nowhere else, since the total never sinks. -/
theorem firstAbove?_eq_some_iff (nonneg : ∀ chance ∈ chances, 0 ≤ chance)
    (reached : total ≤ number) :
    firstAbove? (number : EReal) total (chances.map (↑)) = some place ↔
      FallsOn chances (number - total) place := by
  induction chances generalizing total place with
  | nil => simpa [firstAbove?] using not_fallsOn_nil
  | cons chance chances ih =>
    have later := (List.forall_mem_cons.mp nonneg).2
    rw [firstAbove?_cons]
    by_cases above : number < total + chance
    · rw [if_pos above, Option.some_inj]
      cases place with
      | zero =>
        have here : FallsOn (chance :: chances) (number - total) 0 :=
          (fallsOn_cons_zero chance chances).mpr ⟨by linarith, by linarith⟩
        exact iff_of_true rfl here
      | succ place =>
        refine iff_of_false (Nat.succ_ne_zero place).symm fun falls => ?_
        have rest := ((fallsOn_cons_succ chance chances).mp falls).nonneg later
        linarith
    · rw [if_neg above]
      cases place with
      | zero =>
        rw [fallsOn_cons_zero]
        refine iff_of_false (by simp) fun falls => ?_
        linarith [falls.2]
      | succ place =>
        rw [fallsOn_cons_succ, sub_sub, ← ih later (not_lt.mp above), Option.map_eq_some_iff]
        simp

theorem exists_firstAbove? (below : number < total + chances.sum) (reached : total ≤ number) :
    ∃ place, firstAbove? (number : EReal) total (chances.map (↑)) = some place := by
  induction chances generalizing total with
  | nil =>
    rw [List.sum_nil, add_zero] at below
    exact absurd below (not_lt.mpr reached)
  | cons chance chances ih =>
    rw [firstAbove?_cons]
    by_cases above : number < total + chance
    · exact ⟨0, if_pos above⟩
    · rw [List.sum_cons, ← add_assoc] at below
      obtain ⟨place, found⟩ := ih below (not_lt.mp above)
      exact ⟨place + 1, by rw [if_neg above, found, Option.map_some]⟩

end Walk

section Weights

variable {weights : List EReal}

/-- The probabilities of some weights, as real numbers. -/
noncomputable def chances (weights : List EReal) : List ℝ := (normalize weights).map EReal.toReal

theorem share_ne_top {weight : EReal} (member : weight ∈ weights) (present : total weights ≠ 0) :
    EReal.exp weight / total weights ≠ ⊤ := by
  by_cases unlimited : total weights = ⊤
  · rw [unlimited, ENNReal.div_top]
    exact ENNReal.zero_ne_top
  · have low : EReal.exp weight ≤ total weights := List.le_sum_of_mem (List.mem_map_of_mem member)
    exact ENNReal.div_ne_top (ne_top_of_le_ne_top unlimited low) present

theorem limited_of_share_ne_zero {weight : EReal} (some : EReal.exp weight / total weights ≠ 0) :
    ∀ other ∈ weights, other < ⊤ := by
  intro other member
  rw [lt_top_iff_ne_top]
  rintro rfl
  have unlimited : total weights = ⊤ :=
    top_le_iff.mp (List.le_sum_of_mem (List.mem_map_of_mem member))
  rw [unlimited, ENNReal.div_top] at some
  exact some rfl

theorem normalize_ne_nil (present : total weights ≠ 0) : normalize weights ≠ [] := by
  rwa [Ne, normalize_eq_nil_iff, ← total_eq_zero_iff]

theorem chances_eq_map (present : total weights ≠ 0) :
    chances weights = weights.map fun weight => (EReal.exp weight / total weights).toReal := by
  rw [chances, normalize_eq_map present, List.map_map]
  exact List.map_congr_left fun _ _ => EReal.toReal_coe_ennreal

theorem normalize_eq_chances (present : total weights ≠ 0) :
    normalize weights = (chances weights).map (↑) := by
  rw [chances_eq_map present, normalize_eq_map present, List.map_map]
  refine List.map_congr_left fun weight member => ?_
  exact (EReal.coe_ennreal_toReal (share_ne_top member present)).symm

theorem chances_nonneg (present : total weights ≠ 0) : ∀ chance ∈ chances weights, 0 ≤ chance := by
  rw [chances_eq_map present]
  intro chance member
  obtain ⟨weight, _, rfl⟩ := List.mem_map.mp member
  exact ENNReal.toReal_nonneg

theorem sum_chances (limited : ∀ weight ∈ weights, weight < ⊤) (present : total weights ≠ 0) :
    (chances weights).sum = 1 := by
  apply EReal.coe_injective
  rw [coe_sum, ← normalize_eq_chances present, normalize_eq_map present, EReal.coe_one]
  exact sum_shares_of_total limited present

theorem getD_chances (present : total weights ≠ 0) {place : Nat} (inside : place < weights.length) :
    (chances weights).getD place 0 = (EReal.exp weights[place] / total weights).toReal := by
  rw [chances_eq_map present, List.getD_eq_getElem?_getD, List.getElem?_map,
    List.getElem?_eq_getElem inside, Option.map_some, Option.getD_some]

theorem exists_weight (present : total weights ≠ 0) {number : ℝ} {place : Nat}
    (falls : FallsOn (chances weights) number place) :
    ∃ weight, weights[place]? = some weight ∧ weight ≠ ⊥ := by
  have positive := falls.chance_pos
  rw [chances_eq_map present, List.getD_eq_getElem?_getD, List.getElem?_map] at positive
  cases found : weights[place]? with
  | none =>
    rw [found] at positive
    exact absurd positive (lt_irrefl 0)
  | some weight =>
    refine ⟨weight, rfl, ?_⟩
    rintro rfl
    rw [found] at positive
    simp at positive

/-- The numbers that fall on a place make up an interval as long as the share of its weight. -/
theorem volume_fallsOn (present : total weights ≠ 0) {place : Nat}
    (inside : place < weights.length) :
    MeasureTheory.volume {number | FallsOn (chances weights) number place} =
      EReal.exp weights[place] / total weights := by
  change MeasureTheory.volume (Set.Ico _ _) = _
  rw [Real.volume_Ico, add_sub_cancel_left, getD_chances present inside]
  exact ENNReal.ofReal_toReal (share_ne_top (List.getElem_mem inside) present)

theorem FallsOn.limited (present : total weights ≠ 0) {number : ℝ} {place : Nat}
    (falls : FallsOn (chances weights) number place) : ∀ weight ∈ weights, weight < ⊤ := by
  obtain ⟨weight, found, _⟩ := exists_weight present falls
  obtain ⟨inside, rfl⟩ := List.getElem?_eq_some_iff.mp found
  have positive := falls.chance_pos
  rw [getD_chances present inside] at positive
  exact limited_of_share_ne_zero (ENNReal.toReal_pos_iff.mp positive).1.ne'

theorem FallsOn.lt_one (present : total weights ≠ 0) {number : ℝ} {place : Nat}
    (falls : FallsOn (chances weights) number place) : number < 1 := by
  rw [← sum_chances (falls.limited present) present]
  exact falls.lt_sum (chances_nonneg present)

end Weights

section Place

variable {weights : List EReal} {σ : Type} {draw : Draw σ EReal} {state : σ} {number : ℝ}
  {place : Nat}

theorem firstAbove?_normalize (present : total weights ≠ 0) (reached : 0 ≤ number) :
    firstAbove? (number : EReal) zero (normalize weights) = some place ↔
      FallsOn (chances weights) number place := by
  have walk := @firstAbove?_eq_some_iff _ _ _ place (chances_nonneg present) reached
  rwa [sub_zero, ← normalize_eq_chances present, EReal.coe_zero, ← zero_eq_zero] at walk

theorem exists_fallsOn (limited : ∀ weight ∈ weights, weight < ⊤) (present : total weights ≠ 0)
    (reached : 0 ≤ number) (below : number < 1) :
    ∃ place, FallsOn (chances weights) number place := by
  have short : number < 0 + (chances weights).sum := by
    rwa [sum_chances limited present, zero_add]
  obtain ⟨place, found⟩ := exists_firstAbove? short reached
  have falls := (firstAbove?_eq_some_iff (chances_nonneg present) reached).mp found
  exact ⟨place, by rwa [sub_zero] at falls⟩

theorem place_of_absent (absent : ∀ weight ∈ weights, weight = ⊥) :
    draw.place weights state = (none, state) := by
  unfold Draw.place
  rw [(normalize_eq_nil_iff weights).mpr absent]
  rfl

theorem place_of_present (present : total weights ≠ 0) :
    draw.place weights state =
      (some (placeOf (draw state).1 (normalize weights)), (draw state).2) := by
  unfold Draw.place
  cases made : normalize weights with
  | nil => exact absurd made (normalize_ne_nil present)
  | cons chance chances => rfl

theorem firstAbove?_lt {number total : EReal} {chances : List EReal}
    (found : firstAbove? number total chances = some place) : place < chances.length := by
  induction chances generalizing total place with
  | nil => cases found
  | cons chance chances ih =>
    unfold firstAbove? at found
    split at found
    · cases found
      exact Nat.succ_pos _
    · obtain ⟨later, found', rfl⟩ := Option.map_eq_some_iff.mp found
      exact Nat.succ_lt_succ (ih found')

theorem placeOf_lt (number : EReal) (present : total weights ≠ 0) :
    placeOf number (normalize weights) < weights.length := by
  have length : (normalize weights).length = weights.length := by
    rw [normalize_eq_map present, List.length_map]
  have some := List.length_pos_iff.mpr (normalize_ne_nil present)
  unfold placeOf
  rw [← length]
  cases found : firstAbove? number zero (normalize weights) with
  | none => exact Nat.sub_one_lt some.ne'
  | some place => exact firstAbove?_lt found

theorem option_apply {β : Type} (draw : Draw σ EReal) (options : List (β × EReal)) (state : σ) :
    draw.option options state =
      ((draw.place (options.map Prod.snd) state).1.bind fun place => options[place]?.map Prod.fst,
        (draw.place (options.map Prod.snd) state).2) := rfl

theorem place_eq_some (drawn : (draw state).1 = number)
    (found : firstAbove? (number : EReal) zero (normalize weights) = some place)
    (present : total weights ≠ 0) : draw.place weights state = (some place, (draw state).2) := by
  rw [place_of_present present, drawn, placeOf, found, Option.getD_some]

theorem place_of_fallsOn (drawn : (draw state).1 = number) (present : total weights ≠ 0)
    (falls : FallsOn (chances weights) number place) :
    draw.place weights state = (some place, (draw state).2) := by
  have reached := falls.nonneg (chances_nonneg present)
  exact place_eq_some drawn ((firstAbove?_normalize present reached).mpr falls) present

/-- A number is drawn just where some weight is present, and then only one. The place is that of the
one interval in which the number lies; its weight is present, and the walk has found it without
running out of probabilities. The numbers that give a place make up an interval which is as long as
the share of its weight in the total. -/
theorem place_inverts (limited : ∀ weight ∈ weights, weight < ⊤) :
    (∀ {σ : Type} (draw : Draw σ EReal) (state : σ) (number : ℝ), (draw state).1 = number →
      0 ≤ number → number < 1 →
        ((draw.place weights state).1 = none ↔ ∀ weight ∈ weights, weight = ⊥) ∧
        ((draw.place weights state).1 = none → (draw.place weights state).2 = state) ∧
        ∀ place, (draw.place weights state).1 = some place →
          (draw.place weights state).2 = (draw state).2 ∧
          FallsOn (chances weights) number place ∧
          (∀ other, FallsOn (chances weights) number other → other = place) ∧
          (∃ weight, weights[place]? = some weight ∧ weight ≠ ⊥) ∧
          firstAbove? (number : EReal) zero (normalize weights) = some place) ∧
    ((∃ weight ∈ weights, weight ≠ ⊥) → ∀ place (inside : place < weights.length),
      let ahead := ((chances weights).take place).sum
      let share := (EReal.exp weights[place] / (weights.map EReal.exp).sum).toReal
      {number : ℝ | 0 ≤ number ∧ number < 1 ∧
        ((pure (number : EReal) : Draw Unit EReal).place weights ()).1 = some place} =
          Set.Ico ahead (ahead + share)) := by
  constructor
  · intro σ draw state number drawn reached below
    by_cases absent : ∀ weight ∈ weights, weight = ⊥
    · rw [place_of_absent absent]
      exact ⟨iff_of_true rfl absent, fun _ => rfl, fun place found => by cases found⟩
    · have present : total weights ≠ 0 := mt (total_eq_zero_iff weights).mp absent
      obtain ⟨place, falls⟩ := exists_fallsOn limited present reached below
      have found := (firstAbove?_normalize present reached).mpr falls
      rw [place_of_fallsOn drawn present falls]
      refine ⟨iff_of_false (Option.some_ne_none place) absent,
        fun none => absurd none (Option.some_ne_none place), ?_⟩
      rintro _ ⟨rfl⟩
      refine ⟨rfl, falls, fun other falls' => ?_, exists_weight present falls, found⟩
      have found' := (firstAbove?_normalize present reached).mpr falls'
      exact Option.some_inj.mp (found'.symm.trans found)
  · rintro ⟨weight, member, weighs⟩ place inside
    have present : total weights ≠ 0 := fun none =>
      weighs ((total_eq_zero_iff weights).mp none weight member)
    have share := getD_chances present inside
    ext number
    rw [Set.mem_ofPred_eq, Set.mem_Ico]
    change _ ↔ _ ≤ number ∧ number < _ + (EReal.exp weights[place] / total weights).toReal
    rw [← share]
    change _ ↔ FallsOn (chances weights) number place
    constructor
    · rintro ⟨reached, below, given⟩
      obtain ⟨other, falls⟩ := exists_fallsOn limited present reached below
      rw [place_of_fallsOn rfl present falls] at given
      rwa [← Option.some_inj.mp given]
    · intro falls
      have reached := falls.nonneg (chances_nonneg present)
      exact ⟨reached, falls.lt_one present, congrArg Prod.fst (place_of_fallsOn rfl present falls)⟩

/-- The last place has no weight, and the greatest number of 53 bits does not give it. -/
theorem place_inverts_greatest :
    (cycling #[0xffffffffffffffff] : Draw Nat EReal).place [0, ⊥] 0 = (some 0, 1) ∧
    {number : ℝ | 0 ≤ number ∧ number < 1 ∧
      ((pure (number : EReal) : Draw Unit EReal).place [0, ⊥] ()).1 = some 1} = ∅ := by
  have limited : ∀ weight ∈ ([0, ⊥] : List EReal), weight < ⊤ := by simp
  have present : ∃ weight ∈ ([0, ⊥] : List EReal), weight ≠ ⊥ := ⟨0, by simp, by simp⟩
  have drawn : ((cycling #[0xffffffffffffffff] : Draw Nat EReal) 0).1 =
      (((9007199254740991 : Nat) / 2 ^ 53 : ℝ) : EReal) := rfl
  obtain ⟨inverts, intervals⟩ := place_inverts limited
  obtain ⟨none_iff, -, at_place⟩ := inverts _ 0 _ drawn (by norm_num) (by norm_num)
  constructor
  · rcases given : (cycling #[0xffffffffffffffff] : Draw Nat EReal).place [0, ⊥] 0 with
      ⟨_ | place, taken⟩
    · rw [given] at none_iff
      obtain ⟨weight, member, weighs⟩ := present
      exact absurd (none_iff.mp rfl weight member) weighs
    · rw [given] at at_place
      obtain ⟨after, -, -, ⟨weight, found, weighs⟩, -⟩ := at_place place rfl
      have first : place = 0 := by
        rcases place with _ | _ | place
        · rfl
        · exact absurd (Option.some_inj.mp found).symm weighs
        · cases found
      rw [first]
      exact Prod.ext rfl after
  · rw [intervals present 1 (by simp)]
    simp

end Place

end Constituency.Draw
