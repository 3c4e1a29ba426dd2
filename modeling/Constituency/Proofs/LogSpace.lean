import Constituency.Proofs.MassCells

/-!
Aggregation over exact scores. The exponential is injective and turns joined masses into sums and
combined parts into products, so the laws of an aggregate are those of the extended nonnegative
reals below it; the best score has them from the order.
-/

namespace Constituency

open Score LogScore ExtendedReal

/-- The laws of a commutative semiring whose zero is the missing score. -/
structure Aggregate.Lawful (aggregate : Aggregate EReal) : Prop where
  none_eq : aggregate.none = ⊥
  unit_eq : aggregate.unit = 0
  isNone_iff (x : EReal) : aggregate.isNone x ↔ x = ⊥
  join_assoc (x y z : EReal) :
    aggregate.join (aggregate.join x y) z = aggregate.join x (aggregate.join y z)
  join_comm (x y : EReal) : aggregate.join x y = aggregate.join y x
  join_none (x : EReal) : aggregate.join x aggregate.none = x
  combine_assoc (x y z : EReal) :
    aggregate.combine (aggregate.combine x y) z = aggregate.combine x (aggregate.combine y z)
  combine_comm (x y : EReal) : aggregate.combine x y = aggregate.combine y x
  combine_unit (x : EReal) : aggregate.combine x aggregate.unit = x
  combine_join (x y z : EReal) : aggregate.combine x (aggregate.join y z) =
    aggregate.join (aggregate.combine x y) (aggregate.combine x z)
  combine_none (x : EReal) : aggregate.combine x aggregate.none = aggregate.none
  /-- Scores that are not unlimited stay so. -/
  join_lt_top {x y : EReal} : x < ⊤ → y < ⊤ → aggregate.join x y < ⊤
  combine_lt_top {x y : EReal} : x < ⊤ → y < ⊤ → aggregate.combine x y < ⊤

namespace ExtendedReal

theorem exp_injective : Function.Injective EReal.exp := EReal.exp_strictMono.injective

theorem logAdd_eq_log (x y : EReal) :
    logAdd x y = ENNReal.log (EReal.exp x + EReal.exp y) := by
  rw [← exp_logAdd, EReal.log_exp]

theorem logAdd_assoc (x y z : EReal) : logAdd (logAdd x y) z = logAdd x (logAdd y z) := by
  apply exp_injective
  simp only [exp_logAdd, add_assoc]

theorem logAdd_comm (x y : EReal) : logAdd x y = logAdd y x := by
  apply exp_injective
  simp only [exp_logAdd, add_comm]

theorem logAdd_bot (x : EReal) : logAdd x ⊥ = x := by
  apply exp_injective
  simp [exp_logAdd]

theorem add_logAdd (x y z : EReal) : x + logAdd y z = logAdd (x + y) (x + z) := by
  apply exp_injective
  simp only [exp_logAdd, EReal.exp_add, mul_add]

theorem exp_ne_top {x : EReal} (limited : x < ⊤) : EReal.exp x ≠ ⊤ :=
  fun unlimited => limited.ne (EReal.exp_eq_top_iff.mp unlimited)

theorem logAdd_lt_top {x y : EReal} (left : x < ⊤) (right : y < ⊤) : logAdd x y < ⊤ := by
  rw [lt_top_iff_ne_top, Ne, ← EReal.exp_eq_top_iff, exp_logAdd]
  exact ENNReal.add_ne_top.mpr ⟨exp_ne_top left, exp_ne_top right⟩

end ExtendedReal

namespace Aggregate

theorem lawful_mass : (mass : Aggregate EReal).Lawful where
  none_eq := rfl
  unit_eq := zero_eq_zero
  isNone_iff x := by simp [isNone, mass]
  join_assoc := logAdd_assoc
  join_comm := logAdd_comm
  join_none := logAdd_bot
  combine_assoc := add_assoc
  combine_comm := add_comm
  combine_unit x := by simp [mass]
  combine_join := add_logAdd
  combine_none := EReal.add_bot
  join_lt_top := logAdd_lt_top
  combine_lt_top left right := EReal.add_lt_top left.ne right.ne

theorem lawful_best : (best : Aggregate EReal).Lawful where
  none_eq := rfl
  unit_eq := zero_eq_zero
  isNone_iff x := by simp [isNone, best]
  join_assoc x y z := by simp only [best, later_eq_max, max_assoc]
  join_comm x y := by simp only [best, later_eq_max, max_comm]
  join_none x := by simp [best, later_eq_max]
  combine_assoc := add_assoc
  combine_comm := add_comm
  combine_unit x := by simp [best]
  combine_join x y z := by simpa only [best, later_eq_max] using add_max x y z
  combine_none := EReal.add_bot
  join_lt_top left right := by simpa only [best, later_eq_max] using max_lt left right
  combine_lt_top left right := EReal.add_lt_top left.ne right.ne

end Aggregate

namespace ExtendedReal

theorem logSum_eq_foldl (xs : List EReal) :
    logSum xs = xs.foldl (Aggregate.mass : Aggregate EReal).join Aggregate.mass.none := by
  apply exp_injective
  rw [exp_logSum]
  change _ = EReal.exp (xs.foldl logAdd ⊥)
  rw [exp_foldl_logAdd, EReal.exp_bot, zero_add]

theorem logSum_perm {xs ys : List EReal} (reordered : xs.Perm ys) : logSum xs = logSum ys := by
  apply exp_injective
  rw [exp_logSum, exp_logSum, (reordered.map EReal.exp).sum_eq]

/-- The mass of some scores together. -/
noncomputable def total (xs : List EReal) : ENNReal := (xs.map EReal.exp).sum

theorem total_eq_zero_iff (xs : List EReal) : total xs = 0 ↔ ∀ x ∈ xs, x = ⊥ := by
  simp [total, List.sum_eq_zero_iff]

theorem total_ne_top {xs : List EReal} (limited : ∀ x ∈ xs, x < ⊤) : total xs ≠ ⊤ := by
  induction xs with
  | nil => simp [total]
  | cons x xs ih =>
    have rest := ih fun y member => limited y (by simp [member])
    exact ENNReal.add_ne_top.mpr ⟨exp_ne_top (limited x (by simp)), rest⟩

theorem exp_sub_logSum (xs : List EReal) (x : EReal) :
    EReal.exp (x - logSum xs) = EReal.exp x / total xs := by
  have log : logSum xs = ENNReal.log (total xs) := by
    rw [total, ← exp_logSum, EReal.log_exp]
  rw [sub_eq_add_neg, EReal.exp_add, EReal.exp_neg, log, ENNReal.exp_log, div_eq_mul_inv]

theorem normalize_eq_nil_iff (xs : List EReal) : normalize xs = [] ↔ ∀ x ∈ xs, x = ⊥ := by
  by_cases none : logSum xs = ⊥
  · simpa [LogScore.normalize, none] using (logSum_eq_bot_iff xs).mp none
  · have some := mt (logSum_eq_bot_iff xs).mpr none
    rw [normalize_of_present xs none, List.map_eq_nil_iff]
    exact ⟨fun empty => by simp [empty], fun absent => absurd absent some⟩

theorem normalize_eq_map {xs : List EReal} (some : total xs ≠ 0) :
    normalize xs = xs.map fun x => ((EReal.exp x / total xs : ENNReal) : EReal) := by
  have present : logSum xs ≠ ⊥ := by
    rwa [Ne, logSum_eq_bot_iff, ← total_eq_zero_iff]
  rw [normalize_of_present xs present]
  exact List.map_congr_left fun x _ => by rw [exp_sub_logSum]

theorem sum_shares_of_total {xs : List EReal} (limited : ∀ x ∈ xs, x < ⊤)
    (some : total xs ≠ 0) :
    (xs.map fun x => ((EReal.exp x / total xs : ENNReal) : EReal)).sum = 1 := by
  have shares : (xs.map fun x => EReal.exp x / total xs).sum = 1 := by
    simp only [div_eq_mul_inv, List.sum_map_mul_right]
    exact ENNReal.mul_inv_cancel some (total_ne_top limited)
  have coerced := sum_coe (xs.map fun x => EReal.exp x / total xs)
  rw [List.map_map, shares] at coerced
  exact coerced

theorem share_eq_zero_iff {xs : List EReal} (limited : ∀ x ∈ xs, x < ⊤) (x : EReal) :
    ((EReal.exp x / total xs : ENNReal) : EReal) = 0 ↔ x = ⊥ := by
  simp [ENNReal.div_eq_zero_iff, total_ne_top limited]

/-- Joining masses adds the probabilities they are logarithms of, and both aggregates are
commutative semirings. The mass of a list is what joining its scores one after another gives, in any
order. Normalizing gives nothing just where there is no mass at all, and otherwise the share of each
score in the total, which is zero only for a missing score. -/
theorem log_space_laws :
    (∀ x y : EReal, logAdd x y = ENNReal.log (EReal.exp x + EReal.exp y)) ∧
    (Aggregate.mass : Aggregate EReal).Lawful ∧ (Aggregate.best : Aggregate EReal).Lawful ∧
    (∀ xs : List EReal, logSum xs = xs.foldl logAdd ⊥) ∧
    (∀ xs ys : List EReal, xs.Perm ys → logSum xs = logSum ys) ∧
    (∀ xs : List EReal, normalize xs = [] ↔ ∀ x ∈ xs, x = ⊥) ∧
    ∀ xs : List EReal, (∀ x ∈ xs, x < ⊤) → (∃ x ∈ xs, x ≠ ⊥) →
      normalize xs =
        xs.map (fun x => ((EReal.exp x / (xs.map EReal.exp).sum : ENNReal) : EReal)) ∧
      List.Forall₂ (fun x share => 0 ≤ share ∧ (share = 0 ↔ x = ⊥)) xs (normalize xs) ∧
      (normalize xs).sum = 1 := by
  refine ⟨logAdd_eq_log, Aggregate.lawful_mass, Aggregate.lawful_best, logSum_eq_foldl,
    fun _ _ => logSum_perm, normalize_eq_nil_iff, ?_⟩
  rintro xs limited ⟨x, member, present⟩
  have some : total xs ≠ 0 := fun none => present ((total_eq_zero_iff xs).mp none x member)
  rw [normalize_eq_map some]
  refine ⟨rfl, ?_, sum_shares_of_total limited some⟩
  rw [List.forall₂_map_right_iff, List.forall₂_same]
  exact fun x _ => ⟨EReal.coe_ennreal_nonneg _, share_eq_zero_iff limited x⟩

theorem log_space_laws_halves :
    (normalize [0, ⊥, 0] : List EReal) =
      [((1 / 2 : ENNReal) : EReal), 0, ((1 / 2 : ENNReal) : EReal)] := by
  have limited : ∀ x ∈ ([0, ⊥, 0] : List EReal), x < ⊤ := by simp
  have present : ∃ x ∈ ([0, ⊥, 0] : List EReal), x ≠ ⊥ := ⟨0, by simp, by simp⟩
  obtain ⟨-, -, -, -, -, -, shares⟩ := log_space_laws
  rw [(shares _ limited present).1]
  simp [one_add_one_eq_two]

end ExtendedReal

end Constituency
