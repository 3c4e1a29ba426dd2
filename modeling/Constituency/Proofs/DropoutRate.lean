import Mathlib
import Constituency.Model.Dropout
import Constituency.Proofs.ExtendedReal

/-!
How much dropout leaves out. Spreading permutes the words, so the part of all hashes that falls below
a rate is the rate itself, rounded up to the next of the fractions that hashes are read as; and what
is left out at a rate is left out at every higher one.
-/

namespace Constituency

open Score ExtendedReal

section Spread

/-- Where two words that are combined with themselves moved down are alike, what the words differ by
is its own quotient, which only zero is. -/
theorem xor_shiftRight_injective {places : UInt64} (moves : places.toNat % 64 ≠ 0) :
    Function.Injective fun word : UInt64 => word ^^^ (word >>> places) := by
  intro word other same
  have cancel : (word ^^^ other) ^^^ ((word ^^^ other) >>> places) = 0 := by
    calc (word ^^^ other) ^^^ ((word ^^^ other) >>> places)
        = (word ^^^ (word >>> places)) ^^^ (other ^^^ (other >>> places)) := by
          rw [UInt64.shiftRight_xor]
          ac_rfl
      _ = 0 := UInt64.xor_eq_zero_iff.mpr same
  have quotient : (word ^^^ other).toNat = (word ^^^ other).toNat / 2 ^ (places.toNat % 64) := by
    rw [← Nat.shiftRight_eq_div_pow, ← UInt64.toNat_shiftRight]
    exact congrArg UInt64.toNat (UInt64.xor_eq_zero_iff.mp cancel)
  have none : (word ^^^ other).toNat = 0 := by
    by_contra some
    exact (Nat.div_lt_self (Nat.pos_of_ne_zero some) (Nat.one_lt_two_pow moves)).ne quotient.symm
  exact UInt64.xor_eq_zero_iff.mp (UInt64.toNat_inj.mp none)

theorem mul_injective_of_inverse {factor inverse : UInt64} (unit : factor * inverse = 1) :
    Function.Injective fun word : UInt64 => word * factor :=
  (IsUnit.of_mul_eq_one _ unit).mul_left_injective

theorem spread_bijective : Function.Bijective spread := by
  have first := mul_injective_of_inverse
    (show (0xbf58476d1ce4e5b9 * 0x96de1b173f119089 : UInt64) = 1 by decide)
  have second := mul_injective_of_inverse
    (show (0x94d049bb133111eb * 0x319642b2d24d8ec3 : UInt64) = 1 by decide)
  have thirty := @xor_shiftRight_injective 30 (by decide)
  have twentySeven := @xor_shiftRight_injective 27 (by decide)
  have thirtyOne := @xor_shiftRight_injective 31 (by decide)
  have injective : Function.Injective spread :=
    thirtyOne.comp (second.comp (twentySeven.comp (first.comp thirty)))
  exact Finite.injective_iff_bijective.mp injective

end Spread

section Fraction

/-- The fraction that a hash is read as, by the upper 53 bits of its spread. -/
noncomputable def hashFraction (hash : UInt64) : ℝ :=
  (spread hash >>> 11).toNat / (2 ^ 53 : Nat)

theorem fraction_eq_hashFraction (hash : UInt64) :
    (fraction (spread hash >>> 11).toNat : EReal) = hashFraction hash := by
  rw [hashFraction, Nat.cast_pow, Nat.cast_ofNat]
  rfl

theorem hashFraction_nonneg (hash : UInt64) : 0 ≤ hashFraction hash :=
  div_nonneg (Nat.cast_nonneg _) (by positivity)

theorem hashFraction_lt_iff (rate : ℝ) (hash : UInt64) :
    hashFraction hash < rate ↔ (spread hash).toNat < 2 ^ 11 * ⌈rate * 2 ^ 53⌉₊ := by
  have upper : (spread hash >>> 11).toNat = (spread hash).toNat / 2 ^ 11 := by
    rw [UInt64.toNat_shiftRight, Nat.shiftRight_eq_div_pow]
    rfl
  rw [hashFraction, div_lt_iff₀ (by positivity), ← Nat.lt_ceil, Nat.cast_pow, Nat.cast_ofNat,
    upper, Nat.div_lt_iff_lt_mul (by positivity), mul_comm]

theorem hashFraction_lt_one (hash : UInt64) : hashFraction hash < 1 := by
  have whole : ⌈(2 ^ 53 : ℝ)⌉₊ = 2 ^ 53 := by exact_mod_cast Nat.ceil_natCast (2 ^ 53)
  rw [hashFraction_lt_iff, one_mul, whole]
  exact (spread hash).toNat_lt

theorem ncard_toNat_lt {bound : Nat} (fits : bound ≤ 2 ^ 64) :
    {word : UInt64 | word.toNat < bound}.ncard = bound := by
  have numbers : UInt64.toNat '' {word : UInt64 | word.toNat < bound} = Finset.range bound := by
    ext number
    rw [Finset.coe_range, Set.mem_Iio]
    constructor
    · rintro ⟨word, below, rfl⟩
      exact below
    · intro below
      have own : number.toUInt64.toNat = number := UInt64.toNat_ofNat_of_lt' (below.trans_le fits)
      exact ⟨number.toUInt64, own.trans_lt below, own⟩
  rw [← Set.ncard_image_of_injective _ fun _ _ => UInt64.toNat_inj.mp, numbers,
    Set.ncard_coe_finset, Finset.card_range]

theorem ncard_hashFraction_lt {rate : ℝ} (most : rate ≤ 1) :
    {hash : UInt64 | hashFraction hash < rate}.ncard = 2 ^ 11 * ⌈rate * 2 ^ 53⌉₊ := by
  have fits : 2 ^ 11 * ⌈rate * 2 ^ 53⌉₊ ≤ 2 ^ 64 := by
    have ceil : ⌈rate * 2 ^ 53⌉₊ ≤ 2 ^ 53 := by
      rw [Nat.ceil_le]
      push_cast
      linarith
    calc 2 ^ 11 * ⌈rate * 2 ^ 53⌉₊ ≤ 2 ^ 11 * 2 ^ 53 := Nat.mul_le_mul_left _ ceil
      _ = 2 ^ 64 := by norm_num
  have reached : {word : UInt64 | word.toNat < 2 ^ 11 * ⌈rate * 2 ^ 53⌉₊} ⊆ Set.range spread := by
    rw [spread_bijective.surjective.range_eq]
    exact Set.subset_univ _
  have preimage := Set.ncard_preimage_of_injective_subset_range spread_bijective.injective reached
  rw [ncard_toNat_lt fits] at preimage
  simp only [hashFraction_lt_iff]
  exact preimage

end Fraction

namespace Dropout

theorem drops_iff (dropout : Dropout EReal) (feature : Feature) :
    dropout.drops feature = true ↔
      (hashFraction (feature.hashWith dropout.seed) : EReal) < dropout.rate := by
  have least := EReal.coe_nonneg.mpr (hashFraction_nonneg (feature.hashWith dropout.seed))
  rw [drops, isBelow, Bool.and_eq_true, Bool.not_eq_true', decide_eq_false_iff_not,
    decide_eq_true_iff, zero_eq_zero, fraction_eq_hashFraction]
  exact and_iff_right_of_imp fun below => not_le.mpr (least.trans_lt below)

theorem drops_ofRate_iff (model : LinearModel EReal) (seed : UInt64) (feature : Feature)
    (rate : EReal) : (ofRate model rate seed).drops feature = true ↔
      (hashFraction (feature.hashWith seed) : EReal) < max 0 (min 1 rate) := by
  have ordered : (zero : EReal) ≤ one := by simp [one_eq_one]
  rw [drops_iff, ofRate, clamp_eq ordered, zero_eq_zero, one_eq_one]

/-- Spreading permutes the words, so at every rate the hashes below it are as many as there are
words that begin with one of the fractions below it. None is below zero and all are below one. A
feature is left out where its hash is below the rate, and so at every higher rate too. -/
theorem dropped_share :
    Function.Bijective spread ∧
    (∀ rate : ℝ, 0 ≤ rate → rate ≤ 1 →
      {hash : UInt64 | hashFraction hash < rate}.ncard = 2 ^ 11 * ⌈rate * 2 ^ 53⌉₊) ∧
    (∀ hash, ¬ hashFraction hash < 0) ∧ (∀ hash, hashFraction hash < 1) ∧
    (∀ (model : LinearModel EReal) (seed : UInt64) (feature : Feature) (rate : ℝ),
      0 ≤ rate → rate ≤ 1 → ((ofRate model (rate : EReal) seed).drops feature = true ↔
        hashFraction (feature.hashWith seed) < rate)) ∧
    ∀ (model : LinearModel EReal) (seed : UInt64) (feature : Feature) (rate rate' : EReal),
      rate ≤ rate' → (ofRate model rate seed).drops feature = true →
        (ofRate model rate' seed).drops feature = true := by
  refine ⟨spread_bijective, fun rate _ most => ncard_hashFraction_lt most,
    fun hash => not_lt.mpr (hashFraction_nonneg hash), hashFraction_lt_one, ?_, ?_⟩
  · intro model seed feature rate least most
    rw [drops_ofRate_iff, min_eq_right (by exact_mod_cast most),
      max_eq_right (by exact_mod_cast least), EReal.coe_lt_coe_iff]
  · intro model seed feature rate rate' rising dropped
    rw [drops_ofRate_iff] at dropped ⊢
    exact dropped.trans_le (max_le_max_left _ (min_le_min_left _ rising))

/-- A third is no multiple of the fractions. -/
theorem dropped_share_third :
    {hash : UInt64 | hashFraction hash < 1 / 3}.ncard = 2 ^ 11 * 3002399751580331 ∧
    (ofRate {} ((1 / 3 : ℝ) : EReal) 7).drops (.rule 4) = true ∧
    (ofRate {} ((1 / 2 : ℝ) : EReal) 7).drops (.rule 4) = true := by
  obtain ⟨-, counted, -, -, dropped, rising⟩ := dropped_share
  have below : hashFraction ((Feature.rule 4).hashWith 7) < 1 / 3 := by
    have read : (spread ((Feature.rule 4).hashWith 7) >>> 11).toNat = 1810058646842424 := by decide
    rw [hashFraction, read]
    norm_num
  have third := (dropped {} 7 (.rule 4) (1 / 3) (by norm_num) (by norm_num)).mpr below
  refine ⟨?_, third, rising {} 7 (.rule 4) _ _ ?_ third⟩
  · have next : ⌈(1 / 3 : ℝ) * 2 ^ 53⌉₊ = 3002399751580331 :=
      (Nat.ceil_eq_iff (by decide)).mpr (by norm_num)
    rw [counted (1 / 3) (by norm_num) (by norm_num), next]
  · rw [EReal.coe_le_coe_iff]
    norm_num

end Dropout

end Constituency
