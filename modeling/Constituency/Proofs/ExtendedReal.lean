import Mathlib
import Constituency.Score.LogSum

/-!
Exact scores: real numbers with a least value for what nothing derives and a greatest one.
The exponential turns sums of such scores into products, and sums of probabilities given by their
logarithms into sums.
-/

namespace Constituency

open Score

noncomputable instance : Score EReal where
  ofNat number := (number : EReal)
  absent := ⊥
  unlimited := ⊤
  fraction k := ((k / 2 ^ 53 : ℝ) : EReal)
  beq x y := decide (x = y)
  decideLt := inferInstance
  decideLe := inferInstance

noncomputable instance : LogScore EReal where
  exp x := ((EReal.exp x : ENNReal) : EReal)
  log x := ENNReal.log x.toENNReal
  log1p x := ENNReal.log (1 + x.toENNReal)

namespace ExtendedReal

open LogScore

@[simp] theorem absent_eq_bot : (absent : EReal) = ⊥ := rfl

@[simp] theorem unlimited_eq_top : (unlimited : EReal) = ⊤ := rfl

@[simp] theorem zero_eq_zero : (zero : EReal) = 0 := by
  change ((0 : Nat) : EReal) = 0
  simp

@[simp] theorem beq_eq_decide (x y : EReal) : (x == y) = decide (x = y) := rfl

theorem one_eq_one : (one : EReal) = 1 := by
  change ((1 : Nat) : EReal) = 1
  simp

theorem later_eq_max (x y : EReal) : later x y = max x y := by
  rcases lt_trichotomy x y with less | rfl | more
  · simp [later, order, less, less.le]
  · simp [later, order]
  · simp [later, order, more, more.le, not_lt.mpr more.le]

theorem larger_eq_max (x y : EReal) : larger x y = max x y := by
  by_cases less : x < y
  · simp [larger, less, less.le]
  · simp [larger, isNumber, less, not_lt.mp less]

theorem foldl_larger (xs : List EReal) (start : EReal) :
    xs.foldl larger start = max start (largest xs) := by
  induction xs generalizing start with
  | nil => simp [largest]
  | cons x xs ih =>
    have whole : largest (x :: xs) = max x (largest xs) := by
      change xs.foldl larger (larger absent x) = _
      rw [ih, larger_eq_max, absent_eq_bot, max_bot_left]
    rw [List.foldl_cons, ih, whole, larger_eq_max, max_assoc]

theorem largest_cons (x : EReal) (xs : List EReal) :
    largest (x :: xs) = max x (largest xs) := by
  change xs.foldl larger (larger absent x) = _
  rw [foldl_larger, larger_eq_max, absent_eq_bot, max_bot_left]

theorem le_largest {x : EReal} {xs : List EReal} (member : x ∈ xs) : x ≤ largest xs := by
  induction xs with
  | nil => simp at member
  | cons y xs ih =>
    rw [largest_cons]
    rcases List.mem_cons.mp member with rfl | later
    · exact le_max_left _ _
    · exact (ih later).trans (le_max_right _ _)

theorem largest_le {xs : List EReal} {bound : EReal} (below : ∀ x ∈ xs, x ≤ bound) :
    largest xs ≤ bound := by
  induction xs with
  | nil => exact bot_le
  | cons x xs ih =>
    rw [largest_cons]
    exact max_le (below x (by simp)) (ih fun y member => below y (by simp [member]))

theorem largest_mem {xs : List EReal} (present : largest xs ≠ ⊥) : largest xs ∈ xs := by
  induction xs with
  | nil => simp [largest] at present
  | cons x xs ih =>
    rw [largest_cons] at present ⊢
    rcases max_choice x (largest xs) with first | rest
    · simp [first]
    · rw [rest] at present ⊢
      exact List.mem_cons_of_mem _ (ih present)

theorem clamp_eq {low high : EReal} (ordered : low ≤ high) (x : EReal) :
    clamp low high x = max low (min high x) := by
  unfold clamp
  by_cases below : x < low
  · rw [if_pos below, min_eq_right (below.le.trans ordered), max_eq_left below.le]
  · rw [if_neg below]
    by_cases above : high < x
    · rw [if_pos above, min_eq_left above.le, max_eq_right ordered]
    · rw [if_neg above, min_eq_right (not_lt.mp above), max_eq_right (not_lt.mp below)]

private theorem exp_add_log1p (high low : EReal) (present : high ≠ ⊥) (limited : high ≠ ⊤) :
    EReal.exp (high + log1p (exp (low - high))) = EReal.exp high + EReal.exp low := by
  change EReal.exp (high +
    ENNReal.log (1 + ((EReal.exp (low - high) : ENNReal) : EReal).toENNReal)) = _
  rw [EReal.exp_add, ENNReal.exp_log, EReal.toENNReal_coe, mul_add, mul_one, ← EReal.exp_add]
  lift high to ℝ using ⟨limited, present⟩
  rw [add_comm (high : EReal), EReal.sub_add_cancel]

theorem exp_logAdd (x y : EReal) : EReal.exp (logAdd x y) = EReal.exp x + EReal.exp y := by
  have ordered (high low : EReal) (below : low ≤ high) :
      EReal.exp (if high == absent then absent else if high == unlimited then unlimited
        else high + log1p (exp (low - high))) = EReal.exp high + EReal.exp low := by
    by_cases none : high = ⊥
    · subst none
      simp [le_bot_iff.mp below]
    · by_cases all : high = ⊤
      · simp [all]
      · simpa [none, all] using exp_add_log1p high low none all
  by_cases below : y ≤ x
  · simpa [logAdd, below] using ordered x y below
  · simpa [logAdd, below, add_comm] using ordered y x (not_le.mp below).le

theorem sum_coe (xs : List ENNReal) :
    (xs.map fun x : ENNReal => (x : EReal)).sum = ((xs.sum : ENNReal) : EReal) := by
  induction xs with
  | nil => simp
  | cons x xs ih => rw [List.map_cons, List.sum_cons, ih, List.sum_cons, EReal.coe_ennreal_add]

theorem coe_sum (xs : List ℝ) : ((xs.sum : ℝ) : EReal) = (xs.map ((↑) : ℝ → EReal)).sum := by
  induction xs with
  | nil => rfl
  | cons x xs ih => rw [List.sum_cons, EReal.coe_add, ih, List.map_cons, List.sum_cons]

private theorem logSum_eq_shifted (xs : List EReal) (present : largest xs ≠ ⊥)
    (limited : largest xs ≠ ⊤) :
    logSum xs =
      largest xs + ENNReal.log (xs.map fun x => EReal.exp (x - largest xs)).sum := by
  have sum := sum_coe (xs.map fun x => EReal.exp (x - largest xs))
  rw [List.map_map, List.sum_eq_foldl] at sum
  simp only [logSum, absent_eq_bot, unlimited_eq_top, zero_eq_zero, beq_eq_decide, present,
    limited, decide_false, Bool.or_self, Bool.false_eq_true, if_false]
  exact congrArg (fun total => largest xs + ENNReal.log total)
    ((congrArg EReal.toENNReal sum).trans EReal.toENNReal_coe)

/-- The logarithm of a sum of probabilities is exact for every list, also where some of them or all
are missing and where some are unlimited. -/
theorem exp_logSum (xs : List EReal) : EReal.exp (logSum xs) = (xs.map EReal.exp).sum := by
  by_cases none : largest xs = ⊥
  · have absent : ∀ x ∈ xs, EReal.exp x = 0 := by
      intro x member
      have below := le_largest member
      rw [none] at below
      simpa using below
    have sum : (xs.map EReal.exp).sum = 0 := List.sum_eq_zero (by simpa using absent)
    simp [logSum, none, sum]
  · by_cases all : largest xs = ⊤
    · have member : (⊤ : EReal) ∈ xs := all ▸ largest_mem none
      have sum : (xs.map EReal.exp).sum = ⊤ :=
        top_le_iff.mp (List.single_le_sum (by simp) _ (List.mem_map.mpr ⟨⊤, member, rfl⟩))
      simp [logSum, all, sum]
    · rw [logSum_eq_shifted xs none all, EReal.exp_add, ENNReal.exp_log, ← List.sum_map_mul_left]
      congr 1
      apply List.map_congr_left
      intro x _
      rw [← EReal.exp_add]
      lift largest xs to ℝ using ⟨all, none⟩ with top
      rw [add_comm (top : EReal), EReal.sub_add_cancel]

theorem logSum_eq_bot_iff (xs : List EReal) : logSum xs = ⊥ ↔ ∀ x ∈ xs, x = ⊥ := by
  rw [← EReal.exp_eq_zero_iff, exp_logSum, List.sum_eq_zero_iff]
  simp

theorem normalize_of_present (xs : List EReal) (present : logSum xs ≠ ⊥) :
    LogScore.normalize xs = xs.map fun x => ((EReal.exp (x - logSum xs) : ENNReal) : EReal) := by
  simp only [LogScore.normalize, absent_eq_bot, beq_eq_decide, present, decide_false,
    Bool.false_eq_true, if_false]
  rfl

end ExtendedReal

end Constituency
