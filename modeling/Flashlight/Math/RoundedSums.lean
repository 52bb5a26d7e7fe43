/-
# Means that are added up with rounding

The mean of `n` numbers is added up part by part: each part is divided by `n` and rounded, and so is
the sum behind it. The result depends on the order, but it keeps the order of the numbers, and it is
off by no more than one relative error for each operation.
-/

import Flashlight.Math.RoundNearest

namespace Flashlight.Math

/-- The first `k` parts of the mean of `n` numbers, added up with `p` significant bits. -/
def roundedMean (p n : ℕ) (f : ℕ → ℚ) : ℕ → ℚ
  | 0 => 0
  | k + 1 => roundTo p (roundedMean p n f k + roundTo p (f k / n))

section

variable {p n : ℕ} {f g : ℕ → ℚ} {k : ℕ} {c : ℚ}

theorem roundedMean_congr (h : ∀ j < k, f j = g j) : roundedMean p n f k = roundedMean p n g k := by
  induction k with
  | zero => rfl
  | succ k ih =>
      rw [roundedMean, roundedMean, ih fun j hj => h j (hj.trans (Nat.lt_succ_self k)),
        h k (Nat.lt_succ_self k)]

variable (hp : 0 < p)
include hp

theorem roundedMean_nonneg (hf : ∀ j < k, 0 ≤ f j) : 0 ≤ roundedMean p n f k := by
  induction k with
  | zero => exact le_rfl
  | succ k ih =>
      have hsum := ih fun j hj => hf j (hj.trans (Nat.lt_succ_self k))
      have hpart : 0 ≤ roundTo p (f k / n) :=
        roundTo_nonneg hp (div_nonneg (hf k (Nat.lt_succ_self k)) (Nat.cast_nonneg n))
      exact roundTo_nonneg hp (add_nonneg hsum hpart)

/-- Larger numbers have a larger mean, however it is rounded. -/
theorem roundedMean_mono (hf : ∀ j < k, 0 ≤ f j) (h : ∀ j < k, f j ≤ g j) :
    roundedMean p n f k ≤ roundedMean p n g k := by
  induction k with
  | zero => exact le_rfl
  | succ k ih =>
      have hf' : ∀ j < k, 0 ≤ f j := fun j hj => hf j (hj.trans (Nat.lt_succ_self k))
      have hsum := ih hf' fun j hj => h j (hj.trans (Nat.lt_succ_self k))
      have hfk := hf k (Nat.lt_succ_self k)
      have hquotient : 0 ≤ f k / n := div_nonneg hfk (Nat.cast_nonneg n)
      have hpart : roundTo p (f k / n) ≤ roundTo p (g k / n) :=
        roundTo_mono hp hquotient
          (div_le_div_of_nonneg_right (h k (Nat.lt_succ_self k)) (Nat.cast_nonneg n))
      exact roundTo_mono hp (add_nonneg (roundedMean_nonneg hp hf') (roundTo_nonneg hp hquotient))
        (add_le_add hsum hpart)

omit hp in
theorem roundTo_le_mul {x : ℚ} (hx : 0 ≤ x) : roundTo p x ≤ x * (1 + 1 / 2 ^ p) := by
  rcases hx.eq_or_lt with rfl | hpos
  · simp
  · have herror := (abs_le.mp (abs_roundTo_sub_le p hpos)).2
    rw [mul_add, mul_one, mul_one_div]
    linarith

omit hp in
theorem mul_le_roundTo {x : ℚ} (hx : 0 ≤ x) : x * (1 - 1 / 2 ^ p) ≤ roundTo p x := by
  rcases hx.eq_or_lt with rfl | hpos
  · simp
  · have herror := (abs_le.mp (abs_roundTo_sub_le p hpos)).1
    rw [mul_sub, mul_one, mul_one_div]
    linarith

/-- The parts that are added up are too large by one relative error for each operation at most. -/
theorem roundedMean_le (hf : ∀ j < k, 0 ≤ f j) (hc : ∀ j < k, f j ≤ c) (hc₀ : 0 ≤ c) :
    roundedMean p n f k ≤ k / n * c * (1 + 1 / 2 ^ p) ^ (k + 1) := by
  induction k with
  | zero => simp [roundedMean]
  | succ k ih =>
      have hf' : ∀ j < k, 0 ≤ f j := fun j hj => hf j (hj.trans (Nat.lt_succ_self k))
      have hsum := ih hf' fun j hj => hc j (hj.trans (Nat.lt_succ_self k))
      have hquotient : 0 ≤ f k / n := div_nonneg (hf k (Nat.lt_succ_self k)) (Nat.cast_nonneg n)
      have hone : (1 : ℚ) ≤ 1 + 1 / 2 ^ p := le_add_of_nonneg_right (by positivity)
      have hpart : roundTo p (f k / n) ≤ 1 / n * c * (1 + 1 / 2 ^ p) ^ (k + 1) := by
        calc roundTo p (f k / n) ≤ f k / n * (1 + 1 / 2 ^ p) := roundTo_le_mul hquotient
          _ ≤ c / n * (1 + 1 / 2 ^ p) ^ (k + 1) := by
              gcongr
              · exact hc k (Nat.lt_succ_self k)
              · exact le_self_pow₀ hone (Nat.succ_ne_zero k)
          _ = 1 / n * c * (1 + 1 / 2 ^ p) ^ (k + 1) := by ring
      have hnonneg : 0 ≤ roundedMean p n f k + roundTo p (f k / n) :=
        add_nonneg (roundedMean_nonneg hp hf') (roundTo_nonneg hp hquotient)
      calc roundTo p (roundedMean p n f k + roundTo p (f k / n)) ≤
            (roundedMean p n f k + roundTo p (f k / n)) * (1 + 1 / 2 ^ p) :=
          roundTo_le_mul hnonneg
        _ ≤ (k / n * c * (1 + 1 / 2 ^ p) ^ (k + 1) + 1 / n * c * (1 + 1 / 2 ^ p) ^ (k + 1)) *
            (1 + 1 / 2 ^ p) := by gcongr
        _ = (k + 1 : ℕ) / n * c * (1 + 1 / 2 ^ p) ^ (k + 1 + 1) := by
            push_cast
            ring

/-- They are too small by one relative error for each operation at most. -/
theorem le_roundedMean (hc : ∀ j < k, c ≤ f j) (hc₀ : 0 ≤ c) :
    k / n * c * (1 - 1 / 2 ^ p) ^ (k + 1) ≤ roundedMean p n f k := by
  have hle : (1 : ℚ) / 2 ^ p ≤ 1 := by
    rw [div_le_one (by positivity)]
    exact one_le_pow₀ (by norm_num)
  have herror : (0 : ℚ) ≤ 1 - 1 / 2 ^ p := by linarith
  have hone : (1 : ℚ) - 1 / 2 ^ p ≤ 1 := sub_le_self _ (by positivity)
  induction k with
  | zero => simp [roundedMean]
  | succ k ih =>
      have hsum := ih fun j hj => hc j (hj.trans (Nat.lt_succ_self k))
      have hfk : 0 ≤ f k := hc₀.trans (hc k (Nat.lt_succ_self k))
      have hquotient : 0 ≤ f k / n := div_nonneg hfk (Nat.cast_nonneg n)
      have hpart : 1 / n * c * (1 - 1 / 2 ^ p) ^ (k + 1) ≤ roundTo p (f k / n) := by
        calc 1 / n * c * (1 - 1 / 2 ^ p) ^ (k + 1) = c / n * (1 - 1 / 2 ^ p) ^ (k + 1) := by ring
          _ ≤ f k / n * (1 - 1 / 2 ^ p) := by
              gcongr
              · exact hc k (Nat.lt_succ_self k)
              · exact pow_le_of_le_one herror hone (Nat.succ_ne_zero k)
          _ ≤ roundTo p (f k / n) := mul_le_roundTo hquotient
      have hnonneg : 0 ≤ roundedMean p n f k + roundTo p (f k / n) :=
        add_nonneg (roundedMean_nonneg hp fun j hj => hc₀.trans
          (hc j (hj.trans (Nat.lt_succ_self k)))) (roundTo_nonneg hp hquotient)
      calc (k + 1 : ℕ) / n * c * (1 - 1 / 2 ^ p) ^ (k + 1 + 1) =
            (k / n * c * (1 - 1 / 2 ^ p) ^ (k + 1) + 1 / n * c * (1 - 1 / 2 ^ p) ^ (k + 1)) *
            (1 - 1 / 2 ^ p) := by
            push_cast
            ring
        _ ≤ (roundedMean p n f k + roundTo p (f k / n)) * (1 - 1 / 2 ^ p) := by gcongr
        _ ≤ roundTo p (roundedMean p n f k + roundTo p (f k / n)) := mul_le_roundTo hnonneg

end

end Flashlight.Math
