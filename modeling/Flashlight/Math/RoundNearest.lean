/-
# Rounding a quotient to a fixed precision

A binary floating point format with `p` significant bits rounds every exact
result to the nearest representable number and breaks ties towards the even
significand. The exponent range plays no part as long as results stay far from
the overflow and the subnormal thresholds, so it is left out here.

The result a program usually wants from such a format is an integer: how many
blocks of `b` bytes hold `a` bytes. Rounding the quotient first and taking the
ceiling afterwards is exact for every numerator that the format represents
exactly, whatever the denominator.
-/

import Mathlib.Algebra.Order.Floor.Div
import Mathlib.Data.Int.Log
import Mathlib.Data.Rat.Floor
import Mathlib.Tactic

namespace Flashlight.Math

/-- The integer nearest to `m`; a tie goes to the even neighbour. -/
def nearestEven (m : ℚ) : ℤ :=
  if m - ⌊m⌋ < 1 / 2 then ⌊m⌋
  else if 1 / 2 < m - ⌊m⌋ then ⌊m⌋ + 1
  else if Even ⌊m⌋ then ⌊m⌋
  else ⌊m⌋ + 1

/-- Rounding stays on the grid: it picks one of the two neighbours. -/
theorem nearestEven_eq_floor_or (m : ℚ) :
    nearestEven m = ⌊m⌋ ∨ nearestEven m = ⌊m⌋ + 1 := by
  unfold nearestEven
  split_ifs <;> simp

/-- An integer is its own rounding. -/
@[simp]
theorem nearestEven_intCast (n : ℤ) : nearestEven n = n := by
  simp [nearestEven]

/-- Rounding never crosses an integer lower bound. -/
theorem le_nearestEven {n : ℤ} {m : ℚ} (h : (n : ℚ) ≤ m) : n ≤ nearestEven m := by
  have hfloor : n ≤ ⌊m⌋ := Int.le_floor.mpr h
  rcases nearestEven_eq_floor_or m with heq | heq <;> omega

/-- Rounding never crosses an integer upper bound. -/
theorem nearestEven_le {n : ℤ} {m : ℚ} (h : m ≤ n) : nearestEven m ≤ n := by
  rcases h.eq_or_lt with rfl | hlt
  · simp
  · have hfloor : ⌊m⌋ < n := Int.floor_lt.mpr hlt
    rcases nearestEven_eq_floor_or m with heq | heq <;> omega

/-- More than half a unit above an integer is rounded strictly above it. -/
theorem lt_nearestEven {n : ℤ} {m : ℚ} (h : (n : ℚ) + 1 / 2 < m) : n < nearestEven m := by
  have hfloor : n ≤ ⌊m⌋ := Int.le_floor.mpr (by linarith)
  rcases hfloor.eq_or_lt with heq | hlt
  · have hfrac : 1 / 2 < m - ⌊m⌋ := by rw [← heq]; linarith
    have hround : nearestEven m = ⌊m⌋ + 1 := by
      rw [nearestEven, if_neg (by linarith), if_pos hfrac]
    omega
  · rcases nearestEven_eq_floor_or m with heq | heq <;> omega

/-- Rounding keeps the order. -/
theorem nearestEven_mono {x y : ℚ} (h : x ≤ y) : nearestEven x ≤ nearestEven y := by
  rcases (Int.floor_mono h).eq_or_lt with heq | hlt
  · unfold nearestEven
    rw [heq]
    split_ifs <;> first | omega | linarith
  · have hx : nearestEven x ≤ ⌊x⌋ + 1 := by
      rcases nearestEven_eq_floor_or x with hx | hx <;> omega
    have hy : ⌊y⌋ ≤ nearestEven y := le_nearestEven (Int.floor_le y)
    omega

/-- Rounding moves a number by at most one half. -/
theorem abs_nearestEven_sub_le (m : ℚ) : |(nearestEven m : ℚ) - m| ≤ 1 / 2 := by
  have hlow := Int.floor_le m
  have hhigh := Int.lt_floor_add_one m
  unfold nearestEven
  rw [abs_le]
  split_ifs <;> push_cast <;> constructor <;> linarith

/-- Round to `p` significant bits, to nearest, ties to even. -/
def roundTo (p : ℕ) (x : ℚ) : ℚ :=
  if x = 0 then 0
  else
    let ulp : ℚ := 2 ^ (Int.log 2 x - (p - 1))
    nearestEven (x / ulp) * ulp

@[simp]
theorem roundTo_zero (p : ℕ) : roundTo p 0 = 0 := by
  simp [roundTo]

/-- Below `2 ^ p` the unit in the last place is the inverse of an integer `D`,
so that rounding is rounding on the grid of the multiples of `1 / D`. The grid
is fine enough: `x` is at least half of `2 ^ p / D`. -/
theorem exists_grid {p : ℕ} {x : ℚ} (hpos : 0 < x) (hlt : x < 2 ^ p) :
    ∃ D : ℕ, 0 < D ∧ roundTo p x = nearestEven (x * D) / D ∧ (2 : ℚ) ^ p ≤ x * (2 * D) := by
  set k := Int.log 2 x with hk
  have hlow : (2 : ℚ) ^ k ≤ x := by
    have h := Int.zpow_log_le_self (b := 2) (r := x) (by norm_num) hpos
    exact_mod_cast h
  have hkp : k < p := by
    have h : ((2 : ℕ) : ℚ) ^ k < ((2 : ℕ) : ℚ) ^ (p : ℤ) := by
      push_cast
      exact lt_of_le_of_lt hlow (by exact_mod_cast hlt)
    exact (zpow_lt_zpow_iff_right₀ (by norm_num)).mp h
  obtain ⟨j, hj⟩ : ∃ j : ℕ, k = (p : ℤ) - 1 - j := ⟨(p - 1 - k).toNat, by omega⟩
  have hulp : (2 : ℚ) ^ (k - (p - 1)) = ((2 ^ j : ℕ) : ℚ)⁻¹ := by
    rw [hj, show (p : ℤ) - 1 - j - (p - 1) = -(j : ℤ) by ring, zpow_neg]
    norm_num
  refine ⟨2 ^ j, by positivity, ?_, ?_⟩
  · rw [roundTo, if_neg hpos.ne', ← hk]
    simp only [hulp, div_inv_eq_mul]
    rw [div_eq_mul_inv]
  · have hsplit : (2 : ℚ) ^ p = 2 ^ k * (2 * (2 ^ j : ℕ)) := by
      have hexp : (p : ℤ) = k + (1 + j) := by omega
      rw [← zpow_natCast, hexp, zpow_add₀ (by norm_num), zpow_add₀ (by norm_num)]
      norm_num
    rw [hsplit]
    gcongr

/-- Rounding never crosses a power of two. -/
theorem zpow_le_roundTo {p : ℕ} (hp : 0 < p) {k : ℤ} {x : ℚ} (h : 2 ^ k ≤ x) :
    2 ^ k ≤ roundTo p x := by
  have hpos : 0 < x := lt_of_lt_of_le (by positivity) h
  have hself : (2 : ℚ) ^ Int.log 2 x ≤ x := by
    exact_mod_cast Int.zpow_log_le_self (b := 2) (r := x) (by norm_num) hpos
  have hlog : k ≤ Int.log 2 x := by
    refine (Int.zpow_le_iff_le_log (by norm_num) hpos).mp ?_
    exact_mod_cast h
  set k' := Int.log 2 x with hk'
  set ulp : ℚ := 2 ^ (k' - (p - 1)) with hulp
  have hulppos : 0 < ulp := by positivity
  have hsplit : (2 : ℚ) ^ k' = (2 ^ (p - 1) : ℕ) * ulp := by
    rw [hulp, Nat.cast_pow, ← zpow_natCast, Nat.cast_two, ← zpow_add₀ (by norm_num)]
    congr 1
    omega
  have hround : ((2 ^ (p - 1) : ℕ) : ℤ) ≤ nearestEven (x / ulp) := by
    apply le_nearestEven
    rw [le_div_iff₀ hulppos]
    push_cast at hsplit ⊢
    rwa [← hsplit]
  calc (2 : ℚ) ^ k ≤ 2 ^ k' := zpow_le_zpow_right₀ (by norm_num) hlog
    _ = (2 ^ (p - 1) : ℕ) * ulp := hsplit
    _ ≤ nearestEven (x / ulp) * ulp := by
        gcongr
        exact_mod_cast hround
    _ = roundTo p x := by rw [roundTo, if_neg hpos.ne']

theorem two_pow_le_roundTo {p k : ℕ} (hp : 0 < p) {x : ℚ} (h : 2 ^ k ≤ x) :
    2 ^ k ≤ roundTo p x := by
  rw [← zpow_natCast] at h ⊢
  exact zpow_le_roundTo hp h

theorem roundTo_le_zpow {p : ℕ} {k : ℤ} {x : ℚ} (hpos : 0 < x) (h : x < 2 ^ k) :
    roundTo p x ≤ 2 ^ k := by
  have hlog : Int.log 2 x < k := by
    refine (Int.lt_zpow_iff_log_lt (by norm_num) hpos).mp ?_
    exact_mod_cast h
  have hself : x < 2 ^ (Int.log 2 x + 1) := by
    exact_mod_cast Int.lt_zpow_succ_log_self (b := 2) (by norm_num) x
  set k' := Int.log 2 x with hk'
  set ulp : ℚ := 2 ^ (k' - (p - 1)) with hulp
  have hulppos : 0 < ulp := by positivity
  have hsplit : (2 : ℚ) ^ (k' + 1) = (2 ^ p : ℕ) * ulp := by
    rw [hulp, Nat.cast_pow, ← zpow_natCast, Nat.cast_two, ← zpow_add₀ (by norm_num)]
    congr 1
    ring
  have hround : nearestEven (x / ulp) ≤ ((2 ^ p : ℕ) : ℤ) := by
    apply nearestEven_le
    rw [div_le_iff₀ hulppos]
    push_cast at hsplit ⊢
    rw [← hsplit]
    exact hself.le
  calc roundTo p x = nearestEven (x / ulp) * ulp := by rw [roundTo, if_neg hpos.ne']
    _ ≤ (2 ^ p : ℕ) * ulp := by
        gcongr
        exact_mod_cast hround
    _ = 2 ^ (k' + 1) := hsplit.symm
    _ ≤ 2 ^ k := zpow_le_zpow_right₀ (by norm_num) (by omega)

/-- Rounding keeps the sign of a positive number. -/
theorem roundTo_pos {p : ℕ} (hp : 0 < p) {x : ℚ} (hpos : 0 < x) : 0 < roundTo p x := by
  have hself : (2 : ℚ) ^ Int.log 2 x ≤ x := by
    exact_mod_cast Int.zpow_log_le_self (b := 2) (r := x) (by norm_num) hpos
  exact lt_of_lt_of_le (by positivity) (zpow_le_roundTo hp hself)

/-- Rounding keeps the order of positive numbers. -/
theorem roundTo_mono {p : ℕ} (hp : 0 < p) {x y : ℚ} (hx : 0 ≤ x) (h : x ≤ y) :
    roundTo p x ≤ roundTo p y := by
  rcases hx.eq_or_lt with rfl | hx
  · rcases h.eq_or_lt with rfl | hy
    · exact le_rfl
    · rw [roundTo_zero]
      exact (roundTo_pos hp hy).le
  · have hy : 0 < y := hx.trans_le h
    rcases (Int.log_mono_right (b := 2) hx h).eq_or_lt with heq | hlt
    · rw [roundTo, roundTo, if_neg hx.ne', if_neg hy.ne', heq]
      have hulppos : (0 : ℚ) < 2 ^ (Int.log 2 y - (p - 1 : ℤ)) := by positivity
      have hround : nearestEven (x / 2 ^ (Int.log 2 y - (p - 1 : ℤ))) ≤
          nearestEven (y / 2 ^ (Int.log 2 y - (p - 1 : ℤ))) :=
        nearestEven_mono (by gcongr)
      simp only
      gcongr
    · -- the two numbers stand on different sides of a power of two
      have hself : (2 : ℚ) ^ Int.log 2 y ≤ y := by
        exact_mod_cast Int.zpow_log_le_self (b := 2) (r := y) (by norm_num) hy
      have hbelow : x < 2 ^ Int.log 2 y := by
        have hlt' := (Int.lt_zpow_iff_log_lt (b := 2) (by norm_num) hx).mpr hlt
        exact_mod_cast hlt'
      exact (roundTo_le_zpow hx hbelow).trans (zpow_le_roundTo hp hself)

theorem roundTo_nonneg {p : ℕ} (hp : 0 < p) {x : ℚ} (hx : 0 ≤ x) : 0 ≤ roundTo p x := by
  have hmono := roundTo_mono hp le_rfl hx
  rwa [roundTo_zero] at hmono

/-- The relative error of rounding. -/
theorem abs_roundTo_sub_le (p : ℕ) {x : ℚ} (hpos : 0 < x) : |roundTo p x - x| ≤ x / 2 ^ p := by
  have hself : (2 : ℚ) ^ Int.log 2 x ≤ x := by
    exact_mod_cast Int.zpow_log_le_self (b := 2) (r := x) (by norm_num) hpos
  set k := Int.log 2 x with hk
  set ulp : ℚ := 2 ^ (k - (p - 1)) with hulp
  have hulppos : 0 < ulp := by positivity
  have hle : ulp / 2 ≤ x / 2 ^ p := by
    have hsplit : ulp / 2 = 2 ^ k / 2 ^ p := by
      rw [hulp, ← zpow_natCast, ← zpow_sub₀ (by norm_num), div_eq_iff (by norm_num),
        ← zpow_add_one₀ (by norm_num)]
      congr 1
      ring
    rw [hsplit]
    gcongr
  have herror := abs_nearestEven_sub_le (x / ulp)
  calc |roundTo p x - x| = |((nearestEven (x / ulp) : ℚ) - x / ulp) * ulp| := by
        rw [roundTo, if_neg hpos.ne', sub_mul, div_mul_cancel₀ _ hulppos.ne']
    _ = |(nearestEven (x / ulp) : ℚ) - x / ulp| * ulp := by rw [abs_mul, abs_of_pos hulppos]
    _ ≤ 1 / 2 * ulp := by gcongr
    _ = ulp / 2 := by ring
    _ ≤ x / 2 ^ p := hle

/-- Two numbers that are not too close are rounded in their order. -/
theorem roundTo_lt_roundTo {p : ℕ} {x y : ℚ} (hx : 0 < x) (hy : 0 < y)
    (hgap : x + (x + y) / 2 ^ p < y) : roundTo p x < roundTo p y := by
  have hxerror := (abs_le.mp (abs_roundTo_sub_le p hx)).2
  have hyerror := (abs_le.mp (abs_roundTo_sub_le p hy)).1
  rw [add_div] at hgap
  linarith

/-- Every natural number below `2 ^ p` is representable. -/
theorem roundTo_natCast {p n : ℕ} (h : n < 2 ^ p) : roundTo p n = n := by
  rcases Nat.eq_zero_or_pos n with rfl | hpos
  · simp
  · obtain ⟨D, hD, hround, -⟩ := exists_grid (p := p) (x := n)
      (by exact_mod_cast hpos) (by exact_mod_cast h)
    have hcast : (n : ℚ) * D = ((n * D : ℕ) : ℤ) := by push_cast; ring
    rw [hround, hcast, nearestEven_intCast]
    push_cast
    field_simp

/-- Quotients rounded up, as an ordering. -/
theorem lt_ceilDiv_iff {a b k : ℕ} (hb : 0 < b) : k < a ⌈/⌉ b ↔ b * k < a := by
  rw [← not_le, ceilDiv_le_iff_le_mul hb, not_le]

theorem ceilDiv_eq_one {a b : ℕ} (ha : 0 < a) (hle : a ≤ b) : a ⌈/⌉ b = 1 := by
  have hpos : 0 < a ⌈/⌉ b := (lt_ceilDiv_iff (by omega)).mpr (by omega)
  have hone : a ⌈/⌉ b ≤ 1 := (ceilDiv_le_iff_le_mul (by omega)).mpr (by omega)
  omega

/-- One step of a loop that counts down by `b`. -/
theorem ceilDiv_eq_sub_add_one {a b : ℕ} (hb : 0 < b) (ha : 0 < a) :
    a ⌈/⌉ b = (a - b) ⌈/⌉ b + 1 := by
  rw [Nat.ceilDiv_eq_add_pred_div, Nat.ceilDiv_eq_add_pred_div, ← Nat.add_div_right _ hb]
  rcases Nat.le_total b a with hle | hle
  · congr 1
    omega
  · rw [Nat.sub_eq_zero_of_le hle, Nat.div_eq_of_lt_le (show 1 * b ≤ a + b - 1 by omega) (by omega),
      Nat.div_eq_of_lt_le (show 1 * b ≤ 0 + b - 1 + b by omega) (by omega)]

/-- **The rounded quotient has the exact ceiling.** A numerator below `2 ^ p`
keeps every nonzero fractional part of `a / b` at least `1 / b` above an integer,
which is more than half a unit in the last place. -/
theorem ceil_roundTo_div {p a b : ℕ} (ha : a < 2 ^ p) (hb : 0 < b) :
    ⌈roundTo p (a / b)⌉₊ = a ⌈/⌉ b := by
  rcases Nat.eq_zero_or_pos a with rfl | hpos
  · simp
  set c := a ⌈/⌉ b with hc
  have hbQ : (0 : ℚ) < b := by exact_mod_cast hb
  have hcb : a ≤ b * c := by
    simpa [mul_comm] using (ceilDiv_le_iff_le_mul hb).mp (le_refl c)
  have hc0 : c ≠ 0 := by
    rintro h
    rw [h] at hcb
    omega
  have hca : b * (c - 1) + 1 ≤ a := by
    by_contra hlt
    have : c ≤ c - 1 := (ceilDiv_le_iff_le_mul hb).mpr (by omega)
    omega
  have hxpos : (0 : ℚ) < a / b := by positivity
  have hxlt : (a : ℚ) / b < 2 ^ p := by
    have h1 : (a : ℚ) < 2 ^ p := by exact_mod_cast ha
    have h2 : (1 : ℚ) ≤ b := by exact_mod_cast hb
    exact (div_le_self a.cast_nonneg h2).trans_lt h1
  obtain ⟨D, hD, hround, hfine⟩ := exists_grid hxpos hxlt
  have hDQ : (0 : ℚ) < D := by exact_mod_cast hD
  -- the grid is finer than the denominator
  have hbD : (b : ℚ) < 2 * D := by
    have h1 : (a : ℚ) < 2 ^ p := by exact_mod_cast ha
    have h2 : (a : ℚ) < a / b * (2 * D) := lt_of_lt_of_le h1 hfine
    rw [div_mul_eq_mul_div, lt_div_iff₀ hbQ] at h2
    exact lt_of_mul_lt_mul_left h2 a.cast_nonneg
  have hupper : nearestEven (a / b * D) ≤ (c * D : ℕ) := by
    refine nearestEven_le ?_
    have h : (a : ℚ) ≤ b * c := by exact_mod_cast hcb
    push_cast
    rw [div_mul_eq_mul_div, div_le_iff₀ hbQ]
    have hscaled : (a : ℚ) * D ≤ b * c * D := mul_le_mul_of_nonneg_right h hDQ.le
    linarith
  have hlower : ((c - 1) * D : ℕ) < nearestEven (a / b * D) := by
    refine lt_nearestEven ?_
    have h : (b : ℚ) * (c - 1 : ℕ) + 1 ≤ a := by exact_mod_cast hca
    push_cast
    rw [div_mul_eq_mul_div, lt_div_iff₀ hbQ]
    have hscaled : ((b : ℚ) * (c - 1 : ℕ) + 1) * D ≤ a * D := mul_le_mul_of_nonneg_right h hDQ.le
    linarith
  rw [hround, Nat.ceil_eq_iff hc0, lt_div_iff₀ hDQ, div_le_iff₀ hDQ]
  constructor
  · exact_mod_cast hlower
  · exact_mod_cast hupper

end Flashlight.Math
