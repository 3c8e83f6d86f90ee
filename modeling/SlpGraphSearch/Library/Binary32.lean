import Mathlib.Data.Int.Log
import Mathlib.Data.Rat.Floor
import Mathlib.Tactic.FieldSimp
import Mathlib.Tactic.Linarith
import Mathlib.Tactic.Positivity

/-!
# Rounding to single precision

The results of positive single-precision arithmetic away from overflow and underflow:
the nearest number with 24 significant bits, of two the one whose last bit is zero.
-/
namespace SlpGraphSearch.Library

/-- The nearest integer, of two the even one. -/
def roundHalfEven (q : ℚ) : ℤ :=
  if q - ⌊q⌋ < 1 / 2 ∨ q - ⌊q⌋ = 1 / 2 ∧ ⌊q⌋ % 2 = 0 then ⌊q⌋ else ⌊q⌋ + 1

/-- The unit in the last of 24 significant bits. -/
def ulp (q : ℚ) : ℚ := 2 ^ (Int.log 2 q - 23)

/-- The nearest number with 24 significant bits. -/
def binary32 (q : ℚ) : ℚ := roundHalfEven (q / ulp q) * ulp q

theorem roundHalfEven_intCast (z : ℤ) : roundHalfEven z = z := by
  simp [roundHalfEven]

theorem roundHalfEven_error (q : ℚ) : |roundHalfEven q - q| ≤ 1 / 2 := by
  have hlow := Int.floor_le q
  have hhigh := Int.lt_floor_add_one q
  unfold roundHalfEven
  split_ifs with hhalf
  · rw [abs_sub_comm, abs_of_nonneg (by linarith)]
    cases hhalf with
    | inl hlt => exact hlt.le
    | inr heq => exact heq.1.le
  · have hge : 1 / 2 ≤ q - ⌊q⌋ := by
      by_contra hlt
      exact hhalf (.inl (not_le.mp hlt))
    push_cast
    rw [abs_of_nonneg (by linarith)]
    linarith

theorem ulp_pos (q : ℚ) : 0 < ulp q := zpow_pos two_pos _

/-- Half a unit in the last place. -/
theorem binary32_error {q : ℚ} (hq : 0 < q) : |binary32 q - q| ≤ q / 2 ^ 24 := by
  have hscaled : q / ulp q * ulp q = q := div_mul_cancel₀ q (ulp_pos q).ne'
  have hle : (2 : ℚ) ^ Int.log 2 q ≤ q := by
    exact_mod_cast Int.zpow_log_le_self one_lt_two hq
  have herror : |binary32 q - q| = |roundHalfEven (q / ulp q) - q / ulp q| * ulp q := by
    rw [← abs_of_pos (ulp_pos q), ← abs_mul, sub_mul, abs_of_pos (ulp_pos q), hscaled, binary32]
  calc |binary32 q - q|
      = |roundHalfEven (q / ulp q) - q / ulp q| * ulp q := herror
    _ ≤ 1 / 2 * ulp q := mul_le_mul_of_nonneg_right (roundHalfEven_error _) (ulp_pos q).le
    _ = 2 ^ Int.log 2 q / 2 ^ 24 := by
        rw [ulp, zpow_sub₀ two_ne_zero]
        norm_num
        ring
    _ ≤ q / 2 ^ 24 := by gcongr

/-- Numbers with 24 significant bits stay. -/
theorem binary32_eq {m k : ℕ} (hm : m < 2 ^ 24) : binary32 (m / 2 ^ k) = m / 2 ^ k := by
  cases Nat.eq_zero_or_pos m with
  | inl hzero => simp [hzero, binary32, roundHalfEven]
  | inr hpos =>
    have hq : (0 : ℚ) < m / 2 ^ k := by positivity
    have hlog : Int.log 2 ((m : ℚ) / 2 ^ k) < 24 - k := by
      apply (Int.lt_zpow_iff_log_lt one_lt_two hq).mp
      rw [Nat.cast_ofNat, zpow_sub₀ two_ne_zero, zpow_natCast]
      gcongr
      exact_mod_cast hm
    have hexp : ∃ j : ℕ, Int.log 2 ((m : ℚ) / 2 ^ k) - 23 = -(k : ℤ) - j := by
      refine ⟨(24 - k - 1 - Int.log 2 ((m : ℚ) / 2 ^ k)).toNat, ?_⟩
      omega
    obtain ⟨j, hj⟩ := hexp
    have hint : (m : ℚ) / 2 ^ k / ulp (m / 2 ^ k) = ((m * 2 ^ j : ℤ) : ℚ) := by
      rw [ulp, hj, zpow_sub₀ two_ne_zero, zpow_neg, zpow_natCast, zpow_natCast]
      field_simp
      push_cast
      ring
    rw [binary32, hint, roundHalfEven_intCast, ← hint, div_mul_cancel₀ _ (ulp_pos _).ne']

end SlpGraphSearch.Library
