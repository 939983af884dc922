import Mathlib.Data.Int.Log
import Mathlib.Data.Rat.Floor
import Mathlib.Algebra.Ring.Int.Parity
import Mathlib.Tactic.Linarith
import Mathlib.Tactic.FieldSimp

/-!
# Binary floating point — rounding of rational numbers

A binary format has `p` significant bits.  The result of an operation is the exact one, rounded to
the nearest number with that many bits, and to the one with the even significand of two; the range
of the exponents is not limited here.

- `roundEven`         : the nearest integer
- `rounded p x`       : the nearest number of the format
- `abs_rounded_sub_le` : the relative error is at most `2 ^ -p`
- `rounded_eq_self`   : the numbers of the format are not rounded
-/

namespace BinaryFloat

/-- The nearest integer, and the even one of two. -/
def roundEven (q : ℚ) : ℤ :=
  if q - ⌊q⌋ < 1 / 2 then ⌊q⌋
  else if 1 / 2 < q - ⌊q⌋ then ⌊q⌋ + 1
  else if Even ⌊q⌋ then ⌊q⌋
  else ⌊q⌋ + 1

/-- The distance of the numbers with `p` significant bits that are as large as `x`. -/
def ulp (p : ℕ) (x : ℚ) : ℚ := 2 ^ (Int.log 2 |x| + 1 - p)

/-- The nearest number with `p` significant bits. -/
def rounded (p : ℕ) (x : ℚ) : ℚ := roundEven (x / ulp p x) * ulp p x

theorem abs_roundEven_sub_le (q : ℚ) : |(roundEven q : ℚ) - q| ≤ 1 / 2 := by
  have hfloor : (⌊q⌋ : ℚ) ≤ q := Int.floor_le q
  have hnext : q < ⌊q⌋ + 1 := Int.lt_floor_add_one q
  unfold roundEven
  rw [abs_le]
  split_ifs with hdown hup heven
  · exact ⟨by linarith, by linarith⟩
  · push_cast
    exact ⟨by linarith, by linarith⟩
  · exact ⟨by linarith, by linarith⟩
  · push_cast
    exact ⟨by linarith, by linarith⟩

@[simp] theorem roundEven_intCast (n : ℤ) : roundEven n = n := by
  simp [roundEven]

theorem ulp_pos (p : ℕ) (x : ℚ) : 0 < ulp p x := zpow_pos two_pos _

/-- Half the distance is at most a `2 ^ p`-th of the number. -/
theorem ulp_le {x : ℚ} (p : ℕ) (hx : x ≠ 0) : ulp p x / 2 ≤ |x| / 2 ^ p := by
  have hlog : ((2 : ℕ) : ℚ) ^ Int.log 2 |x| ≤ |x| :=
    Int.zpow_log_le_self Nat.one_lt_two (abs_pos.2 hx)
  have hulp : ulp p x / 2 = 2 ^ Int.log 2 |x| / 2 ^ p := by
    rw [ulp, zpow_sub₀ two_ne_zero, zpow_add₀ two_ne_zero, zpow_one, zpow_natCast]
    ring
  rw [hulp]
  gcongr
  exact_mod_cast hlog

@[simp] theorem rounded_zero (p : ℕ) : rounded p 0 = 0 := by
  have hzero : roundEven 0 = 0 := roundEven_intCast 0
  rw [rounded, zero_div, hzero, Int.cast_zero, zero_mul]

/-- The relative error of an operation. -/
theorem abs_rounded_sub_le (p : ℕ) (x : ℚ) : |rounded p x - x| ≤ |x| / 2 ^ p := by
  by_cases hx : x = 0
  · simp [hx]
  · have hulp : 0 < ulp p x := ulp_pos p x
    calc |rounded p x - x|
        = |(roundEven (x / ulp p x) : ℚ) - x / ulp p x| * ulp p x := by
          rw [rounded, ← abs_of_pos hulp, ← abs_mul, abs_of_pos hulp, sub_mul,
            div_mul_cancel₀ _ (ne_of_gt hulp)]
      _ ≤ 1 / 2 * ulp p x :=
          mul_le_mul_of_nonneg_right (abs_roundEven_sub_le _) (le_of_lt hulp)
      _ = ulp p x / 2 := by ring
      _ ≤ |x| / 2 ^ p := ulp_le p hx

/-- The error of an operation whose result is known to be small. -/
theorem abs_rounded_sub_le_of_le {x b : ℚ} (p : ℕ) (hb : |x| ≤ b) :
    |rounded p x - x| ≤ b / 2 ^ p := by
  refine (abs_rounded_sub_le p x).trans ?_
  gcongr

/-- A significand of `p` bits is kept, whatever the exponent. -/
theorem rounded_eq_self {p : ℕ} {m : ℤ} (hm : |m| < 2 ^ p) (e : ℤ) :
    rounded p (m * 2 ^ e) = m * 2 ^ e := by
  rcases eq_or_ne m 0 with rfl | hm0
  · simp
  · have hpos : (0 : ℚ) < 2 ^ e := zpow_pos two_pos e
    have habs : |(m : ℚ) * 2 ^ e| = |m| * 2 ^ e := by
      rw [abs_mul, abs_of_pos hpos, Int.cast_abs]
    have hne : (0 : ℚ) < |(m : ℚ) * 2 ^ e| :=
      abs_pos.2 (mul_ne_zero (Int.cast_ne_zero.2 hm0) (ne_of_gt hpos))
    -- the number is below `2 ^ (p + e)`, so the distance divides `2 ^ e`
    have hlog : Int.log 2 |(m : ℚ) * 2 ^ e| < p + e := by
      rw [← Int.lt_zpow_iff_log_lt Nat.one_lt_two hne, habs, Nat.cast_ofNat,
        zpow_add₀ two_ne_zero, zpow_natCast]
      exact mul_lt_mul_of_pos_right (by exact_mod_cast hm) hpos
    obtain ⟨n, hn⟩ : ∃ n : ℕ, e = Int.log 2 |(m : ℚ) * 2 ^ e| + 1 - p + n :=
      ⟨(p + e - 1 - Int.log 2 |(m : ℚ) * 2 ^ e|).toNat, by omega⟩
    have hulp : (m : ℚ) * 2 ^ e / ulp p (m * 2 ^ e) = ((m * 2 ^ n : ℤ) : ℚ) := by
      have hsplit : (2 : ℚ) ^ e = ulp p (m * 2 ^ e) * 2 ^ n := by
        rw [ulp, ← zpow_natCast, ← zpow_add₀ two_ne_zero, ← hn]
      rw [div_eq_iff (ne_of_gt (ulp_pos _ _))]
      calc (m : ℚ) * 2 ^ e = m * (ulp p (m * 2 ^ e) * 2 ^ n) := by rw [← hsplit]
        _ = ((m * 2 ^ n : ℤ) : ℚ) * ulp p (m * 2 ^ e) := by
          push_cast
          ring
    rw [rounded, hulp, roundEven_intCast, ← hulp, div_mul_cancel₀ _ (ne_of_gt (ulp_pos _ _))]

/-- Integers of `p` bits are numbers of the format. -/
theorem rounded_intCast {p : ℕ} {m : ℤ} (hm : |m| < 2 ^ p) : rounded p m = m := by
  have h := rounded_eq_self hm 0
  rwa [zpow_zero, mul_one] at h

end BinaryFloat
