import Mathlib.Data.Int.Log
import Mathlib.Tactic

/-!
# Rounding to single precision

The positive numbers of the type `float` with a normal exponent, as rational
numbers: a number is rounded to 24 binary digits, and a tie goes to the even one.
-/

namespace GrapheneLtp.SinglePrecision

/-- The nearest integer, the even one of two. -/
def nearestEven (x : ℚ) : ℤ :=
  if x - ⌊x⌋ < 1 / 2 then ⌊x⌋
  else if 1 / 2 < x - ⌊x⌋ then ⌊x⌋ + 1
  else if ⌊x⌋ % 2 = 0 then ⌊x⌋ else ⌊x⌋ + 1

/-- The value of the last of the 24 digits. -/
def lastDigit (x : ℚ) : ℚ := 2 ^ (Int.log 2 x - 23)

/-- The `float` nearest to a positive number. -/
def toFloat (x : ℚ) : ℚ := nearestEven (x / lastDigit x) * lastDigit x

theorem floor_le_nearestEven (x : ℚ) : ⌊x⌋ ≤ nearestEven x := by
  unfold nearestEven
  split_ifs <;> omega

theorem nearestEven_le_floor_add_one (x : ℚ) : nearestEven x ≤ ⌊x⌋ + 1 := by
  unfold nearestEven
  split_ifs <;> omega

theorem nearestEven_natCast (n : ℕ) : nearestEven n = n := by
  rw [nearestEven, Int.floor_natCast, if_pos]
  simp

theorem lastDigit_pos (x : ℚ) : 0 < lastDigit x := by
  unfold lastDigit
  positivity

/-- A number with 24 digits is a `float` itself. -/
theorem toFloat_of_digits {m : ℕ} {e : ℤ} (hlow : 2 ^ 23 ≤ m) (hhigh : m < 2 ^ 24) :
    toFloat (m * 2 ^ e) = m * 2 ^ e := by
  have hpow : (0 : ℚ) < 2 ^ e := by positivity
  have hlow' : ((2 : ℕ) : ℚ) ^ (23 + e) ≤ m * 2 ^ e := by
    rw [Nat.cast_ofNat, zpow_add₀ (by norm_num)]
    gcongr
    exact_mod_cast hlow
  have hhigh' : (m * 2 ^ e : ℚ) < ((2 : ℕ) : ℚ) ^ (24 + e) := by
    rw [Nat.cast_ofNat, zpow_add₀ (by norm_num)]
    gcongr
    exact_mod_cast hhigh
  have hpos : (0 : ℚ) < m * 2 ^ e := lt_of_lt_of_le (by positivity) hlow'
  have hlog : Int.log 2 (m * 2 ^ e : ℚ) - 23 = e := by
    have hge := (Int.zpow_le_iff_le_log (by decide) hpos).mp hlow'
    have hlt := (Int.lt_zpow_iff_log_lt (by decide) hpos).mp hhigh'
    omega
  rw [toFloat, lastDigit, hlog, mul_div_cancel_right₀ _ hpow.ne', nearestEven_natCast]
  norm_num

/-- Rounding does not pass a power of two. -/
theorem zpow_le_toFloat {x : ℚ} {k : ℤ} (hx : (2 : ℚ) ^ k ≤ x) : (2 : ℚ) ^ k ≤ toFloat x := by
  have hpos : 0 < x := lt_of_lt_of_le (by positivity) hx
  have hlog : k ≤ Int.log 2 x :=
    (Int.zpow_le_iff_le_log (by decide) hpos).mp (by rwa [Nat.cast_ofNat])
  have hdigits : (2 : ℚ) ^ 23 ≤ x / lastDigit x := by
    rw [le_div_iff₀ (lastDigit_pos x), lastDigit, ← zpow_natCast, ← zpow_add₀ (by norm_num)]
    have hself := (Int.zpow_le_iff_le_log (by decide : 1 < 2) hpos).mpr (le_refl (Int.log 2 x))
    rw [Nat.cast_ofNat] at hself
    convert hself using 2
    push_cast
    ring
  have hrounded : ((2 : ℚ) ^ 23) ≤ nearestEven (x / lastDigit x) := by
    have hfloor : (2 ^ 23 : ℤ) ≤ ⌊x / lastDigit x⌋ := Int.le_floor.mpr (by exact_mod_cast hdigits)
    exact_mod_cast hfloor.trans (floor_le_nearestEven _)
  calc (2 : ℚ) ^ k ≤ 2 ^ Int.log 2 x := zpow_le_zpow_right₀ (by norm_num) hlog
    _ = 2 ^ 23 * lastDigit x := by
      rw [lastDigit, ← zpow_natCast, ← zpow_add₀ (by norm_num)]
      congr 1
      push_cast
      ring
    _ ≤ toFloat x := mul_le_mul_of_nonneg_right hrounded (lastDigit_pos x).le

theorem toFloat_le_zpow {x : ℚ} {k : ℤ} (hpos : 0 < x) (hx : x < (2 : ℚ) ^ k) :
    toFloat x ≤ (2 : ℚ) ^ k := by
  have hlog : Int.log 2 x < k :=
    (Int.lt_zpow_iff_log_lt (by decide) hpos).mp (by rwa [Nat.cast_ofNat])
  have hdigits : x / lastDigit x < (2 : ℚ) ^ 24 := by
    rw [div_lt_iff₀ (lastDigit_pos x), lastDigit, ← zpow_natCast, ← zpow_add₀ (by norm_num)]
    have hself := (Int.lt_zpow_iff_log_lt (by decide : 1 < 2) hpos).mpr
      (Int.lt_succ (Int.log 2 x))
    rw [Nat.cast_ofNat] at hself
    convert hself using 2
    push_cast
    ring
  have hrounded : (nearestEven (x / lastDigit x) : ℚ) ≤ 2 ^ 24 := by
    have hfloor : ⌊x / lastDigit x⌋ < 2 ^ 24 := Int.floor_lt.mpr (by exact_mod_cast hdigits)
    exact_mod_cast (nearestEven_le_floor_add_one _).trans hfloor
  calc toFloat x ≤ 2 ^ 24 * lastDigit x :=
        mul_le_mul_of_nonneg_right hrounded (lastDigit_pos x).le
    _ = 2 ^ (Int.log 2 x + 1) := by
      rw [lastDigit, ← zpow_natCast, ← zpow_add₀ (by norm_num)]
      congr 1
      push_cast
      ring
    _ ≤ 2 ^ k := zpow_le_zpow_right₀ (by norm_num) (by omega)

end GrapheneLtp.SinglePrecision
