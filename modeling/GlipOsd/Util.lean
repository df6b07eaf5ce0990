import Mathlib.Tactic

/-! # `max` and `min` of the utility header

Both take and return `int`: an argument of type `size_t` or `uint32_t` is reduced to 32 bits
first, and a negative result that is stored in a `size_t` becomes huge.
-/

namespace GlipOsd.Util
set_option autoImplicit false

/-- An unsigned value converted to `int`. -/
def toInt (x : ℕ) : ℤ := Int.bmod x (2 ^ 32)

/-- An `int` converted to `size_t`. -/
def toSize (x : ℤ) : ℕ := (x % 2 ^ 64).toNat

/-- An `int` converted to a 32 bit unsigned type. -/
def toUint (x : ℤ) : ℕ := (x % 2 ^ 32).toNat

def max (a b : ℕ) : ℤ := if toInt a > toInt b then toInt a else toInt b

def min (a b : ℕ) : ℤ := if toInt a > toInt b then toInt b else toInt a

/-- `1 << n` as an `int`. It has no defined value from 31 on; there it is what `undef` says. -/
def shiftOne (undef : ℕ → ℤ) (n : ℕ) : ℤ := if n < 31 then 2 ^ n else undef n

theorem toInt_of_lt {x : ℕ} (h : x < 2 ^ 31) : toInt x = x := by
  unfold toInt Int.bmod
  rw [Int.emod_eq_of_lt (by omega) (by omega), if_pos (by omega)]

theorem toInt_cases (x : ℕ) : x % 2 ^ 32 < 2 ^ 31 ∧ toInt x = (x % 2 ^ 32 : ℕ) ∨
    2 ^ 31 ≤ x % 2 ^ 32 ∧ toInt x = (x % 2 ^ 32 : ℕ) - 2 ^ 32 := by
  have hmod : toInt x = if (x % 2 ^ 32 : ℤ) < 2 ^ 31 then (x % 2 ^ 32 : ℤ) else (x % 2 ^ 32 : ℤ) - 2 ^ 32 := rfl
  rw [hmod]
  split_ifs <;> omega

theorem toSize_natCast {x : ℕ} (h : x < 2 ^ 64) : toSize x = x := by
  unfold toSize
  rw [Int.emod_eq_of_lt (by omega) (by omega), Int.toNat_natCast]

theorem min_eq {a b : ℕ} (ha : a < 2 ^ 31) (hb : b < 2 ^ 31) : min a b = (a ⊓ b : ℕ) := by
  unfold min
  rw [toInt_of_lt ha, toInt_of_lt hb]
  simp only [Nat.min_def]
  split_ifs <;> omega

theorem max_eq {a b : ℕ} (ha : a < 2 ^ 31) (hb : b < 2 ^ 31) : max a b = (a ⊔ b : ℕ) := by
  unfold max
  rw [toInt_of_lt ha, toInt_of_lt hb]
  simp only [Nat.max_def]
  split_ifs <;> omega

theorem toUint_natCast {x : ℕ} (h : x < 2 ^ 32) : toUint x = x := by
  unfold toUint
  omega

theorem cast_toUint (x : ℤ) : ((toUint x : ℕ) : ℤ) = x % 2 ^ 32 := by
  unfold toUint
  omega

theorem toInt_toUint {x : ℤ} (hge : -2 ^ 31 ≤ x) (hlt : x < 2 ^ 31) : toInt (toUint x) = x := by
  unfold toInt
  simp only [cast_toUint]
  have hmod := Int.emod_bmod x (2 ^ 32)
  simp only [Nat.cast_pow, Nat.cast_ofNat] at hmod
  simp only [hmod]
  refine Int.bmod_eq_of_le_mul_two ?_ ?_
  · simp only [Nat.cast_pow, Nat.cast_ofNat]
    omega
  · simp only [Nat.cast_pow, Nat.cast_ofNat]
    omega

/-- Only the value modulo `2 ^ 32` of an operand counts. -/
theorem toUint_toUint_sub (x y : ℤ) : toUint (toUint x - y) = toUint (x - y) := by
  unfold toUint
  omega

theorem toUint_sub_toUint (x y : ℤ) : toUint (x - toUint y) = toUint (x - y) := by
  unfold toUint
  omega

end GlipOsd.Util
