import Mathlib.Data.Nat.Bitwise
import Mathlib.Tactic

/-! # Mirrored ring pointers

A ring of `n` cells addressed by two pointers that count modulo `2 * n`: the cell is the pointer
modulo `n`, and the remaining bit (the mirror bit) tells a full ring from an empty one. When
`n` is a power of two both reductions are bit masks and the mirror bit is flipped by an xor.

Two addresses that are `d ≤ n` apart are equal pointers exactly when `d = 0` and mirrored
pointers exactly when `d = n`; otherwise `d` is the difference of the cells modulo `n`.
-/

namespace GlipOsd.Mirror
set_option autoImplicit false

/-! ## Masks of a power of two -/

theorem mask_cell {n k : ℕ} (hn : n = 2 ^ k) (x : ℕ) : x &&& (n - 1) = x % n := by
  rw [hn, Nat.and_two_pow_sub_one_eq_mod]

theorem mask_pointer {n k : ℕ} (hn : n = 2 ^ k) (x : ℕ) : x &&& (2 * n - 1) = x % (2 * n) := by
  have h : 2 * n = 2 ^ (k + 1) := by rw [hn, pow_succ]; ring
  rw [h, Nat.and_two_pow_sub_one_eq_mod]

theorem xor_mirror {n k p : ℕ} (hn : n = 2 ^ k) (hp : p < 2 * n) :
    p ^^^ n = (p + n) % (2 * n) := by
  have hpos : 0 < n := hn ▸ Nat.two_pow_pos k
  have hmod : (p ^^^ n) % n = p % n := by
    rw [hn, Nat.xor_mod_two_pow, Nat.mod_self, Nat.xor_zero]
  have hdiv : (p ^^^ n) / n = p / n ^^^ 1 := by
    rw [hn, Nat.xor_div_two_pow, Nat.div_self (Nat.two_pow_pos k)]
  have hsplit := Nat.div_add_mod (p ^^^ n) n
  rw [hmod, hdiv] at hsplit
  by_cases h : p < n
  · rw [Nat.div_eq_of_lt h, Nat.mod_eq_of_lt h] at hsplit
    rw [Nat.mod_eq_of_lt (by omega), ← hsplit]
    simp [Nat.add_comm]
  · have hq : p / n = 1 := by
      rw [Nat.div_eq_iff hpos]; omega
    have hr : p % n = p - n := by
      rw [Nat.mod_eq_sub_mod (by omega), Nat.mod_eq_of_lt (by omega)]
    have hm : (p + n) % (2 * n) = p - n := by
      rw [Nat.mod_eq_sub_mod (by omega), Nat.mod_eq_of_lt (by omega)]
      omega
    rw [hq, hr] at hsplit
    rw [hm, ← hsplit]
    simp

/-! ## One reduction of a small number -/

theorem mod_of_lt_two_mul {x m : ℕ} (h : x < 2 * m) :
    x % m = if x < m then x else x - m := by
  split_ifs with hx
  · exact Nat.mod_eq_of_lt hx
  · rw [Nat.mod_eq_sub_mod (by omega), Nat.mod_eq_of_lt (by omega)]

theorem mod_mod_mirror (x n : ℕ) : x % (2 * n) % n = x % n := Nat.mod_mod_of_dvd x ⟨2, by ring⟩

theorem mod_pointer_add (x y n : ℕ) : (x % (2 * n) + y) % (2 * n) = (x + y) % (2 * n) :=
  Nat.mod_add_mod x (2 * n) y

/-! ## Distances -/

section Distance
variable {n : ℕ}

/-- Equal pointers at distance `d ≤ n`: the ring is empty. -/
theorem pointer_eq_iff {a d : ℕ} (hn : 0 < n) (hd : d ≤ n) :
    (a + d) % (2 * n) = a % (2 * n) ↔ d = 0 := by
  constructor
  · intro h
    have hmod : a + d ≡ a + 0 [MOD 2 * n] := h
    have hd0 : d ≡ 0 [MOD 2 * n] := Nat.ModEq.add_left_cancel' a hmod
    rw [Nat.ModEq, Nat.mod_eq_of_lt (by omega), Nat.zero_mod] at hd0
    exact hd0
  · rintro rfl
    rfl

/-- Mirrored pointers at distance `d ≤ n`: the ring is full. -/
theorem pointer_eq_mirror_iff {a d : ℕ} (hn : 0 < n) (hd : d ≤ n) :
    (a + d) % (2 * n) = (a + n) % (2 * n) ↔ d = n := by
  constructor
  · intro h
    have hmod : d ≡ n [MOD 2 * n] := Nat.ModEq.add_left_cancel' a h
    rw [Nat.ModEq, Nat.mod_eq_of_lt (by omega), Nat.mod_eq_of_lt (by omega)] at hmod
    exact hmod
  · rintro rfl
    rfl

/-- The difference of the two cells is the distance, up to one wrap. -/
theorem cell_distance {a d : ℕ} (hd : d < n) :
    (((a + d) % n : ℕ) : ℤ) - ((a % n : ℕ) : ℤ) = d ∨
      (((a + d) % n : ℕ) : ℤ) - ((a % n : ℕ) : ℤ) = (d : ℤ) - n := by
  have hr : a % n < n := Nat.mod_lt a (by omega)
  rw [Nat.add_mod a d n, Nat.mod_eq_of_lt hd, mod_of_lt_two_mul (by omega)]
  split_ifs <;> omega

theorem cell_ne {a i j : ℕ} (hij : i < j) (hj : j < a + n) (hi : a ≤ i) : i % n ≠ j % n := by
  intro h
  have hmod : i ≡ j [MOD n] := h
  have hdvd : n ∣ j - i := (Nat.modEq_iff_dvd' hij.le).mp hmod
  have := Nat.le_of_dvd (by omega) hdvd
  omega

end Distance

end GlipOsd.Mirror
