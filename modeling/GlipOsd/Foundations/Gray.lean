import Mathlib.Tactic

/-! # Gray codes

The binary reflected Gray code of a counter of `w` bits. Successive codes differ in one bit, so that
a sample in which every bit is the old or the new one is the old or the new code. The code with its
two upper bits inverted is that of the counter half a round later.
-/

namespace GlipOsd.Gray
set_option autoImplicit false

variable {w : ℕ}

def gray (x : BitVec w) : BitVec w := (x >>> 1) ^^^ x

theorem getLsbD_gray (x : BitVec w) (i : ℕ) :
    (gray x).getLsbD i = (x.getLsbD (i + 1) ^^ x.getLsbD i) := by
  rw [gray, BitVec.getLsbD_xor, BitVec.getLsbD_ushiftRight, Nat.add_comm 1 i]

theorem gray_zero : gray 0#w = 0#w := by simp [gray]

theorem gray_injective : Function.Injective (gray (w := w)) := by
  intro x y h
  -- the bits agree from the top down
  have hbit (k i : ℕ) (hi : w ≤ i + k) : x.getLsbD i = y.getLsbD i := by
    induction k generalizing i with
    | zero =>
      have hge : w ≤ i := hi
      rw [BitVec.getLsbD_of_ge _ _ hge, BitVec.getLsbD_of_ge _ _ hge]
    | succ k ih =>
      have habove := ih (i + 1) (by omega)
      have hcode := congrArg (fun z => z.getLsbD i) h
      simp only [getLsbD_gray, habove] at hcode
      simpa using hcode
  exact BitVec.eq_of_getLsbD_eq fun i _ => hbit w i (by omega)

/-! ## Counting on -/

/-- Bit `i` changes when the counter goes on. -/
def Flips (x : BitVec w) (i : ℕ) : Prop := i < w ∧ ∀ j < i, x.getLsbD j = true

instance (x : BitVec w) (i : ℕ) : Decidable (Flips x i) := inferInstanceAs (Decidable (_ ∧ _))

theorem Flips.of_succ {x : BitVec w} {i : ℕ} (h : Flips x (i + 1)) : Flips x i :=
  ⟨Nat.lt_of_succ_lt h.1, fun j hj => h.2 j (Nat.lt_succ_of_lt hj)⟩

theorem Flips.of_le {x : BitVec w} {i k : ℕ} (h : Flips x k) (hik : i ≤ k) : Flips x i :=
  ⟨hik.trans_lt h.1, fun j hj => h.2 j (hj.trans_le hik)⟩

theorem getLsbD_succ (x : BitVec w) (i : ℕ) :
    (x + 1#w).getLsbD i = (x.getLsbD i ^^ decide (Flips x i)) := by
  by_cases hi : i < w
  · have hone : (1#w).getLsbD i = decide (i = 0) := by simp [BitVec.getLsbD_one]; omega
    rw [BitVec.getLsbD_add hi, hone]
    cases i with
    | zero => simp [Flips, hi]
    | succ i =>
      rw [BitVec.carry_succ_one i x (by omega)]
      simp [Flips, hi]
  · rw [BitVec.getLsbD_of_ge _ _ (Nat.le_of_not_lt hi), BitVec.getLsbD_of_ge _ _ (Nat.le_of_not_lt hi)]
    simp [Flips, hi]

theorem getLsbD_gray_succ (x : BitVec w) (i : ℕ) :
    (gray (x + 1#w)).getLsbD i =
      ((gray x).getLsbD i ^^ (decide (Flips x (i + 1)) ^^ decide (Flips x i))) := by
  simp only [getLsbD_gray, getLsbD_succ, Bool.xor_assoc, Bool.xor_left_comm]

/-- Successive codes differ in the bit where the change of the counter ends. -/
theorem flips_of_ne {x : BitVec w} {i : ℕ}
    (h : (gray (x + 1#w)).getLsbD i ≠ (gray x).getLsbD i) : Flips x i ∧ ¬ Flips x (i + 1) := by
  rw [getLsbD_gray_succ] at h
  by_cases hi : Flips x i
  · refine ⟨hi, fun hs => ?_⟩
    simp [hi, hs] at h
  · have hs : ¬ Flips x (i + 1) := fun hs => hi hs.of_succ
    simp [hi, hs] at h

theorem gray_succ_unique {x : BitVec w} {i k : ℕ}
    (hi : (gray (x + 1#w)).getLsbD i ≠ (gray x).getLsbD i)
    (hk : (gray (x + 1#w)).getLsbD k ≠ (gray x).getLsbD k) : i = k := by
  obtain ⟨hi, hi'⟩ := flips_of_ne hi
  obtain ⟨hk, hk'⟩ := flips_of_ne hk
  have hle : ¬ i + 1 ≤ k := fun h => hi' (hk.of_le h)
  have hge : ¬ k + 1 ≤ i := fun h => hk' (hi.of_le h)
  omega

/-! ## Sampling -/

/-- The bits of `new` where `sel` is set, and of `old` elsewhere. -/
def mix (sel old new : BitVec w) : BitVec w := (sel &&& new) ||| (~~~sel &&& old)

theorem getLsbD_mix (sel old new : BitVec w) {i : ℕ} (hi : i < w) :
    (mix sel old new).getLsbD i = if sel.getLsbD i then new.getLsbD i else old.getLsbD i := by
  simp only [mix, BitVec.getLsbD_or, BitVec.getLsbD_and, BitVec.getLsbD_not, hi, decide_true,
    Bool.true_and]
  cases sel.getLsbD i <;> simp

theorem mix_self (sel x : BitVec w) : mix sel x x = x := by
  apply BitVec.eq_of_getLsbD_eq
  intro i hi
  rw [getLsbD_mix sel x x hi, ite_self]

/-- A sample of a code that counts on is the old or the new code. -/
theorem mix_gray_succ (sel x : BitVec w) :
    mix sel (gray x) (gray (x + 1#w)) = gray x ∨
      mix sel (gray x) (gray (x + 1#w)) = gray (x + 1#w) := by
  by_cases hex : ∃ k, sel.getLsbD k = true ∧ (gray (x + 1#w)).getLsbD k ≠ (gray x).getLsbD k
  · obtain ⟨k, hsel, hk⟩ := hex
    right
    apply BitVec.eq_of_getLsbD_eq
    intro i hi
    rw [getLsbD_mix _ _ _ hi]
    by_cases hne : (gray (x + 1#w)).getLsbD i = (gray x).getLsbD i
    · rw [hne, ite_self]
    · rw [gray_succ_unique hne hk, if_pos hsel]
  · left
    apply BitVec.eq_of_getLsbD_eq
    intro i hi
    rw [getLsbD_mix _ _ _ hi]
    split_ifs with hsel
    · by_contra hne
      exact hex ⟨i, hsel, hne⟩
    · rfl

/-! ## Half a round -/

theorem getLsbD_add_half {n : ℕ} (x : BitVec (n + 1)) (i : ℕ) :
    (x + BitVec.ofNat (n + 1) (2 ^ n)).getLsbD i = (x.getLsbD i ^^ decide (i = n)) := by
  have hpow : 2 ^ n < 2 ^ (n + 1) := Nat.pow_lt_pow_right (by omega) (by omega)
  rw [BitVec.getLsbD, BitVec.toNat_add, BitVec.toNat_ofNat, Nat.mod_eq_of_lt hpow, Nat.add_comm,
    Nat.testBit_mod_two_pow]
  obtain hi | rfl | hi := Nat.lt_trichotomy i n
  · rw [Nat.testBit_two_pow_add_gt hi]
    simp [hi.ne, Nat.lt_succ_of_lt hi, BitVec.getLsbD]
  · rw [Nat.testBit_two_pow_add_eq]
    simp [BitVec.getLsbD]
  · rw [BitVec.getLsbD_of_ge x i hi]
    simp [hi.ne', Nat.not_lt.mpr (Nat.succ_le_of_lt hi)]

/-- Half a round on the two upper bits of the code are inverted. -/
theorem getLsbD_gray_add_half {n : ℕ} (x : BitVec (n + 1)) (i : ℕ) :
    (gray (x + BitVec.ofNat (n + 1) (2 ^ n))).getLsbD i =
      ((gray x).getLsbD i ^^ decide (i = n ∨ i + 1 = n)) := by
  simp only [getLsbD_gray, getLsbD_add_half]
  by_cases h : i = n
  · have h' : ¬ i + 1 = n := by omega
    simp [h]
  · by_cases h' : i + 1 = n <;> simp [h, h']

/-! ## Counters modulo `2 ^ w` -/

/-- Counters less than a round apart are equal when their values are. -/
theorem ofNat_inj {a b : ℕ} (hle : a ≤ b) (hlt : b < a + 2 ^ w) :
    BitVec.ofNat w b = BitVec.ofNat w a ↔ b = a := by
  refine ⟨fun h => ?_, fun h => by rw [h]⟩
  have hmod := congrArg BitVec.toNat h
  rw [BitVec.toNat_ofNat, BitVec.toNat_ofNat] at hmod
  obtain ⟨d, rfl⟩ := Nat.exists_eq_add_of_le hle
  have hd : d % 2 ^ w = 0 := by
    have hcancel : a + d ≡ a + 0 [MOD 2 ^ w] := hmod
    exact Nat.ModEq.add_left_cancel' a hcancel
  rw [Nat.mod_eq_of_lt (by omega)] at hd
  omega

/-- A sample of a counter's code is the code of a value between the old and the new one. -/
theorem mix_gray_count (sel : BitVec w) {old new : ℕ} (hle : old ≤ new) (hlt : new ≤ old + 1) :
    ∃ n, old ≤ n ∧ n ≤ new ∧
      mix sel (gray (BitVec.ofNat w old)) (gray (BitVec.ofNat w new)) = gray (BitVec.ofNat w n) := by
  obtain rfl | h := Nat.eq_or_lt_of_le hle
  · exact ⟨old, le_rfl, le_rfl, mix_self _ _⟩
  · obtain rfl : new = old + 1 := by omega
    rw [BitVec.ofNat_add old 1]
    obtain h | h := mix_gray_succ sel (BitVec.ofNat w old)
    · exact ⟨old, le_rfl, hle, h⟩
    · exact ⟨old + 1, hle, le_rfl, by rw [h, BitVec.ofNat_add old 1]⟩

end GlipOsd.Gray
