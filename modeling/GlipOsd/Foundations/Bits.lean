import GlipOsd.Foundations.Bytes
import GlipOsd.Foundations.Memory

/-! # The bits of numbers and bytes

`bits n x` are the `n` least significant bits of `x`, the lowest first; `bitValue` is the number that a
list of bits stands for. The bits of a list of bytes are those of its bytes in turn, which makes them
the bits of its little-endian value.
-/

namespace GlipOsd.Bytes
open Memory
set_option autoImplicit false

def bits (n x : ℕ) : List Bool := (List.range n).map x.testBit

def bitValue : List Bool → ℕ
  | [] => 0
  | b :: bs => b.toNat + 2 * bitValue bs

def bytesBits (bytes : List UInt8) : List Bool := bytes.flatMap fun b => bits 8 b.toNat

/-- The bytes that bits make up, eight bits each. -/
def bitsBytes (bs : List Bool) : List UInt8 := leBytes (bs.length / 8) (bitValue bs)

/-! ## Numbers -/

theorem length_bits (n x : ℕ) : (bits n x).length = n := by
  rw [bits, List.length_map, List.length_range]

theorem bits_add (m n x : ℕ) : bits (m + n) x = bits m x ++ bits n (x / 2 ^ m) := by
  rw [bits, List.range_add, List.map_append, List.map_map]
  congr 1
  apply List.map_congr_left
  intro i _
  rw [Function.comp_apply, Nat.testBit_div_two_pow, Nat.add_comm]

theorem bits_succ (n x : ℕ) : bits (n + 1) x = x.testBit 0 :: bits n (x / 2) := by
  rw [Nat.add_comm, bits_add]
  rfl

theorem bits_congr {n x y : ℕ} (h : ∀ i < n, x.testBit i = y.testBit i) : bits n x = bits n y := by
  apply List.map_congr_left
  intro i hi
  exact h i (List.mem_range.mp hi)

theorem bits_mod (n x : ℕ) : bits n (x % 2 ^ n) = bits n x := by
  apply bits_congr
  intro i hi
  rw [Nat.testBit_mod_two_pow, decide_eq_true hi, Bool.true_and]

theorem bitValue_bits (n x : ℕ) : bitValue (bits n x) = x % 2 ^ n := by
  induction n generalizing x with
  | zero => rw [pow_zero, Nat.mod_one]; rfl
  | succ n ih =>
    have hbit : (x.testBit 0).toNat = x % 2 := by
      rw [Nat.testBit_zero]
      obtain h | h := Nat.mod_two_eq_zero_or_one x <;> rw [h] <;> rfl
    rw [bits_succ, bitValue, ih, hbit, pow_succ' 2 n, Nat.mod_mul]

theorem bitValue_append (xs ys : List Bool) :
    bitValue (xs ++ ys) = bitValue xs + 2 ^ xs.length * bitValue ys := by
  induction xs with
  | nil => rw [List.nil_append, List.length_nil, pow_zero, one_mul, bitValue, Nat.zero_add]
  | cons b xs ih =>
    rw [List.cons_append, bitValue, ih, bitValue, List.length_cons, pow_succ]
    ring

theorem bitValue_lt (xs : List Bool) : bitValue xs < 2 ^ xs.length := by
  induction xs with
  | nil => exact Nat.one_pos
  | cons b xs ih =>
    have hbit : b.toNat ≤ 1 := Bool.toNat_le b
    rw [bitValue, List.length_cons, pow_succ]
    omega

theorem testBit_bitValue (xs : List Bool) (i : ℕ) : (bitValue xs).testBit i = xs.getD i false := by
  induction xs generalizing i with
  | nil => exact Nat.zero_testBit i
  | cons b xs ih =>
    have hval : bitValue (b :: xs) = 2 * bitValue xs + b.toNat := Nat.add_comm _ _
    cases i with
    | zero =>
      rw [hval, Nat.testBit_zero, Nat.mul_add_mod]
      cases b <;> rfl
    | succ i =>
      have hhalf : (2 * bitValue xs + b.toNat) / 2 = bitValue xs := by
        have hbit : b.toNat ≤ 1 := Bool.toNat_le b
        omega
      rw [hval, Nat.testBit_add_one, hhalf, ih]
      rfl

theorem bits_bitValue (xs : List Bool) : bits xs.length (bitValue xs) = xs := by
  induction xs with
  | nil => rfl
  | cons b xs ih =>
    have hbit : b.toNat ≤ 1 := Bool.toNat_le b
    have hhalf : bitValue (b :: xs) / 2 = bitValue xs := by
      rw [bitValue]
      omega
    rw [List.length_cons, bits_succ, hhalf, ih, testBit_bitValue]
    rfl

/-! ## Bytes -/

theorem bytesBits_eq (bytes : List UInt8) : bytesBits bytes = bits (8 * bytes.length) (leValue bytes) := by
  induction bytes with
  | nil => rfl
  | cons b bs ih =>
    have hlt : b.toNat < 256 := b.toNat_lt
    have hdiv : (b.toNat + 256 * leValue bs) / 2 ^ 8 = leValue bs := by omega
    have hmod : (b.toNat + 256 * leValue bs) % 2 ^ 8 = b.toNat := by omega
    rw [List.length_cons, Nat.mul_succ, Nat.add_comm, bits_add, leValue, hdiv, ← ih, ← bits_mod, hmod]
    rfl

theorem leBytes_add (m n x : ℕ) : leBytes (m + n) x = leBytes m x ++ leBytes n (x / 256 ^ m) := by
  induction m generalizing x with
  | zero => rw [Nat.zero_add, pow_zero, Nat.div_one]; rfl
  | succ m ih =>
    rw [Nat.succ_add, leBytes, ih, leBytes, List.cons_append, Nat.div_div_eq_div_mul, ← pow_succ' 256 m]

theorem slice_leBytes {n i m : ℕ} (x : ℕ) (h : i + m ≤ n) : slice (leBytes n x) i m = leBytes m (x / 256 ^ i) := by
  obtain ⟨k, rfl⟩ := Nat.exists_eq_add_of_le h
  rw [Nat.add_assoc, leBytes_add, leBytes_add, slice, List.drop_left' (length_leBytes i x),
    List.take_left' (length_leBytes m _)]

theorem leBytes_leValue (bytes : List UInt8) : leBytes bytes.length (leValue bytes) = bytes := by
  induction bytes with
  | nil => rfl
  | cons b bs ih =>
    have hlt : b.toNat < 256 := b.toNat_lt
    have hdiv : (b.toNat + 256 * leValue bs) / 256 = leValue bs := by omega
    have hbyte : UInt8.ofNat (b.toNat + 256 * leValue bs) = b := by
      rw [← UInt8.toNat_inj, UInt8.toNat_ofNat']
      omega
    rw [List.length_cons, leValue, leBytes, hdiv, ih, hbyte]

theorem leValue_lt (bytes : List UInt8) : leValue bytes < 256 ^ bytes.length := by
  rw [← leBytes_leValue bytes, leValue_leBytes, length_leBytes]
  exact Nat.mod_lt _ (Nat.pow_pos (by norm_num))

theorem two_pow_eight_mul (n : ℕ) : 2 ^ (8 * n) = 256 ^ n := by
  rw [pow_mul]
  norm_num

theorem length_bytesBits (bytes : List UInt8) : (bytesBits bytes).length = 8 * bytes.length := by
  rw [bytesBits_eq, length_bits]

theorem bitValue_bytesBits (bytes : List UInt8) : bitValue (bytesBits bytes) = leValue bytes := by
  rw [bytesBits_eq, bitValue_bits, two_pow_eight_mul, Nat.mod_eq_of_lt (leValue_lt bytes)]

theorem leBytes_mod (n x : ℕ) : leBytes n (x % 256 ^ n) = leBytes n x := by
  rw [← leValue_leBytes]
  have hbytes := leBytes_leValue (leBytes n x)
  rwa [length_leBytes] at hbytes

theorem bitsBytes_bits (n x : ℕ) : bitsBytes (bits (8 * n) x) = leBytes n x := by
  rw [bitsBytes, length_bits, bitValue_bits, Nat.mul_div_cancel_left _ (by norm_num : 0 < 8),
    two_pow_eight_mul, leBytes_mod]

/-- What is shifted in is what was shifted out. -/
theorem bitsBytes_bytesBits (bytes : List UInt8) : bitsBytes (bytesBits bytes) = bytes := by
  rw [bytesBits_eq, bitsBytes_bits, leBytes_leValue]

theorem bytesBits_append (xs ys : List UInt8) : bytesBits (xs ++ ys) = bytesBits xs ++ bytesBits ys :=
  List.flatMap_append

theorem bytesBits_bitsBytes {bs : List Bool} (h : 8 ∣ bs.length) : bytesBits (bitsBytes bs) = bs := by
  have hlt : bitValue bs < 256 ^ (bs.length / 8) := by
    rw [← two_pow_eight_mul, Nat.mul_div_cancel' h]
    exact bitValue_lt bs
  rw [bytesBits_eq, bitsBytes, length_leBytes, Nat.mul_div_cancel' h, leValue_leBytes_of_lt hlt, bits_bitValue]

theorem length_bitsBytes (bs : List Bool) : (bitsBytes bs).length = bs.length / 8 := length_leBytes _ _

theorem bitsBytes_append {xs : List Bool} (ys : List Bool) (h : 8 ∣ xs.length) :
    bitsBytes (xs ++ ys) = bitsBytes xs ++ bitsBytes ys := by
  obtain ⟨m, hm⟩ := h
  have hlen : (xs ++ ys).length / 8 = m + ys.length / 8 := by
    rw [List.length_append, hm]
    omega
  have hpow : 2 ^ xs.length = 256 ^ m := by rw [hm, two_pow_eight_mul]
  have hlow : leBytes m (bitValue xs + 256 ^ m * bitValue ys) = leBytes m (bitValue xs) := by
    rw [← leBytes_mod, Nat.add_mul_mod_self_left, leBytes_mod]
  have hhigh : (bitValue xs + 256 ^ m * bitValue ys) / 256 ^ m = bitValue ys := by
    have hlt := bitValue_lt xs
    rw [hpow] at hlt
    rw [Nat.add_mul_div_left _ _ (Nat.pow_pos (by norm_num)), Nat.div_eq_of_lt hlt, Nat.zero_add]
  rw [bitsBytes, hlen, bitValue_append, hpow, leBytes_add, hlow, hhigh, bitsBytes, bitsBytes, hm,
    Nat.mul_div_cancel_left _ (by norm_num)]

theorem leValue_append (xs ys : List UInt8) :
    leValue (xs ++ ys) = leValue xs + 256 ^ xs.length * leValue ys := by
  induction xs with
  | nil => rw [List.nil_append, List.length_nil, pow_zero, one_mul, leValue, Nat.zero_add]
  | cons b xs ih =>
    rw [List.cons_append, leValue, ih, leValue, List.length_cons, pow_succ]
    ring

end GlipOsd.Bytes
