import GlipOsd.Foundations.Bits

/-! # Big-endian bytes

`beBytes n x` are the `n` least significant bytes of `x`, the highest first; `beValue` is the number that a
list of bytes stands for in this order.
-/

namespace GlipOsd.Bytes
set_option autoImplicit false

def beBytes (n x : ℕ) : List UInt8 := (leBytes n x).reverse

def beValue (bytes : List UInt8) : ℕ := leValue bytes.reverse

theorem length_beBytes (n x : ℕ) : (beBytes n x).length = n := by
  rw [beBytes, List.length_reverse, length_leBytes]

theorem beValue_nil : beValue [] = 0 := rfl

theorem beValue_concat (bytes : List UInt8) (b : UInt8) :
    beValue (bytes ++ [b]) = 256 * beValue bytes + b.toNat := by
  rw [beValue, List.reverse_concat, leValue, beValue, Nat.add_comm]

theorem beBytes_beValue (bytes : List UInt8) : beBytes bytes.length (beValue bytes) = bytes := by
  have h := leBytes_leValue bytes.reverse
  rw [List.length_reverse] at h
  rw [beBytes, beValue, h, List.reverse_reverse]

theorem beValue_beBytes (n x : ℕ) : beValue (beBytes n x) = x % 256 ^ n := by
  rw [beValue, beBytes, List.reverse_reverse, leValue_leBytes]

theorem beBytes_mod (n x : ℕ) : beBytes n (x % 256 ^ n) = beBytes n x := by rw [beBytes, leBytes_mod, beBytes]

theorem getElem?_leBytes {n i : ℕ} (x : ℕ) (h : i < n) : (leBytes n x)[i]? = some (UInt8.ofNat (x / 256 ^ i)) := by
  induction n generalizing x i with
  | zero => exact absurd h (Nat.not_lt_zero i)
  | succ n ih =>
    cases i with
    | zero => rw [leBytes, List.getElem?_cons_zero, pow_zero, Nat.div_one]
    | succ i =>
      rw [leBytes, List.getElem?_cons_succ, ih (x / 256) (Nat.lt_of_succ_lt_succ h), Nat.div_div_eq_div_mul, pow_succ']

theorem getElem?_beBytes {n i : ℕ} (x : ℕ) (h : i < n) :
    (beBytes n x)[i]? = some (UInt8.ofNat (x / 256 ^ (n - i - 1))) := by
  have hlen := length_leBytes n x
  rw [beBytes, List.getElem?_reverse (by omega), hlen, getElem?_leBytes x (by omega)]
  congr 4
  omega

theorem drop_beBytes {n i : ℕ} (x : ℕ) (h : i < n) :
    (beBytes n x).drop i = UInt8.ofNat (x / 256 ^ (n - i - 1)) :: (beBytes n x).drop (i + 1) := by
  have hlt : i < (beBytes n x).length := by rwa [length_beBytes]
  have hhead := getElem?_beBytes x h
  rw [List.getElem?_eq_getElem hlt, Option.some.injEq] at hhead
  rw [List.drop_eq_getElem_cons hlt, hhead]

end GlipOsd.Bytes
