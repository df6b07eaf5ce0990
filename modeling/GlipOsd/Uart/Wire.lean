import Mathlib.Tactic

/-! # The datagrams on the serial line

Between the logic and the host a data word travels as itself, the marker `0xfe` doubled, and a credit
of up to 15 bits as the marker and two bytes, the first of which is odd.
-/

namespace GlipOsd.Uart
set_option autoImplicit false

/-- `{0xfe, {credit[14:8], 1}, credit[7:0]}`. -/
def creditMessage (tranche : ℕ) : List UInt8 :=
  [0xfe, UInt8.ofNat (0x1 ||| (tranche >>> 8) <<< 1), UInt8.ofNat (tranche &&& 0xff)]

/-- The tranche in the two bytes behind the marker. -/
def creditOf (first second : UInt8) : ℕ :=
  (((first.toNat >>> 1) &&& 0x7f) <<< 8) ||| second.toNat

inductive Item
  | word (d : UInt8)
  | credit (tranche : BitVec 15)
  deriving DecidableEq, Repr

def Item.encode : Item → List UInt8
  | .word d => if d = 0xfe then [0xfe, 0xfe] else [d]
  | .credit tranche => creditMessage tranche.toNat

def encode (items : List Item) : List UInt8 := items.flatMap Item.encode

def dataWords : List Item → List UInt8
  | [] => []
  | .word d :: items => d :: dataWords items
  | .credit _ :: items => dataWords items

def creditSum : List Item → ℕ
  | [] => 0
  | .word _ :: items => creditSum items
  | .credit tranche :: items => tranche.toNat + creditSum items

/-- The items that begin behind the first `m` bytes. -/
def itemsBehind : List Item → ℕ → List Item
  | [], _ => []
  | item :: items, 0 => item :: items
  | item :: items, m + 1 => itemsBehind items (m + 1 - item.encode.length)

@[simp] theorem encode_nil : encode [] = [] := rfl

@[simp] theorem encode_cons (item : Item) (items : List Item) :
    encode (item :: items) = item.encode ++ encode items := rfl

theorem encode_append (xs ys : List Item) : encode (xs ++ ys) = encode xs ++ encode ys :=
  List.flatMap_append

@[simp] theorem itemsBehind_zero (items : List Item) : itemsBehind items 0 = items := by cases items <;> rfl

theorem dataWords_append (xs ys : List Item) :
    dataWords (xs ++ ys) = dataWords xs ++ dataWords ys := by
  induction xs with
  | nil => rfl
  | cons x xs ih =>
    cases x with
    | word d => exact congrArg (d :: ·) ih
    | credit tranche => exact ih

theorem creditSum_append (xs ys : List Item) :
    creditSum (xs ++ ys) = creditSum xs + creditSum ys := by
  induction xs with
  | nil => exact (Nat.zero_add _).symm
  | cons x xs ih =>
    cases x with
    | word d => exact ih
    | credit tranche => rw [List.cons_append, creditSum, creditSum, ih, Nat.add_assoc]

/-! ## Credit messages -/

theorem odd_first (x : ℕ) : 0x1 ||| x <<< 1 = 2 * x + 1 := by
  have h := Nat.two_pow_add_eq_or_of_lt (i := 1) (b := 1) (by omega) x
  rw [Nat.or_comm, Nat.shiftLeft_eq, Nat.mul_comm, ← h, pow_one]

theorem first_ne_marker (x : ℕ) : UInt8.ofNat (0x1 ||| x <<< 1) ≠ 0xfe := by
  intro h
  have hval := congrArg UInt8.toNat h
  rw [odd_first] at hval
  simp only [UInt8.toNat_ofNat', UInt8.reduceToNat] at hval
  omega

theorem creditOf_message {tranche : ℕ} (h : tranche < 2 ^ 15) :
    creditOf (UInt8.ofNat (0x1 ||| (tranche >>> 8) <<< 1)) (UInt8.ofNat (tranche &&& 0xff)) =
      tranche := by
  have hlow : tranche &&& 0xff = tranche % 256 := Nat.and_two_pow_sub_one_eq_mod tranche 8
  have hmid : ∀ x : ℕ, x &&& 0x7f = x % 128 := fun x => Nat.and_two_pow_sub_one_eq_mod x 7
  unfold creditOf
  rw [odd_first, hlow, hmid, Nat.shiftRight_eq_div_pow, Nat.shiftRight_eq_div_pow,
    UInt8.toNat_ofNat', UInt8.toNat_ofNat', Nat.shiftLeft_eq, Nat.mul_comm _ (2 ^ 8),
    ← Nat.two_pow_add_eq_or_of_lt (by omega)]
  omega

end GlipOsd.Uart
