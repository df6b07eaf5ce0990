import GlipOsd.Foundations.Memory
import GlipOsd.Util

/-! # Hexadecimal fields

`hexstring_to_byte` and `hexstring_to_binarray_le`, and what they are to compute: a field of
hexadecimal digits stands for the bytes of its pairs of digits, the last pair first.
-/

namespace GlipOsd.Jtag
open Memory
set_option autoImplicit false

def hexVal (c : UInt8) : Option ℕ :=
  if 0x30 ≤ c ∧ c ≤ 0x39 then some (c.toNat - 0x30)
  else if 0x41 ≤ c ∧ c ≤ 0x46 then some (c.toNat - 0x37)
  else if 0x61 ≤ c ∧ c ≤ 0x66 then some (c.toNat - 0x57)
  else none

def isSpace (c : UInt8) : Bool := c == 0x20 || (9 ≤ c && c ≤ 13)

/-- The value of the digits in front, behind digits of the value `acc`. -/
def leadingDigits (acc : ℕ) : List UInt8 → ℕ
  | [] => acc
  | c :: cs =>
    match hexVal c with
    | some d => leadingDigits (16 * acc + d) cs
    | none => acc

/-- `strtol(str, NULL, 16)`, for numbers in the range of `long`: white space, a sign, `0x` and the
digits up to the first other character. -/
def strtol (str : List UInt8) : ℤ :=
  let s := (str.takeWhile (· ≠ 0)).dropWhile isSpace
  let negative := s.head? = some 0x2d
  let s := if s.head? = some 0x2d ∨ s.head? = some 0x2b then s.tail else s
  let s := if (s.take 2 = [0x30, 0x78] ∨ s.take 2 = [0x30, 0x58]) ∧ (s[2]?.bind hexVal).isSome then
    s.drop 2 else s
  if negative then -(leadingDigits 0 s : ℤ) else leadingDigits 0 s

/-- The two characters from `in` on; the assertion on `errno` holds for two characters. -/
def hexstringToByte (fst snd : UInt8) : UInt8 := UInt8.ofNat (strtol [fst, snd] % 256).toNat

/-- The first `m` pairs of characters at `start`, the last one first; `none` beyond the block. -/
def hexPairs (buf : List UInt8) (start : ℕ) : ℕ → Option (List UInt8)
  | 0 => some []
  | m + 1 =>
    match buf[start + 2 * m]?, buf[start + 2 * m + 1]? with
    | some fst, some snd => (hexPairs buf start m).map (hexstringToByte fst snd :: ·)
    | _, _ => none

/-- The bytes stored through `out`; `none` when the assertion fails or the block is left. The loop
counter is an `int`. -/
def hexstringToBinarrayLe (buf : List UInt8) (start inSize : ℕ) : Option (List UInt8) :=
  if inSize % 2 ≠ 0 then none
  else
    let c := Util.toInt ((inSize + (2 ^ 64 - 2)) % 2 ^ 64)
    hexPairs buf start (if c < 0 then 0 else (c / 2 + 1).toNat)

/-! ## What a field stands for -/

def IsHex (c : UInt8) : Prop := (hexVal c).isSome

instance (c : UInt8) : Decidable (IsHex c) := inferInstanceAs (Decidable (_ = true))

def pairByte (fst snd : UInt8) : UInt8 :=
  UInt8.ofNat (16 * (hexVal fst).getD 0 + (hexVal snd).getD 0)

def decodePairs : List UInt8 → List UInt8
  | fst :: snd :: rest => pairByte fst snd :: decodePairs rest
  | _ => []

/-- The bytes of a field: its pairs of digits, the last one first. -/
def decodeField (field : List UInt8) : List UInt8 := (decodePairs field).reverse

/-- What the loop computes, of whatever characters. -/
def rawPairs : List UInt8 → List UInt8
  | fst :: snd :: rest => hexstringToByte fst snd :: rawPairs rest
  | _ => []

def rawField (field : List UInt8) : List UInt8 := (rawPairs field).reverse

theorem IsHex.ge {c : UInt8} (h : IsHex c) : 0x30 ≤ c := by
  by_contra hlt
  have h1 : ¬ (0x30 ≤ c ∧ c ≤ 0x39) := fun h => hlt h.1
  have h2 : ¬ (0x41 ≤ c ∧ c ≤ 0x46) := fun h => hlt (UInt8.le_trans (by decide : (0x30 : UInt8) ≤ 0x41) h.1)
  have h3 : ¬ (0x61 ≤ c ∧ c ≤ 0x66) := fun h => hlt (UInt8.le_trans (by decide : (0x30 : UInt8) ≤ 0x61) h.1)
  simp only [IsHex, hexVal, if_neg h1, if_neg h2, if_neg h3] at h
  cases h

theorem IsHex.plain {c : UInt8} (h : IsHex c) :
    c ≠ 0 ∧ isSpace c = false ∧ c ≠ 0x2d ∧ c ≠ 0x2b := by
  have hge := UInt8.le_iff_toNat_le.mp h.ge
  refine ⟨?_, ?_, ?_, ?_⟩
  · rintro rfl
    exact absurd hge (by decide)
  · simp only [isSpace, Bool.or_eq_false_iff, beq_eq_false_iff_ne, Bool.and_eq_false_iff,
      decide_eq_false_iff_not, UInt8.le_iff_toNat_le]
    constructor
    · rintro rfl
      exact absurd hge (by decide)
    · right
      intro hle
      exact absurd (hge.trans hle) (by decide)
  · rintro rfl
    exact absurd hge (by decide)
  · rintro rfl
    exact absurd hge (by decide)

theorem hexVal_lt {c : UInt8} {d : ℕ} (h : hexVal c = some d) : d < 16 := by
  simp only [hexVal, UInt8.le_iff_toNat_le] at h
  split_ifs at h with h1 h2 h3 <;> obtain rfl := Option.some.inj h
  · have := h1.2
    simp at this
    omega
  · have := h2.2
    simp at this
    omega
  · have := h3.2
    simp at this
    omega

theorem hexstringToByte_eq {fst snd : UInt8} (h1 : IsHex fst) (h2 : IsHex snd) :
    hexstringToByte fst snd = pairByte fst snd := by
  obtain ⟨hz1, hs1, hm1, hp1⟩ := h1.plain
  obtain ⟨hz2, -, -, -⟩ := h2.plain
  obtain ⟨x, hx⟩ := Option.isSome_iff_exists.mp h1
  obtain ⟨y, hy⟩ := Option.isSome_iff_exists.mp h2
  have hx16 := hexVal_lt hx
  have hy16 := hexVal_lt hy
  have hstr : ([fst, snd].takeWhile (· ≠ 0)).dropWhile isSpace = [fst, snd] := by
    simp [hz1, hz2, hs1]
  have hval : strtol [fst, snd] = (16 * x + y : ℕ) := by
    simp only [strtol, hstr, List.head?_cons, Option.some.injEq, hm1, hp1, or_self, if_false]
    simp [leadingDigits, hx, hy]
  rw [hexstringToByte, hval, pairByte, hx, hy]
  congr 1
  simp only [Option.getD_some]
  omega

theorem nil_or_singleton {α : Type*} {xs : List α} (h : ∀ a b ys, xs = a :: b :: ys → False) :
    xs = [] ∨ ∃ a, xs = [a] := by
  cases xs with
  | nil => exact .inl rfl
  | cons a xs =>
    cases xs with
    | nil => exact .inr ⟨a, rfl⟩
    | cons b xs => exact (h a b xs rfl).elim

theorem rawPairs_append_pair {xs : List UInt8} (h : xs.length % 2 = 0) (fst snd : UInt8) :
    rawPairs (xs ++ [fst, snd]) = rawPairs xs ++ [hexstringToByte fst snd] := by
  induction xs using rawPairs.induct with
  | case1 a b xs ih =>
    rw [List.length_cons, List.length_cons] at h
    rw [List.cons_append, List.cons_append, rawPairs, ih (by omega), rawPairs, List.cons_append]
  | case2 xs hxs =>
    obtain rfl | ⟨a, rfl⟩ := nil_or_singleton hxs
    · rfl
    · simp at h

theorem rawPairs_eq {xs : List UInt8} (h : ∀ c ∈ xs, IsHex c) : rawPairs xs = decodePairs xs := by
  induction xs using rawPairs.induct with
  | case1 a b xs ih =>
    have hxs : ∀ c ∈ xs, IsHex c := fun c hc => h c (List.mem_cons_of_mem _ (List.mem_cons_of_mem _ hc))
    have hbyte := hexstringToByte_eq (h a List.mem_cons_self) (h b (List.mem_cons_of_mem _ List.mem_cons_self))
    rw [rawPairs, decodePairs, hbyte, ih hxs]
  | case2 xs hxs =>
    obtain rfl | ⟨a, rfl⟩ := nil_or_singleton hxs
    · rfl
    · rfl

theorem rawField_eq {xs : List UInt8} (h : ∀ c ∈ xs, IsHex c) : rawField xs = decodeField xs := by
  rw [rawField, rawPairs_eq h, decodeField]

theorem length_decodePairs (xs : List UInt8) : (decodePairs xs).length = xs.length / 2 := by
  induction xs using decodePairs.induct with
  | case1 a b xs ih =>
    rw [decodePairs, List.length_cons, ih, List.length_cons, List.length_cons]
    omega
  | case2 xs hxs =>
    obtain rfl | ⟨a, rfl⟩ := nil_or_singleton hxs
    · rfl
    · simp [decodePairs]

theorem length_decodeField (xs : List UInt8) : (decodeField xs).length = xs.length / 2 := by
  rw [decodeField, List.length_reverse, length_decodePairs]

theorem length_rawField (xs : List UInt8) : (rawField xs).length = xs.length / 2 := by
  rw [rawField, List.length_reverse]
  induction xs using rawPairs.induct with
  | case1 a b xs ih =>
    rw [rawPairs, List.length_cons, ih, List.length_cons, List.length_cons]
    omega
  | case2 xs hxs =>
    obtain rfl | ⟨a, rfl⟩ := nil_or_singleton hxs
    · rfl
    · simp [rawPairs]

theorem hexPairs_eq {buf part : List UInt8} {start m : ℕ} (hlen : part.length = 2 * m)
    (hslice : slice buf start (2 * m) = part) : hexPairs buf start m = some (rawField part) := by
  induction m generalizing part with
  | zero =>
    obtain rfl := List.eq_nil_of_length_eq_zero hlen
    rfl
  | succ m ih =>
    have hcell : ∀ i < 2 * (m + 1), buf[start + i]? = part[i]? := by
      intro i hi
      rw [← hslice, getElem?_slice, if_pos hi]
    obtain ⟨fst, snd, htail⟩ := List.length_eq_two.mp
      (by rw [List.length_drop]; omega : (part.drop (2 * m)).length = 2)
    have hinit : (part.take (2 * m)).length = 2 * m := by
      rw [List.length_take]
      omega
    have hsplit : part = part.take (2 * m) ++ [fst, snd] := by
      rw [← htail, List.take_append_drop]
    have hfst : buf[start + 2 * m]? = some fst := by
      rw [hcell _ (by omega), hsplit, List.getElem?_append_right hinit.le, hinit, Nat.sub_self]
      rfl
    have hsnd : buf[start + 2 * m + 1]? = some snd := by
      rw [Nat.add_assoc, hcell _ (by omega), hsplit, List.getElem?_append_right (by omega), hinit,
        Nat.add_sub_cancel_left]
      rfl
    have hfirst : slice buf start (2 * m) = part.take (2 * m) := by
      rw [← hslice, slice, slice, List.take_take, Nat.min_eq_left (by omega)]
    simp only [hexPairs, hfst, hsnd, ih hinit hfirst, Option.map_some]
    rw [hsplit, rawField, rawField, rawPairs_append_pair (by omega), List.reverse_append, ← hsplit]
    rfl

theorem hexstringToBinarrayLe_eq {buf part : List UInt8} {start : ℕ} (heven : part.length % 2 = 0)
    (hlen : part.length < 2 ^ 31) (hslice : slice buf start part.length = part) :
    hexstringToBinarrayLe buf start part.length = some (rawField part) := by
  obtain ⟨m, hm⟩ : ∃ m, part.length = 2 * m := ⟨part.length / 2, by omega⟩
  have hcount : (if Util.toInt ((part.length + (2 ^ 64 - 2)) % 2 ^ 64) < 0 then 0
      else (Util.toInt ((part.length + (2 ^ 64 - 2)) % 2 ^ 64) / 2 + 1).toNat) = m := by
    obtain rfl | hpos := Nat.eq_zero_or_pos m
    · rw [hm]
      rfl
    · have hback : (part.length + (2 ^ 64 - 2)) % 2 ^ 64 = part.length - 2 := by omega
      rw [hback, Util.toInt_of_lt (by omega), if_neg (by omega)]
      omega
  rw [hexstringToBinarrayLe, if_neg (by omega)]
  simp only [hcount]
  exact hexPairs_eq hm (hm ▸ hslice)

end GlipOsd.Jtag
