import GlipOsd.Jtag.Hex
import Mathlib.Data.List.TakeWhile

/-! # The option list of a context

`glip_option_get_uint32`, `_uint16`, `_uint8` and `_char` go through the entries of the list up to the first one with
the name that is asked for. A number is read by `strtoul` with base 0 and is 64 bits wide; it is cast to 32 bits before
it is limited to 16 or 8 bits.

A string is given without its terminating zero.
-/

namespace GlipOsd.Options
open Jtag (hexVal isSpace)
set_option autoImplicit false

/-- A `struct glip_option`; `none` is a null pointer. -/
structure GlipOption where
  name : Option (List UInt8)
  value : Option (List UInt8)
  deriving DecidableEq

/-- The fields of a `struct glip_ctx` that the getters read. -/
structure GlipCtx where
  backendOptions : List GlipOption
  numBackendOptions : UInt32
  inBounds : numBackendOptions.toNat ≤ backendOptions.length

/-- The entries that the loops go through. -/
def GlipCtx.options (ctx : GlipCtx) : List GlipOption := ctx.backendOptions.take ctx.numBackendOptions.toNat

/-- A context with a single option. -/
def GlipCtx.single (o : GlipOption) : GlipCtx := ⟨[o], 1, le_rfl⟩

/-! ## Numbers -/

inductive Errno
  | zero
  | einval
  | erange
  deriving DecidableEq

/-- The value, how far `endptr` is from the start of the string, and `errno` if it was 0. -/
structure Strtoul where
  val : ℕ
  endptr : ℕ
  errno : Errno
  deriving DecidableEq

def ulongMax : ℕ := 2 ^ 64 - 1

def isDigit (base : ℕ) (c : UInt8) : Bool := (hexVal c).any (· < base)

def digitsValue (base : ℕ) (digits : List UInt8) : ℕ :=
  Nat.ofDigits base (digits.reverse.map fun c => (hexVal c).getD 0)

/-- `0x` or `0X` before a digit. -/
def hasHexPrefix (s : List UInt8) : Bool :=
  (s.take 2 == [0x30, 0x78] || s.take 2 == [0x30, 0x58]) && (s[2]?.any (isDigit 16))

def skipSign (s : List UInt8) : List UInt8 := if s.head? = some 0x2d ∨ s.head? = some 0x2b then s.tail else s

def baseOf (s : List UInt8) : ℕ := if hasHexPrefix s then 16 else if s.head? = some 0x30 then 8 else 10

def skipPrefix (s : List UInt8) : List UInt8 := if hasHexPrefix s then s.drop 2 else s

/-- `strtoul(str, &endptr, 0)`. A C library may set `errno` to `EINVAL` where it finds no digits. -/
def strtoul (setsEinval : Bool) (str : List UInt8) : Strtoul :=
  let s := str.dropWhile isSpace
  let unsigned := skipSign s
  let base := baseOf unsigned
  let rest := skipPrefix unsigned
  let digits := rest.takeWhile (isDigit base)
  let n := digitsValue base digits
  let endptr := str.length - (rest.drop digits.length).length
  if digits = [] then ⟨0, 0, if setsEinval then .einval else .zero⟩
  else if ulongMax < n then ⟨ulongMax, endptr, .erange⟩
  else ⟨if s.head? = some 0x2d then (2 ^ 64 - n) % 2 ^ 64 else n, endptr, .zero⟩

/-! ## The getters -/

/-- Where the loop stops; `none` if `strcmp` gets a null pointer. -/
def findOption (key : List UInt8) : List GlipOption → Option (Option GlipOption)
  | [] => some none
  | o :: os =>
    match o.name with
    | none => none
    | some name => if name = key then some (some o) else findOption key os

/-- What is made of the value of the option in the loop of `glip_option_get_uint32` and behind it. -/
def numberOf (setsEinval : Bool) (value : List UInt8) : Except ℤ UInt32 :=
  let r := strtoul setsEinval value
  if r.errno = .erange ∧ r.val = ulongMax ∨ r.errno ≠ .zero ∧ r.val = 0 then .error (-1)
  else
    let val := if r.endptr = 0 then 0 else r.val
    .ok (UInt32.ofNat val)

/-- `none` where a null pointer is used. -/
def glipOptionGetUint32 (setsEinval : Bool) (ctx : GlipCtx) (key : List UInt8) : Option (Except ℤ UInt32) :=
  match findOption key ctx.options with
  | none => none
  | some none => some (.error (-1))
  | some (some o) => o.value.map (numberOf setsEinval)

def limit (max tmp : UInt32) : UInt32 := if tmp > max then max else tmp

def glipOptionGetUint16 (setsEinval : Bool) (ctx : GlipCtx) (key : List UInt8) : Option (Except ℤ UInt16) :=
  (glipOptionGetUint32 setsEinval ctx key).map fun r => r.map fun tmp => (limit 0xffff tmp).toUInt16

def glipOptionGetUint8 (setsEinval : Bool) (ctx : GlipCtx) (key : List UInt8) : Option (Except ℤ UInt8) :=
  (glipOptionGetUint32 setsEinval ctx key).map fun r => r.map fun tmp => (limit 0xff tmp).toUInt8

/-- The pointer that is returned may be null. -/
def glipOptionGetChar (ctx : GlipCtx) (key : List UInt8) : Option (Except ℤ (Option (List UInt8))) :=
  match findOption key ctx.options with
  | none => none
  | some none => some (.error (-1))
  | some (some o) => some (.ok o.value)

/-! ## Numerals -/

/-- The string is a numeral for the number. -/
inductive Denotes : List UInt8 → ℕ → Prop
  | decimal {c : UInt8} {cs : List UInt8} (hc : c ≠ 0x30) (h : ∀ d ∈ c :: cs, isDigit 10 d = true) :
    Denotes (c :: cs) (digitsValue 10 (c :: cs))
  | octal {cs : List UInt8} (h : ∀ d ∈ cs, isDigit 8 d = true) : Denotes (0x30 :: cs) (digitsValue 8 cs)
  | hexadecimal {x d : UInt8} {ds : List UInt8} (hx : x = 0x78 ∨ x = 0x58) (h : ∀ e ∈ d :: ds, isDigit 16 e = true) :
    Denotes (0x30 :: x :: d :: ds) (digitsValue 16 (d :: ds))

section Numerals
variable {base : ℕ} {c : UInt8} {cs digits : List UInt8} {setsEinval : Bool} {v : ℕ}

theorem isHex_of_isDigit (h : isDigit base c = true) : Jtag.IsHex c := by
  unfold isDigit at h
  unfold Jtag.IsHex
  cases hc : hexVal c with
  | none =>
    rw [hc] at h
    cases h
  | some d => rfl

theorem digitsValue_zero_cons (cs : List UInt8) : digitsValue base (0x30 :: cs) = digitsValue base cs := by
  have hzero : (hexVal 0x30).getD 0 = 0 := rfl
  rw [digitsValue, List.reverse_cons, List.map_append, Nat.ofDigits_append, List.map_singleton, hzero,
    Nat.ofDigits_singleton, Nat.mul_zero, Nat.add_zero, digitsValue]

/-- Without space and sign, and with digits of the base to the end, the string is the number. -/
theorem strtoul_digits (hc : Jtag.IsHex c) (hbase : baseOf (c :: cs) = base) (hdigits : skipPrefix (c :: cs) = digits)
    (hall : ∀ d ∈ digits, isDigit base d = true) (hne : digits ≠ []) (hv : digitsValue base digits ≤ ulongMax) :
    strtoul setsEinval (c :: cs) = ⟨digitsValue base digits, (c :: cs).length, .zero⟩ := by
  obtain ⟨-, hspace, hminus, hplus⟩ := hc.plain
  have hdrop : (c :: cs).dropWhile isSpace = c :: cs := List.dropWhile_cons_of_neg (by simp [hspace])
  have hsign : skipSign (c :: cs) = c :: cs := by simp [skipSign, hminus, hplus]
  have hneg : (c :: cs).head? ≠ some 0x2d := by simp [hminus]
  have htake : digits.takeWhile (isDigit base) = digits := List.takeWhile_eq_self_iff.mpr hall
  simp only [strtoul, hdrop, hsign, hbase, hdigits, htake, if_neg hne, if_neg (Nat.not_lt.mpr hv), if_neg hneg,
    List.drop_length, List.length_nil, Nat.sub_zero]

/-- Nothing but digits of a base up to 16 follows a zero that is no prefix. -/
theorem hasHexPrefix_eq_false (h : ∀ d ∈ cs, isDigit base d = true) : hasHexPrefix (c :: cs) = false := by
  cases cs with
  | nil => simp [hasHexPrefix]
  | cons d ds =>
    have hd := (isHex_of_isDigit (h d List.mem_cons_self))
    have hx : d ≠ 0x78 := by
      rintro rfl
      cases hd
    have hX : d ≠ 0x58 := by
      rintro rfl
      cases hd
    simp [hasHexPrefix, hx, hX]

theorem Denotes.strtoul_eq (setsEinval : Bool) {value : List UInt8} (h : Denotes value v) (hv : v ≤ ulongMax) :
    strtoul setsEinval value = ⟨v, value.length, .zero⟩ := by
  cases h with
  | @decimal c cs hc h =>
    have hprefix := hasHexPrefix_eq_false (c := c) fun d hd => h d (List.mem_cons_of_mem c hd)
    refine strtoul_digits (isHex_of_isDigit (h c List.mem_cons_self)) ?_ ?_ h (List.cons_ne_nil c cs) hv
    · simp [baseOf, hprefix, hc]
    · simp [skipPrefix, hprefix]
  | @octal cs h =>
    have hprefix := hasHexPrefix_eq_false (c := 0x30) h
    rw [← digitsValue_zero_cons] at hv ⊢
    refine strtoul_digits rfl ?_ ?_ ?_ (List.cons_ne_nil _ _) hv
    · simp [baseOf, hprefix]
    · simp [skipPrefix, hprefix]
    · exact List.forall_mem_cons.mpr ⟨rfl, h⟩
  | @hexadecimal x d ds hx h =>
    have hprefix : hasHexPrefix (0x30 :: x :: d :: ds) = true := by
      have hd := h d List.mem_cons_self
      obtain rfl | rfl := hx
      · simp [hasHexPrefix, hd]
      · simp [hasHexPrefix, hd]
    refine strtoul_digits rfl ?_ ?_ h (List.cons_ne_nil d ds) hv
    · simp [baseOf, hprefix]
    · simp [skipPrefix, hprefix]

theorem Denotes.ne_nil {value : List UInt8} (h : Denotes value v) : value ≠ [] := by
  cases h with
  | decimal => exact List.cons_ne_nil _ _
  | octal => exact List.cons_ne_nil _ _
  | hexadecimal => exact List.cons_ne_nil _ _

theorem Denotes.numberOf_eq (setsEinval : Bool) {value : List UInt8} (h : Denotes value v) (hv : v ≤ ulongMax) :
    numberOf setsEinval value = .ok (UInt32.ofNat v) := by
  have hlen : value.length ≠ 0 := by simpa using h.ne_nil
  simp [numberOf, h.strtoul_eq setsEinval hv, hlen]

end Numerals

/-! ## Limits -/

section Limits
variable (setsEinval : Bool) {ctx : GlipCtx} {key value : List UInt8} {v : ℕ} {before after : List GlipOption}

theorem findOption_first {o : GlipOption} (ho : o.name = some key)
    (h : ∀ o ∈ before, ∃ name, o.name = some name ∧ name ≠ key) :
    findOption key (before ++ o :: after) = some (some o) := by
  induction before with
  | nil => simp [findOption, ho]
  | cons p ps ih =>
    rw [List.forall_mem_cons] at h
    obtain ⟨⟨name, hname, hne⟩, hps⟩ := h
    rw [List.cons_append, findOption, hname]
    exact (if_neg hne).trans (ih hps)

theorem getUint32_first (hoptions : ctx.options = before ++ ⟨some key, some value⟩ :: after)
    (h : ∀ o ∈ before, ∃ name, o.name = some name ∧ name ≠ key) :
    glipOptionGetUint32 setsEinval ctx key = some (numberOf setsEinval value) := by
  rw [glipOptionGetUint32, hoptions, findOption_first rfl h]
  rfl

theorem toNat_limit (max tmp : UInt32) : (limit max tmp).toNat = min tmp.toNat max.toNat := by
  unfold limit
  split_ifs with h
  · have hlt := UInt32.lt_iff_toNat_lt.mp h
    omega
  · have hle := UInt32.le_iff_toNat_le.mp (UInt32.not_lt.mp h)
    omega

/-- The number that is left of a larger one may be too small for the limit. -/
theorem min_mod_eq_iff {m : ℕ} (hm : m < 2 ^ 32) :
    min (v % 2 ^ 32) m = min v m ↔ v < 2 ^ 32 ∨ m ≤ v % 2 ^ 32 := by omega

theorem limit16_eq_iff :
    (limit 0xffff (UInt32.ofNat v)).toUInt16 = UInt16.ofNat (min v 0xffff) ↔ v < 2 ^ 32 ∨ 0xffff ≤ v % 2 ^ 32 := by
  have hmax : (0xffff : UInt32).toNat = 0xffff := rfl
  rw [← min_mod_eq_iff (by norm_num), ← UInt16.toNat_inj, UInt32.toNat_toUInt16, toNat_limit, UInt32.toNat_ofNat',
    UInt16.toNat_ofNat', hmax]
  omega

theorem limit8_eq_iff :
    (limit 0xff (UInt32.ofNat v)).toUInt8 = UInt8.ofNat (min v 0xff) ↔ v < 2 ^ 32 ∨ 0xff ≤ v % 2 ^ 32 := by
  have hmax : (0xff : UInt32).toNat = 0xff := rfl
  rw [← min_mod_eq_iff (by norm_num), ← UInt8.toNat_inj, UInt32.toNat_toUInt8, toNat_limit, UInt32.toNat_ofNat',
    UInt8.toNat_ofNat', hmax]
  omega

/-- **Numbers of 32 bits are limited, larger ones only by luck.** The first entry with the name decides alone, and a
larger number is limited as documented just if its low 32 bits are not below the limit. -/
theorem limited_iff (hoptions : ctx.options = before ++ ⟨some key, some value⟩ :: after)
    (hbefore : ∀ o ∈ before, ∃ name, o.name = some name ∧ name ≠ key) (hvalue : Denotes value v) (hv : v ≤ ulongMax) :
    (glipOptionGetUint16 setsEinval ctx key = some (.ok (UInt16.ofNat (min v 0xffff))) ↔
      v < 2 ^ 32 ∨ 0xffff ≤ v % 2 ^ 32) ∧
    (glipOptionGetUint8 setsEinval ctx key = some (.ok (UInt8.ofNat (min v 0xff))) ↔
      v < 2 ^ 32 ∨ 0xff ≤ v % 2 ^ 32) ∧
    glipOptionGetUint16 setsEinval ctx key =
      glipOptionGetUint16 setsEinval (.single ⟨some key, some value⟩) key ∧
    glipOptionGetUint8 setsEinval ctx key =
      glipOptionGetUint8 setsEinval (.single ⟨some key, some value⟩) key := by
  have hfirst := getUint32_first setsEinval hoptions hbefore
  have hoption : (GlipCtx.single ⟨some key, some value⟩).options = [] ++ ⟨some key, some value⟩ :: [] := rfl
  have hsingle := getUint32_first setsEinval hoption nofun
  have hnumber := hvalue.numberOf_eq setsEinval hv
  refine ⟨?_, ?_, ?_, ?_⟩
  · rw [glipOptionGetUint16, hfirst, hnumber, ← limit16_eq_iff]
    simp [Except.map]
  · rw [glipOptionGetUint8, hfirst, hnumber, ← limit8_eq_iff]
    simp [Except.map]
  · rw [glipOptionGetUint16, glipOptionGetUint16, hfirst, hsingle]
  · rw [glipOptionGetUint8, glipOptionGetUint8, hfirst, hsingle]

end Limits

/-- The strings "0x12345" and "4294967296". -/
def hexNumeral : List UInt8 := [0x30, 0x78, 0x31, 0x32, 0x33, 0x34, 0x35]

def largeNumeral : List UInt8 := [0x34, 0x32, 0x39, 0x34, 0x39, 0x36, 0x37, 0x32, 0x39, 0x36]

theorem hexNumeral_denotes : Denotes hexNumeral 0x12345 := .hexadecimal (.inl rfl) (List.all_eq_true.mp rfl)

theorem largeNumeral_denotes : Denotes largeNumeral 4294967296 := .decimal (by decide) (List.all_eq_true.mp rfl)

/-- Behind another option and before one with the same name. -/
def someOptions : List GlipOption :=
  [⟨some [0x61], none⟩, ⟨some [0x62], some hexNumeral⟩, ⟨some [0x62], some largeNumeral⟩]

theorem hexNumeral_limited :
    glipOptionGetUint16 false ⟨someOptions, 3, le_rfl⟩ [0x62] = some (.ok 0xffff) ∧
      glipOptionGetUint8 false ⟨someOptions, 3, le_rfl⟩ [0x62] = some (.ok 0xff) := by
  have hoptions : GlipCtx.options ⟨someOptions, 3, le_rfl⟩ =
      [⟨some [0x61], none⟩] ++ ⟨some [0x62], some hexNumeral⟩ :: [⟨some [0x62], some largeNumeral⟩] := rfl
  have h := limited_iff false hoptions (by simp) hexNumeral_denotes (by decide)
  exact ⟨h.1.mpr (by decide), h.2.1.mpr (by decide)⟩

theorem largeNumeral_vanishes :
    Denotes largeNumeral 4294967296 ∧ 4294967296 ≤ ulongMax ∧
      glipOptionGetUint16 false (.single ⟨some [0x62], some largeNumeral⟩) [0x62] = some (.ok 0) ∧
        glipOptionGetUint8 false (.single ⟨some [0x62], some largeNumeral⟩) [0x62] = some (.ok 0) :=
  ⟨largeNumeral_denotes, by decide, by decide, by decide⟩

end GlipOsd.Options
