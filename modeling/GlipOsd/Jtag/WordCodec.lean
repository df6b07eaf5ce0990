import GlipOsd.Foundations.Bits
import GlipOsd.Jtag.Host

/-! # Numbers in a word

`copy_to_word` and `copy_from_word`. Up to four bytes a word is little endian. In a wider word one byte is
stored, four bytes before the end, and four bytes are read from there.
-/

namespace GlipOsd.Jtag.WordCodec
open Bytes Memory
set_option autoImplicit false

section Codec
variable (ctx : Ctx) (value : ℕ)

/-- `copy_from_word` of one word, when `memcpy` stays within the word and within `out`. -/
def copyFromWordIn (word : List UInt8) : Option ℕ :=
  let cp := Util.toSize (Util.min ctx.targetWordWidth 4)
  if cp ≤ 4 ∧ cp ≤ word.length then some (copyFromWord ctx word 0) else none

/-- The value is written as a word of the target, and is read back. -/
structure Codec : Prop where
  toWord : copyToWord ctx value = leBytes ctx.targetWordWidth value
  fromWord : copyFromWordIn ctx (copyToWord ctx value) = some value

end Codec

variable {ctx : Ctx} {value : ℕ}

/-- The word on the wire: its bits, the least significant one first. -/
theorem Codec.wire (h : Codec ctx value) :
    bytesBits (copyToWord ctx value) = bits (8 * ctx.targetWordWidth) value := by
  rw [h.toWord, bytesBits_eq, length_leBytes, leValue_leBytes, ← two_pow_eight_mul, bits_mod]

/-! ## The number of bytes that are read -/

theorem toSize_min_of_le {w : ℕ} (h : w ≤ 4) : Util.toSize (Util.min w 4) = w := by
  rw [Util.min_eq (by omega) (by omega), Nat.min_eq_left h, Util.toSize_natCast (by omega)]

theorem toSize_min_of_ge {w : ℕ} (h : 4 ≤ w) (hlt : w < 2 ^ 31) : Util.toSize (Util.min w 4) = 4 := by
  rw [Util.min_eq hlt (by omega), Nat.min_eq_right h]
  rfl

/-- As an `int` the width is negative, and as a `size_t` huge. -/
theorem toSize_min_huge {w : ℕ} (h : 2 ^ 31 ≤ w) (hlt : w < 2 ^ 32) : 4 < Util.toSize (Util.min w 4) := by
  have hint : Util.toInt w = (w : ℤ) - 2 ^ 32 := by
    have hcases := Util.toInt_cases w
    omega
  have hfour : Util.toInt 4 = 4 := rfl
  have hmin : Util.min w 4 = (w : ℤ) - 2 ^ 32 := by
    unfold Util.min
    rw [hint, hfour, if_neg (by omega)]
  rw [hmin, Util.toSize]
  omega

/-! ## Narrow and wide words -/

theorem codec_of_le (hww : 1 ≤ ctx.targetWordWidth) (hle : ctx.targetWordWidth ≤ 4)
    (hvalue : value < 2 ^ (8 * ctx.targetWordWidth)) : Codec ctx value := by
  have hto := copyToWord_eq ⟨hww, hle⟩ value
  refine ⟨hto, ?_⟩
  have hword : slice (leBytes ctx.targetWordWidth value) 0 ctx.targetWordWidth = leBytes ctx.targetWordWidth value := by
    rw [slice, List.drop_zero, List.take_of_length_le (length_leBytes _ _).le]
  simp only [copyFromWordIn, toSize_min_of_le hle, length_copyToWord, hle, le_refl, and_self, if_true]
  rw [copyFromWord_eq hle, hto, hword, leValue_leBytes_of_lt (by rwa [← two_pow_eight_mul])]

theorem leBytes_zero (n : ℕ) : leBytes n 0 = List.replicate n 0 := by
  induction n with
  | zero => rfl
  | succ n ih =>
    rw [leBytes, Nat.zero_div, ih, List.replicate_succ]
    rfl

theorem copyToWord_wide (hww : 4 < ctx.targetWordWidth) (value : ℕ) : copyToWord ctx value =
    (List.replicate ctx.targetWordWidth 0).set (ctx.targetWordWidth - 4) (UInt8.ofNat value) := by
  rw [copyToWord, if_neg (by omega)]

/-- The first byte of a wide word is 0, and the one that is stored is what the first byte should be. -/
theorem eq_zero_of_wide (hww : 4 < ctx.targetWordWidth) (hvalue : value < 2 ^ 32)
    (h : copyToWord ctx value = leBytes ctx.targetWordWidth value) : value = 0 := by
  obtain ⟨n, hn⟩ : ∃ n, ctx.targetWordWidth = n + 5 := ⟨ctx.targetWordWidth - 5, by omega⟩
  have hpow : 256 ^ 4 ≤ 256 ^ ctx.targetWordWidth := Nat.pow_le_pow_right (by norm_num) hww.le
  have hlt : value < 256 ^ ctx.targetWordWidth := by
    norm_num at hpow
    omega
  rw [copyToWord_wide hww] at h
  have hfirst : UInt8.ofNat value = 0 := by
    rw [hn, List.replicate_succ, leBytes] at h
    exact (List.cons.inj h).1.symm
  rw [hfirst, List.set_replicate_self, ← leBytes_zero] at h
  have hvalues := congrArg leValue h
  rw [leValue_leBytes_of_lt hlt, leValue_leBytes, Nat.zero_mod] at hvalues
  exact hvalues.symm

theorem copyToWord_zero (hww : 4 < ctx.targetWordWidth) :
    copyToWord ctx 0 = List.replicate ctx.targetWordWidth 0 := by
  rw [copyToWord_wide hww]
  exact List.set_replicate_self

theorem codec_zero (hww : 4 < ctx.targetWordWidth) (hlt : ctx.targetWordWidth < 2 ^ 31) : Codec ctx 0 := by
  have hcp := toSize_min_of_ge hww.le hlt
  have hto := copyToWord_zero hww
  refine ⟨hto.trans (leBytes_zero _).symm, ?_⟩
  have hword : slice (List.replicate ctx.targetWordWidth (0 : UInt8)) (0 + (ctx.targetWordWidth - 4)) 4 =
      List.replicate 4 0 := by
    have hfour : min 4 (ctx.targetWordWidth - (0 + (ctx.targetWordWidth - 4))) = 4 := by omega
    rw [slice, List.drop_replicate, List.take_replicate, hfour]
  simp only [copyFromWordIn, hcp, hto, List.length_replicate, hww.le, le_refl, and_self, if_true]
  rw [copyFromWord, hcp, hword]
  rfl

theorem codec_huge (hww : 2 ^ 31 ≤ ctx.targetWordWidth) (hlt : ctx.targetWordWidth < 2 ^ 32) : ¬ Codec ctx value := by
  intro h
  have hfrom := h.fromWord
  have hcp := toSize_min_huge hww hlt
  rw [copyFromWordIn, if_neg (fun hin => absurd hin.1 (not_le.mpr hcp))] at hfrom
  cases hfrom

/-- **Header words.** For every width that the field of the context can have and every value that fits: the value
is written in little-endian order and read back if and only if a word has at most four bytes, or the value is 0
(and the width is not negative as an `int`). -/
theorem codec_iff (hww : 1 ≤ ctx.targetWordWidth ∧ ctx.targetWordWidth < 2 ^ 32)
    (hvalue : value < 2 ^ min (8 * ctx.targetWordWidth) 32) :
    Codec ctx value ↔ ctx.targetWordWidth ≤ 4 ∨ value = 0 ∧ ctx.targetWordWidth < 2 ^ 31 := by
  by_cases hle : ctx.targetWordWidth ≤ 4
  · have hmin : min (8 * ctx.targetWordWidth) 32 = 8 * ctx.targetWordWidth := Nat.min_eq_left (by omega)
    rw [hmin] at hvalue
    exact iff_of_true (codec_of_le hww.1 hle hvalue) (.inl hle)
  · rw [not_le] at hle
    have hmin : min (8 * ctx.targetWordWidth) 32 = 32 := Nat.min_eq_right (by omega)
    rw [hmin] at hvalue
    constructor
    · intro h
      refine .inr ⟨eq_zero_of_wide hle hvalue h.toWord, ?_⟩
      by_contra hhuge
      exact codec_huge (not_lt.mp hhuge) hww.2 h
    · rintro (hno | ⟨rfl, hlt⟩)
      · exact absurd hno (not_le.mpr hle)
      · exact codec_zero hle hlt

theorem two_bytes_codec : (1 ≤ (gbJtagNew 2).targetWordWidth ∧ (gbJtagNew 2).targetWordWidth < 2 ^ 32) ∧
    0xfffe < 2 ^ min (8 * (gbJtagNew 2).targetWordWidth) 32 ∧ Codec (gbJtagNew 2) 0xfffe :=
  ⟨by decide, by decide, (codec_iff (by decide) (by decide)).mpr (.inl (by decide))⟩

theorem eight_bytes_not_codec : ¬ Codec (gbJtagNew 8) 3 := by
  intro h
  exact absurd (eq_zero_of_wide (by decide) (by decide) h.toWord) (by decide)

end GlipOsd.Jtag.WordCodec
