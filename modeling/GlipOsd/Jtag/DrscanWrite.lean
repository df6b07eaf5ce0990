import GlipOsd.Foundations.Bits
import GlipOsd.Jtag.Response

/-! # Writing a request to OpenOCD

`jtag_drscan_write` turns a request into a line of text with fields of up to 32 bits. A field says how many
bits it has and gives their value in hexadecimal digits. OpenOCD shifts the bits of each field, the least
significant one first, and answers with the values of the bits that it captured meanwhile.
-/

namespace GlipOsd.Jtag
open Bytes Memory
set_option autoImplicit false

/-! ## The line -/

/-- A field of a command: the number of its bits and the digits of its value. -/
structure ScanField where
  numBits : ℕ
  digits : List UInt8
  deriving DecidableEq

def ScanField.value (f : ScanField) : ℕ := leadingDigits 0 f.digits

def ascii (s : String) : List UInt8 := s.toList.map fun c => UInt8.ofNat c.toNat

/-- `%u` -/
def decimal (n : ℕ) : List UInt8 := (Nat.toDigits 10 n).map fun c => UInt8.ofNat c.toNat

def hexDigit (d : ℕ) : UInt8 := if d < 10 then UInt8.ofNat (0x30 + d) else UInt8.ofNat (0x57 + d)

/-- `%02x` -/
def hexByte (b : UInt8) : List UInt8 := [hexDigit (b.toNat / 16), hexDigit (b.toNat % 16)]

def ScanField.text (f : ScanField) : List UInt8 :=
  decimal f.numBits ++ ascii " 0x" ++ f.digits ++ ascii " "

/-- `OOCD_CMDSTART` -/
def oocdCmdstart : List UInt8 := ascii "drscan or1k.fifo "

/-- `OOCD_CMDEND` -/
def oocdCmdend : List UInt8 := [0x1a]

def command (fs : List ScanField) : List UInt8 := oocdCmdstart ++ fs.flatMap ScanField.text ++ oocdCmdend

/-- The hex character string of a field is little-endian. -/
def scanField (bytes : List UInt8) : ScanField := ⟨bytes.length * 8, bytes.reverse.flatMap hexByte⟩

def oocdMaxFieldSize : ℕ := 4

/-- The loop of `jtag_drscan_write` over the request. -/
def scanFields (req : List UInt8) : List ScanField :=
  if req = [] then []
  else scanField (req.take oocdMaxFieldSize) :: scanFields (req.drop oocdMaxFieldSize)
termination_by req.length
decreasing_by
  have hpos := List.length_pos_of_ne_nil ‹_›
  rw [List.length_drop, oocdMaxFieldSize]
  omega

def oocdCmdMaxlen : ℕ := 1 * 1024 * 1024

def oocdMaxLinesize : ℕ := 4096 * 1024

/-- `-EOVERFLOW` -/
def eoverflow : ℤ := -75

/-- `jtag_drscan_write`: what it returns and what it sends; `none` when the buffer of the command is too
small, so that an assertion in `cmdbuf_append` fails. -/
def jtagDrscanWrite (req : List UInt8) : Option (ℤ × List UInt8) :=
  let cmd := command (scanFields req)
  if cmd.length > oocdCmdMaxlen then none
  else if cmd.length > oocdMaxLinesize then some (eoverflow, [])
  else some (0, cmd)

/-! ## OpenOCD -/

/-- The digits are hexadecimal, and the value has as many bits as the field. -/
def ScanField.Valid (f : ScanField) : Prop :=
  (0 < f.numBits ∧ f.numBits ≤ 32) ∧ (f.digits ≠ [] ∧ ∀ c ∈ f.digits, IsHex c) ∧
    f.value < 2 ^ f.numBits

/-- A line of well-formed fields is read as their numbers of bits and their values. -/
def ReadsFields (oocd : List UInt8 → List (ℕ × ℕ)) : Prop :=
  ∀ fs : List ScanField, (∀ f ∈ fs, f.Valid) → oocd (command fs) = fs.map fun f => (f.numBits, f.value)

/-- The bits that are shifted for the fields. -/
def shiftedBits (fs : List (ℕ × ℕ)) : List Bool := fs.flatMap fun f => bits f.1 f.2

/-- The fields `xs` of an answer are the values of the bits `bs` that were captured. -/
def Captured : List (ℕ × ℕ) → List Bool → List Field → Prop
  | [], _, [] => True
  | f :: fs, bs, x :: xs =>
    4 * x.digits.length = f.1 ∧ leadingDigits 0 x.digits = bitValue (bs.take f.1) ∧ Captured fs (bs.drop f.1) xs
  | _, _, _ => False

/-! ## Hexadecimal digits -/

theorem hexVal_hexDigit : ∀ d < 16, hexVal (hexDigit d) = some d := by decide

theorem isHex_hexByte (b : UInt8) : ∀ c ∈ hexByte b, IsHex c := by
  have hlt : b.toNat < 256 := b.toNat_lt
  have hdigit (d : ℕ) (hd : d < 16) : IsHex (hexDigit d) := by
    rw [IsHex, hexVal_hexDigit d hd]
    rfl
  intro c hc
  obtain rfl | rfl : c = hexDigit (b.toNat / 16) ∨ c = hexDigit (b.toNat % 16) := by simpa [hexByte] using hc
  · exact hdigit _ (by omega)
  · exact hdigit _ (by omega)

theorem leadingDigits_hexByte (acc : ℕ) (b : UInt8) (rest : List UInt8) :
    leadingDigits acc (hexByte b ++ rest) = leadingDigits (256 * acc + b.toNat) rest := by
  have hlt : b.toNat < 256 := b.toNat_lt
  have hval : 16 * (16 * acc + b.toNat / 16) + b.toNat % 16 = 256 * acc + b.toNat := by omega
  show leadingDigits acc (hexDigit (b.toNat / 16) :: hexDigit (b.toNat % 16) :: rest) = _
  simp only [leadingDigits, hexVal_hexDigit (b.toNat / 16) (by omega), hexVal_hexDigit (b.toNat % 16) (by omega),
    hval]

theorem leadingDigits_reverse (bytes : List UInt8) (acc : ℕ) (rest : List UInt8) :
    leadingDigits acc (bytes.reverse.flatMap hexByte ++ rest) =
      leadingDigits (256 ^ bytes.length * acc + leValue bytes) rest := by
  induction bytes generalizing rest with
  | nil =>
    rw [List.length_nil, pow_zero, one_mul]
    rfl
  | cons b bs ih =>
    rw [List.reverse_cons, List.flatMap_append, List.append_assoc, ih, List.flatMap_singleton,
      leadingDigits_hexByte, leValue, List.length_cons, pow_succ']
    congr 1
    ring

theorem value_scanField (bytes : List UInt8) : (scanField bytes).value = leValue bytes := by
  have hval := leadingDigits_reverse bytes 0 []
  rwa [List.append_nil, Nat.mul_zero, Nat.zero_add] at hval

theorem leadingDigits_acc {ds : List UInt8} (h : ∀ c ∈ ds, IsHex c) (acc : ℕ) :
    leadingDigits acc ds = 16 ^ ds.length * acc + leadingDigits 0 ds := by
  induction ds generalizing acc with
  | nil =>
    rw [List.length_nil, pow_zero, one_mul]
    rfl
  | cons c ds ih =>
    obtain ⟨d, hd⟩ := Option.isSome_iff_exists.mp (h c List.mem_cons_self)
    have ih := ih fun x hx => h x (List.mem_cons_of_mem c hx)
    simp only [leadingDigits, hd]
    rw [ih, ih (16 * 0 + d), List.length_cons, pow_succ]
    ring

theorem leadingDigits_lt {ds : List UInt8} (h : ∀ c ∈ ds, IsHex c) : leadingDigits 0 ds < 16 ^ ds.length := by
  induction ds with
  | nil => exact Nat.one_pos
  | cons c ds ih =>
    obtain ⟨d, hd⟩ := Option.isSome_iff_exists.mp (h c List.mem_cons_self)
    have hds : ∀ x ∈ ds, IsHex x := fun x hx => h x (List.mem_cons_of_mem c hx)
    have hlt := hexVal_lt hd
    have hrest := ih hds
    have hmul : 16 ^ ds.length * d ≤ 16 ^ ds.length * 15 := Nat.mul_le_mul_left _ (by omega)
    simp only [leadingDigits, hd]
    rw [leadingDigits_acc hds, Nat.mul_zero, Nat.zero_add, List.length_cons, pow_succ]
    omega

/-- The bytes of a field are those of its value, the least significant one first. -/
theorem decodeField_eq {ds : List UInt8} (h : ∀ c ∈ ds, IsHex c) (heven : ds.length % 2 = 0) :
    decodeField ds = leBytes (ds.length / 2) (leadingDigits 0 ds) := by
  induction ds using decodePairs.induct with
  | case1 a b ds ih =>
    have hds : ∀ c ∈ ds, IsHex c := fun c hc => h c (List.mem_cons_of_mem _ (List.mem_cons_of_mem _ hc))
    obtain ⟨x, hx⟩ := Option.isSome_iff_exists.mp (h a List.mem_cons_self)
    obtain ⟨y, hy⟩ := Option.isSome_iff_exists.mp (h b (List.mem_cons_of_mem _ List.mem_cons_self))
    rw [List.length_cons, List.length_cons] at heven
    obtain ⟨m, hm⟩ : ∃ m, ds.length = 2 * m := ⟨ds.length / 2, by omega⟩
    have hpow : 16 ^ ds.length = 256 ^ m := by
      rw [hm, pow_mul]
      norm_num
    have hlt : leadingDigits 0 ds < 256 ^ m := hpow ▸ leadingDigits_lt hds
    have hval : leadingDigits 0 (a :: b :: ds) = leadingDigits 0 ds + 256 ^ m * (16 * x + y) := by
      simp only [leadingDigits, hx, hy]
      rw [leadingDigits_acc hds, hpow]
      ring
    have hlow : leBytes m (leadingDigits 0 ds + 256 ^ m * (16 * x + y)) = leBytes m (leadingDigits 0 ds) := by
      rw [← leBytes_mod, Nat.add_mul_mod_self_left, leBytes_mod]
    have hhigh : (leadingDigits 0 ds + 256 ^ m * (16 * x + y)) / 256 ^ m = 16 * x + y := by
      rw [Nat.add_mul_div_left _ _ (Nat.pow_pos (by norm_num)), Nat.div_eq_of_lt hlt, Nat.zero_add]
    have hbyte : pairByte a b = UInt8.ofNat (16 * x + y) := by
      rw [pairByte, hx, hy]
      rfl
    have hlen : (a :: b :: ds).length / 2 = m + 1 := by
      rw [List.length_cons, List.length_cons, hm]
      omega
    have hfield := ih hds (by omega)
    rw [decodeField, hm, Nat.mul_div_cancel_left _ (by norm_num)] at hfield
    rw [decodeField, decodePairs, List.reverse_cons, hfield, hlen, hval, leBytes_add, hlow, hhigh, hbyte]
    rfl
  | case2 ds hds =>
    obtain rfl | ⟨a, rfl⟩ := nil_or_singleton hds
    · rfl
    · simp at heven

/-! ## What is shifted -/

theorem scanFields_nil : scanFields [] = [] := by
  rw [scanFields, if_pos rfl]

theorem scanFields_cons {req : List UInt8} (h : req ≠ []) :
    scanFields req = scanField (req.take oocdMaxFieldSize) :: scanFields (req.drop oocdMaxFieldSize) := by
  rw [scanFields, if_neg h]

theorem scanField_valid {bytes : List UInt8} (h : bytes ≠ []) (hlen : bytes.length ≤ 4) :
    (scanField bytes).Valid := by
  have hpos := List.length_pos_of_ne_nil h
  obtain ⟨b, bs, rfl⟩ := List.exists_cons_of_ne_nil h
  refine ⟨⟨?_, ?_⟩, ⟨?_, ?_⟩, ?_⟩
  · show 0 < (b :: bs).length * 8
    omega
  · show (b :: bs).length * 8 ≤ 32
    omega
  · intro hnil
    have hmem := List.flatMap_eq_nil_iff.mp hnil b (List.mem_reverse.mpr List.mem_cons_self)
    cases hmem
  · intro c hc
    obtain ⟨x, -, hx⟩ := List.mem_flatMap.mp hc
    exact isHex_hexByte x c hx
  · rw [value_scanField]
    show leValue (b :: bs) < 2 ^ ((b :: bs).length * 8)
    rw [Nat.mul_comm, two_pow_eight_mul]
    exact leValue_lt _

theorem mem_scanFields {req : List UInt8} {f : ScanField} (h : f ∈ scanFields req) :
    ∃ bytes : List UInt8, bytes ≠ [] ∧ bytes.length ≤ 4 ∧ f = scanField bytes := by
  induction req using scanFields.induct with
  | case1 => simp [scanFields_nil] at h
  | case2 req hne ih =>
    rw [scanFields_cons hne] at h
    obtain rfl | h := List.mem_cons.mp h
    · refine ⟨req.take oocdMaxFieldSize, ?_, List.length_take_le _ _, rfl⟩
      simpa [oocdMaxFieldSize] using hne
    · exact ih h

theorem scanFields_valid (req : List UInt8) : ∀ f ∈ scanFields req, f.Valid := by
  intro f hf
  obtain ⟨bytes, hne, hlen, rfl⟩ := mem_scanFields hf
  exact scanField_valid hne hlen

/-- OpenOCD shifts the bits of the request, those of its first byte first. -/
theorem shiftedBits_scanFields (req : List UInt8) :
    shiftedBits ((scanFields req).map fun f => (f.numBits, f.value)) = bytesBits req := by
  induction req using scanFields.induct with
  | case1 => rw [scanFields_nil]; rfl
  | case2 req hne ih =>
    have hfield : bits (scanField (req.take oocdMaxFieldSize)).numBits (scanField (req.take oocdMaxFieldSize)).value =
        bytesBits (req.take oocdMaxFieldSize) := by
      rw [value_scanField, bytesBits_eq, Nat.mul_comm]
      rfl
    rw [shiftedBits] at ih ⊢
    rw [scanFields_cons hne, List.map_cons, List.flatMap_cons, ih, hfield, ← bytesBits_append,
      List.take_append_drop]

theorem length_scanField_digits (bytes : List UInt8) : (scanField bytes).digits.length = 2 * bytes.length := by
  show (bytes.reverse.flatMap fun b => [hexDigit (b.toNat / 16), hexDigit (b.toNat % 16)]).length = _
  simp [List.length_flatMap, Nat.mul_comm]

theorem length_scanField_text {bytes : List UInt8} (h : bytes.length ≤ 4) : (scanField bytes).text.length ≤ 14 := by
  have hdigits := length_scanField_digits bytes
  have hdecimal : ∀ n ≤ 4, (decimal (n * 8)).length ≤ 2 := by decide
  have hsize := hdecimal _ h
  have hx : (ascii " 0x").length = 3 := rfl
  have hspace : (ascii " ").length = 1 := rfl
  rw [ScanField.text, List.length_append, List.length_append, List.length_append, hdigits, hx, hspace]
  show (decimal (bytes.length * 8)).length + 3 + 2 * bytes.length + 1 ≤ 14
  omega

/-- A field takes 14 characters at most. -/
theorem length_scanFields_text (req : List UInt8) :
    ((scanFields req).flatMap ScanField.text).length ≤ 14 * ((req.length + 3) / 4) := by
  induction req using scanFields.induct with
  | case1 => rw [scanFields_nil]; rfl
  | case2 req hne ih =>
    have hpos := List.length_pos_of_ne_nil hne
    have htext : (scanField (req.take oocdMaxFieldSize)).text.length ≤ 14 :=
      length_scanField_text ((List.length_take_le _ _).trans (by decide))
    rw [List.length_drop, oocdMaxFieldSize] at ih
    rw [scanFields_cons hne, List.flatMap_cons, List.length_append, oocdMaxFieldSize]
    rw [oocdMaxFieldSize] at htext
    omega

theorem length_command_le (req : List UInt8) :
    (command (scanFields req)).length ≤ 14 * ((req.length + 3) / 4) + 18 := by
  have htext := length_scanFields_text req
  have hstart : oocdCmdstart.length = 17 := rfl
  have hend : oocdCmdend.length = 1 := rfl
  rw [command, List.length_append, List.length_append, hstart, hend]
  omega

theorem jtagDrscanWrite_of_le {req : List UInt8} (h : (command (scanFields req)).length ≤ oocdCmdMaxlen) :
    jtagDrscanWrite req = some (0, command (scanFields req)) := by
  have hline : oocdCmdMaxlen ≤ oocdMaxLinesize := by
    rw [oocdCmdMaxlen, oocdMaxLinesize]
    omega
  unfold jtagDrscanWrite
  rw [if_neg (by omega), if_neg (by omega)]

/-- The buffer of the command has room for every request that the two buffers of the host allow. -/
theorem jtagDrscanWrite_eq {req : List UInt8} (h : req.length ≤ 2 ^ 16 + 8) :
    jtagDrscanWrite req = some (0, command (scanFields req)) := by
  have hlen := length_command_le req
  exact jtagDrscanWrite_of_le (by rw [oocdCmdMaxlen]; omega)

/-! ## What is captured -/

/-- The number of bits of the fields. -/
def totalBits (fs : List (ℕ × ℕ)) : ℕ := (fs.map Prod.fst).sum

theorem length_shiftedBits (fs : List (ℕ × ℕ)) : (shiftedBits fs).length = totalBits fs := by
  rw [shiftedBits, List.length_flatMap, totalBits]
  congr 1
  apply List.map_congr_left
  intro f _
  exact length_bits f.1 f.2

theorem Captured.decoded {fs : List (ℕ × ℕ)} {bs : List Bool} {xs : List Field} (h : Captured fs bs xs)
    (hlen : bs.length = totalBits fs) : xs.flatMap Field.bytes = bitsBytes bs := by
  induction fs generalizing bs xs with
  | nil =>
    obtain rfl := List.eq_nil_of_length_eq_zero hlen
    cases xs with
    | nil => rfl
    | cons x xs => exact h.elim
  | cons f fs ih =>
    cases xs with
    | nil => exact h.elim
    | cons x xs =>
      obtain ⟨hdigits, hvalue, hrest⟩ := h
      have heven := x.even
      rw [totalBits, List.map_cons, List.sum_cons] at hlen
      have hf : f.1 = 8 * (x.digits.length / 2) := by omega
      have htake : (bs.take f.1).length = f.1 := List.length_take_of_le (by omega)
      have hx : x.bytes = bitsBytes (bs.take f.1) := by
        rw [Field.bytes, decodeField_eq x.hex heven, hvalue, bitsBytes, htake, hf,
          Nat.mul_div_cancel_left _ (by norm_num)]
      rw [List.flatMap_cons, hx, ih hrest (by rw [List.length_drop, totalBits]; omega),
        ← bitsBytes_append _ (by rw [htake, hf]; exact dvd_mul_right _ _), List.take_append_drop]

/-- The digits that are written for some bytes are a field of an answer, which stands for the bytes. -/
theorem exists_field {bytes : List UInt8} (h : bytes ≠ []) :
    ∃ x : Field, x.digits = (scanField bytes).digits ∧ x.bytes = bytes := by
  have hpos := List.length_pos_of_ne_nil h
  have hdigits := length_scanField_digits bytes
  have hhex : ∀ c ∈ (scanField bytes).digits, IsHex c := by
    intro c hc
    obtain ⟨b, -, hb⟩ := List.mem_flatMap.mp hc
    exact isHex_hexByte b c hb
  have hvalue : leadingDigits 0 (scanField bytes).digits = leValue bytes := value_scanField bytes
  refine ⟨⟨(scanField bytes).digits, List.ne_nil_of_length_pos (by omega), by omega, hhex⟩, rfl, ?_⟩
  rw [Field.bytes, decodeField_eq hhex (by omega), hvalue, hdigits, Nat.mul_div_cancel_left _ (by norm_num),
    leBytes_leValue]

theorem exists_captured {fs : List (ℕ × ℕ)} (hfs : ∀ f ∈ fs, 0 < f.1 ∧ 8 ∣ f.1) {bs : List Bool}
    (hlen : bs.length = totalBits fs) : ∃ xs, Captured fs bs xs := by
  induction fs generalizing bs with
  | nil => exact ⟨[], trivial⟩
  | cons f fs ih =>
    obtain ⟨hpos, m, hm⟩ := hfs f List.mem_cons_self
    rw [totalBits, List.map_cons, List.sum_cons] at hlen
    have hdrop : (bs.drop f.1).length = totalBits fs := by
      rw [List.length_drop, totalBits]
      omega
    obtain ⟨xs, hxs⟩ := ih (fun g hg => hfs g (List.mem_cons_of_mem f hg)) hdrop
    have htake : (bs.take f.1).length = f.1 := List.length_take_of_le (by omega)
    have hbytes : (bitsBytes (bs.take f.1)).length = m := by
      rw [length_bitsBytes, htake, hm, Nat.mul_div_cancel_left _ (by norm_num)]
    have hdigits := length_scanField_digits (bitsBytes (bs.take f.1))
    have hvalue : (scanField (bitsBytes (bs.take f.1))).value = bitValue (bs.take f.1) := by
      have hdvd : 8 ∣ (bs.take f.1).length := ⟨m, htake.trans hm⟩
      rw [value_scanField, ← bitValue_bytesBits, bytesBits_bitsBytes hdvd]
    obtain ⟨x, hx, -⟩ := exists_field (List.ne_nil_of_length_pos (by omega) : bitsBytes (bs.take f.1) ≠ [])
    refine ⟨x :: xs, ?_, hx ▸ hvalue, hxs⟩
    rw [hx]
    omega

theorem length_textAfter (xs : List Field) :
    (Response.textAfter xs).length = (xs.map fun x => x.digits.length + 1).sum + 1 := by
  induction xs with
  | nil => rfl
  | cons x xs ih =>
    rw [Response.textAfter, List.length_cons, List.length_append, ih, List.map_cons, List.sum_cons]
    omega

/-- The answer is not longer than half of a character for each bit. -/
theorem Captured.length_text {fs : List (ℕ × ℕ)} {bs : List Bool} {xs : List Field} (h : Captured fs bs xs) :
    2 * (xs.map fun x => x.digits.length + 1).sum ≤ totalBits fs := by
  induction fs generalizing bs xs with
  | nil =>
    cases xs with
    | nil => rfl
    | cons x xs => exact h.elim
  | cons f fs ih =>
    cases xs with
    | nil => exact h.elim
    | cons x xs =>
      obtain ⟨hdigits, -, hrest⟩ := h
      have htwo := x.two_le_length
      have hsum := ih hrest
      rw [totalBits] at hsum ⊢
      rw [List.map_cons, List.sum_cons, List.map_cons, List.sum_cons]
      omega

end GlipOsd.Jtag
