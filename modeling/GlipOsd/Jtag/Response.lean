import GlipOsd.Jtag.Hex
import Mathlib.Tactic

/-! # The responses of OpenOCD

A response is a sequence of fields of hexadecimal digits with single spaces in between, ended by
`0x1a`. `Remains` describes a response of which a part was read: the digits `part` of the field in
progress, and what is left of the text; it is followed character by character.
-/

namespace GlipOsd.Jtag
set_option autoImplicit false

/-- A field: whole bytes, at least one. -/
structure Field where
  digits : List UInt8
  nonempty : digits ≠ []
  even : digits.length % 2 = 0
  hex : ∀ c ∈ digits, IsHex c

def Field.bytes (x : Field) : List UInt8 := decodeField x.digits

theorem Field.two_le_length (x : Field) : 2 ≤ x.digits.length := by
  have hpos := List.length_pos_of_ne_nil x.nonempty
  have heven := x.even
  omega

structure Response where
  first : Field
  others : List Field

namespace Response

/-- What follows a field. -/
def textAfter : List Field → List UInt8
  | [] => [0x1a]
  | x :: xs => 0x20 :: (x.digits ++ textAfter xs)

def text (r : Response) : List UInt8 := r.first.digits ++ textAfter r.others

def decoded (r : Response) : List UInt8 := r.first.bytes ++ r.others.flatMap Field.bytes

end Response

def isSeparator (c : UInt8) : Bool := c == 0x20 || c == 0x1a

def digitCount (cs : List UInt8) : ℕ := cs.countP fun c => !isSeparator c

theorem IsHex.not_isSeparator {c : UInt8} (h : IsHex c) : isSeparator c = false := by
  have hge := UInt8.le_iff_toNat_le.mp h.ge
  simp only [isSeparator, Bool.or_eq_false_iff, beq_eq_false_iff_ne]
  constructor
  · rintro rfl
    exact absurd hge (by decide)
  · rintro rfl
    exact absurd hge (by decide)

/-- The digits `part` were read of a field, `rest` is left, and the fields not yet complete stand for
`bytes`. -/
def Remains (part rest bytes : List UInt8) : Prop :=
  ∃ (x : Field) (xs : List Field) (tail : List UInt8), x.digits = part ++ tail ∧
    rest = tail ++ Response.textAfter xs ∧ bytes = x.bytes ++ xs.flatMap Field.bytes

theorem Response.remains (r : Response) : Remains [] r.text r.decoded :=
  ⟨r.first, r.others, r.first.digits, rfl, rfl, rfl⟩

theorem Remains.next {part rest bytes : List UInt8} {c : UInt8} (h : Remains part (c :: rest) bytes) :
    (IsHex c ∧ Remains (part ++ [c]) rest bytes) ∨
    (∃ x : Field, x.digits = part ∧
      ((c = 0x1a ∧ rest = [] ∧ bytes = x.bytes) ∨
        (c = 0x20 ∧ ∃ others, bytes = x.bytes ++ others ∧ Remains [] rest others))) := by
  obtain ⟨x, xs, tail, hx, hrest, hbytes⟩ := h
  cases tail with
  | cons d tail =>
    obtain ⟨rfl, rfl⟩ := List.cons.inj hrest
    left
    refine ⟨x.hex c (hx ▸ List.mem_append_right _ List.mem_cons_self), x, xs, tail, ?_, rfl, hbytes⟩
    rw [hx, List.append_assoc]
    rfl
  | nil =>
    right
    refine ⟨x, by rw [hx, List.append_nil], ?_⟩
    cases xs with
    | nil =>
      obtain ⟨rfl, rfl⟩ := List.cons.inj hrest
      exact Or.inl ⟨rfl, rfl, by rw [hbytes, List.flatMap_nil, List.append_nil]⟩
    | cons y ys =>
      obtain ⟨rfl, rfl⟩ := List.cons.inj hrest
      refine Or.inr ⟨rfl, _, hbytes, y, ys, y.digits, rfl, rfl, List.flatMap_cons⟩

theorem Remains.hex {part rest bytes : List UInt8} (h : Remains part rest bytes) :
    ∀ c ∈ part, IsHex c := by
  obtain ⟨x, -, tail, hx, -, -⟩ := h
  exact fun c hc => x.hex c (hx ▸ List.mem_append_left _ hc)

theorem Remains.rest_ne_nil {part rest bytes : List UInt8} (h : Remains part rest bytes) :
    rest ≠ [] := by
  obtain ⟨x, xs, tail, -, rfl, -⟩ := h
  cases xs <;> simp [Response.textAfter]

theorem Remains.digitCount {part rest bytes : List UInt8} (h : Remains part rest bytes) :
    part.length + digitCount rest = 2 * bytes.length := by
  induction rest generalizing part bytes with
  | nil => exact absurd rfl h.rest_ne_nil
  | cons c rest ih =>
    obtain ⟨hhex, hr⟩ | ⟨x, rfl, ⟨rfl, rfl, rfl⟩ | ⟨rfl, others, rfl, hr⟩⟩ := h.next
    · have hcount := ih hr
      rw [Jtag.digitCount, List.countP_cons_of_pos (by simp [hhex.not_isSeparator])]
      rw [List.length_append, List.length_singleton, Jtag.digitCount] at hcount
      omega
    · have heven := x.even
      have hlen : x.bytes.length = x.digits.length / 2 := length_decodeField _
      have hzero : Jtag.digitCount [0x1a] = 0 := by decide
      omega
    · have hcount := ih hr
      have heven := x.even
      have hlen : x.bytes.length = x.digits.length / 2 := length_decodeField _
      rw [Jtag.digitCount, List.countP_cons_of_neg (by decide), List.length_append]
      rw [List.length_nil, Jtag.digitCount] at hcount
      omega

theorem Remains.bytes_pos {part rest bytes : List UInt8} (h : Remains part rest bytes) :
    0 < bytes.length := by
  obtain ⟨x, xs, -, -, -, rfl⟩ := h
  have htwo := x.two_le_length
  have hlen : x.bytes.length = x.digits.length / 2 := length_decodeField _
  rw [List.length_append]
  omega

theorem Response.decoded_length_le (r : Response) : 2 * r.decoded.length ≤ r.text.length := by
  have hcount := r.remains.digitCount
  have hle : Jtag.digitCount r.text ≤ r.text.length := List.countP_le_length
  rw [List.length_nil] at hcount
  omega

end GlipOsd.Jtag
