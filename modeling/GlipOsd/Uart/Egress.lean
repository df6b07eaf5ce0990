import GlipOsd.Uart.Wire

/-! # The egress path of the UART control

The finite state machine of `glip_uart_control_egress` and the `debtor` that tells it whether there
is credit from the host, as functions of the registers and the inputs of one clock cycle. A byte is
completed towards the transmitter in a cycle with `out_enable` and `out_done`.

`egress_frame` describes every cycle at once: the bytes of the item in progress and the byte
completed in this cycle are the items finished in this cycle and the new item in progress.
-/

namespace GlipOsd.Uart
set_option autoImplicit false

/-! ## The debtor -/

/-- The next credit and the error signal. The sums are formed with one bit more than the register
has. -/
def debtor {W T : ℕ} (credit : BitVec W) (payback lend : Bool) (tranche : BitVec T) :
    BitVec W × Bool :=
  let sum : BitVec (W + 1) := credit.setWidth (W + 1) + tranche.setWidth (W + 1)
  match lend, payback with
  | true, false => (sum.setWidth W, sum.msb)
  | false, true => ((credit.setWidth (W + 1) - 1#(W + 1)).setWidth W, credit == 0#W)
  | true, true => ((sum - 1#(W + 1)).setWidth W, false)
  | false, false => (credit, false)

section Debtor
variable {W T : ℕ} (credit : BitVec W) (tranche : BitVec T)

theorem debtor_sum (hT : T ≤ W) :
    (credit.setWidth (W + 1) + tranche.setWidth (W + 1)).toNat = credit.toNat + tranche.toNat := by
  have hc := credit.isLt
  have ht : tranche.toNat < 2 ^ W := tranche.isLt.trans_le (Nat.pow_le_pow_right (by omega) hT)
  have hpow : 2 ^ (W + 1) = 2 ^ W * 2 := pow_succ 2 W
  rw [BitVec.toNat_add, BitVec.toNat_setWidth, BitVec.toNat_setWidth,
    Nat.mod_eq_of_lt (by omega : credit.toNat < _), Nat.mod_eq_of_lt (by omega : tranche.toNat < _),
    Nat.mod_eq_of_lt (by omega)]

theorem debtor_lend (hT : T ≤ W) :
    ((debtor credit false true tranche).2 = false ↔ credit.toNat + tranche.toNat < 2 ^ W) ∧
      (credit.toNat + tranche.toNat < 2 ^ W →
        (debtor credit false true tranche).1.toNat = credit.toNat + tranche.toNat) := by
  have hsum := debtor_sum credit tranche hT
  constructor
  · simp only [debtor, BitVec.msb_eq_false_iff_two_mul_lt, hsum, pow_succ]
    omega
  · intro hlt
    simp only [debtor, BitVec.toNat_setWidth, hsum, Nat.mod_eq_of_lt hlt]

theorem debtor_payback (hc : 0 < credit.toNat) :
    (debtor credit true false tranche).1.toNat = credit.toNat - 1 ∧
      (debtor credit true false tranche).2 = false := by
  have hlt := credit.isLt
  have hpow : 2 ^ (W + 1) = 2 ^ W * 2 := pow_succ 2 W
  constructor
  · have hone : (1#(W + 1)).toNat = 1 := by
      rw [BitVec.toNat_one (by omega)]
    simp only [debtor, BitVec.toNat_setWidth, BitVec.toNat_sub, hone]
    rw [Nat.mod_eq_of_lt (by omega : credit.toNat < 2 ^ (W + 1))]
    have hsum : 2 ^ (W + 1) - 1 + credit.toNat = credit.toNat - 1 + 2 ^ (W + 1) := by omega
    rw [hsum, Nat.add_mod_right, Nat.mod_eq_of_lt (by omega : credit.toNat - 1 < 2 ^ (W + 1)),
      Nat.mod_eq_of_lt (by omega)]
  · simp only [debtor, beq_eq_false_iff_ne]
    rintro rfl
    simp at hc

/-- Both at once: no error is raised, and at most the excess is lost by an overflow. -/
theorem debtor_both (hT : T ≤ W) (hc : 0 < credit.toNat + tranche.toNat) :
    (debtor credit true true tranche).1.toNat ≤ credit.toNat + tranche.toNat - 1 ∧
      (debtor credit true true tranche).2 = false := by
  have hsum := debtor_sum credit tranche hT
  refine ⟨?_, rfl⟩
  have hlt := (credit.setWidth (W + 1) + tranche.setWidth (W + 1)).isLt
  have hone : (1#(W + 1)).toNat = 1 := by
    rw [BitVec.toNat_one (by omega)]
  rw [hsum] at hlt
  simp only [debtor, BitVec.toNat_setWidth, BitVec.toNat_sub, hsum, hone]
  have heq : 2 ^ (W + 1) - 1 + (credit.toNat + tranche.toNat) =
      credit.toNat + tranche.toNat - 1 + 2 ^ (W + 1) := by
    have := Nat.two_pow_pos (W + 1)
    omega
  rw [heq, Nat.add_mod_right, Nat.mod_eq_of_lt (by omega : _ - 1 < 2 ^ (W + 1))]
  exact Nat.mod_le _ _

theorem debtor_both_eq (hT : T ≤ W) (hc : 0 < credit.toNat)
    (hlt : credit.toNat + tranche.toNat ≤ 2 ^ W) :
    (debtor credit true true tranche).1.toNat = credit.toNat + tranche.toNat - 1 := by
  have hsum := debtor_sum credit tranche hT
  have hpow : 2 ^ (W + 1) = 2 ^ W * 2 := pow_succ 2 W
  have hone : (1#(W + 1)).toNat = 1 := by
    rw [BitVec.toNat_one (by omega)]
  simp only [debtor, BitVec.toNat_setWidth, BitVec.toNat_sub, hsum, hone]
  have heq : 2 ^ (W + 1) - 1 + (credit.toNat + tranche.toNat) =
      credit.toNat + tranche.toNat - 1 + 2 ^ (W + 1) := by
    omega
  rw [heq, Nat.add_mod_right, Nat.mod_eq_of_lt (by omega : _ - 1 < 2 ^ (W + 1)),
    Nat.mod_eq_of_lt (by omega)]

end Debtor

/-! ## The state machine -/

inductive EgressState
  | idle
  | passthrough
  | passthroughRepeat
  | sendCredit1
  | sendCredit2
  | sendCredit3
  deriving DecidableEq, Repr

structure EgressIn where
  inData : UInt8
  inValid : Bool
  outDone : Bool
  canSend : Bool
  credit : BitVec 15
  creditEn : Bool
  deriving DecidableEq, Repr

/-- The output `error` is constant and left out; `out_data` is 0 where the source has `x`. -/
structure EgressOut where
  inReady : Bool := false
  outData : UInt8 := 0
  outEnable : Bool := false
  creditAck : Bool := false
  deriving DecidableEq, Repr

/-- The state behind `rst`. -/
def egressReset : EgressState := .passthrough

/-- `{credit[14:8], 1'b1}` -/
def creditHigh (credit : BitVec 15) : UInt8 := ⟨credit.extractLsb' 8 7 ++ 1#1⟩

/-- `credit[7:0]` -/
def creditLow (credit : BitVec 15) : UInt8 := ⟨credit.extractLsb' 0 8⟩

def egress (state : EgressState) (i : EgressIn) : EgressState × EgressOut :=
  match state with
  | .idle =>
    (if i.creditEn then .sendCredit1 else if i.canSend && i.inValid then .passthrough else .idle, {})
  | .passthrough =>
    (if i.outDone then if i.inData = 0xfe then .passthroughRepeat else .idle else .passthrough,
      { outData := i.inData, outEnable := true, inReady := i.outDone })
  | .passthroughRepeat =>
    (if i.outDone then .idle else .passthroughRepeat,
      { outData := 0xfe, outEnable := i.canSend })
  | .sendCredit1 =>
    (if i.outDone then .sendCredit2 else .sendCredit1, { outData := 0xfe, outEnable := true })
  | .sendCredit2 =>
    (if i.outDone then .sendCredit3 else .sendCredit2,
      { outData := creditHigh i.credit, outEnable := true })
  | .sendCredit3 =>
    (if i.outDone then .idle else .sendCredit3,
      { outData := creditLow i.credit, outEnable := true, creditAck := i.outDone })

/-- `transfer`: a user word is accepted. -/
def transfer (state : EgressState) (i : EgressIn) : Bool := i.inValid && (egress state i).2.inReady

def completed (state : EgressState) (i : EgressIn) : List UInt8 :=
  if (egress state i).2.outEnable && i.outDone then [(egress state i).2.outData] else []

/-- The transmitter acknowledges only a byte that it was given. -/
def DoneEnabled (state : EgressState) (i : EgressIn) : Prop :=
  i.outDone = true → (egress state i).2.outEnable = true

instance (state : EgressState) (i : EgressIn) : Decidable (DoneEnabled state i) :=
  inferInstanceAs (Decidable (_ → _))

/-! ## Items in progress -/

/-- The completed bytes of the item in progress; `high` is the credit when its upper half was
sent. -/
def inProgress (state : EgressState) (high : BitVec 15) : List UInt8 :=
  match state with
  | .idle | .passthrough | .sendCredit1 => []
  | .passthroughRepeat | .sendCredit2 => [0xfe]
  | .sendCredit3 => [0xfe, creditHigh high]

/-- The tranche of a message whose halves were taken from two values. -/
def halves (high low : BitVec 15) : BitVec 15 := high.extractLsb' 8 7 ++ low.extractLsb' 0 8

def finished (state : EgressState) (high : BitVec 15) (i : EgressIn) : List Item :=
  if i.outDone then
    match state with
    | .passthrough => if i.inData = 0xfe then [] else [.word i.inData]
    | .passthroughRepeat => [.word 0xfe]
    | .sendCredit3 => [.credit (halves high i.credit)]
    | _ => []
  else []

theorem toNat_halves (high low : BitVec 15) :
    (halves high low).toNat = high.toNat / 256 * 256 + low.toNat % 256 := by
  have hh := high.isLt
  unfold halves
  rw [BitVec.toNat_append, BitVec.extractLsb'_toNat, BitVec.extractLsb'_toNat,
    Nat.shiftRight_eq_div_pow, Nat.shiftRight_zero, Nat.shiftLeft_eq, Nat.mul_comm,
    ← Nat.two_pow_add_eq_or_of_lt (by omega)]
  omega

theorem halves_self (credit : BitVec 15) : halves credit credit = credit := by
  apply BitVec.eq_of_toNat_eq
  rw [toNat_halves]
  omega

theorem creditHigh_eq (high low : BitVec 15) :
    creditHigh high = UInt8.ofNat (0x1 ||| ((halves high low).toNat >>> 8) <<< 1) := by
  have hh := high.isLt
  apply UInt8.toNat.inj
  rw [odd_first, UInt8.toNat_ofNat', toNat_halves]
  unfold creditHigh
  rw [UInt8.toNat, BitVec.toNat_append, BitVec.extractLsb'_toNat, Nat.shiftRight_eq_div_pow,
    Nat.shiftLeft_eq, Nat.mul_comm, ← Nat.two_pow_add_eq_or_of_lt (by decide),
    Nat.shiftRight_eq_div_pow]
  simp only [BitVec.toNat_ofNat]
  omega

theorem creditLow_eq (high low : BitVec 15) :
    creditLow low = UInt8.ofNat ((halves high low).toNat &&& 0xff) := by
  have hand := Nat.and_two_pow_sub_one_eq_mod (halves high low).toNat 8
  apply UInt8.toNat.inj
  rw [UInt8.toNat_ofNat', (hand : _ &&& 0xff = _), toNat_halves]
  unfold creditLow
  rw [UInt8.toNat, BitVec.extractLsb'_toNat, Nat.shiftRight_zero]
  omega

theorem encode_halves (high low : BitVec 15) :
    (Item.credit (halves high low)).encode = [0xfe, creditHigh high, creditLow low] := by
  rw [creditHigh_eq high low, creditLow_eq high low]
  rfl

/-- **One cycle of the egress.** -/
theorem egress_frame (state : EgressState) (high : BitVec 15) (i : EgressIn)
    (hdone : DoneEnabled state i) :
    inProgress state high ++ completed state i = encode (finished state high i) ++
      inProgress (egress state i).1 (if state = .sendCredit2 then i.credit else high) := by
  cases hd : i.outDone with
  | false =>
    cases state <;> simp [completed, finished, egress, inProgress, hd]
    split_ifs <;> rfl
  | true =>
    have hen := hdone hd
    cases state with
    | idle => simp [egress] at hen
    | passthrough =>
      by_cases hm : i.inData = 0xfe <;>
        simp [completed, finished, egress, inProgress, hd, hm, Item.encode]
    | passthroughRepeat =>
      simp only [egress] at hen
      simp [completed, finished, egress, inProgress, hd, hen, Item.encode]
    | sendCredit1 => simp [completed, finished, egress, inProgress, hd]
    | sendCredit2 => simp [completed, finished, egress, inProgress, hd]
    | sendCredit3 => simp [completed, finished, egress, inProgress, hd, encode_halves]


/-! ## Credit messages -/

def EgressState.sending : EgressState → Bool
  | .sendCredit1 | .sendCredit2 | .sendCredit3 => true
  | _ => false

theorem sending_next {state : EgressState} {i : EgressIn}
    (h : (egress state i).1.sending = true) : state.sending = true ∨ i.creditEn = true := by
  cases state <;> simp only [egress] at h <;> try exact .inl rfl
  · split_ifs at h with hen
    · exact .inr hen
    · cases h
    · cases h
  · split_ifs at h <;> cases h
  · split_ifs at h <;> cases h

theorem creditAck_eq {state : EgressState} {i : EgressIn}
    (h : (egress state i).2.creditAck = true) :
    state.sending = true ∧ (egress state i).1.sending = false ∧
      ∀ high, creditSum (finished state high i) = (halves high i.credit).toNat := by
  cases state <;> simp only [egress, Bool.false_eq_true] at h
  simp [EgressState.sending, egress, finished, creditSum, h]

theorem creditSum_finished {state : EgressState} {i : EgressIn} (high : BitVec 15)
    (h : (egress state i).2.creditAck = false) : creditSum (finished state high i) = 0 := by
  cases hd : i.outDone with
  | false => simp [finished, creditSum, hd]
  | true =>
    cases state <;> simp_all [finished, creditSum, egress]
    split_ifs <;> rfl

/-- Outside a message the credit at the input does not matter for what is in progress next. -/
theorem inProgress_next {state : EgressState} {i : EgressIn} (h : state.sending = false)
    (a b : BitVec 15) : inProgress (egress state i).1 a = inProgress (egress state i).1 b := by
  cases state <;> simp only [egress] <;> try cases h
  all_goals split_ifs <;> rfl

end GlipOsd.Uart
