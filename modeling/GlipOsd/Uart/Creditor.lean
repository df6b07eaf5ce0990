import GlipOsd.Uart.Egress

/-! # Credit generation in the UART control

The `creditor`, which holds the resources of the input buffer that are not given to the host, and
the credit generation logic of `glip_uart_control`, which asks it for credit and has the egress send
it, as functions of the registers and the inputs of one clock cycle. `C` is `INPUT_FIFO_CREDIT`.
-/

namespace GlipOsd.Uart
set_option autoImplicit false

/-! ## The creditor -/

structure Creditor (W CW : ℕ) where
  resources : BitVec W
  credit : BitVec CW
  deriving DecidableEq

structure CreditorOut where
  grant : Bool
  error : Bool
  deriving DecidableEq

def creditorReset (W CW C : ℕ) : Creditor W CW := ⟨BitVec.ofNat W C, 0#(CW)⟩

/-- The resources are computed with one bit more than the register has. -/
def creditor {W CW : ℕ} (C : ℕ) (r : Creditor W CW) (payback borrow : Bool) :
    Creditor W CW × CreditorOut :=
  let resources : BitVec (W + 1) := r.resources.setWidth (W + 1)
  let nxt : BitVec (W + 1) × BitVec CW :=
    if payback then (resources + 1#(W + 1), r.credit)
    else if borrow then
      if W > CW then
        if r.resources >>> CW ≠ 0#W then
          (resources - (BitVec.allOnes CW).setWidth (W + 1), BitVec.allOnes CW)
        else (0, r.resources.setWidth CW)
      else (0, r.resources.setWidth CW)
    else (resources, r.credit)
  (⟨nxt.1.setWidth W, nxt.2⟩,
    { grant := !payback && borrow
      error := nxt.1.msb || decide (r.resources > BitVec.ofNat W C) })

section CreditorSteps
variable {W CW C : ℕ} {r : Creditor W CW}

theorem not_exceeds (hC : C < 2 ^ W) (hr : r.resources.toNat ≤ C) :
    decide (r.resources > BitVec.ofNat W C) = false := by
  rw [decide_eq_false_iff_not, gt_iff_lt, BitVec.lt_def, BitVec.toNat_ofNat, Nat.mod_eq_of_lt hC]
  omega

theorem creditor_payback (hC : C < 2 ^ W) (hr : r.resources.toNat < C) (borrow : Bool) :
    (creditor C r true borrow).1.resources.toNat = r.resources.toNat + 1 ∧
      (creditor C r true borrow).1.credit = r.credit ∧
      (creditor C r true borrow).2 = ⟨false, false⟩ := by
  have hpow : 2 ^ (W + 1) = 2 ^ W * 2 := pow_succ 2 W
  have hone : (1#(W + 1)).toNat = 1 := BitVec.toNat_one (by omega)
  have hsum : (r.resources.setWidth (W + 1) + 1#(W + 1)).toNat = r.resources.toNat + 1 := by
    rw [BitVec.toNat_add, BitVec.toNat_setWidth, hone,
      Nat.mod_eq_of_lt (by omega : r.resources.toNat < 2 ^ (W + 1)), Nat.mod_eq_of_lt (by omega)]
  refine ⟨?_, rfl, ?_⟩
  · simp only [creditor, if_true, BitVec.toNat_setWidth, hsum]
    rw [Nat.mod_eq_of_lt (by omega)]
  · have hmsb : (r.resources.setWidth (W + 1) + 1#(W + 1)).msb = false := by
      rw [BitVec.msb_eq_false_iff_two_mul_lt, hsum]
      omega
    simp only [creditor, if_true, hmsb, not_exceeds hC hr.le]
    rfl

theorem creditor_borrow (hCW : CW ≤ W) (hC : C < 2 ^ CW) (hr : r.resources.toNat ≤ C) :
    (creditor C r false true).1.resources.toNat = 0 ∧
      (creditor C r false true).1.credit.toNat = r.resources.toNat ∧
      (creditor C r false true).2 = ⟨true, false⟩ := by
  have hCW' : 2 ^ CW ≤ 2 ^ W := Nat.pow_le_pow_right (by omega) hCW
  have hhigh : r.resources >>> CW = 0#W := by
    apply BitVec.eq_of_toNat_eq
    rw [BitVec.toNat_ushiftRight, Nat.shiftRight_eq_div_pow, Nat.div_eq_of_lt (by omega)]
    rfl
  have hnxt : creditor C r false true = (⟨0, r.resources.setWidth CW⟩, ⟨true, false⟩) := by
    simp [creditor, hhigh, not_exceeds (by omega) hr]
  rw [hnxt]
  refine ⟨rfl, ?_, rfl⟩
  rw [BitVec.toNat_setWidth, Nat.mod_eq_of_lt (by omega)]

theorem creditor_keep (hC : C < 2 ^ W) (hr : r.resources.toNat ≤ C) :
    creditor C r false false = (r, ⟨false, false⟩) := by
  have hlt := r.resources.isLt
  have hpow : 2 ^ (W + 1) = 2 ^ W * 2 := pow_succ 2 W
  have hmsb : (r.resources.setWidth (W + 1)).msb = false := by
    rw [BitVec.msb_eq_false_iff_two_mul_lt, BitVec.toNat_setWidth, Nat.mod_eq_of_lt (by omega)]
    omega
  have hback : (r.resources.setWidth (W + 1)).setWidth W = r.resources := by
    apply BitVec.eq_of_toNat_eq
    rw [BitVec.toNat_setWidth, BitVec.toNat_setWidth, Nat.mod_eq_of_lt (by omega : _ < 2 ^ (W + 1)),
      Nat.mod_eq_of_lt hlt]
  simp [creditor, hmsb, hback, not_exceeds hC hr]

end CreditorSteps

/-! ## The request logic -/

structure CreditGen (CW : ℕ) where
  transferCounter : BitVec CW
  sendCreditPnd : Bool
  getCredit : Bool
  deriving DecidableEq

def creditGenReset (CW : ℕ) : CreditGen CW := ⟨0#(CW), false, false⟩

/-- `credit_en`, which depends on the grant of the creditor in the same cycle. -/
def creditEn {CW : ℕ} (g : CreditGen CW) (getCreditAck : Bool) : Bool :=
  g.sendCreditPnd && if g.getCredit then getCreditAck else true

def creditGen {CW : ℕ} (C : ℕ) (g : CreditGen CW) (transferIn getCreditAck creditAck : Bool) :
    CreditGen CW :=
  if g.sendCreditPnd then
    { transferCounter :=
        if g.transferCounter ≠ 0#(CW) ∧ transferIn then g.transferCounter - 1#(CW)
        else g.transferCounter
      sendCreditPnd := if g.getCredit then true else !creditAck
      getCredit := if g.getCredit then !getCreditAck else false }
  else if g.transferCounter = 0#(CW) then ⟨BitVec.ofNat CW (C >>> 1), true, true⟩
  else if transferIn then { g with transferCounter := g.transferCounter - 1#(CW) }
  else g

theorem toNat_pred {CW : ℕ} {x : BitVec CW} (h : x ≠ 0#(CW)) : (x - 1#(CW)).toNat + 1 = x.toNat := by
  have hlt := x.isLt
  have hpos : 0 < x.toNat := Nat.pos_of_ne_zero fun h0 => h (BitVec.eq_of_toNat_eq (by simpa using h0))
  have hCW : CW ≠ 0 := by
    rintro rfl
    simp at hlt
    omega
  have hone : (1#(CW)).toNat = 1 := BitVec.toNat_one (Nat.pos_of_ne_zero hCW)
  rw [BitVec.toNat_sub, hone]
  have hsum : 2 ^ CW - 1 + x.toNat = x.toNat - 1 + 2 ^ CW := by omega
  rw [hsum, Nat.add_mod_right, Nat.mod_eq_of_lt (by omega)]
  omega

end GlipOsd.Uart
