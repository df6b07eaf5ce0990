import GlipOsd.Foundations.Runs
import GlipOsd.Uart.Creditor
import GlipOsd.Uart.Ingress

/-! # Credit of the host, in circulation

The creditor, the credit generation, the egress and the ingress of the UART control, the lines to
and from the host, the host's debt and the input buffer. Credit is conserved: what the creditor
holds, what is granted and not received, the debt of the host, the words on their way and the words
in the buffer are `C` together, in every state and whatever the timing. And it is not lost: when
everything is back at the creditor, a message is pending or about to be requested.

The data words of the egress are inputs here, as is whether the debtor lets them through; the host
sends data words within its debt, and credit and logic resets at any time.
-/

namespace GlipOsd.Uart.Credit
open Runs
set_option autoImplicit false

/-- The registers; the bytes that the host has not read (`wire`) and those that have not reached the
ingress (`down`); the debt of the host and the words in the input buffer; and as history the credit
granted by the creditor and received by the host, the words sent by the host and arrived behind the
ingress, and whether the creditor raised an error. -/
structure State (CW : ℕ) where
  creditor : Creditor 15 CW
  gen : CreditGen CW
  egress : EgressState
  ingress : Ingress
  wire : List UInt8
  down : List UInt8
  debt : ℕ
  occupancy : ℕ
  granted : ℕ
  received : ℕ
  sent : ℕ
  arrived : ℕ
  error : Bool
  deriving DecidableEq

/-- The state behind `com_rst`. -/
def initial (CW C : ℕ) (creditFirst : BitVec 6) : State CW :=
  ⟨creditorReset 15 CW C, creditGenReset CW, egressReset, ⟨.passthrough, creditFirst⟩, [], [], 0, 0,
    0, 0, 0, 0, false⟩

/-- The inputs of one cycle; with `rx` the next byte of the host, if there is one, arrives. -/
structure Input where
  inData : UInt8
  inValid : Bool
  outDone : Bool
  canSend : Bool
  transferIn : Bool
  rx : Bool
  deriving DecidableEq

inductive Label
  | cycle (i : Input)
  | receive
  | send (words : List UInt8)
  | sendCredit (tranche : BitVec 14)
  | logicReset (val : Bool)

section System
variable {CW : ℕ}

def State.egressIn (s : State CW) (C : ℕ) (i : Input) : EgressIn where
  inData := i.inData
  inValid := i.inValid
  outDone := i.outDone
  canSend := i.canSend
  credit := s.creditor.credit.setWidth 15
  creditEn := creditEn s.gen (Uart.creditor C s.creditor i.transferIn s.gen.getCredit).2.grant

def arrive (s : State CW) (rx : Bool) : (Ingress × IngressOut) × List UInt8 :=
  match rx, s.down with
  | true, d :: rest => (ingress s.ingress true d, rest)
  | _, down => (ingress s.ingress false 0, down)

def cycle (C : ℕ) (s : State CW) (i : Input) : State CW :=
  let c := creditor C s.creditor i.transferIn s.gen.getCredit
  let e := s.egressIn C i
  let a := arrive s i.rx
  { creditor := c.1
    gen := creditGen C s.gen i.transferIn c.2.grant (egress s.egress e).2.creditAck
    egress := (egress s.egress e).1
    ingress := a.1.1
    wire := s.wire ++ completed s.egress e
    down := a.2
    debt := s.debt
    occupancy := s.occupancy + a.1.2.outValid.toNat - i.transferIn.toNat
    granted := if c.2.grant then s.granted + c.1.credit.toNat else s.granted
    received := s.received
    sent := s.sent
    arrived := s.arrived + a.1.2.outValid.toNat
    error := s.error || c.2.error }

/-- The host reads one item, as in `parse_buffer`: the credit in it and the bytes behind it. -/
def receive : List UInt8 → Option (ℕ × List UInt8)
  | [] => none
  | b :: rest =>
    if b = 0xfe then
      match rest with
      | [] => none
      | c :: rest =>
        if c = 0xfe then some (0, rest)
        else
          match rest with
          | d :: rest => some (creditOf c d, rest)
          | [] => none
    else some (0, rest)

/-- A word leaves the buffer only when there is one; the host sends no more than its debt. -/
def step (C : ℕ) (s : State CW) : Label → Option (State CW)
  | .cycle i =>
    if DoneEnabled s.egress (s.egressIn C i) ∧ i.transferIn.toNat ≤ s.occupancy then
      some (cycle C s i)
    else none
  | .receive =>
    (receive s.wire).map fun (tranche, wire) =>
      { s with wire := wire, debt := s.debt + tranche, received := s.received + tranche }
  | .send words =>
    if words.length ≤ s.debt then
      some { s with
        down := s.down ++ words.flatMap sendWord
        debt := s.debt - words.length
        sent := s.sent + words.length }
    else none
  | .sendCredit tranche => some { s with down := s.down ++ sendCredit tranche.toNat }
  | .logicReset val => some { s with down := s.down ++ resetLogic (if val then 1 else 0) }

end System

/-! ## Reading items -/

theorem receive_item (item : Item) (rest : List UInt8) :
    receive (item.encode ++ rest) = some (creditSum [item], rest) := by
  cases item with
  | word d =>
    by_cases hd : d = 0xfe <;> simp [receive, Item.encode, creditSum, hd]
  | credit tranche =>
    have hfirst := first_ne_marker (tranche.toNat >>> 8)
    simp only [receive, Item.encode, creditMessage, List.cons_append, List.nil_append, if_true,
      if_neg hfirst, creditOf_message tranche.isLt, creditSum, Nat.add_zero]

theorem receive_inProgress (state : EgressState) (credit : BitVec 15) :
    receive (inProgress state credit) = none := by
  have hhigh : creditHigh credit ≠ 0xfe := by
    rw [creditHigh_eq credit credit]
    exact first_ne_marker _
  cases state <;> simp [receive, inProgress, hhigh]

/-! ## The invariant -/

section Invariant
variable {CW C : ℕ} {s s' : State CW} {items : List Item} {hostItems : List HostItem}

/-- Credit that is taken from the creditor and not completely sent. -/
def pending (s : State CW) : ℕ :=
  if s.gen.sendCreditPnd && !s.gen.getCredit then s.creditor.credit.toNat else 0

/-- The lines carry `items` and `hostItems`, of which the last and the first may be in progress. -/
structure Inv (C : ℕ) (s : State CW) (items : List Item) (hostItems : List HostItem) : Prop where
  wire : s.wire = encode items ++ inProgress s.egress (s.creditor.credit.setWidth 15)
  down : s.ingress.inProgress ++ s.down = encodeHost hostItems
  granted : s.granted = s.received + creditSum items + pending s
  flight : s.sent = s.arrived + (hostWords hostItems).length
  total : s.creditor.resources.toNat + creditSum items + pending s + s.debt +
    (hostWords hostItems).length + s.occupancy = C
  sending : s.egress.sending = true → s.gen.sendCreditPnd = true ∧ s.gen.getCredit = false
  pnd : s.gen.getCredit = true → s.gen.sendCreditPnd = true
  counter_le : s.gen.transferCounter.toNat ≤ C / 2
  counter_low : s.gen.getCredit = false → s.gen.transferCounter.toNat = 0 ∨
    s.creditor.resources.toNat + s.gen.transferCounter.toNat ≤ C / 2
  quiet : s.error = false

theorem inv_initial (hC : C < 2 ^ 15) (creditFirst : BitVec 6) :
    Inv C (initial CW C creditFirst) [] [] := by
  have hres : (creditorReset 15 CW C).resources.toNat = C := by
    simpa [creditorReset] using hC
  constructor <;> simp [initial, inProgress, Ingress.inProgress, egressReset, EgressState.sending,
    creditGenReset, pending, creditSum, hostWords, hres]

theorem inv_receive (h : Inv C s items hostItems) (hstep : step C s .receive = some s') :
    ∃ items', Inv C s' items' hostItems := by
  simp only [step, Option.map_eq_some_iff] at hstep
  obtain ⟨⟨tranche, wire⟩, hread, rfl⟩ := hstep
  rw [h.wire] at hread
  cases items with
  | nil =>
    rw [encode_nil, List.nil_append, receive_inProgress] at hread
    cases hread
  | cons item items =>
    rw [encode_cons, List.append_assoc, receive_item, Option.some.injEq, Prod.mk.injEq] at hread
    obtain ⟨rfl, rfl⟩ := hread
    have hsum : creditSum (item :: items) = creditSum [item] + creditSum items :=
      creditSum_append [item] items
    have hgranted := h.granted
    have htotal := h.total
    rw [hsum] at hgranted htotal
    refine ⟨items, rfl, h.down, ?_, h.flight, ?_, h.sending, h.pnd, h.counter_le, h.counter_low,
      h.quiet⟩
    · simp only [pending] at hgranted ⊢
      omega
    · simp only [pending] at htotal ⊢
      omega

theorem inv_send (h : Inv C s items hostItems) {words : List UInt8}
    (hstep : step C s (.send words) = some s') :
    Inv C s' items (hostItems ++ words.map .word) := by
  simp only [step, Option.ite_none_right_eq_some, Option.some.injEq] at hstep
  obtain ⟨hn, rfl⟩ := hstep
  have htotal := h.total
  have hflight := h.flight
  refine ⟨h.wire, ?_, h.granted, ?_, ?_, h.sending, h.pnd, h.counter_le, h.counter_low, h.quiet⟩
  · rw [encodeHost_append, encodeHost_words, ← h.down, List.append_assoc]
  · rw [hostWords_append, hostWords_words, List.length_append]
    simp only
    omega
  · rw [hostWords_append, hostWords_words, List.length_append]
    simp only [pending] at htotal ⊢
    omega

theorem inv_control (h : Inv C s items hostItems) (item : HostItem) (hitem : hostWords [item] = []) :
    Inv C { s with down := s.down ++ item.encode } items (hostItems ++ [item]) := by
  have hwords : hostWords (hostItems ++ [item]) = hostWords hostItems := by
    rw [hostWords_append, hitem, List.append_nil]
  refine ⟨h.wire, ?_, h.granted, hwords ▸ h.flight, hwords ▸ h.total, h.sending, h.pnd, h.counter_le,
    h.counter_low, h.quiet⟩
  rw [encodeHost_append, ← h.down, encodeHost_cons, encodeHost_nil, List.append_nil,
    List.append_assoc]

theorem arrive_words (h : s.ingress.inProgress ++ s.down = encodeHost hostItems) (rx : Bool) :
    ∃ hostItems', (arrive s rx).1.1.inProgress ++ (arrive s rx).2 = encodeHost hostItems' ∧
      (arrive s rx).1.2.outValid.toNat + (hostWords hostItems').length =
        (hostWords hostItems).length := by
  have hidle : ingress s.ingress false 0 = (s.ingress, {}) := by
    obtain ⟨state, c⟩ := s.ingress
    cases state <;> rfl
  unfold arrive
  split
  · rename_i d rest hdown
    rw [hdown] at h
    obtain ⟨done, hostItems', rfl, hrest, hout⟩ := ingress_frame h
    refine ⟨hostItems', hrest, ?_⟩
    rw [hout, hostWords_append, List.length_append]
    cases done with
    | none => rfl
    | some item => cases item <;> rfl
  · rw [hidle]
    exact ⟨hostItems, h, Nat.zero_add _⟩

/-- What a cycle leaves to be shown: the line goes on with the finished items, and the credit that
is finished was pending. -/
theorem inv_cycle_of (h : Inv C s items hostItems) {i : Input}
    (hdone : DoneEnabled s.egress (s.egressIn C i))
    (hstable : s.egress.sending = true → (cycle C s i).creditor.credit = s.creditor.credit)
    (hgranted : (cycle C s i).granted + pending s = s.granted + pending (cycle C s i) +
      creditSum (finished s.egress (s.creditor.credit.setWidth 15) (s.egressIn C i)))
    (htotal : (cycle C s i).creditor.resources.toNat + pending (cycle C s i) +
      creditSum (finished s.egress (s.creditor.credit.setWidth 15) (s.egressIn C i)) =
        s.creditor.resources.toNat + pending s + i.transferIn.toNat)
    (htransfer : i.transferIn.toNat ≤ s.occupancy)
    (hsending : (cycle C s i).egress.sending = true → (cycle C s i).gen.sendCreditPnd = true ∧
      (cycle C s i).gen.getCredit = false)
    (hpnd : (cycle C s i).gen.getCredit = true → (cycle C s i).gen.sendCreditPnd = true)
    (hcounter : (cycle C s i).gen.transferCounter.toNat ≤ C / 2)
    (hlow : (cycle C s i).gen.getCredit = false →
      (cycle C s i).gen.transferCounter.toNat = 0 ∨ (cycle C s i).creditor.resources.toNat +
        (cycle C s i).gen.transferCounter.toNat ≤ C / 2)
    (hquiet : (cycle C s i).error = false) :
    ∃ items' hostItems', Inv C (cycle C s i) items' hostItems' := by
  have hg := h.granted
  have ht := h.total
  have hf := h.flight
  obtain ⟨hostItems', hdown, hwords⟩ := arrive_words h.down i.rx
  refine ⟨items ++ finished s.egress (s.creditor.credit.setWidth 15) (s.egressIn C i), hostItems',
    ?_, hdown, ?_, ?_, ?_, hsending, hpnd, hcounter, hlow, hquiet⟩
  · have hframe := egress_frame s.egress (s.creditor.credit.setWidth 15) _ hdone
    have hcredit : (if s.egress = .sendCredit2 then (s.egressIn C i).credit
        else s.creditor.credit.setWidth 15) = s.creditor.credit.setWidth 15 := ite_self _
    have hnext : inProgress (cycle C s i).egress (s.creditor.credit.setWidth 15) =
        inProgress (cycle C s i).egress ((cycle C s i).creditor.credit.setWidth 15) := by
      cases hs : s.egress.sending with
      | true => rw [hstable hs]
      | false => exact inProgress_next hs _ _
    rw [hcredit] at hframe
    rw [← hnext, encode_append, List.append_assoc]
    exact (congrArg (· ++ _) h.wire).trans ((List.append_assoc _ _ _).trans (congrArg _ hframe))
  · rw [creditSum_append]
    have hreceived : (cycle C s i).received = s.received := rfl
    omega
  · have hsent : (cycle C s i).sent = s.sent := rfl
    have harrived : (cycle C s i).arrived = s.arrived + (arrive s i.rx).1.2.outValid.toNat := rfl
    omega
  · rw [creditSum_append]
    have hdebt : (cycle C s i).debt = s.debt := rfl
    have hocc : (cycle C s i).occupancy =
        s.occupancy + (arrive s i.rx).1.2.outValid.toNat - i.transferIn.toNat := rfl
    omega

theorem creditor_idle {r : Creditor 15 CW} (hC : C < 2 ^ 15) (payback : Bool)
    (hr : r.resources.toNat + payback.toNat ≤ C) :
    (creditor C r payback false).1.resources.toNat = r.resources.toNat + payback.toNat ∧
      (creditor C r payback false).1.credit = r.credit ∧
      (creditor C r payback false).2 = ⟨false, false⟩ := by
  cases payback with
  | true => exact creditor_payback hC (by simpa using hr) false
  | false =>
    rw [creditor_keep hC (by simpa using hr)]
    exact ⟨rfl, rfl, rfl⟩

theorem counter_next {g : CreditGen CW} (transferIn ack creditAck : Bool)
    (hpnd : g.sendCreditPnd = true) :
    (creditGen C g transferIn ack creditAck).transferCounter.toNat ≤ g.transferCounter.toNat ∧
      (g.transferCounter.toNat = 0 ∨
        (creditGen C g transferIn ack creditAck).transferCounter.toNat + transferIn.toNat =
          g.transferCounter.toNat) := by
  simp only [creditGen, hpnd, if_true]
  split_ifs with h
  · have hpred := toNat_pred h.1
    simp only [h.2, Bool.toNat_true]
    omega
  · cases transferIn with
    | true =>
      have hzero : g.transferCounter = 0#(CW) := by simpa using h
      simp [hzero]
    | false => simp

theorem Inv.not_sending (h : Inv C s items hostItems)
    (hno : s.gen.getCredit = true ∨ s.gen.sendCreditPnd = false) : s.egress.sending = false := by
  by_contra hs
  obtain ⟨hpnd, hget⟩ := h.sending (by simpa using hs)
  rcases hno with hno | hno <;> simp_all

theorem not_creditAck {state : EgressState} {i : EgressIn} (h : state.sending = false) :
    (egress state i).2.creditAck = false := by
  by_contra hs
  have hsending := (creditAck_eq (by simpa using hs)).1
  rw [h] at hsending
  cases hsending

theorem inv_grant (hCW : CW ≤ 15) (hC : C < 2 ^ CW) (h : Inv C s items hostItems) {i : Input}
    (hget : s.gen.getCredit = true) (hin : i.transferIn = false)
    (hdone : DoneEnabled s.egress (s.egressIn C i)) (htransfer : i.transferIn.toNat ≤ s.occupancy) :
    ∃ items' hostItems', Inv C (cycle C s i) items' hostItems' := by
  have htotal := h.total
  have hpnd := h.pnd hget
  have hidle := h.not_sending (.inl hget)
  have hack := not_creditAck (i := s.egressIn C i) hidle
  obtain ⟨hres, hcredit, hout⟩ := creditor_borrow (r := s.creditor) hCW hC (by omega)
  have hcounter := (counter_next (C := C) i.transferIn true false hpnd).1
  have hle := h.counter_le
  have hbefore : pending s = 0 := by simp [pending, hget]
  have hafter : pending (cycle C s i) = s.creditor.resources.toNat := by
    simp [pending, cycle, creditGen, hget, hpnd, hin, hout, hcredit]
  have hsum := creditSum_finished (s.creditor.credit.setWidth 15) hack
  have hgen : (cycle C s i).gen = creditGen C s.gen i.transferIn true false := by
    simp only [cycle, hget, hin, hout, hack]
  have hnew : (cycle C s i).gen.sendCreditPnd = true ∧ (cycle C s i).gen.getCredit = false := by
    rw [hgen]
    simp [creditGen, hpnd, hget]
  have hresources : (cycle C s i).creditor.resources.toNat = 0 := by
    simp only [cycle, hget, hin, hres]
  have hgranted : (cycle C s i).granted = s.granted + s.creditor.resources.toNat := by
    simp only [cycle, hget, hin, hout, hcredit, if_true]
  refine inv_cycle_of h hdone ?_ ?_ ?_ htransfer (fun _ => hnew) (fun _ => hnew.1) ?_ ?_
    ?_
  · rw [hidle]
    intro hs
    cases hs
  · rw [hgranted, hsum]
    omega
  · rw [hresources, hsum, hin, Bool.toNat_false]
    omega
  · rw [hgen]
    omega
  · rw [hgen, hresources]
    omega
  · simp only [cycle, hget, hin, hout, h.quiet, Bool.or_self]

theorem inv_wait (hC : C < 2 ^ 15) (h : Inv C s items hostItems) {i : Input}
    (hget : s.gen.getCredit = true) (hin : i.transferIn = true)
    (hdone : DoneEnabled s.egress (s.egressIn C i)) (htransfer : i.transferIn.toNat ≤ s.occupancy) :
    ∃ items' hostItems', Inv C (cycle C s i) items' hostItems' := by
  have htotal := h.total
  have hpnd := h.pnd hget
  have hidle := h.not_sending (.inl hget)
  have hack := not_creditAck (i := s.egressIn C i) hidle
  have hone : i.transferIn.toNat = 1 := by rw [hin, Bool.toNat_true]
  obtain ⟨hres, hcredit, hout⟩ := creditor_payback (r := s.creditor) hC (by omega) true
  have hcounter := (counter_next (C := C) i.transferIn false false hpnd).1
  have hle := h.counter_le
  have hsum := creditSum_finished (s.creditor.credit.setWidth 15) hack
  have hgen : (cycle C s i).gen = creditGen C s.gen i.transferIn false false := by
    simp only [cycle, hget, hin, hout, hack]
  have hnew : (cycle C s i).gen.sendCreditPnd = true ∧ (cycle C s i).gen.getCredit = true := by
    rw [hgen]
    simp [creditGen, hpnd, hget]
  have hbefore : pending s = 0 := by simp [pending, hget]
  have hafter : pending (cycle C s i) = 0 := by simp [pending, hnew]
  have hresources : (cycle C s i).creditor.resources.toNat = s.creditor.resources.toNat + 1 := by
    simp only [cycle, hget, hin, hres]
  have hgranted : (cycle C s i).granted = s.granted := by
    simp [cycle, hget, hin, hout]
  have hquiet : (cycle C s i).egress.sending = false := by
    by_contra hs
    obtain hold | hen := sending_next (by simpa [cycle] using hs)
    · rw [hidle] at hold
      cases hold
    · simp [State.egressIn, creditEn, hget, hin, hout] at hen
  refine inv_cycle_of h hdone ?_ ?_ ?_ htransfer ?_ (fun _ => hnew.1) ?_ ?_ ?_
  · rw [hidle]
    intro hs
    cases hs
  · rw [hgranted, hsum]
    omega
  · rw [hresources, hsum]
    omega
  · rw [hquiet]
    intro hs
    cases hs
  · rw [hgen]
    omega
  · rw [hnew.2]
    intro hs
    cases hs
  · simp only [cycle, hget, hin, hout, h.quiet, Bool.or_self]

theorem inv_message (hCW : CW ≤ 15) (hC : C < 2 ^ 15) (h : Inv C s items hostItems) {i : Input}
    (hget : s.gen.getCredit = false) (hpnd : s.gen.sendCreditPnd = true)
    (hdone : DoneEnabled s.egress (s.egressIn C i)) (htransfer : i.transferIn.toNat ≤ s.occupancy) :
    ∃ items' hostItems', Inv C (cycle C s i) items' hostItems' := by
  have htotal := h.total
  obtain ⟨hres, hcredit, hout⟩ := creditor_idle (r := s.creditor) hC i.transferIn (by omega)
  obtain ⟨hcounter, hmove⟩ := counter_next (C := C) i.transferIn false
    (egress s.egress (s.egressIn C i)).2.creditAck hpnd
  have hle := h.counter_le
  have hlow := h.counter_low hget
  have hgen : (cycle C s i).gen =
      creditGen C s.gen i.transferIn false (egress s.egress (s.egressIn C i)).2.creditAck := by
    simp only [cycle, hget, hout]
  have hresources : (cycle C s i).creditor.resources.toNat =
      s.creditor.resources.toNat + i.transferIn.toNat := by simp only [cycle, hget, hres]
  have hstable : (cycle C s i).creditor.credit = s.creditor.credit := by
    simp only [cycle, hget, hcredit]
  have hgranted : (cycle C s i).granted = s.granted := by simp [cycle, hget, hout]
  have hnext : (cycle C s i).gen.sendCreditPnd =
      !(egress s.egress (s.egressIn C i)).2.creditAck ∧ (cycle C s i).gen.getCredit = false := by
    rw [hgen]
    simp [creditGen, hpnd, hget]
  have hbefore : pending s = s.creditor.credit.toNat := by simp [pending, hget, hpnd]
  -- the message is complete, or it is still pending
  have hmessage : pending (cycle C s i) +
      creditSum (finished s.egress (s.creditor.credit.setWidth 15) (s.egressIn C i)) =
        s.creditor.credit.toNat ∧
      ((cycle C s i).egress.sending = true → (cycle C s i).gen.sendCreditPnd = true) := by
    have hcw := s.creditor.credit.isLt
    have hpow : 2 ^ CW ≤ 2 ^ 15 := Nat.pow_le_pow_right (by omega) hCW
    cases hack : (egress s.egress (s.egressIn C i)).2.creditAck with
    | true =>
      obtain ⟨-, hidle, hsum⟩ := creditAck_eq hack
      rw [hack, Bool.not_true] at hnext
      have hself : halves (s.creditor.credit.setWidth 15) (s.egressIn C i).credit =
          s.creditor.credit.setWidth 15 := halves_self _
      refine ⟨?_, fun hs => ?_⟩
      · rw [hsum, hself, BitVec.toNat_setWidth, Nat.mod_eq_of_lt (by omega)]
        simp [pending, hnext]
      · exact absurd hs (by simpa [cycle] using hidle)
    | false =>
      rw [hack, Bool.not_false] at hnext
      refine ⟨?_, fun _ => hnext.1⟩
      rw [creditSum_finished _ hack]
      simp [pending, hnext, hstable]
  refine inv_cycle_of h hdone (fun _ => hstable) ?_ ?_ htransfer
    (fun hs => ⟨hmessage.2 hs, hnext.2⟩) ?_ ?_ ?_ ?_
  · rw [hgranted]
    omega
  · rw [hresources]
    omega
  · rw [hnext.2]
    intro hs
    cases hs
  · rw [hgen]
    omega
  · intro _
    rw [hgen, hresources]
    omega
  · simp only [cycle, hget, hout, h.quiet, Bool.or_self]

/-- No message is pending: the words that leave the buffer are counted, up to the next request. -/
theorem inv_count (hC : C < 2 ^ 15) (h : Inv C s items hostItems) {i : Input}
    (hget : s.gen.getCredit = false) (hpnd : s.gen.sendCreditPnd = false)
    (hdone : DoneEnabled s.egress (s.egressIn C i)) (htransfer : i.transferIn.toNat ≤ s.occupancy) :
    ∃ items' hostItems', Inv C (cycle C s i) items' hostItems' := by
  have htotal := h.total
  obtain ⟨hres, hcredit, hout⟩ := creditor_idle (r := s.creditor) hC i.transferIn (by omega)
  have hidle := h.not_sending (.inr hpnd)
  have hack := not_creditAck (i := s.egressIn C i) hidle
  have hle := h.counter_le
  have hlow := h.counter_low hget
  have hsum := creditSum_finished (s.creditor.credit.setWidth 15) hack
  have hgen : (cycle C s i).gen = creditGen C s.gen i.transferIn false false := by
    simp only [cycle, hget, hout, hack]
  have hresources : (cycle C s i).creditor.resources.toNat =
      s.creditor.resources.toNat + i.transferIn.toNat := by simp only [cycle, hget, hres]
  have hgranted : (cycle C s i).granted = s.granted := by simp [cycle, hget, hout]
  have hquiet : (cycle C s i).egress.sending = false := by
    by_contra hs
    obtain hold | hen := sending_next (by simpa [cycle] using hs)
    · rw [hidle] at hold
      cases hold
    · simp [State.egressIn, creditEn, hpnd] at hen
  have hbefore : pending s = 0 := by simp [pending, hpnd]
  -- the new registers of the request logic
  have hnew : (cycle C s i).gen.getCredit = (cycle C s i).gen.sendCreditPnd ∧
      (cycle C s i).gen.transferCounter.toNat ≤ C / 2 ∧
      ((cycle C s i).gen.getCredit = false → (cycle C s i).gen.transferCounter.toNat +
        i.transferIn.toNat = s.gen.transferCounter.toNat ∧ s.gen.transferCounter.toNat ≠ 0) := by
    rw [hgen]
    simp only [creditGen, hpnd, Bool.false_eq_true, if_false]
    split_ifs with hzero hin
    · refine ⟨rfl, ?_, fun hs => by cases hs⟩
      simp only [BitVec.toNat_ofNat, Nat.shiftRight_eq_div_pow, pow_one]
      exact Nat.mod_le _ _
    · have hpred := toNat_pred hzero
      refine ⟨hget, by simp only; omega, fun _ => ?_⟩
      simp only [hin, Bool.toNat_true]
      omega
    · have hpred := toNat_pred hzero
      refine ⟨by rw [hget, hpnd], hle, fun _ => ?_⟩
      simp only [Bool.eq_false_of_not_eq_true hin, Bool.toNat_false]
      omega
  have hafter : pending (cycle C s i) = 0 := by simp [pending, hnew.1]
  refine inv_cycle_of h hdone ?_ ?_ ?_ htransfer ?_ (fun hs => hnew.1 ▸ hs) hnew.2.1 ?_
    ?_
  · rw [hidle]
    intro hs
    cases hs
  · rw [hgranted, hsum]
    omega
  · rw [hresources, hsum]
    omega
  · rw [hquiet]
    intro hs
    cases hs
  · intro hs
    have := hnew.2.2 hs
    rw [hresources]
    omega
  · simp only [cycle, hget, hout, h.quiet, Bool.or_self]

theorem inv_step (hCW : CW ≤ 15) (hC : C < 2 ^ CW) :
    Stable (step C) (fun s : State CW => ∃ items hostItems, Inv C s items hostItems) := by
  rintro s l s' ⟨items, hostItems, h⟩ hstep
  have hC15 : C < 2 ^ 15 := hC.trans_le (Nat.pow_le_pow_right (by omega) hCW)
  cases l with
  | cycle i =>
    simp only [step, Option.ite_none_right_eq_some, Option.some.injEq] at hstep
    obtain ⟨⟨hdone, htransfer⟩, rfl⟩ := hstep
    cases hget : s.gen.getCredit with
    | true =>
      cases hin : i.transferIn with
      | true => exact inv_wait hC15 h hget hin hdone htransfer
      | false => exact inv_grant hCW hC h hget hin hdone htransfer
    | false =>
      cases hpnd : s.gen.sendCreditPnd with
      | true => exact inv_message hCW hC15 h hget hpnd hdone htransfer
      | false => exact inv_count hC15 h hget hpnd hdone htransfer
  | receive =>
    obtain ⟨items', h'⟩ := inv_receive h hstep
    exact ⟨items', hostItems, h'⟩
  | send words => exact ⟨items, _, inv_send h hstep⟩
  | sendCredit tranche =>
    obtain rfl := Option.some.inj hstep
    exact ⟨items, _, inv_control h (.credit tranche) rfl⟩
  | logicReset val =>
    obtain rfl := Option.some.inj hstep
    exact ⟨items, _, inv_control h (.logicRst val) rfl⟩

end Invariant

/-- **Credit is conserved and not lost.** In every reachable state: the resources of the creditor,
the credit granted and not received, the debt of the host, the words on their way and the words in
the input buffer are `C` together; the buffer holds at most `C` words and the creditor raised no
error; and when nothing is granted, owed, on its way or stored, a credit message is pending or is
requested in the next cycle. -/
theorem credit_conserved_and_not_starved {CW C : ℕ} (hCW : CW ≤ 15) (hC2 : 2 ≤ C) (hC : C < 2 ^ CW)
    (creditFirst : BitVec 6) (ls : List Label) (s : State CW)
    (hrun : runFrom (step C) (initial CW C creditFirst) ls = some s) :
    s.received ≤ s.granted ∧ s.arrived ≤ s.sent ∧
    s.creditor.resources.toNat + (s.granted - s.received) + s.debt + (s.sent - s.arrived) +
      s.occupancy = C ∧
    s.occupancy ≤ C ∧ s.error = false ∧
    (s.debt = 0 → s.granted = s.received → s.sent = s.arrived → s.occupancy = 0 →
      s.gen.sendCreditPnd = true ∨ s.gen.transferCounter = 0#(CW)) := by
  have hC15 : C < 2 ^ 15 := hC.trans_le (Nat.pow_le_pow_right (by omega) hCW)
  obtain ⟨items, hostItems, h⟩ :=
    (inv_step hCW hC).run ⟨[], [], inv_initial hC15 creditFirst⟩ hrun
  have hgranted := h.granted
  have hflight := h.flight
  have htotal := h.total
  refine ⟨by omega, by omega, by omega, by omega, h.quiet, ?_⟩
  intro hdebt heq hsent hocc
  by_contra hnone
  obtain ⟨hpnd, hcounter⟩ := not_or.mp hnone
  have hget : s.gen.getCredit = false := by
    by_contra hget
    exact hpnd (h.pnd (by simpa using hget))
  obtain hzero | hlow := h.counter_low hget
  · exact hcounter (BitVec.eq_of_toNat_eq (by simpa using hzero))
  · omega

def quietCycle : Label := .cycle ⟨0, false, false, false, false, false⟩

/-- The transmitter takes the byte that the egress offers. -/
def sentCycle : Label := .cycle ⟨0, false, true, false, false, false⟩

/-- The first grant, behind the byte that the egress offers after its reset, goes to the host. A word of the host
arrives for it and leaves the buffer. -/
def wordForCredit : List Label :=
  [quietCycle, quietCycle, sentCycle, quietCycle, sentCycle, sentCycle, sentCycle, .receive, .receive, .send [0x12],
    .cycle ⟨0, false, false, false, false, true⟩, .cycle ⟨0, false, false, false, true, false⟩]

/-- With the shipped parameters. -/
theorem word_for_credit_conserved :
    ∃ s : State 12, runFrom (step 4090) (initial 12 4090 0) wordForCredit = some s ∧
      s.received = 4090 ∧ s.debt = 4089 ∧ s.sent = 1 ∧ s.arrived = 1 ∧ s.occupancy = 0 ∧ s.error = false ∧
      s.creditor.resources.toNat + (s.granted - s.received) + s.debt + (s.sent - s.arrived) + s.occupancy = 4090 ∧
      s.creditor.resources = 1 := by
  have hrun : runFrom (step 4090) (initial 12 4090 0) wordForCredit = some _ := rfl
  obtain ⟨-, -, hsum, -, hquiet, -⟩ := credit_conserved_and_not_starved (by decide) (by decide) (by decide) 0
    wordForCredit _ hrun
  exact ⟨_, hrun, by decide, by decide, rfl, by decide, by decide, hquiet, hsum, by decide⟩

end GlipOsd.Uart.Credit
