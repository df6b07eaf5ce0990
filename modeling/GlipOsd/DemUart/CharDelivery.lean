import GlipOsd.DemUart.Nasti
import GlipOsd.Ring.Components

/-! # The characters on `debug_out`

`Tracked` adds to the registers the transactions that have been accepted and the flits that have been
transferred. A write to the transmit register is answered once its packet has left.
-/

namespace GlipOsd.DemUart.Nasti
set_option autoImplicit false

/-! ## Transactions -/

inductive Transaction
  | write (addr : BitVec 3) (data : BitVec 8)
  | read (addr : BitVec 3)
  deriving DecidableEq

/-- The packet of the character `c`. -/
def charPacket (id : BitVec 10) (c : BitVec 8) : List DiiFlit :=
  [⟨true, false, 0⟩, ⟨true, false, 0b1000#4 ++ 0b00#2 ++ id⟩, ⟨true, true, 0#8 ++ c⟩]

/-- The divisor latch bit after a transaction. -/
def latch (dlab : Bool) : Transaction → Bool
  | .write addr data => if addr = regLcr then data.getLsbD 7 else dlab
  | .read _ => dlab

/-- The flits that a transaction stands for. -/
def flits (id : BitVec 10) (dlab : Bool) : Transaction → List DiiFlit
  | .write addr data => if addr = regTxrx ∧ dlab = false then charPacket id data else []
  | .read _ => []

def latchAfter (ts : List Transaction) : Bool := ts.foldl latch false

/-- The packets of the characters in `ts`, in order. -/
def packets (id : BitVec 10) : Bool → List Transaction → List DiiFlit
  | _, [] => []
  | dlab, t :: ts => flits id dlab t ++ packets id (latch dlab t) ts

theorem latchAfter_concat (ts : List Transaction) (t : Transaction) :
    latchAfter (ts ++ [t]) = latch (latchAfter ts) t := by
  rw [latchAfter, List.foldl_append]
  rfl

theorem packets_concat (id : BitVec 10) (dlab : Bool) (ts : List Transaction) (t : Transaction) :
    packets id dlab (ts ++ [t]) = packets id dlab ts ++ flits id (ts.foldl latch dlab) t := by
  induction ts generalizing dlab with
  | nil => simp [packets]
  | cons u ts ih => rw [List.cons_append, packets, ih, packets, List.append_assoc, List.foldl_cons]

/-- The transaction that is accepted in a cycle. -/
def accepts (s : Regs) (i : Input) : List Transaction :=
  if awReady s i && i.awValid && i.wValid then [.write i.awAddr i.wData]
  else if arReady s i && i.arValid then [.read i.arAddr]
  else []

structure Tracked where
  regs : Regs
  accepted : List Transaction
  sent : List Ring.Flit

def cycle (id : BitVec 10) (t : Tracked) (i : Input) : Tracked where
  regs := next id t.regs i
  accepted := t.accepted ++ accepts t.regs i
  sent := t.sent ++ (debugOut id t.regs i).transfer i.debugOutReady

/-- The flits other than register responses. -/
def chars (sent : List Ring.Flit) : List DiiFlit :=
  (sent.filter fun f => f.source != 0).map Ring.Flit.toDiiFlit

theorem chars_append (xs ys : List Ring.Flit) : chars (xs ++ ys) = chars xs ++ chars ys := by
  rw [chars, List.filter_append, List.map_append]
  rfl

/-! ## The packetiser -/

section Packetiser
variable {id : BitVec 10} {s : DemUart.Regs} {i : DemUart.Input}

/-- A flit of a character is taken. -/
def Fires (id : BitVec 10) (s : DemUart.Regs) (i : DemUart.Input) : Bool :=
  (cUartOut id s i).valid && (uMux id s i).ready1

theorem chars_transfer : chars ((DemUart.debugOut id s i).transfer i.debugOutReady) =
    if Fires id s i then [(cUartOut id s i).toDiiFlit] else [] := by
  have hctrl : (cCtrlstatOut id s).source = 0 := rfl
  have hchar : (cUartOut id s i).source = 1 := cUartOut_source
  unfold Fires DemUart.debugOut uMux Ring.mux Ring.Flit.transfer
  cases s.mux with
  | noworm =>
    simp only
    split_ifs <;> simp_all [chars, Ring.Flit.idle, DiiFlit.idle]
  | wormRing =>
    simp only
    split_ifs <;> simp_all [chars]
  | wormLocal =>
    simp only
    split_ifs <;> simp_all [chars]

/-- The number of flits of the packet that have been taken. -/
def taken : CharState → ℕ
  | .s0 => 0
  | .s1 => 1
  | .s2 => 2

theorem nextState_of_not_fires (h : Fires id s i = false) : nextState id s i = s.state := by
  unfold Fires at h
  rw [cUartOut_valid] at h
  unfold nextState
  cases hs : s.state with
  | s0 => simp_all
  | s1 | s2 => simp_all

/-- With a character held at the input, the flits taken are those of its packet, in order. -/
theorem take_of_fires (h : Fires id s i = true) :
    (charPacket id i.outChar).take (taken s.state) ++ [(cUartOut id s i).toDiiFlit] =
      (charPacket id i.outChar).take (taken s.state + 1) := by
  rw [Fires, Bool.and_eq_true] at h
  have hvalid := h.1
  rw [cUartOut_valid] at hvalid
  unfold cUartOut
  cases hs : s.state with
  | s0 =>
    rw [hs] at hvalid
    have hv : (i.outValid && !s.ctrl.modCsStall) = true := hvalid
    rw [stall_eq, hv]
    rfl
  | s1 | s2 => rfl

theorem nextState_of_fires (h : Fires id s i = true) : nextState id s i =
    match s.state with
    | .s0 => .s1
    | .s1 => .s2
    | .s2 => .s0 := by
  rw [Fires, Bool.and_eq_true, cUartOut_valid] at h
  unfold nextState
  cases hs : s.state <;> simp_all

theorem outReady_eq : DemUart.outReady id s i = (Fires id s i && s.state == .s2) := by
  unfold DemUart.outReady Fires
  rw [cUartOut_valid]
  cases s.state <;> simp

end Packetiser

/-! ## The accesses of the bus -/

variable {id : BitVec 10} {t : Tracked} {i : Input} {ts : List Transaction}

/-- The transaction that `bus_req` and `resp` are about. -/
def current (s : Regs) : Transaction :=
  if s.busWrite then .write s.busAddr s.busWdata else .read s.busAddr

/-- Every transaction has been performed. -/
structure Settled (id : BitVec 10) (t : Tracked) : Prop where
  lcr7 : t.regs.lcr7 = latchAfter t.accepted
  sent : chars t.sent = packets id false t.accepted
  state : t.regs.uart.state = .s0

/-- The transactions `ts` have been performed, and the next one is in progress. -/
structure Accessing (id : BitVec 10) (t : Tracked) (ts : List Transaction) : Prop where
  resp : t.regs.resp = false
  accepted : t.accepted = ts ++ [current t.regs]
  lcr7 : t.regs.lcr7 = latchAfter ts
  sent : chars t.sent = packets id false ts ++
    (flits id t.regs.lcr7 (current t.regs)).take (taken t.regs.uart.state)
  state : outValid t.regs = false → t.regs.uart.state = .s0

theorem flits_of_outValid {s : Regs} (h : outValid s = true) :
    flits id s.lcr7 (current s) = charPacket id s.busWdata := by
  simp only [outValid, Bool.and_eq_true, Bool.not_eq_true', beq_iff_eq] at h
  obtain ⟨⟨⟨-, hwrite⟩, haddr⟩, hlcr⟩ := h
  rw [current, if_pos hwrite, flits, if_pos ⟨haddr, hlcr⟩]

theorem flits_of_not_outValid {s : Regs} (hreq : s.busReq = true) (h : outValid s = false) :
    flits id s.lcr7 (current s) = [] := by
  unfold current
  split_ifs with hwrite
  · refine if_neg ?_
    rintro ⟨haddr, hlcr⟩
    simp [outValid, hreq, hwrite, haddr, hlcr] at h
  · rfl

theorem not_fires (h : outValid t.regs = false) (hs : t.regs.uart.state = .s0) :
    Fires id t.regs.uart (uartInput t.regs i) = false := by
  rw [Fires, cUartOut_valid, hs]
  simp [uartInput, h]

theorem chars_cycle : chars (cycle id t i).sent = chars t.sent ++
    if Fires id t.regs.uart (uartInput t.regs i) then
      [(cUartOut id t.regs.uart (uartInput t.regs i)).toDiiFlit] else [] := by
  rw [← chars_transfer, ← chars_append]
  rfl

theorem quiet_cycle (id : BitVec 10) (i : Input) (h : outValid t.regs = false) (hs : t.regs.uart.state = .s0) :
    chars (cycle id t i).sent = chars t.sent ∧ (cycle id t i).regs.uart.state = .s0 := by
  have hfires : Fires id t.regs.uart (uartInput t.regs i) = false := not_fires h hs
  refine ⟨?_, (nextState_of_not_fires hfires).trans hs⟩
  rw [chars_cycle, hfires, if_neg Bool.false_ne_true, List.append_nil]

/-- An access without a character takes one cycle. -/
theorem busAck_of_not_outValid {s : Regs} (hreq : s.busReq = true) (h : outValid s = false) (r : Bool) :
    busAck s r = true := by
  unfold busAck
  rw [outValid, hreq] at h
  cases hl : s.lcr7 <;> cases hw : s.busWrite <;> simp_all

theorem busAck_of_outValid {s : Regs} (h : outValid s = true) (r : Bool) : busAck s r = r := by
  simp only [outValid, Bool.and_eq_true, Bool.not_eq_true', beq_iff_eq] at h
  simp [busAck, h]

/-- Between two accesses, and in an access. -/
def Performed (id : BitVec 10) (t : Tracked) : Prop :=
  match t.regs.busReq with
  | true => ∃ ts, Accessing id t ts
  | false => Settled id t ∧ (t.regs.resp = true → ∃ ts, t.accepted = ts ++ [current t.regs])

theorem outValid_of_not_busReq {s : Regs} (h : s.busReq = false) : outValid s = false := by
  simp [outValid, h]

theorem nextLcr7_of_not_busReq {s : Regs} (h : s.busReq = false) : nextLcr7 s = s.lcr7 := by
  simp [nextLcr7, h]

theorem nextLcr7_of_busReq {s : Regs} (h : s.busReq = true) :
    nextLcr7 s = latch s.lcr7 (current s) := by
  unfold nextLcr7 current
  rw [h]
  cases s.busWrite with
  | false => rfl
  | true => simp [latch]

theorem accepts_of_busy {s : Regs} (h : (!s.busReq && !s.resp) = false) : accepts s i = [] := by
  simp [accepts, awReady, arReady, h]

theorem performed_of_accepts (hreq : t.regs.busReq = false) (h : Settled id t)
    (hbusy : (cycle id t i).regs.busReq = true) (hresp : (cycle id t i).regs.resp = false)
    (haccepts : accepts t.regs i = [current (cycle id t i).regs]) : Performed id (cycle id t i) := by
  obtain ⟨hsent, hstate⟩ := quiet_cycle id i (outValid_of_not_busReq hreq) h.state
  have hlcr : (cycle id t i).regs.lcr7 = t.regs.lcr7 := nextLcr7_of_not_busReq hreq
  rw [Performed, hbusy]
  refine ⟨t.accepted, hresp, ?_, ?_, ?_, fun _ => hstate⟩
  · rw [← haccepts]
    rfl
  · rw [hlcr, h.lcr7]
  · rw [hsent, h.sent, hstate, taken, List.take_zero, List.append_nil]

theorem settled_cycle (hreq : t.regs.busReq = false) (h : Settled id t) (haccepts : accepts t.regs i = []) :
    Settled id (cycle id t i) := by
  obtain ⟨hsent, hstate⟩ := quiet_cycle id i (outValid_of_not_busReq hreq) h.state
  have hlcr : (cycle id t i).regs.lcr7 = t.regs.lcr7 := nextLcr7_of_not_busReq hreq
  have hacc : (cycle id t i).accepted = t.accepted := by
    rw [cycle, haccepts, List.append_nil]
  exact ⟨by rw [hlcr, hacc, h.lcr7], by rw [hsent, hacc, h.sent], hstate⟩

theorem performed_cycle_free (hreq : t.regs.busReq = false) (hresp : t.regs.resp = false)
    (h : Settled id t) : Performed id (cycle id t i) := by
  by_cases hw : (i.awValid && i.wValid) = true
  · have hregs : nextBus id t.regs i = { t.regs with
        busReq := true, busAddr := i.awAddr, busWrite := true, busWdata := i.wData } := by
      simp [nextBus, hreq, hresp, hw]
    apply performed_of_accepts hreq h
    · simp [cycle, next, hregs]
    · simp [cycle, next, hregs, hresp]
    · rw [Bool.and_eq_true] at hw
      simp [accepts, awReady, hreq, hresp, hw, cycle, next, hregs, current]
  · have hnot : awReady t.regs i = false := by
      simpa [awReady, hreq, hresp] using hw
    by_cases hr : i.arValid = true
    · have hregs : nextBus id t.regs i = { t.regs with
          busReq := true, busAddr := i.arAddr, busWrite := false } := by
        simp [nextBus, hreq, hresp, hw, hr]
      apply performed_of_accepts hreq h
      · simp [cycle, next, hregs]
      · simp [cycle, next, hregs, hresp]
      · simp [accepts, arReady, hreq, hresp, hnot, hr, cycle, next, hregs, current]
    · have hregs : nextBus id t.regs i = t.regs := by
        simp [nextBus, hreq, hresp, hw, hr]
      have hfree : (cycle id t i).regs.busReq = false := by simp [cycle, next, hregs, hreq]
      have hsilent : (cycle id t i).regs.resp = false := by simp [cycle, next, hregs, hresp]
      rw [Performed, hfree]
      refine ⟨settled_cycle hreq h (by simp [accepts, hnot, hr]), fun hr => ?_⟩
      rw [hsilent] at hr
      cases hr

theorem performed_cycle_resp (hreq : t.regs.busReq = false) (hresp : t.regs.resp = true)
    (h : Settled id t) (hlast : ∃ ts, t.accepted = ts ++ [current t.regs]) :
    Performed id (cycle id t i) := by
  have haccepts : accepts t.regs i = [] := accepts_of_busy (by rw [hresp, Bool.not_true, Bool.and_false])
  have hregs : ∃ resp, nextBus id t.regs i = { t.regs with resp := resp } := by
    rw [nextBus, if_neg (by simp [hresp]), if_neg (by simp [hresp])]
    split_ifs
    · exact ⟨false, rfl⟩
    · exact ⟨false, rfl⟩
    · exact ⟨t.regs.resp, rfl⟩
  obtain ⟨resp, hregs⟩ := hregs
  have hfree : (cycle id t i).regs.busReq = false := by simp [cycle, next, hregs, hreq]
  have hcur : current (cycle id t i).regs = current t.regs := by simp [cycle, next, hregs, current]
  rw [Performed, hfree]
  refine ⟨settled_cycle hreq h haccepts, fun _ => ?_⟩
  obtain ⟨ts, hts⟩ := hlast
  exact ⟨ts, by rw [hcur, cycle, haccepts, List.append_nil, hts]⟩

theorem performed_of_ack (hreq : t.regs.busReq = true) (h : Accessing id t ts)
    (hack : busAck t.regs (DemUart.outReady id t.regs.uart (uartInput t.regs i)) = true)
    (hsent : chars (cycle id t i).sent = packets id false ts ++ flits id t.regs.lcr7 (current t.regs))
    (hstate : (cycle id t i).regs.uart.state = .s0) : Performed id (cycle id t i) := by
  have haccepts : accepts t.regs i = [] := accepts_of_busy (by rw [hreq, Bool.not_true, Bool.false_and])
  have hregs : nextBus id t.regs i =
      { t.regs with rData := busRdata t.regs, resp := true, busReq := false } := by
    simp [nextBus, hreq, h.resp, hack]
  have hfree : (cycle id t i).regs.busReq = false := by simp [cycle, next, hregs]
  have hcur : current (cycle id t i).regs = current t.regs := by simp [cycle, next, hregs, current]
  have hacc : (cycle id t i).accepted = ts ++ [current t.regs] := by
    rw [cycle, haccepts, List.append_nil, h.accepted]
  rw [Performed, hfree]
  refine ⟨⟨?_, ?_, hstate⟩, fun _ => ⟨ts, by rw [hcur, hacc]⟩⟩
  · rw [hacc, latchAfter_concat, ← h.lcr7]
    exact nextLcr7_of_busReq hreq
  · rw [hsent, hacc, packets_concat, h.lcr7]
    rfl

/-- The bus waits until the character has been taken. -/
theorem next_of_waiting {s : Regs} (hresp : s.resp = false) (hchar : outValid s = true)
    (hack : DemUart.outReady id s.uart (uartInput s i) = false) :
    next id s i = { s with uart := DemUart.next id s.uart (uartInput s i) } := by
  have hbus : nextBus id s i = s := by
    rw [nextBus, busAck_of_outValid hchar, hack]
    simp only [outValid, Bool.and_eq_true] at hchar
    simp [hchar, hresp]
  have hlcr : nextLcr7 s = s.lcr7 := by
    simp only [outValid, Bool.and_eq_true, Bool.not_eq_true', beq_iff_eq] at hchar
    simp [nextLcr7, hchar, regTxrx, regLcr]
  rw [next, hbus, hlcr]

/-- The access is not acknowledged yet: its character is being sent. -/
theorem performed_of_not_ack (hreq : t.regs.busReq = true) (h : Accessing id t ts)
    (hchar : outValid t.regs = true)
    (hack : DemUart.outReady id t.regs.uart (uartInput t.regs i) = false)
    (hsent : chars (cycle id t i).sent = packets id false ts ++
      (charPacket id t.regs.busWdata).take (taken (cycle id t i).regs.uart.state)) :
    Performed id (cycle id t i) := by
  have haccepts : accepts t.regs i = [] := accepts_of_busy (by rw [hreq, Bool.not_true, Bool.false_and])
  have hnext : (cycle id t i).regs = _ := next_of_waiting h.resp hchar hack
  have hbusy : (cycle id t i).regs.busReq = true := by rw [hnext, hreq]
  have hcur : current (cycle id t i).regs = current t.regs := by simp [hnext, current]
  have hlcr : (cycle id t i).regs.lcr7 = t.regs.lcr7 := by rw [hnext]
  have hvalid : outValid (cycle id t i).regs = true := by simpa [hnext, outValid] using hchar
  rw [Performed, hbusy]
  refine ⟨ts, ?_, ?_, ?_, ?_, fun hnot => absurd hvalid (by rw [hnot]; exact Bool.false_ne_true)⟩
  · rw [hnext, h.resp]
  · rw [hcur, cycle, haccepts, List.append_nil, h.accepted]
  · rw [hlcr, h.lcr7]
  · rw [hsent, hlcr, hcur, flits_of_outValid hchar]

theorem performed_cycle_char (hreq : t.regs.busReq = true) (h : Accessing id t ts)
    (hchar : outValid t.regs = true) : Performed id (cycle id t i) := by
  have hsent := h.sent
  have hready : DemUart.outReady id t.regs.uart (uartInput t.regs i) = _ := outReady_eq
  rw [flits_of_outValid hchar] at hsent
  cases hfires : Fires id t.regs.uart (uartInput t.regs i) with
  | false =>
    have hstate : (cycle id t i).regs.uart.state = t.regs.uart.state := nextState_of_not_fires hfires
    rw [hfires, Bool.false_and] at hready
    apply performed_of_not_ack hreq h hchar hready
    rw [chars_cycle, hfires, if_neg Bool.false_ne_true, List.append_nil, hstate, hsent]
  | true =>
    have hstate : (cycle id t i).regs.uart.state = _ := nextState_of_fires hfires
    have htake := take_of_fires hfires
    have hsent' : chars (cycle id t i).sent = packets id false ts ++
        (charPacket id t.regs.busWdata).take (taken t.regs.uart.state + 1) := by
      rw [chars_cycle, hfires, if_pos rfl, hsent, List.append_assoc]
      exact congrArg (packets id false ts ++ ·) htake
    rw [hfires, Bool.true_and] at hready
    cases hs : t.regs.uart.state with
    | s0 | s1 =>
      rw [hs] at hstate hsent' hready
      exact performed_of_not_ack hreq h hchar hready (by rw [hsent', hstate]; rfl)
    | s2 =>
      rw [hs] at hstate hsent' hready
      apply performed_of_ack hreq h
      · rw [busAck_of_outValid hchar, hready]
        rfl
      · rw [hsent', flits_of_outValid hchar]
        rfl
      · exact hstate

theorem performed_cycle (h : Performed id t) : Performed id (cycle id t i) := by
  cases hreq : t.regs.busReq with
  | false =>
    rw [Performed, hreq] at h
    cases hresp : t.regs.resp with
    | false => exact performed_cycle_free hreq hresp h.1
    | true => exact performed_cycle_resp hreq hresp h.1 (h.2 hresp)
  | true =>
    rw [Performed, hreq] at h
    obtain ⟨ts, h⟩ := h
    cases hchar : outValid t.regs with
    | true => exact performed_cycle_char hreq h hchar
    | false =>
      obtain ⟨hsent, hstate⟩ := quiet_cycle id i hchar (h.state hchar)
      apply performed_of_ack hreq h (busAck_of_not_outValid hreq hchar _) ?_ hstate
      rw [hsent, h.sent, flits_of_not_outValid hreq hchar, List.take_nil]

/-! ## Runs -/

theorem performed_of_isReset {s : Regs} (hs : IsReset s) : Performed id ⟨s, [], []⟩ := by
  obtain ⟨hreq, hresp, hlcr, huart⟩ := hs
  rw [Performed, hreq]
  refine ⟨⟨hlcr, rfl, huart.2.2⟩, fun hr => ?_⟩
  rw [hresp] at hr
  cases hr

theorem Performed.sent_prefix (h : Performed id t) :
    chars t.sent <+: packets id false t.accepted := by
  cases hreq : t.regs.busReq with
  | false =>
    rw [Performed, hreq] at h
    rw [h.1.sent]
  | true =>
    rw [Performed, hreq] at h
    obtain ⟨ts, h⟩ := h
    rw [h.sent, h.accepted, packets_concat, h.lcr7]
    exact (List.prefix_append_right_inj _).mpr (List.take_prefix _ _)

/-- **Characters.** From reset, in every cycle, the flits that are no register responses are a prefix of
the packets of the characters accepted, and while a write is answered they are all of these packets. -/
theorem characters_delivered {s : Regs} (hs : IsReset s) (e : ℕ → Input) (n : ℕ) :
    let t := Clocked.stateAt (cycle id) ⟨s, [], []⟩ e n
    chars t.sent <+: packets id false t.accepted ∧
      (bValid t.regs = true → chars t.sent = packets id false t.accepted ∧
        ∃ ts, t.accepted = ts ++ [.write t.regs.busAddr t.regs.busWdata]) := by
  have h : Performed id (Clocked.stateAt (cycle id) ⟨s, [], []⟩ e n) :=
    Clocked.stateAt_invariant (Performed id) (fun _ _ => performed_cycle) (performed_of_isReset hs) n
  refine ⟨h.sent_prefix, fun hb => ?_⟩
  rw [bValid, Bool.and_eq_true] at hb
  cases hreq : (Clocked.stateAt (cycle id) ⟨s, [], []⟩ e n).regs.busReq with
  | true =>
    rw [Performed, hreq] at h
    obtain ⟨ts, h⟩ := h
    rw [h.resp] at hb
    cases hb.1
  | false =>
    rw [Performed, hreq] at h
    refine ⟨h.1.sent, ?_⟩
    obtain ⟨ts, hts⟩ := h.2 hb.1
    rw [current, if_pos hb.2] at hts
    exact ⟨ts, hts⟩

/-- A character is written while the host clears the stall bit. -/
def writeUnstalled (n : ℕ) : Input :=
  ⟨0, false, true, regTxrx, n == 0, 0x48, n == 0, true,
    [⟨true, false, 0⟩, ⟨true, false, 0x1400⟩, ⟨true, false, 3⟩, ⟨true, true, 0x0800⟩].getD n .idle, true⟩

theorem write_answered :
    let t := Clocked.stateAt (cycle 2) ⟨resetRegs, [], []⟩ writeUnstalled 9
    chars t.sent = packets 2 false t.accepted ∧ chars t.sent = charPacket 2 0x48 := by
  refine ⟨((characters_delivered isReset_resetRegs writeUnstalled 9).2 ?_).1, ?_⟩
  · decide
  · decide

end GlipOsd.DemUart.Nasti
