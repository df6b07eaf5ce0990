import GlipOsd.Jtag.TckDomain

/-! # Requests over the pins

A request is shifted through Shift-DR of a target with words of 16 bits. What the state machines then see
is a `Scan`, so that its words are accepted and it is answered at TDO, whatever the FIFOs do.
-/

namespace GlipOsd.Jtag.TckDomain
open Bytes Memory Clocked
set_option autoImplicit false

/-- The update was in cycle `u`, and the capture is in cycle `c`. -/
def scan {L : ℕ} (s : State 16 L) (e : ℕ → In 16) (u c : ℕ) : Scan where
  levels := L
  input := s.input
  waves := inputWave s e
  capture := c
  past t := outputWave s e (u + 1 + t)
  start := c - u
  fifoValid t := !(e (c + 1 + t)).outFifoEmpty
  fifoData t := (e (c + 1 + t)).outData

namespace Requests
variable {L : ℕ} {s : State 16 L} {e : ℕ → In 16} {σ : Tap.TapState} {u c : ℕ} {bs : List Bool}

theorem inState_eq (_ : Requests s e σ u c bs) (k : ℕ) :
    stateAt InputFsm.step (scan s e u c).inState (scan s e u c).inWave k = (domainAt s e (c + k)).input := by
  rw [input_domainAt, stateAt_add]
  rfl

theorem outState_eq (h : Requests s e σ u c bs) : (scan s e u c).outState = (domainAt s e (c + 1)).output := by
  have hstart : stateAt OutputFsm.step s.output (outputWave s e) (u + 1) = OutputFsm.reset 16 := by
    rw [← output_domainAt]
    exact h.behind_update.2.2.2
  have hcycle : c + 1 = u + 1 + (c - u) := by
    have hbefore := h.before
    omega
  rw [output_domainAt, hcycle, stateAt_add, hstart]
  rfl

theorem shifted (h : Requests s e σ u c bs) (hx : h.word ≠ BitVec.allOnes 16) : (scan s e u c).Shifted bs where
  awaits := by
    have hbefore := h.before
    obtain ⟨-, hupdate, -⟩ := h.signals le_rfl (by omega)
    refine ⟨u, hbefore, .inr (hupdate.trans (decide_eq_true rfl)), fun t hu hc => ?_⟩
    obtain ⟨-, -, hcapture, -⟩ := h.signals hu.le (by have hlt : t < c := hc; omega)
    exact hcapture.trans (decide_eq_false hc.ne)
  captures := by
    have hbefore := h.before
    obtain ⟨-, hupdate, hcapture, -⟩ := h.signals (t := c) hbefore.le (by omega)
    obtain ⟨-, hreset, -⟩ := h.awaits_capture hbefore le_rfl
    refine ⟨?_, hupdate.trans (decide_eq_false hbefore.ne'), hcapture.trans (decide_eq_true rfl)⟩
    show (_ || (e c).rst) = false
    rw [h.rst c hbefore (by omega), Bool.or_false]
    exact hreset
  shift := by
    intro k hk
    have hbefore := h.before
    have hcycle : c + (1 + k) = c + 1 + k := (Nat.add_assoc c 1 k).symm
    have hreset := (h.header_at (by norm_num) hx hk.le).2
    have hquiet := h.quiet_of_ne (t := c + 1 + k) (by omega) (by omega) (by omega) hreset
    obtain ⟨hshift, -⟩ := h.signals (t := c + 1 + k) (by omega) (by omega)
    show InputFsm.Quiet (inputWave s e (c + (1 + k))) ∧ (inputWave s e (c + (1 + k))).shift = true ∧
      (inputWave s e (c + (1 + k))).tdi = _
    rw [hcycle]
    exact ⟨hquiet, hshift.trans (decide_eq_true (by omega)), (h.shift k hk).2⟩
  idle := by
    have hbefore := h.before
    obtain ⟨-, -, -, hidle⟩ := h.awaits_capture hbefore le_rfl
    obtain ⟨hshift, hupdate, -⟩ := h.signals (t := c) hbefore.le (by omega)
    rw [h.outState_eq]
    exact output_step hidle (hshift.trans (decide_eq_false (lt_irrefl c)))
      (hupdate.trans (decide_eq_false hbefore.ne')) (e c)

theorem exchange_input (h : Requests s e σ u c bs) (hx : h.word ≠ BitVec.allOnes 16) {k : ℕ} (hk : k < bs.length) :
    ((scan s e u c).exchange bs).input k = outputWave s e (c + 1 + k) := by
  have hbefore := h.before
  have hcycle : c + (1 + k) = c + 1 + k := (Nat.add_assoc c 1 k).symm
  obtain ⟨hshift, hupdate, -⟩ := h.signals (t := c + 1 + k) (by omega) (by omega)
  have htdi : (((scan s e u c).exchange bs).input k).tdi = (outputWave s e (c + 1 + k)).tdi :=
    (Scan.exchange_tdi k).trans (h.shift k hk).2.symm
  have herror : ((scan s e u c).exchange bs).inError = (domainAt s e (c + 1 + k)).input.regs.error := by
    have hlater := (h.shifted hx).error_eq k
    rw [h.inState_eq, hcycle] at hlater
    exact ((h.shifted hx).error_eq 0).trans hlater.symm
  have hwritten : ((scan s e u c).exchange bs).inWritten k = (domainAt s e (c + 1 + k)).input.regs.accCnt := by
    have hstate := h.inState_eq (1 + k)
    rw [hcycle] at hstate
    exact congrArg (fun st => st.regs.accCnt) hstate
  have hhigh : (outputWave s e (c + 1 + k)).shift = true := hshift.trans (decide_eq_true (by omega))
  have hlow : (outputWave s e (c + 1 + k)).update = false := hupdate.trans (decide_eq_false (by omega))
  have hwave : outputWave s e (c + 1 + k) = ⟨(outputWave s e (c + 1 + k)).tdi, (outputWave s e (c + 1 + k)).shift,
    (outputWave s e (c + 1 + k)).update, (domainAt s e (c + 1 + k)).input.regs.error,
    (domainAt s e (c + 1 + k)).input.regs.accCnt, (e (c + 1 + k)).outData, !(e (c + 1 + k)).outFifoEmpty⟩ := rfl
  rw [hwave, hhigh, hlow, ← htdi, ← herror, ← hwritten]
  rfl

theorem output_at (h : Requests s e σ u c bs) (hx : h.word ≠ BitVec.allOnes 16) {k : ℕ} (hk : k ≤ bs.length) :
    stateAt OutputFsm.step (scan s e u c).outState ((scan s e u c).exchange bs).input k =
      (domainAt s e (c + 1 + k)).output := by
  induction k with
  | zero => exact h.outState_eq
  | succ k ih =>
    rw [stateAt_succ OutputFsm.step, ih (by omega), h.exchange_input hx hk]
    rfl

/-! ## The words and the answer -/

theorem delivered_eq (h : Requests s e σ u c bs) :
    (scan s e u c).delivered bs = writes s e c (1 + bs.length) := by
  have htrace : trace InputFsm.step InputFsm.pushed (scan s e u c).inState (scan s e u c).inWave 0 (1 + bs.length) =
      (List.range (1 + bs.length)).map fun k => written (domainAt s e (c + k)) (e (c + k)) := by
    apply trace_eq_map
    intro k _
    rw [Nat.zero_add, h.inState_eq]
    rfl
  exact congrArg List.reduceOption htrace

theorem captured_eq (h : Requests s e σ u c bs) (hx : h.word ≠ BitVec.allOnes 16) :
    (scan s e u c).captured bs = answer s e (c + 1) bs.length := by
  apply trace_eq_map
  intro k hk
  rw [Nat.zero_add, h.output_at hx hk.le, h.exchange_input hx hk]
  show _ = tdo (domainAt s e (c + 1 + k)) (e (c + 1 + k))
  rw [h.tdo_eq (by norm_num) hk, if_neg fun hones => hx hones.1]

theorem taken_eq (h : Requests s e σ u c bs) (hx : h.word ≠ BitVec.allOnes 16)
    (hlen : ((scan s e u c).exchange bs).frameLen = bs.length) :
    (scan s e u c).taken bs = reads s e (c + 1) bs.length := by
  have htrace : trace OutputFsm.step OutputFsm.popped (scan s e u c).outState ((scan s e u c).exchange bs).input 0
      bs.length = (List.range bs.length).map fun k => taken (domainAt s e (c + 1 + k)) (e (c + 1 + k)) := by
    apply trace_eq_map
    intro k hk
    rw [Nat.zero_add, h.output_at hx hk.le, h.exchange_input hx hk]
    rfl
  rw [Scan.taken, OutputFsm.Exchange.taken, hlen, htrace]
  rfl

end Requests

/-! ## A scan from Update-DR -/

/-- Update-DR, Select-DR-Scan and Capture-DR, and then the bits `bs`. -/
def shifting (bs : List Bool) (t : ℕ) : In 16 := ⟨⟨t == 0, bs.getD (t - 3) false⟩, false, false, true, 0⟩

def updating : State 16 1 where
  tap := { Tap.settled .updateDr with latchedJtagIr := Tap.DEBUG }
  input := ⟨⟨false, false, .idle, 0, 0, 0, 0⟩, .reset [0]⟩
  discovery := Discovery.reset 16
  output := OutputFsm.reset 16

theorem controller_shifting (bs : List Bool) (k : ℕ) :
    controller (shifting bs) .updateDr (2 + 1 + k) = .shiftDr := by
  induction k with
  | zero => rfl
  | succ k ih =>
    have hlow : (0 + (2 + 1 + k) == 0) = false := beq_eq_false_iff_ne.mpr (by omega)
    show (controller (shifting bs) .updateDr (2 + 1 + k)).next (0 + (2 + 1 + k) == 0) = _
    rw [ih, hlow]
    rfl

theorem requests_shifting (bs : List Bool) : Requests updating (shifting bs) .updateDr 0 2 bs where
  shows := ⟨rfl, by decide⟩
  update := rfl
  debug := rfl
  before := by decide
  between t h0 h2 := by
    obtain rfl : t = 1 := by omega
    exact .inr rfl
  capture := rfl
  shift k _ := by
    have hcycle : 2 + 1 + k - 3 = k := Nat.add_sub_cancel_left 3 k
    refine ⟨controller_shifting bs k, ?_⟩
    show bs.getD (2 + 1 + k - 3) false = _
    rw [hcycle]
  rst _ _ _ := rfl

/-! ## Data requests -/

/-- The FIFO to the host has all words that are wanted, and more are written than wanted. -/
def Surplus (e : ℕ → In 16) (c wr rd : ℕ) : Prop :=
  0 < rd ∧ rd < wr ∧ ∀ j < rd, (e (c + 1 + ((j + 2) * 16 - 1))).outFifoEmpty = false

/-- The answer `resp` counts the `k` words that have entered the FIFO of the input side and has the words
`ws` taken from the other one. -/
structure Answers (req resp : List UInt8) (rd k : ℕ) (ws : List (BitVec 16)) : Prop where
  length : resp.length = req.length
  wrRespSize : Poll.wrRespSize 2 resp = k
  rdRespSize : Poll.rdRespSize 2 resp = ws.length
  le : ws.length ≤ rd
  data : Poll.payload 2 resp ws.length = ws.flatMap wordBytes

section Request
variable {L : ℕ} {s : State 16 L} {e : ℕ → In 16} {σ : Tap.TapState} {u c : ℕ} {req : List UInt8} {wr rd : ℕ}

theorem word_eq (h : Requests s e σ u c (bytesBits req)) (hreq : Sized req wr rd) : h.word = BitVec.ofNat 16 wr := by
  have hlen : ((bytesBits req).take 16).length = 16 := by
    have hreqLen := hreq.length
    rw [List.length_take_of_le (by rw [length_bytesBits]; omega)]
  have hsplit : bitValue (bytesBits req) = _ :=
    (congrArg bitValue (List.take_append_drop 16 (bytesBits req))).symm.trans (bitValue_append _ _)
  obtain ⟨hwr, -, -⟩ := hreq.exchange (scan s e u c)
  rw [← hwr]
  apply BitVec.eq_of_toNat_eq
  rw [Requests.word, BitVec.toNat_ofNat, hsplit, hlen, Nat.add_mul_mod_self_left]
  exact (BitVec.toNat_ofNat _ _).symm

theorem word_ne_ones (h : Requests s e σ u c (bytesBits req)) (hreq : Sized req wr rd) :
    h.word ≠ BitVec.allOnes 16 := by
  have hle := hreq.wr_le
  rw [word_eq h hreq]
  intro hones
  have hval := congrArg BitVec.toNat hones
  rw [BitVec.toNat_ofNat, BitVec.toNat_allOnes] at hval
  omega

theorem overrun_iff (hreq : Sized req wr rd) :
    ((scan s e u c).exchange (bytesBits req)).Overrun ↔ Surplus e c wr rd := by
  obtain ⟨hwrSize, hrdSize, -⟩ := hreq.exchange (scan s e u c)
  have hwr := hreq.wr_le
  have hrd := hreq.rd_le
  rw [OutputFsm.Exchange.Overrun, hwrSize, hrdSize, BitVec.toNat_ofNat, BitVec.toNat_ofNat,
    Nat.mod_eq_of_lt (by omega), Nat.mod_eq_of_lt (by omega), Surplus]
  refine and_congr_right fun _ => and_congr_right fun _ => forall₂_congr fun j _ => ?_
  exact Iff.of_eq (Bool.not_eq_true' _)

/-- **A request over the pins.** The words that enter the FIFO while a request is shifted are the first ones
of those to be written, all of them unless it was full. Except with a surplus the answer at TDO says how
many these are and has the words that were taken from the other FIFO. -/
theorem request_served (hreq : Sized req wr rd) (h : Requests s e σ u c (bytesBits req)) :
    ∃ k ≤ wr, writes s e c (1 + 8 * req.length) = (pairs (Poll.payload 2 req k)).map leWord ∧
      (k < wr → (domainAt s e (c + 48 + k * 16)).input.fifo.inReady = false) ∧
        (¬ Surplus e c wr rd → Answers req (bitsBytes (answer s e (c + 1) (8 * req.length))) rd k
          (reads s e (c + 1) (8 * req.length))) := by
  have hx := word_ne_ones h hreq
  have hbits : (bytesBits req).length = 8 * req.length := length_bytesBits req
  have hframe : ((scan s e u c).exchange (bytesBits req)).frameLen = (bytesBits req).length := by
    have hlen := hreq.length
    rw [OutputFsm.Exchange.frameLen, (hreq.exchange (scan s e u c)).2.2, hbits]
    omega
  obtain ⟨k, hk, hdelivered, hstatus, hfull⟩ := hreq.accepts (h.shifted hx)
  refine ⟨k, hk, ?_, fun hlt => ?_, fun hsurplus => ?_⟩
  · rw [← hdelivered, h.delivered_eq, hbits]
  · have hroom := hfull hlt
    rw [InputFsm.room, h.inState_eq] at hroom
    have hcycle : c + (1 + 2 * 16 + (k * 16 + (16 - 1))) = c + 48 + k * 16 := by omega
    rwa [hcycle] at hroom
  · obtain ⟨hlength, hwrResp, hrdResp, hle, hdata⟩ := hreq.answers (h.shifted hx)
      (fun hover => hsurplus ((overrun_iff hreq).mp hover)) hk hstatus
    rw [h.captured_eq hx, h.taken_eq hx hframe, hbits] at *
    exact ⟨hlength, hwrResp, hrdResp, hle, hdata⟩

end Request

/-- One word is to be written and none is wanted. -/
def writeOne : List UInt8 := [1, 0, 0, 0, 0x34, 0x12, 0, 0, 0, 0]

/-- The FIFO has room: the word enters it, and the answer counts it. -/
theorem write_one_served : writes updating (shifting (bytesBits writeOne)) 2 81 = [0x1234] ∧
    Answers writeOne (bitsBytes (answer updating (shifting (bytesBits writeOne)) 3 80)) 0 1 [] := by
  have hsized : Sized writeOne 1 0 := ⟨rfl, rfl, rfl, by decide, by decide⟩
  obtain ⟨k, hk, hwrites, hfull, hanswers⟩ := request_served hsized (requests_shifting (bytesBits writeOne))
  have hone : k = 1 := by
    by_contra hne
    obtain rfl : k = 0 := by omega
    have hroom : (domainAt updating (shifting (bytesBits writeOne)) (2 + 48 + 0 * 16)).input.fifo.inReady = true := by
      decide +kernel
    rw [hfull Nat.one_pos] at hroom
    cases hroom
  subst hone
  have hans := hanswers fun hsurplus => absurd hsurplus.1 (lt_irrefl 0)
  rw [List.length_eq_zero_iff.mp (Nat.le_zero.mp hans.le)] at hans
  exact ⟨hwrites.trans (by decide), hans⟩

/-! ## Control messages -/

theorem slice_congr {xs ys : List UInt8} {n : ℕ} (h : xs.drop 2 = ys.drop 2) (hn : 2 ≤ n) (m : ℕ) :
    slice xs n m = slice ys n m := by
  obtain ⟨k, rfl⟩ := Nat.exists_eq_add_of_le hn
  rw [slice, slice, ← List.drop_drop, ← List.drop_drop, h]

theorem drop_bitsBytes {bs : List Bool} (h : 16 ≤ bs.length) : (bitsBytes bs).drop 2 = bitsBytes (bs.drop 16) := by
  have hfirst : (bs.take 16).length = 16 := List.length_take_of_le h
  have hhead : (bitsBytes (bs.take 16)).length = 2 := by rw [length_bitsBytes, hfirst]
  conv_lhs => rw [← List.take_append_drop 16 bs]
  rw [bitsBytes_append _ (by rw [hfirst]; norm_num), List.drop_left' hhead]

section Control
variable {L : ℕ} {s : State 16 L} {e : ℕ → In 16} {σ : Tap.TapState} {u c sc : ℕ}

/-- Behind a first word of ones the discovery is what TDO shows. -/
theorem discovery_shown (hL : L < 2 ^ 16) {bs : List Bool} (h : Requests s e σ u c bs) (hlen : bs.length = 48)
    (hones : h.word = BitVec.allOnes 16) :
    (answer s e (c + 1) 48).drop 16 = (bits 48 (Discovery.answer L (BitVec.allOnes 16))).drop 16 := by
  apply List.ext_getElem
  · rw [List.length_drop, List.length_drop, answer, length_trace, length_bits]
  · intro k hk _
    rw [List.length_drop, answer, length_trace] at hk
    have htdo := h.tdo_eq (by norm_num) (k := 16 + k) (by omega)
    rw [if_pos ⟨hones, by omega⟩] at htdo
    have hphase := (h.phase_at (by norm_num) (k := 16 + k) (by omega)).1
    rw [hphase.tdo_eq hL, hones] at htdo
    simp only [List.getElem_drop, answer, trace, bits, List.getElem_map, List.getElem_range]
    exact htdo

/-- The first bit of the side channel is the logic reset of the next cycle. -/
theorem ctrlLogicRst_at {bs : List Bool} (h : Requests s e σ u c bs) (hones : h.word = BitVec.allOnes 16) {k : ℕ}
    (hk : k < bs.length) :
    (domainAt s e (c + 1 + (k + 1))).discovery.ctrlLogicRst = (decide (k = 16) && bs.getD 16 false) := by
  have hbefore := h.before
  obtain ⟨-, -, -, hungated⟩ := h.signals (t := c + 1 + k) (by omega) (by omega)
  have hlow : (discoveryWave s e (c + 1 + k)).update = false := hungated.trans (decide_eq_false (by omega))
  have hreset := (h.phase_at (by norm_num) (k := k) (by omega)).1.ctrlLogicRst_eq (n := L) (by norm_num) hlow
  refine hreset.trans ?_
  rw [hones]
  by_cases hfirst : k = 16
  · subst hfirst
    rw [decide_eq_true ⟨rfl, rfl⟩, decide_eq_true rfl, Bool.true_and, Bool.true_and]
    exact (h.shift 16 hk).2
  · rw [decide_eq_false fun hboth => hfirst hboth.2, decide_eq_false hfirst]
    rfl

/-- **A control message over the pins.** It is answered at TDO with the configuration of the target, and the
logic is reset for the one cycle behind the first bit of the side channel, if that is high. -/
theorem control_served (undef : ℕ → ℤ) (hL : L < 31) (hsc : sc < 2 ^ 16)
    (h : Requests s e σ u c (bytesBits (Discovery.ctrlReq sc))) :
    Discovery.discoverTargetconf undef (fun _ => (0, bitsBytes (answer s e (c + 1) 48))) =
        some (0, some ⟨2, 2 ^ L⟩) ∧
      ∀ k < 48, (domainAt s e (c + 1 + (k + 1))).discovery.ctrlLogicRst =
        (decide (k = 16) && sc.testBit 0) := by
  have hlen : (bytesBits (Discovery.ctrlReq sc)).length = 48 := by
    rw [length_bytesBits, Discovery.length_ctrlReq]
  have hones : h.word = BitVec.allOnes 16 := by
    rw [Requests.word, bitValue_bytesBits]
    exact Discovery.first_word_ones (by norm_num) le_rfl hsc
  have hL16 : L < 2 ^ 16 := by omega
  constructor
  · have hbits := discovery_shown hL16 h hlen hones
    have hlength : (answer s e (c + 1) 48).length = 48 := length_trace
    have hanswer : (bitsBytes (answer s e (c + 1) 48)).drop 2 =
        (leBytes 6 (Discovery.answer L (BitVec.allOnes 16))).drop 2 := by
      rw [drop_bitsBytes (by omega), hbits, ← drop_bitsBytes (by rw [length_bits]; norm_num)]
      exact congrArg (List.drop 2) (bitsBytes_bits 6 _)
    have hideal := (Discovery.discovers_sixteen undef hL).1
    have hslice (i : ℕ) (hi : 1 ≤ i) := slice_congr hanswer (by omega : 2 ≤ 2 * i) 2
    rw [← hideal, Discovery.discoverTargetconf, Discovery.discoverTargetconf, Discovery.drscan_eq (by norm_num) hL16]
    simp only [hslice 1 le_rfl, hslice 2 (by omega), Discovery.length_ctrlReq,
      Discovery.first_word_ones (by norm_num : 0 < 16) le_rfl (by norm_num : 0 < 2 ^ 16)]
  · intro k hk
    rw [ctrlLogicRst_at h hones (by omega), ← testBit_bitValue, bitValue_bytesBits, Discovery.leValue_ctrlReq hsc,
      Nat.add_comm, Nat.testBit_two_pow_mul_add _ (by norm_num), if_neg (lt_irrefl 16), Nat.sub_self]

end Control

theorem reset_served :
    Discovery.discoverTargetconf (fun _ => 0)
      (fun _ => (0, bitsBytes (answer updating (shifting (bytesBits (Discovery.ctrlReq 1))) 3 48))) = some (0, some ⟨2, 2⟩) ∧
    (domainAt updating (shifting (bytesBits (Discovery.ctrlReq 1))) (2 + 1 + (16 + 1))).discovery.ctrlLogicRst = true := by
  obtain ⟨hconf, hreset⟩ := control_served (fun _ => 0) (by norm_num) (by norm_num)
    (requests_shifting (bytesBits (Discovery.ctrlReq 1)))
  exact ⟨hconf, hreset 16 (by norm_num)⟩

end GlipOsd.Jtag.TckDomain
