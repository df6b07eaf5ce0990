import GlipOsd.Foundations.Clocked
import GlipOsd.Foundations.ShiftRegister

/-! # The TAP

`glip_jtag_tap`: a flop for each state of the controller, the instruction register and the registers of
the instructions. The flops have no value after power-up; five cycles with TMS bring the controller into a
state, and from then on it is the one of the standard, whose diagram is `TapState.next`. In the toplevel
`trst_pad_i` is 0 and the inputs of the three chains are `tdi`.
-/

namespace GlipOsd.Jtag.Tap
open Clocked ShiftRegister
set_option autoImplicit false

structure Flags where
  testLogicReset : Bool
  runTestIdle : Bool
  selectDrScan : Bool
  captureDr : Bool
  shiftDr : Bool
  exit1Dr : Bool
  pauseDr : Bool
  exit2Dr : Bool
  updateDr : Bool
  selectIrScan : Bool
  captureIr : Bool
  shiftIr : Bool
  exit1Ir : Bool
  pauseIr : Bool
  exit2Ir : Bool
  updateIr : Bool
  deriving DecidableEq

/-- The registers; the last six are written at the falling edge. -/
structure State where
  flags : Flags
  tmsQ1 : Bool
  tmsQ2 : Bool
  tmsQ3 : Bool
  tmsQ4 : Bool
  jtagIr : BitVec 4
  latchedJtagIr : BitVec 4
  idcodeReg : BitVec 32
  bypassReg : Bool
  instructionTdo : Bool
  idcodeTdo : Bool
  bypassedTdo : Bool
  shiftIrNeg : Bool
  latchedJtagIrNeg : BitVec 4
  tdoPadoe : Bool
  deriving DecidableEq

structure Pins where
  tms : Bool
  tdi : Bool
  deriving DecidableEq

/-! ## The instructions -/

def EXTEST : BitVec 4 := 0b0000
def SAMPLE_PRELOAD : BitVec 4 := 0b0001
def IDCODE : BitVec 4 := 0b0010
def DEBUG : BitVec 4 := 0b1000
def MBIST : BitVec 4 := 0b1001

def IDCODE_VALUE : BitVec 32 := 0x24951185

section Signals
variable (s : State) (i : Pins)

def idcodeSelect : Bool := s.latchedJtagIr == IDCODE

def debugSelect : Bool := s.latchedJtagIr == DEBUG

/-- Five cycles with TMS. -/
def tmsReset : Bool := s.tmsQ1 && s.tmsQ2 && s.tmsQ3 && s.tmsQ4 && i.tms

/-- `tdo_pad_o` -/
def tdoPad : Bool :=
  if s.shiftIrNeg then s.instructionTdo
  else if s.latchedJtagIrNeg = IDCODE then s.idcodeTdo
  else if s.latchedJtagIrNeg = DEBUG then i.tdi
  else if s.latchedJtagIrNeg = SAMPLE_PRELOAD then i.tdi
  else if s.latchedJtagIrNeg = EXTEST then i.tdi
  else if s.latchedJtagIrNeg = MBIST then i.tdi
  else s.bypassedTdo

def nextFlags (f : Flags) (tms reset : Bool) : Flags where
  testLogicReset := reset || tms && (f.testLogicReset || f.selectIrScan)
  runTestIdle := !reset && (!tms && (f.testLogicReset || f.runTestIdle || f.updateDr || f.updateIr))
  selectDrScan := !reset && (tms && (f.runTestIdle || f.updateDr || f.updateIr))
  captureDr := !reset && (!tms && f.selectDrScan)
  shiftDr := !reset && (!tms && (f.captureDr || f.shiftDr || f.exit2Dr))
  exit1Dr := !reset && (tms && (f.captureDr || f.shiftDr))
  pauseDr := !reset && (!tms && (f.exit1Dr || f.pauseDr))
  exit2Dr := !reset && (tms && f.pauseDr)
  updateDr := !reset && (tms && (f.exit1Dr || f.exit2Dr))
  selectIrScan := !reset && (tms && f.selectDrScan)
  captureIr := !reset && (!tms && f.selectIrScan)
  shiftIr := !reset && (!tms && (f.captureIr || f.shiftIr || f.exit2Ir))
  exit1Ir := !reset && (tms && (f.captureIr || f.shiftIr))
  pauseIr := !reset && (!tms && (f.exit1Ir || f.pauseIr))
  exit2Ir := !reset && (tms && f.pauseIr)
  updateIr := !reset && (tms && (f.exit1Ir || f.exit2Ir))

/-- The rising edge. -/
def posedge : State :=
  { s with
    flags := nextFlags s.flags i.tms (tmsReset s i)
    tmsQ1 := i.tms
    tmsQ2 := s.tmsQ1
    tmsQ3 := s.tmsQ2
    tmsQ4 := s.tmsQ3
    jtagIr :=
      if s.flags.captureIr then 0b0101
      else if s.flags.shiftIr then shiftIn i.tdi s.jtagIr else s.jtagIr
    latchedJtagIr :=
      if tmsReset s i then IDCODE else if s.flags.updateIr then s.jtagIr else s.latchedJtagIr
    idcodeReg :=
      if idcodeSelect s && s.flags.shiftDr then shiftIn i.tdi s.idcodeReg else IDCODE_VALUE
    bypassReg := if s.flags.shiftDr then i.tdi else s.bypassReg }

/-- The falling edge. -/
def negedge : State :=
  { s with
    instructionTdo := s.jtagIr.getLsbD 0
    idcodeTdo := s.idcodeReg.getLsbD 0
    bypassedTdo := s.bypassReg
    shiftIrNeg := s.flags.shiftIr
    latchedJtagIrNeg := s.latchedJtagIr
    tdoPadoe := s.flags.shiftIr || s.flags.shiftDr || s.flags.pauseDr && debugSelect s }

/-- A cycle of TCK, at whose rising edge the pins are sampled. -/
def cycle : State := negedge (posedge s i)

end Signals

/-! ## The controller of the standard -/

inductive TapState
  | testLogicReset
  | runTestIdle
  | selectDrScan
  | captureDr
  | shiftDr
  | exit1Dr
  | pauseDr
  | exit2Dr
  | updateDr
  | selectIrScan
  | captureIr
  | shiftIr
  | exit1Ir
  | pauseIr
  | exit2Ir
  | updateIr
  deriving DecidableEq

namespace TapState

def next : TapState → Bool → TapState
  | testLogicReset, tms => if tms then testLogicReset else runTestIdle
  | runTestIdle, tms => if tms then selectDrScan else runTestIdle
  | selectDrScan, tms => if tms then selectIrScan else captureDr
  | captureDr, tms => if tms then exit1Dr else shiftDr
  | shiftDr, tms => if tms then exit1Dr else shiftDr
  | exit1Dr, tms => if tms then updateDr else pauseDr
  | pauseDr, tms => if tms then exit2Dr else pauseDr
  | exit2Dr, tms => if tms then updateDr else shiftDr
  | updateDr, tms => if tms then selectDrScan else runTestIdle
  | selectIrScan, tms => if tms then testLogicReset else captureIr
  | captureIr, tms => if tms then exit1Ir else shiftIr
  | shiftIr, tms => if tms then exit1Ir else shiftIr
  | exit1Ir, tms => if tms then updateIr else pauseIr
  | pauseIr, tms => if tms then exit2Ir else pauseIr
  | exit2Ir, tms => if tms then updateIr else shiftIr
  | updateIr, tms => if tms then selectDrScan else runTestIdle

/-- The cycles with TMS until the controller is reset. -/
def toReset : TapState → ℕ
  | testLogicReset => 0
  | selectIrScan => 1
  | selectDrScan => 2
  | runTestIdle | updateDr | updateIr => 3
  | exit1Dr | exit2Dr | exit1Ir | exit2Ir => 4
  | captureDr | shiftDr | pauseDr | captureIr | shiftIr | pauseIr => 5

/-- The flop of the state, alone. -/
def flags (σ : TapState) : Flags where
  testLogicReset := σ == testLogicReset
  runTestIdle := σ == runTestIdle
  selectDrScan := σ == selectDrScan
  captureDr := σ == captureDr
  shiftDr := σ == shiftDr
  exit1Dr := σ == exit1Dr
  pauseDr := σ == pauseDr
  exit2Dr := σ == exit2Dr
  updateDr := σ == updateDr
  selectIrScan := σ == selectIrScan
  captureIr := σ == captureIr
  shiftIr := σ == shiftIr
  exit1Ir := σ == exit1Ir
  pauseIr := σ == pauseIr
  exit2Ir := σ == exit2Ir
  updateIr := σ == updateIr

theorem toReset_le (σ : TapState) : σ.toReset ≤ 5 := by
  cases σ <;> decide

theorem toReset_next (σ : TapState) : (σ.next true).toReset = σ.toReset - 1 := by
  cases σ <;> rfl

theorem next_eq_reset {σ : TapState} (h : σ.toReset ≤ 1) : σ.next true = testLogicReset := by
  cases σ <;> first | rfl | exact absurd h (by decide)

theorem nextFlags_eq (σ : TapState) (tms : Bool) : nextFlags σ.flags tms false = (σ.next tms).flags := by
  cases σ <;> cases tms <;> rfl

theorem nextFlags_reset (f : Flags) (tms : Bool) : nextFlags f tms true = testLogicReset.flags := by
  simp only [nextFlags, Bool.true_or, Bool.not_true, Bool.false_and]
  rfl

end TapState

/-- The cycles with TMS in the shift register. -/
def ones (s : State) : ℕ :=
  if !s.tmsQ1 then 0 else if !s.tmsQ2 then 1 else if !s.tmsQ3 then 2 else if !s.tmsQ4 then 3 else 4

/-- The flops show a state of the controller, and five cycles with TMS reset both of them. -/
structure Shows (s : State) (σ : TapState) : Prop where
  flags : s.flags = σ.flags
  ones : ones s + σ.toReset ≤ 5

variable {s : State} {i : Pins} {σ : TapState}

theorem ones_cycle (s : State) (i : Pins) : ones (cycle s i) = if i.tms then min (ones s + 1) 4 else 0 := by
  have hones : ones (cycle s i) =
      if !i.tms then 0 else if !s.tmsQ1 then 1 else if !s.tmsQ2 then 2 else if !s.tmsQ3 then 3 else 4 := rfl
  rw [hones, ones]
  cases i.tms <;> cases s.tmsQ1 <;> cases s.tmsQ2 <;> cases s.tmsQ3 <;> cases s.tmsQ4 <;> rfl

theorem tmsReset_iff : tmsReset s i = true ↔ ones s = 4 ∧ i.tms = true := by
  unfold tmsReset ones
  cases s.tmsQ1 <;> cases s.tmsQ2 <;> cases s.tmsQ3 <;> cases s.tmsQ4 <;> simp

/-- Far from the reset five cycles with TMS have not passed. -/
theorem Shows.tmsReset_eq_false (h : Shows s σ) (hσ : 2 ≤ σ.toReset) (i : Pins) : tmsReset s i = false := by
  have hones := h.ones
  by_contra hreset
  have hfour := (tmsReset_iff.mp (Bool.eq_true_of_not_eq_false hreset)).1
  omega

theorem latched_cycle (s : State) (i : Pins) : (cycle s i).latchedJtagIr =
    if tmsReset s i then IDCODE else if s.flags.updateIr then s.jtagIr else s.latchedJtagIr := rfl

theorem Shows.latched_eq (h : Shows s σ) (hσ : 2 ≤ σ.toReset) (hupdate : σ ≠ .updateIr) (i : Pins) :
    (Tap.cycle s i).latchedJtagIr = s.latchedJtagIr := by
  have hflag : s.flags.updateIr = false := by
    rw [h.flags]
    exact beq_eq_false_iff_ne.mpr hupdate
  rw [latched_cycle, h.tmsReset_eq_false hσ, hflag]
  rfl

/-- One cycle of the flops is one of the controller. -/
theorem Shows.cycle (h : Shows s σ) (i : Pins) : Shows (cycle s i) (σ.next i.tms) := by
  have hflags : (Tap.cycle s i).flags = nextFlags s.flags i.tms (tmsReset s i) := rfl
  have hones := h.ones
  constructor
  · rw [hflags, h.flags]
    cases hreset : tmsReset s i with
    | false => exact σ.nextFlags_eq i.tms
    | true =>
      obtain ⟨hfour, htms⟩ := tmsReset_iff.mp hreset
      rw [TapState.nextFlags_reset, htms, TapState.next_eq_reset (by omega)]
  · rw [ones_cycle]
    cases htms : i.tms with
    | false =>
      rw [if_neg Bool.false_ne_true, Nat.zero_add]
      exact TapState.toReset_le _
    | true =>
      rw [if_pos rfl, TapState.toReset_next]
      omega

/-! ## Five cycles with TMS -/

section Waves
variable (s : State) (e : ℕ → Pins)

/-- The registers at the start of a cycle. -/
def tapAt (t : ℕ) : State := stateAt cycle s e t

/-- The state of the controller `t` cycles after it was `σ`, at the start of cycle `a`. -/
def controllerAt (σ : TapState) (a t : ℕ) : TapState :=
  stateAt TapState.next σ (fun k => (e (a + k)).tms) t

end Waves

variable {e : ℕ → Pins} {a : ℕ}

theorem Shows.run (h : Shows (tapAt s e a) σ) (t : ℕ) :
    Shows (tapAt s e (a + t)) (controllerAt e σ a t) := by
  induction t with
  | zero => exact h
  | succ t ih => exact ih.cycle (e (a + t))

theorem ones_run (hones : ∀ k < 4, (e (a + k)).tms = true) : ones (tapAt s e (a + 4)) = 4 := by
  have hcount : ∀ n ≤ 4, n ≤ ones (tapAt s e (a + n)) := by
    intro n hn
    induction n with
    | zero => exact Nat.zero_le _
    | succ n ih =>
      have hnext : ones (tapAt s e (a + (n + 1))) = _ := ones_cycle (tapAt s e (a + n)) (e (a + n))
      rw [hones n (by omega), if_pos rfl] at hnext
      have hle := ih (by omega)
      omega
  have hfour := hcount 4 le_rfl
  have hmax : ones (tapAt s e (a + 4)) ≤ 4 := by
    unfold ones
    split_ifs <;> omega
  omega

theorem reset_of_ones (hones : ∀ k < 5, (e (a + k)).tms = true) :
    tmsReset (tapAt s e (a + 4)) (e (a + 4)) = true :=
  tmsReset_iff.mpr ⟨ones_run fun k hk => hones k (by omega), hones 4 (by omega)⟩

theorem shows_of_ones (hones : ∀ k < 5, (e (a + k)).tms = true) :
    Shows (tapAt s e (a + 5)) .testLogicReset := by
  constructor
  · show nextFlags _ _ (tmsReset (tapAt s e (a + 4)) (e (a + 4))) = _
    rw [reset_of_ones hones, TapState.nextFlags_reset]
  · have hfour : ones (tapAt s e (a + 5)) = 4 := by
      have hlater : ones (tapAt s e (a + 1 + 4)) = 4 := by
        refine ones_run fun k hk => ?_
        rw [Nat.add_assoc, Nat.add_comm 1]
        exact hones (k + 1) (by omega)
      rwa [Nat.add_assoc] at hlater
    rw [hfour]
    decide

/-- Whatever the registers hold after power-up: behind five cycles with TMS the flops show the states of
the standard controller from its reset on, and the instruction is `IDCODE` until one is updated. -/
theorem tap_follows (s : State) (e : ℕ → Pins) {a : ℕ} (hones : ∀ k < 5, (e (a + k)).tms = true)
    (t : ℕ) :
    (tapAt s e (a + 5 + t)).flags = (controllerAt e .testLogicReset (a + 5) t).flags ∧
      ((∀ k < t, controllerAt e .testLogicReset (a + 5) k ≠ .updateIr) →
        (tapAt s e (a + 5 + t)).latchedJtagIr = IDCODE) := by
  have hfirst : Shows (tapAt s e (a + 5)) .testLogicReset := shows_of_ones hones
  refine ⟨(hfirst.run t).flags, fun hnone => ?_⟩
  induction t with
  | zero =>
    show (if tmsReset (tapAt s e (a + 4)) (e (a + 4)) then _ else _) = _
    rw [if_pos (reset_of_ones hones)]
  | succ t ih =>
    have hidle : (tapAt s e (a + 5 + t)).flags.updateIr = false := by
      rw [(hfirst.run t).flags]
      exact beq_eq_false_iff_ne.mpr (hnone t (by omega))
    have hkept := ih fun k hk => hnone k (by omega)
    show (cycle (tapAt s e (a + 5 + t)) _).latchedJtagIr = _
    rw [latched_cycle, hidle, if_neg Bool.false_ne_true, hkept, ite_self]

/-- Power-up with all flops high. -/
theorem tap_follows_idle :
    (tapAt ⟨⟨true, true, true, true, true, true, true, true, true, true, true, true, true, true, true, true⟩,
      false, false, false, false, 0, 0, 0, false, false, false, false, false, 0, false⟩
        (fun t => ⟨decide (t < 5), false⟩) (0 + 5 + 1)).flags = TapState.runTestIdle.flags :=
  (tap_follows _ (fun t => ⟨decide (t < 5), false⟩) (a := 0) (by decide) 1).1

end GlipOsd.Jtag.Tap
