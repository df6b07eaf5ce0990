import GlipOsd.DemUart.Model

/-! # Characters against register responses

The multiplexer locks to a character when its first flit is offered, also when the output does not take
it yet. The packetiser offers this flit only while `out_valid` is 1 and the module is not stalled.
-/

namespace GlipOsd.DemUart.Blocking
open Clocked
set_option autoImplicit false

variable (id : BitVec 10) (s : Regs) (i : Input)

/-- With the output ready, a flit that is offered to the multiplexer leads to a transfer. -/
def Transfers : Prop :=
  i.debugOutReady = true → (cCtrlstatOut id s).valid = true ∨ (cUartOut id s i).valid = true →
    (debugOut id s i).valid = true

/-- The multiplexer is locked to the first flit of a character, which is not offered any more. -/
def Withdrawn : Prop :=
  s.mux = .wormLocal ∧ s.state = .s0 ∧ (i.outValid = false ∨ s.ctrl.modCsStall = true)

/-- A register response waits, and the output could take it. -/
def ResponseDue : Prop :=
  i.debugOutReady = true ∧ (s.ctrl.state = .respStart ∨ s.ctrl.state = .respSrc ∨ s.ctrl.state = .respValue)

instance : Decidable (Transfers id s i) := inferInstanceAs (Decidable (_ → _ → _))

variable {id s i}

theorem response_valid_iff : (cCtrlstatOut id s).valid = true ↔
    s.ctrl.state = .respStart ∨ s.ctrl.state = .respSrc ∨ s.ctrl.state = .respValue := by
  unfold cCtrlstatOut Statctrlif.debugOut
  cases s.ctrl.state <;> simp [DiiFlit.idle]

theorem withdrawn_iff :
    Withdrawn s i ↔ s.mux = .wormLocal ∧ (cUartOut id s i).valid = false := by
  rw [cUartOut_valid, Withdrawn]
  refine and_congr_right fun _ => ?_
  cases hs : s.state with
  | s0 => cases i.outValid <;> cases s.ctrl.modCsStall <;> simp
  | s1 | s2 => simp

theorem transfers_iff (h : Locked id s) :
    Transfers id s i ↔ ¬ (Withdrawn s i ∧ ResponseDue s i) := by
  have hdue : (cCtrlstatOut id s).valid = true ↔ _ := response_valid_iff
  have hwithdrawn : Withdrawn s i ↔ s.mux = .wormLocal ∧ (cUartOut id s i).valid = false := withdrawn_iff
  rw [hwithdrawn, ResponseDue, ← hdue]
  unfold Transfers debugOut uMux Ring.mux
  cases hm : s.mux with
  | noworm =>
    cases hc : (cCtrlstatOut id s).valid with
    | true => simp [hc]
    | false => cases hu : (cUartOut id s i).valid <;> simp [hu]
  | wormRing => simp [h.ring hm]
  | wormLocal =>
    cases i.debugOutReady <;> cases (cCtrlstatOut id s).valid <;> cases (cUartOut id s i).valid <;> simp

/-- **No blocking.** From reset, in every cycle, an offered flit is transferred if and only if it
is not that a response waits while the multiplexer is locked to a withdrawn character. -/
theorem transfers_iff_not_withdrawn (hs : IsReset s) (e : ℕ → Input) (t : ℕ) :
    Transfers id (stateAt (next id) s e t) (e t) ↔
      ¬ (Withdrawn (stateAt (next id) s e t) (e t) ∧ ResponseDue (stateAt (next id) s e t) (e t)) :=
  transfers_iff (locked_stateAt hs e t)

/-- A cycle with a flit on `debug_in`. -/
def request (last : Bool) (data : BitVec 16) (debugOutReady outValid : Bool) : Input :=
  ⟨⟨true, last, data⟩, debugOutReady, 65, outValid⟩

/-- The stall bit is cleared. Then a character is offered to an output that is not ready, and the stall
bit is set again. -/
def stallWhileOffered (t : ℕ) : Input :=
  [request false 0 true false, request false 0x1400 true false, request false 3 true false,
    request true 0x0800 true false, ⟨.idle, true, 65, false⟩, ⟨.idle, true, 65, false⟩,
    request false 0 false true, request false 0x1400 false true, request false 3 false true,
    request true 0x0801 false true].getD t ⟨.idle, true, 65, true⟩

theorem response_transferred :
    Transfers 2 (stateAt (next 2) resetRegs stallWhileOffered 4) (stallWhileOffered 4) ∧
      ResponseDue (stateAt (next 2) resetRegs stallWhileOffered 4) (stallWhileOffered 4) :=
  ⟨(transfers_iff_not_withdrawn isReset_resetRegs stallWhileOffered 4).mpr fun h => by
    exact absurd h.1.1 (by decide), by decide, .inl (by decide)⟩

/-- The response to the second one waits, and the output is ready for it in vain. -/
theorem stall_write_blocks : IsReset resetRegs ∧
    ¬ Transfers 2 (stateAt (next 2) resetRegs stallWhileOffered 10) (stallWhileOffered 10) :=
  ⟨isReset_resetRegs, by decide⟩

/-- A stall that was written while the first flit of a character waited, and its response. -/
structure Deadlocked (s : Regs) : Prop where
  mux : s.mux = .wormLocal
  state : s.state = .s0
  stalled : s.ctrl.modCsStall = true
  response : s.ctrl.state = .respStart

theorem Deadlocked.silent (h : Deadlocked s) : (debugOut id s i).valid = false := by
  simp only [debugOut, uMux, Ring.mux, h.mux, cUartOut_valid, h.state, h.stalled]
  simp

theorem Deadlocked.next (h : Deadlocked s) : next id s i = s := by
  have hlocal : (cUartOut id s i).valid = false := (withdrawn_iff.mp ⟨h.mux, h.state, .inr h.stalled⟩).2
  have hmux : (uMux id s i).next = .wormLocal := by
    simp [uMux, Ring.mux, h.mux, hlocal]
  have hready : (uMux id s i).ready0 = false := by
    simp [uMux, Ring.mux, h.mux]
  have hstate : nextState id s i = .s0 := by
    simp [nextState, h.state, h.stalled]
  have hctrl : Statctrlif.next (ctrlParams id) s.ctrl (ctrlInput id s i) = s.ctrl := by
    simp [Statctrlif.next, h.response, ctrlInput, hready]
  rw [DemUart.next, hctrl, hmux, hstate, ← h.mux, ← h.state]

/-- The host cannot lift the stall again: nothing is sent any more, whatever the inputs are. -/
theorem Deadlocked.forever (h : Deadlocked s) (e : ℕ → Input) (t : ℕ) :
    stateAt (DemUart.next id) s e t = s ∧ (debugOut id (stateAt (DemUart.next id) s e t) (e t)).valid = false := by
  induction t with
  | zero => exact ⟨rfl, h.silent⟩
  | succ t ih =>
    have hnext : stateAt (DemUart.next id) s e (t + 1) = s := by
      rw [stateAt_succ, ih.1, h.next]
    exact ⟨hnext, hnext.symm ▸ h.silent⟩

end GlipOsd.DemUart.Blocking
