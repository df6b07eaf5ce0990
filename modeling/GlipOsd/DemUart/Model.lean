import GlipOsd.Foundations.Clocked
import GlipOsd.Ring.Router
import GlipOsd.Statctrlif.Model

/-! # The UART device emulation

`osd_dem_uart`: each character of the emulated UART leaves as a packet of three flits. A multiplexer
joins these packets with the responses of the register interface, which has priority.
-/

namespace GlipOsd.DemUart
set_option autoImplicit false

/-- `state`, the flit of a character's packet that is sent next; 3 is not reached. -/
inductive CharState
  | s0 | s1 | s2
  deriving DecidableEq

/-- The registers: those of `u_statctrlif` and of `u_mux`, and `state`. -/
structure Regs where
  ctrl : Statctrlif.Regs 16
  mux : Ring.MuxState
  state : CharState
  deriving DecidableEq

structure Input where
  debugIn : DiiFlit
  debugOutReady : Bool
  outChar : BitVec 8
  outValid : Bool

/-- The parameters of `u_statctrlif`. -/
def ctrlParams (id : BitVec 10) : Statctrlif.Params := ⟨2, 0, true, id⟩

section Signals
variable (id : BitVec 10) (s : Regs) (i : Input)

def stall : Bool := Statctrlif.stall (ctrlParams id) s.ctrl

/-- A register response is noted with source 0 and a flit of a character with source 1. -/
def cCtrlstatOut : Ring.Flit := ⟨Statctrlif.debugOut (ctrlParams id) s.ctrl, 0, 0⟩

def cUartOut : Ring.Flit :=
  match s.state with
  | .s0 => ⟨⟨i.outValid && !stall id s, false, 0⟩, 1, 0⟩
  | .s1 => ⟨⟨true, false, 0b1000#4 ++ 0b00#2 ++ id⟩, 1, 0⟩
  | .s2 => ⟨⟨true, true, 0#8 ++ i.outChar⟩, 1, 0⟩

def uMux : Ring.MuxOut Ring.MuxState :=
  Ring.mux s.mux (cCtrlstatOut id s) (cUartOut id s i) i.debugOutReady

def debugOut : Ring.Flit := (uMux id s i).out

def outReady : Bool :=
  match s.state with
  | .s2 => (uMux id s i).ready1
  | _ => false

/-- `reg_ack`, `reg_err` and `reg_rdata` are tied to 0. -/
def ctrlInput : Statctrlif.Input := ⟨i.debugIn, (uMux id s i).ready0, false, false, 0⟩

def nextState : CharState :=
  match s.state with
  | .s0 => if i.outValid && !stall id s && (uMux id s i).ready1 then .s1 else .s0
  | .s1 => if (uMux id s i).ready1 then .s2 else .s1
  | .s2 => if (uMux id s i).ready1 then .s0 else .s2

def next : Regs where
  ctrl := Statctrlif.next (ctrlParams id) s.ctrl (ctrlInput id s i)
  mux := (uMux id s i).next
  state := nextState id s i

end Signals

/-- The registers that a reset sets. -/
def IsReset (s : Regs) : Prop := Statctrlif.IsReset s.ctrl ∧ s.mux = .noworm ∧ s.state = .s0

/-- A state after reset, with 0 in the other registers. -/
def resetRegs : Regs := ⟨Statctrlif.resetRegs, .noworm, .s0⟩

theorem isReset_resetRegs : IsReset resetRegs := ⟨⟨rfl, rfl⟩, rfl, rfl⟩

variable {id : BitVec 10} {s : Regs} {i : Input}

@[simp] theorem stall_eq : stall id s = s.ctrl.modCsStall := rfl

theorem cUartOut_valid : (cUartOut id s i).valid =
    (s.state != .s0 || i.outValid && !s.ctrl.modCsStall) := by
  unfold cUartOut
  cases s.state <;> rfl

theorem cUartOut_last : (cUartOut id s i).last = (s.state == .s2) := by
  unfold cUartOut
  cases s.state <;> rfl

@[simp] theorem cUartOut_source : (cUartOut id s i).source = 1 := by
  unfold cUartOut
  cases s.state <;> rfl

/-! ## The lock of the multiplexer -/

/-- A response is offered until it has been taken up to its last flit. -/
theorem response_continues {w : ℕ} {p : Statctrlif.Params} {c : Statctrlif.Regs w} {j : Statctrlif.Input}
    (hv : (Statctrlif.debugOut p c).valid = true)
    (hopen : j.debugOutReady = true → (Statctrlif.debugOut p c).last = false) :
    (Statctrlif.debugOut p (Statctrlif.next p c j)).valid = true := by
  revert hv hopen
  unfold Statctrlif.debugOut Statctrlif.next
  cases hs : c.state with
  | respStart =>
    simp only
    split_ifs <;> simp [hs]
  | respSrc =>
    simp only
    split_ifs with hready hw
    · simp [hready, hw]
    · simp
    · simp [hs]
  | respValue =>
    simp only
    split_ifs with hready
    · simp [hready]
    · simp [hs]
  | idle | start | addr | write | drop | extStart | extWait => simp [DiiFlit.idle]

/-- The multiplexer is locked to the response while one is under way, and to the character once its
first flit has been taken. -/
structure Locked (id : BitVec 10) (s : Regs) : Prop where
  ring : s.mux = .wormRing → (cCtrlstatOut id s).valid = true
  char : s.state ≠ .s0 → s.mux = .wormLocal

theorem locked_of_isReset (hs : IsReset s) : Locked id s where
  ring h := by
    rw [hs.2.1] at h
    cases h
  char h := absurd hs.2.2 h

theorem uMux_wormRing_next (h : Locked id s) (hnext : (uMux id s i).next = .wormRing) :
    (cCtrlstatOut id s).valid = true ∧
      ((uMux id s i).ready0 = true → (cCtrlstatOut id s).last = false) := by
  unfold uMux Ring.mux at hnext ⊢
  cases hm : s.mux with
  | noworm =>
    simp only [hm] at hnext ⊢
    split_ifs at hnext ⊢ with hr hlast
    have hopen : (cCtrlstatOut id s).last = false := (Bool.not_eq_true' _).mp hlast
    exact ⟨hr, fun _ => hopen⟩
  | wormRing =>
    simp only [hm] at hnext ⊢
    have hv := h.ring hm
    refine ⟨hv, fun hready => ?_⟩
    rw [hv, hready, Bool.and_true, Bool.and_true] at hnext
    split_ifs at hnext with hlast
    exact (Bool.not_eq_true _).mp hlast
  | wormLocal =>
    simp only [hm] at hnext
    split_ifs at hnext

theorem uMux_ready1 (h : (uMux id s i).ready1 = true) (hlast : (cUartOut id s i).last = false) :
    (uMux id s i).next = .wormLocal := by
  unfold uMux Ring.mux at h ⊢
  cases hm : s.mux with
  | noworm =>
    simp only [hm] at h ⊢
    split_ifs at h ⊢ with hr hl hopen
    · rfl
    · exact absurd (by rw [hlast]; rfl) hopen
  | wormRing => simp [hm] at h
  | wormLocal => simp [hlast]

theorem locked_next (h : Locked id s) : Locked id (next id s i) where
  ring hnext := by
    obtain ⟨hv, hopen⟩ := uMux_wormRing_next h hnext
    exact response_continues (j := ctrlInput id s i) hv hopen
  char hstate := by
    have hlast : (cUartOut id s i).last = _ := cUartOut_last
    simp only [next, nextState] at hstate ⊢
    cases hs : s.state with
    | s0 =>
      rw [hs] at hstate hlast
      by_cases hfire : (i.outValid && !stall id s && (uMux id s i).ready1) = true
      · exact uMux_ready1 (Bool.and_eq_true_iff.mp hfire).2 hlast
      · simp only [if_neg hfire, ne_eq, not_true] at hstate
    | s1 =>
      have hm := h.char (by rw [hs]; decide)
      rw [hs] at hlast
      unfold uMux Ring.mux
      simp only [hm, hlast]
      rfl
    | s2 =>
      have hm := h.char (by rw [hs]; decide)
      rw [hs] at hstate hlast
      unfold uMux Ring.mux at hstate ⊢
      simp only [hm] at hstate ⊢
      split_ifs at hstate with hready
      · exact absurd rfl hstate
      · simp [hready]

theorem locked_stateAt (hs : IsReset s) (e : ℕ → Input) (t : ℕ) :
    Locked id (Clocked.stateAt (next id) s e t) :=
  Clocked.stateAt_invariant (Locked id) (fun _ _ => locked_next) (locked_of_isReset hs) t

end GlipOsd.DemUart
