import GlipOsd.DemUart.Model

/-! # The register interface of the UART device emulation

No register outside of `osd_statctrlif` exists, and `reg_ack` and `reg_err` are 0: an access to an
external address is never answered. Without characters, the responses have the output for themselves.
-/

namespace GlipOsd.DemUart.RegisterInterface
open Clocked
set_option autoImplicit false

variable (id : BitVec 10) (s : Regs)

/-- A request is in progress, and no input of the cycle can take it any further. -/
def Wedged : Prop :=
  s.ctrl.state ≠ .idle ∧ ∀ i : Input, (next id s i).ctrl.state = s.ctrl.state

/-- No character is under way. -/
structure Quiet (s : Regs) : Prop where
  mux : s.mux ≠ .wormLocal
  state : s.state = .s0

variable {id s} {i : Input}

theorem Quiet.cUartOut_valid (h : Quiet s) (hi : i.outValid = false) : (cUartOut id s i).valid = false := by
  rw [DemUart.cUartOut_valid, h.state, hi]
  rfl

theorem Quiet.next (h : Quiet s) (hi : i.outValid = false) : Quiet (next id s i) where
  mux := by
    have hlocal : (cUartOut id s i).valid = false := h.cUartOut_valid hi
    have hm := h.mux
    simp only [DemUart.next, uMux, Ring.mux]
    cases hs : s.mux with
    | wormLocal => exact absurd hs hm
    | noworm | wormRing =>
      simp only [hlocal, Bool.false_eq_true, if_false]
      split_ifs <;> simp
  state := by simp [DemUart.next, nextState, h.state, hi]

/-- The input that takes a request further: a flit that ends a packet, and an output that is ready. -/
def furthering : Input := ⟨⟨true, true, 0⟩, true, 0, false⟩

theorem Quiet.ready0 (h : Quiet s) (hv : (cCtrlstatOut id s).valid = true) :
    (uMux id s furthering).ready0 = true := by
  simp only [uMux, Ring.mux]
  cases hs : s.mux with
  | wormLocal => exact absurd hs h.mux
  | noworm => simp [hv, furthering]
  | wormRing => rfl

theorem not_wedged_of_ne {i : Input} (h : (next id s i).ctrl.state ≠ s.ctrl.state) : ¬ Wedged id s :=
  fun hw => h (hw.2 i)

/-- A request is stuck exactly while it waits for an external register. -/
theorem wedged_iff (h : Quiet s) :
    Wedged id s ↔ s.ctrl.state = .extStart ∨ s.ctrl.state = .extWait := by
  have hready (hv : (cCtrlstatOut id s).valid = true) : (ctrlInput id s furthering).debugOutReady = true :=
    h.ready0 hv
  cases hs : s.ctrl.state with
  | extStart | extWait =>
    simp only [true_or, or_true, iff_true, reduceCtorEq]
    refine ⟨by simp [hs], fun i => ?_⟩
    simp [DemUart.next, Statctrlif.next, hs, ctrlInput]
  | idle => simp [Wedged, hs]
  | start | addr | write | drop =>
    simp only [reduceCtorEq, or_self, iff_false]
    apply not_wedged_of_ne (i := furthering)
    simp only [DemUart.next, Statctrlif.next, hs, ctrlInput, furthering, Statctrlif.acceptAddr,
      Statctrlif.decodeAddr_reqWrite]
    split_ifs <;> simp_all [Statctrlif.addrIsExt]
  | respStart | respSrc | respValue =>
    have hv : (cCtrlstatOut id s).valid = true := by simp [cCtrlstatOut, Statctrlif.debugOut, hs]
    simp only [reduceCtorEq, or_self, iff_false]
    apply not_wedged_of_ne (i := furthering)
    cases hw : s.ctrl.reqWrite <;> simp [DemUart.next, Statctrlif.next, hs, hready hv, hw]

/-- The register interface waits for an external register. -/
def WaitsExternal (s : Regs) : Prop := s.ctrl.state = .extStart ∨ s.ctrl.state = .extWait

theorem waitsExternal_next (h : ¬ WaitsExternal s) : WaitsExternal (next id s i) ↔
    s.ctrl.state = .addr ∧ Statctrlif.addrIsExt i.debugIn.data = true := by
  have hdata : (ctrlInput id s i).debugIn = i.debugIn := rfl
  simp only [WaitsExternal, DemUart.next, Statctrlif.next, hdata] at h ⊢
  cases hs : s.ctrl.state with
  | addr =>
    by_cases hext : Statctrlif.addrIsExt i.debugIn.data = true
    · simp [hext]
    · rw [if_neg hext]
      unfold Statctrlif.acceptAddr
      split_ifs <;> simp [hs, hext]
  | extStart | extWait => simp [hs] at h
  | idle | start | write | drop | respStart | respSrc | respValue =>
    simp only [reduceCtorEq, false_and, iff_false]
    split_ifs <;> simp [hs]

theorem quiet_of_isReset (hs : IsReset s) : Quiet s where
  mux := by simp [hs.2.1]
  state := hs.2.2

theorem quiet_stateAt (hs : IsReset s) {e : ℕ → Input} (he : ∀ t, (e t).outValid = false) (t : ℕ) :
    Quiet (stateAt (next id) s e t) := by
  induction t with
  | zero => exact quiet_of_isReset hs
  | succ t ih => exact ih.next (he t)

/-- **The register interface.** From reset and without characters, no request is ever stuck if and only if
none is for an external register. -/
theorem never_wedged_iff (hs : IsReset s) {e : ℕ → Input} (he : ∀ t, (e t).outValid = false) :
    (∀ t, ¬ Wedged id (stateAt (next id) s e t)) ↔
      ∀ t, (stateAt (next id) s e t).ctrl.state = .addr → Statctrlif.addrIsExt (e t).debugIn.data = false := by
  have hwedged (t : ℕ) : Wedged id (stateAt (next id) s e t) ↔ WaitsExternal (stateAt (next id) s e t) :=
    wedged_iff (quiet_stateAt hs he t)
  simp only [hwedged]
  constructor
  · intro h t haddr
    by_contra hext
    rw [Bool.not_eq_false] at hext
    apply h (t + 1)
    rw [stateAt_succ, waitsExternal_next (h t)]
    exact ⟨haddr, hext⟩
  · intro h t
    induction t with
    | zero => simp [WaitsExternal, stateAt, hs.1.1]
    | succ t ih =>
      rw [stateAt_succ, waitsExternal_next ih]
      rintro ⟨haddr, hext⟩
      rw [h t haddr] at hext
      cases hext

/-- A read of 16 bits. -/
def read (addr : BitVec 16) (t : ℕ) : Input :=
  [⟨⟨true, false, 0⟩, true, 0, false⟩, ⟨⟨true, false, 0x0400⟩, true, 0, false⟩,
    ⟨⟨true, true, addr⟩, true, 0, false⟩].getD t ⟨.idle, true, 0, false⟩

theorem read_outValid (addr : BitVec 16) (t : ℕ) : (read addr t).outValid = false := by
  obtain _ | _ | _ | t := t <;> rfl

theorem read_modid_not_wedged : IsReset resetRegs ∧ ∀ t, ¬ Wedged 2 (stateAt (next 2) resetRegs (read 0) t) := by
  refine ⟨isReset_resetRegs, (never_wedged_iff isReset_resetRegs (read_outValid 0)).mpr ?_⟩
  intro t haddr
  obtain _ | _ | _ | t := t
  · exact absurd haddr (by decide)
  · exact absurd haddr (by decide)
  · decide
  · show Statctrlif.addrIsExt 0 = false
    decide

theorem read_external_wedged : IsReset resetRegs ∧ (∀ t, (read 0x0200 t).outValid = false) ∧
    Wedged 2 (stateAt (next 2) resetRegs (read 0x0200) 3) :=
  ⟨isReset_resetRegs, read_outValid _, by decide, fun _ => rfl⟩

end GlipOsd.DemUart.RegisterInterface
