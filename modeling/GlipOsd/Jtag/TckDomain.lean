import GlipOsd.Jtag.Scans
import GlipOsd.Jtag.Toplevel
import GlipOsd.Jtag.Transfer

/-! # The pins of the target

What `glip_jtag_toplevel` has in the domain of TCK: the TAP, the three state machines behind it and the
multiplexer of TDO. Of the FIFOs between the domains only the near ends are seen. `step_toplevel` says
that this is the toplevel at an edge of TCK.
-/

namespace GlipOsd.Jtag.TckDomain
open Bytes Memory Clocked
set_option autoImplicit false

structure State (W L : ℕ) where
  tap : Tap.State
  input : InputFsm.State W L
  discovery : Discovery.State W
  output : OutputFsm.State W

structure In (W : ℕ) where
  pins : Tap.Pins
  rst : Bool
  inFifoFull : Bool
  outFifoEmpty : Bool
  outData : BitVec W

section Wiring
variable {W L : ℕ} (s : State W L) (i : In W)

def dataTransferShift : Bool := s.tap.flags.shiftDr && Tap.debugSelect s.tap

def dataTransferUpdate : Bool := s.tap.flags.updateDr && Tap.debugSelect s.tap

def dataTransferCapture : Bool := s.tap.flags.captureDr && Tap.debugSelect s.tap

def inputIn : InputFsm.In where
  rst := s.input.regs.jtagReset || i.rst
  tdi := i.pins.tdi
  shift := dataTransferShift s
  update := dataTransferUpdate s
  capture := dataTransferCapture s
  fifoReady := !i.inFifoFull

def discoveryIn : Discovery.In := ⟨i.pins.tdi, dataTransferShift s, s.tap.flags.updateDr⟩

def outputIn : OutputFsm.In W where
  tdi := i.pins.tdi
  shift := dataTransferShift s
  update := dataTransferUpdate s
  inError := s.input.regs.error
  inWritten := s.input.regs.accCnt
  fifoData := i.outData
  fifoValid := !i.outFifoEmpty

def step : State W L where
  tap := Tap.cycle s.tap i.pins
  input := InputFsm.step s.input (inputIn s i)
  discovery := Discovery.step L s.discovery (discoveryIn s i)
  output := OutputFsm.step s.output (outputIn s i)

def tdo : Bool :=
  if s.discovery.configDiscovery then Discovery.tdo L s.discovery (discoveryIn s i)
  else if dataTransferShift s then OutputFsm.tdo s.output (outputIn s i)
  else Tap.tdoPad s.tap i.pins

/-- The word that enters the FIFO of the input side. -/
def written : Option (BitVec W) := InputFsm.pushed s.input (inputIn s i)

/-- The word that is taken from the FIFO to the host. -/
def taken : Option (BitVec W) := OutputFsm.popped s.output (outputIn s i)

end Wiring

/-! ## The toplevel at an edge of TCK -/

section Toplevel
variable {W L : ℕ} {tap : Tap.State} {u u' : Toplevel.State W L} {rst : Bool} {p : Tap.Pins}
  {inSel outSel : BitVec 5} {clk : Option (Toplevel.ClkIn W)}

def ofToplevel (tap : Tap.State) (u : Toplevel.State W L) : State W L := ⟨tap, u.input, u.discovery, u.output⟩

/-- What the TAP offers the rest of the toplevel. -/
def tckIn (tap : Tap.State) (p : Tap.Pins) (inSel outSel : BitVec 5) : Toplevel.TckIn where
  tdi := p.tdi
  shiftDr := tap.flags.shiftDr
  updateDr := tap.flags.updateDr
  captureDr := tap.flags.captureDr
  debugSelect := Tap.debugSelect tap
  inSel := inSel
  outSel := outSel

/-- What the FIFOs show at an edge. -/
def seen (u : Toplevel.State W L) (rst : Bool) (p : Tap.Pins) : In W where
  pins := p
  rst := rst
  inFifoFull := u.inFifo.wr.wrFull
  outFifoEmpty := u.outFifo.rd.rdEmpty
  outData := u.outFifo.rdData

theorem step_toplevel (hstep : Toplevel.step u ⟨rst, some (tckIn tap p inSel outSel), clk⟩ = some u') :
    ofToplevel (Tap.cycle tap p) u' = step (ofToplevel tap u) (seen u rst p) := by
  obtain rfl := Option.some.inj hstep
  cases rst <;> rfl

theorem history_toplevel (hstep : Toplevel.step u ⟨false, some (tckIn tap p inSel outSel), clk⟩ = some u') :
    u'.accepted = u.accepted ++ (written (ofToplevel tap u) (seen u false p)).toList ∧
      u'.popped = u.popped ++ (taken (ofToplevel tap u) (seen u false p)).toList := by
  obtain rfl := Option.some.inj hstep
  refine ⟨rfl, congrArg (u.popped ++ ·) ?_⟩
  show (if _ then _ else _ : List (BitVec W)) = Option.toList (if _ then _ else _)
  rw [apply_ite Option.toList]
  rfl

/-- An edge of the other clock alone. -/
theorem idle_toplevel (hstep : Toplevel.step u ⟨rst, none, clk⟩ = some u') : ofToplevel tap u' = ofToplevel tap u := by
  obtain rfl := Option.some.inj hstep
  cases rst <;> rfl

end Toplevel

/-! ## The first word of a scan -/

section Header
variable {W L : ℕ} {x : BitVec W} {st : InputFsm.State W L} {i : InputFsm.In} {t : ℕ}

/-- Behind `t` bits of a scan with the first word `x`, of which the input side reads nothing else. -/
inductive Header (x : BitVec W) (st : InputFsm.State W L) : ℕ → Prop
  | start (state : st.regs.inputState = .idle) (cnt : st.regs.bitCnt = 0) : Header x st 0
  | measuring {k : ℕ} (hk : k < W) (h : InputFsm.Measuring st k x) : Header x st k
  | behind {k : ℕ} (hk : W ≤ k) (idle : st.regs.inputState ≠ .idle)
      (header : st.regs.inputState ≠ .readPacketLength) : Header x st k

/-- Only the last bit of a word of ones resets the communication. -/
theorem jtagReset_step (hi : InputFsm.Quiet i) (hreset : st.regs.jtagReset = false)
    (hones : st.regs.inputState = .readPacketLength → st.regs.bitCnt.toNat = W - 1 →
      OutputFsm.concatTop i.tdi (OutputFsm.setBit st.regs.inRegCnt st.regs.bitCnt.toNat i.tdi) ≠ BitVec.allOnes W) :
    (InputFsm.step st i).regs.jtagReset = false := by
  rw [InputFsm.step_regs st hi]
  cases hstate : st.regs.inputState with
  | readPacketLength =>
    simp only [InputFsm.inputFsm, hstate]
    split_ifs with hlow hlast hword
    · exact hreset
    · exact absurd hword (hones hstate hlast)
    · rfl
    · rfl
    · exact hreset
  | idle =>
    simp only [InputFsm.inputFsm, hstate]
    split_ifs <;> rfl
  | ignoreReadLength =>
    simp only [InputFsm.inputFsm, hstate]
    split_ifs <;> exact hreset
  | readPacket =>
    simp only [InputFsm.inputFsm, hstate]
    split_ifs <;> exact hreset
  | dropPacket =>
    simp only [InputFsm.inputFsm, hstate]
    split_ifs <;> rfl

/-- The header is not read again before a capture or an update. -/
theorem inputState_behind (hi : InputFsm.Quiet i) (hidle : st.regs.inputState ≠ .idle)
    (hheader : st.regs.inputState ≠ .readPacketLength) : (InputFsm.step st i).regs.inputState ≠ .idle ∧
      (InputFsm.step st i).regs.inputState ≠ .readPacketLength := by
  rw [InputFsm.step_regs st hi]
  cases hstate : st.regs.inputState with
  | idle => exact absurd hstate hidle
  | readPacketLength => exact absurd hstate hheader
  | ignoreReadLength =>
    simp only [InputFsm.inputFsm, hstate]
    split_ifs <;> simp
  | readPacket =>
    simp only [InputFsm.inputFsm, hstate]
    split_ifs <;> simp
  | dropPacket =>
    simp only [InputFsm.inputFsm, hstate, hi.2.1, hi.2.2]
    simp

theorem Header.jtagReset (hx : x ≠ BitVec.allOnes W) (hW : 0 < W) (h : Header x st t)
    (hreset : st.regs.jtagReset = false) (hi : InputFsm.Quiet i) (hbit : t < W → i.tdi = x.getLsbD t) :
    (InputFsm.step st i).regs.jtagReset = false := by
  refine jtagReset_step hi hreset fun hstate hlast => ?_
  cases h with
  | start hidle hcnt =>
    rw [hidle] at hstate
    cases hstate
  | measuring hk h =>
    have hcnt : st.regs.bitCnt.toNat = t := by rw [h.bitCnt, OutputFsm.toNat_ofNat_of_lt hk]
    have hword : OutputFsm.setBit st.regs.inRegCnt (W - 1) (x.getLsbD (W - 1)) = x := by
      obtain rfl : t = W - 1 := hcnt.symm.trans hlast
      exact BitVec.eq_of_getLsbD_eq fun j hj =>
        OutputFsm.getLsbD_setBit_of_agree (by omega) h.bits j (by omega)
    rw [hlast, hbit hk, ← hcnt, hlast, hword, OutputFsm.concatTop_eq hW fun _ _ => rfl]
    exact hx
  | behind hk hidle hheader => exact absurd hstate hheader

theorem Header.next (hW : 2 ≤ W) (hx : x ≠ BitVec.allOnes W) (h : Header x st t) (hi : InputFsm.Quiet i)
    (hshift : i.shift = true) (hbit : t < W → i.tdi = x.getLsbD t) : Header x (InputFsm.step st i) (t + 1) := by
  cases h with
  | start hidle hcnt =>
    exact .measuring (by omega) (InputFsm.measuring_first hW hidle hcnt hi hshift (hbit (by omega))).1
  | measuring hk h =>
    by_cases hlast : t = W - 1
    · subst hlast
      have hnext := (h.last hW hi (hbit hk) hx).2
      refine .behind (by omega) ?_ ?_ <;> split_ifs at hnext
      · rw [hnext.1]
        exact nofun
      · rw [hnext.inputState]
        exact nofun
      · rw [hnext.1]
        exact nofun
      · rw [hnext.inputState]
        exact nofun
    · exact .measuring (by omega) (h.next (by omega) hi (hbit hk)).1
  | behind hk hidle hheader =>
    obtain ⟨hidle', hheader'⟩ := inputState_behind hi hidle hheader
    exact .behind (by omega) hidle' hheader'

end Header

/-- The answer of the discovery is on TDO behind a first word of ones, and behind no other. -/
theorem configDiscovery_next {W n t : ℕ} {x : BitVec W} {st : Discovery.State W} {i : Discovery.In}
    (h : Discovery.Phase x st t) (hflag : st.configDiscovery = decide (x = BitVec.allOnes W ∧ W ≤ t))
    (hupdate : i.update = false) (hbit : t < W → i.shift = true ∧ i.tdi = x.getLsbD t) :
    (Discovery.step n st i).configDiscovery = decide (x = BitVec.allOnes W ∧ W ≤ t + 1) := by
  have hstep : Discovery.step n st i = (Discovery.confFsm n st i).1 := by
    rw [Discovery.step, hupdate]
    rfl
  rw [hstep]
  cases h with
  | reading hk hstate hcnt hbits =>
    obtain ⟨hshift, htdi⟩ := hbit hk
    have hnat : st.bitCnt.toNat = t := by rw [hcnt, OutputFsm.toNat_ofNat_of_lt hk]
    have hx (hlast : t = W - 1) : OutputFsm.concatTop i.tdi st.inReg = x := by
      rw [htdi, hlast]
      exact OutputFsm.concatTop_eq (by omega) fun j hj => hbits j (by omega)
    simp only [Discovery.confFsm, hstate, hshift, if_true, hnat]
    split_ifs with hlast hones
    · exact (decide_eq_true ⟨(hx hlast).symm.trans hones, by omega⟩).symm
    · exact (decide_eq_false fun h => hones ((hx hlast).trans h.1)).symm
    · exact (decide_eq_false fun h => by omega).symm
  | wordWidth hk hstate hcnt hones =>
    simp only [Discovery.confFsm, hstate]
    split_ifs <;> exact (decide_eq_true ⟨hones, by omega⟩).symm
  | bufferSize hk hstate hcnt hones =>
    simp only [Discovery.confFsm, hstate]
    split_ifs <;> exact (decide_eq_true ⟨hones, by omega⟩).symm
  | done hk hstate hones =>
    simp only [Discovery.confFsm, hstate]
    rw [hflag, decide_eq_decide]
    exact and_congr_right fun _ => ⟨fun _ => by omega, fun _ => hk⟩

theorem discovery_step {W L : ℕ} {s : State W L} (hs : s.discovery = Discovery.reset W)
    (hshift : dataTransferShift s = false) (hupdate : s.tap.flags.updateDr = false) (i : In W) :
    (step s i).discovery = Discovery.reset W := by
  rw [step, discoveryIn, hs, hshift, hupdate]
  rfl

theorem output_step {W L : ℕ} {s : State W L} (hs : s.output.outputState = .idle)
    (hshift : dataTransferShift s = false) (hupdate : dataTransferUpdate s = false) (i : In W) :
    (step s i).output.outputState = .idle := by
  have hlow : (outputIn s i).shift = false := hshift
  have hkept : (outputIn s i).update = false := hupdate
  show (OutputFsm.step s.output (outputIn s i)).outputState = _
  rw [OutputFsm.step, hkept]
  simp [OutputFsm.outputFsm, hs, hlow]

/-! ## Waveforms at the pins -/

section Waves
variable {W L : ℕ} (s : State W L) (e : ℕ → In W)

/-- The registers at the start of a cycle. -/
def domainAt (t : ℕ) : State W L := stateAt step s e t

def pinWave (t : ℕ) : Tap.Pins := (e t).pins

/-- The state of the controller in a cycle, when it is `σ` in cycle 0. -/
def controller (σ : Tap.TapState) (t : ℕ) : Tap.TapState := Tap.controllerAt (pinWave e) σ 0 t

def inputWave (t : ℕ) : InputFsm.In := inputIn (domainAt s e t) (e t)

def discoveryWave (t : ℕ) : Discovery.In := discoveryIn (domainAt s e t) (e t)

def outputWave (t : ℕ) : OutputFsm.In W := outputIn (domainAt s e t) (e t)

theorem tap_domainAt (t : ℕ) : (domainAt s e t).tap = Tap.tapAt s.tap (pinWave e) t := by
  show _ = stateAt Tap.cycle s.tap (pinWave e) t
  exact stateAt_part State.tap (fun _ => In.pins) (fun _ _ => rfl) t

theorem input_domainAt (t : ℕ) : (domainAt s e t).input = stateAt InputFsm.step s.input (inputWave s e) t :=
  stateAt_part State.input inputIn (fun _ _ => rfl) t

theorem output_domainAt (t : ℕ) : (domainAt s e t).output = stateAt OutputFsm.step s.output (outputWave s e) t :=
  stateAt_part State.output outputIn (fun _ _ => rfl) t

/-- The words that enter the FIFO of the input side in the `n` cycles from cycle `a` on. -/
def writes (a n : ℕ) : List (BitVec W) := (trace step written s e a n).reduceOption

/-- The words that are taken from the FIFO to the host. -/
def reads (a n : ℕ) : List (BitVec W) := (trace step taken s e a n).reduceOption

/-- What the host samples at TDO. -/
def answer (a n : ℕ) : List Bool := trace step tdo s e a n

end Waves

/-- Behind an Update-DR the bits `bs` are shifted without a pause, while `DEBUG` is the instruction. -/
structure Requests {W L : ℕ} (s : State W L) (e : ℕ → In W) (σ : Tap.TapState) (u c : ℕ) (bs : List Bool) : Prop where
  shows : Tap.Shows s.tap σ
  update : controller e σ u = .updateDr
  debug : (domainAt s e u).tap.latchedJtagIr = Tap.DEBUG
  before : u < c
  between : ∀ t, u < t → t < c → controller e σ t = .runTestIdle ∨ controller e σ t = .selectDrScan
  capture : controller e σ c = .captureDr
  shift : ∀ k < bs.length, controller e σ (c + 1 + k) = .shiftDr ∧ (e (c + 1 + k)).pins.tdi = bs.getD k false
  rst : ∀ t, u < t → t ≤ c + bs.length → (e t).rst = false

namespace Requests
variable {W L : ℕ} {s : State W L} {e : ℕ → In W} {σ : Tap.TapState} {u c : ℕ} {bs : List Bool}

/-- The states of the controller meanwhile. -/
theorem controller_cases (h : Requests s e σ u c bs) {t : ℕ} (hu : u ≤ t) (ht : t ≤ c + bs.length) :
    controller e σ t = .updateDr ∧ t = u ∨
      (controller e σ t = .runTestIdle ∨ controller e σ t = .selectDrScan) ∧ u < t ∧ t < c ∨
        controller e σ t = .captureDr ∧ t = c ∨ controller e σ t = .shiftDr ∧ c < t := by
  obtain rfl | hlt := Nat.eq_or_lt_of_le hu
  · exact .inl ⟨h.update, rfl⟩
  · obtain hlow | rfl | hhigh := Nat.lt_trichotomy t c
    · exact .inr (.inl ⟨h.between t hlt hlow, hlt, hlow⟩)
    · exact .inr (.inr (.inl ⟨h.capture, rfl⟩))
    · obtain ⟨k, rfl⟩ := Nat.exists_eq_add_of_le (by omega : c + 1 ≤ t)
      exact .inr (.inr (.inr ⟨(h.shift k (by omega)).1, hhigh⟩))

theorem shows_at (h : Requests s e σ u c bs) (t : ℕ) : Tap.Shows (domainAt s e t).tap (controller e σ t) := by
  have hrun := Tap.Shows.run (a := 0) (e := pinWave e) h.shows t
  rwa [Nat.zero_add, ← tap_domainAt] at hrun

theorem debug_at (h : Requests s e σ u c bs) {t : ℕ} (hu : u ≤ t) (ht : t ≤ c + bs.length + 1) :
    (domainAt s e t).tap.latchedJtagIr = Tap.DEBUG := by
  induction t, hu using Nat.le_induction with
  | base => exact h.debug
  | succ t hu ih =>
    have hcases := h.controller_cases hu (by omega)
    refine Eq.trans ((h.shows_at t).latched_eq ?_ ?_ (e t).pins) (ih (by omega))
    · obtain ⟨hσ, -⟩ | ⟨hσ | hσ, -⟩ | ⟨hσ, -⟩ | ⟨hσ, -⟩ := hcases <;> rw [hσ] <;> decide
    · obtain ⟨hσ, -⟩ | ⟨hσ | hσ, -⟩ | ⟨hσ, -⟩ | ⟨hσ, -⟩ := hcases <;> rw [hσ] <;> exact nofun

theorem controller_eq (h : Requests s e σ u c bs) {t : ℕ} (hu : u ≤ t) (ht : t ≤ c + bs.length) :
    (controller e σ t = .shiftDr ↔ c < t) ∧ (controller e σ t = .updateDr ↔ t = u) ∧
      (controller e σ t = .captureDr ↔ t = c) := by
  have hbefore := h.before
  obtain ⟨hσ, hpos⟩ | ⟨hσ | hσ, hpos⟩ | ⟨hσ, hpos⟩ | ⟨hσ, hpos⟩ := h.controller_cases hu ht <;> rw [hσ] <;>
    simp <;> omega

theorem signals (h : Requests s e σ u c bs) {t : ℕ} (hu : u ≤ t) (ht : t ≤ c + bs.length) :
    dataTransferShift (domainAt s e t) = decide (c < t) ∧ dataTransferUpdate (domainAt s e t) = decide (t = u) ∧
      dataTransferCapture (domainAt s e t) = decide (t = c) ∧
        (domainAt s e t).tap.flags.updateDr = decide (t = u) := by
  have hdebug : Tap.debugSelect (domainAt s e t).tap = true := by
    rw [Tap.debugSelect, h.debug_at hu (by omega)]
    rfl
  obtain ⟨hshift, hupdate, hcapture⟩ := h.controller_eq hu ht
  rw [dataTransferShift, dataTransferUpdate, dataTransferCapture, hdebug, (h.shows_at t).flags, Bool.and_true,
    Bool.and_true, Bool.and_true]
  simp only [Tap.TapState.flags, beq_eq_decide]
  exact ⟨decide_eq_decide.mpr hshift, decide_eq_decide.mpr hupdate, decide_eq_decide.mpr hcapture,
    decide_eq_decide.mpr hupdate⟩

/-! ## Up to the capture -/

theorem quiet_of_ne (h : Requests s e σ u c bs) {t : ℕ} (hu : u < t) (ht : t ≤ c + bs.length) (hc : t ≠ c)
    (hreset : (domainAt s e t).input.regs.jtagReset = false) : InputFsm.Quiet (inputWave s e t) := by
  obtain ⟨-, hupdate, hcapture, -⟩ := h.signals hu.le ht
  refine ⟨?_, ?_, ?_⟩
  · show (_ || (e t).rst) = false
    rw [hreset, h.rst t hu ht]
    rfl
  · exact hupdate.trans (decide_eq_false hu.ne')
  · exact hcapture.trans (decide_eq_false hc)

/-- The update is seen by all of the state machines. -/
theorem behind_update (h : Requests s e σ u c bs) :
    (domainAt s e (u + 1)).input.regs.inputState = .dropPacket ∧
      (domainAt s e (u + 1)).input.regs.jtagReset = false ∧
        (domainAt s e (u + 1)).discovery = Discovery.reset W ∧ (domainAt s e (u + 1)).output = OutputFsm.reset W := by
  have hbefore := h.before
  obtain ⟨-, hupdate, -, hungated⟩ := h.signals le_rfl (by omega)
  rw [decide_eq_true rfl] at hupdate hungated
  have hinput : (domainAt s e (u + 1)).input.regs =
      if (inputWave s e u).rst || dataTransferUpdate (domainAt s e u) then _ else _ := rfl
  rw [hupdate, Bool.or_true, if_pos rfl] at hinput
  refine ⟨by rw [hinput], by rw [hinput], ?_, ?_⟩
  · exact if_pos hungated
  · exact if_pos hupdate

theorem awaits_capture (h : Requests s e σ u c bs) {t : ℕ} (hu : u < t) (ht : t ≤ c) :
    (domainAt s e t).input.regs.inputState = .dropPacket ∧ (domainAt s e t).input.regs.jtagReset = false ∧
      (domainAt s e t).discovery = Discovery.reset W ∧ (domainAt s e t).output.outputState = .idle := by
  induction t, hu using Nat.le_induction with
  | base =>
    obtain ⟨hdrop, hreset, hdiscovery, houtput⟩ := h.behind_update
    exact ⟨hdrop, hreset, hdiscovery, congrArg OutputFsm.State.outputState houtput⟩
  | succ t hu ih =>
    obtain ⟨hdrop, hreset, hdiscovery, hidle⟩ := ih (by omega)
    obtain ⟨hshift, hupdate, -, hungated⟩ := h.signals (t := t) (by omega) (by omega)
    rw [decide_eq_false (by omega)] at hshift hupdate hungated
    have hquiet := h.quiet_of_ne hu (by omega) (by omega) hreset
    have hfsm : (InputFsm.inputFsm (domainAt s e t).input.regs (domainAt s e t).input.fifo.inReady
        (inputWave s e t)).1 = { (domainAt s e t).input.regs with bitCnt := 0, jtagReset := false } := by
      simp [InputFsm.inputFsm, hdrop, hquiet.2.1, hquiet.2.2]
    have hregs : (domainAt s e (t + 1)).input.regs = _ :=
      (InputFsm.step_regs (domainAt s e t).input hquiet).trans hfsm
    refine ⟨?_, ?_, ?_, ?_⟩
    · rw [hregs]
      exact hdrop
    · rw [hregs]
    · exact discovery_step hdiscovery hshift hungated (e t)
    · exact output_step hidle hshift hupdate (e t)

/-! ## Behind the capture -/

/-- The first word. -/
def word (_ : Requests s e σ u c bs) : BitVec W := BitVec.ofNat W (bitValue bs)

theorem tdi_eq (h : Requests s e σ u c bs) {k : ℕ} (hk : k < bs.length) (hW : k < W) :
    (e (c + 1 + k)).pins.tdi = h.word.getLsbD k := by
  rw [(h.shift k hk).2, word, BitVec.getLsbD_ofNat, decide_eq_true hW, Bool.true_and, testBit_bitValue]

theorem header_at (h : Requests s e σ u c bs) (hW : 2 ≤ W) (hx : h.word ≠ BitVec.allOnes W) {k : ℕ}
    (hk : k ≤ bs.length) : Header h.word (domainAt s e (c + 1 + k)).input k ∧
      (domainAt s e (c + 1 + k)).input.regs.jtagReset = false := by
  induction k with
  | zero =>
    have hbefore := h.before
    obtain ⟨hdrop, hreset, -⟩ := h.awaits_capture h.before le_rfl
    obtain ⟨-, hupdate, hcapture, -⟩ := h.signals h.before.le (by omega)
    rw [decide_eq_false (by omega)] at hupdate
    rw [decide_eq_true rfl] at hcapture
    have hrst : (inputWave s e c).rst = false := by
      show (_ || (e c).rst) = false
      rw [hreset, h.rst c h.before (by omega)]
      rfl
    have hlow : (inputWave s e c).update = false := hupdate
    have hhigh : (inputWave s e c).capture = true := hcapture
    have hregs : (domainAt s e (c + 1)).input.regs =
        { (domainAt s e c).input.regs with bitCnt := 0, inputState := .idle, error := false, jtagReset := false } := by
      show (InputFsm.step (domainAt s e c).input (inputWave s e c)).regs = _
      simp [InputFsm.step, InputFsm.inputFsm, hdrop, hrst, hlow, hhigh]
    exact ⟨.start (by rw [Nat.add_zero, hregs]) (by rw [Nat.add_zero, hregs]), by rw [Nat.add_zero, hregs]⟩
  | succ k ih =>
    obtain ⟨hheader, hreset⟩ := ih (by omega)
    have hbefore := h.before
    have hquiet := h.quiet_of_ne (t := c + 1 + k) (by omega) (by omega) (by omega) hreset
    obtain ⟨hshift, -⟩ := h.signals (t := c + 1 + k) (by omega) (by omega)
    rw [decide_eq_true (by omega)] at hshift
    exact ⟨hheader.next hW hx hquiet hshift (h.tdi_eq (by omega)),
      hheader.jtagReset hx (by omega) hreset hquiet (h.tdi_eq (by omega))⟩

theorem phase_at (h : Requests s e σ u c bs) (hW : 0 < W) {k : ℕ} (hk : k ≤ bs.length) :
    Discovery.Phase h.word (domainAt s e (c + 1 + k)).discovery k ∧
      (domainAt s e (c + 1 + k)).discovery.configDiscovery =
        decide (h.word = BitVec.allOnes W ∧ W ≤ k) := by
  induction k with
  | zero =>
    have hbefore := h.before
    obtain ⟨-, -, hdiscovery, -⟩ := h.awaits_capture h.before le_rfl
    obtain ⟨hshift, -, -, hungated⟩ := h.signals (t := c) h.before.le (by omega)
    rw [decide_eq_false (by omega)] at hshift hungated
    have hreset : (domainAt s e (c + 1)).discovery = Discovery.reset W :=
      discovery_step hdiscovery hshift hungated (e c)
    rw [Nat.add_zero, hreset]
    exact ⟨Discovery.phase_reset hW, (decide_eq_false fun hlast => by omega).symm⟩
  | succ k ih =>
    obtain ⟨hphase, hflag⟩ := ih (by omega)
    have hbefore := h.before
    obtain ⟨hshift, -, -, hungated⟩ := h.signals (t := c + 1 + k) (by omega) (by omega)
    rw [decide_eq_true (by omega)] at hshift
    rw [decide_eq_false (by omega)] at hungated
    have hbit (hlt : k < W) : (discoveryWave s e (c + 1 + k)).shift = true ∧
        (discoveryWave s e (c + 1 + k)).tdi = h.word.getLsbD k := ⟨hshift, h.tdi_eq (by omega) hlt⟩
    exact ⟨hphase.next hungated hbit, configDiscovery_next hphase hflag hungated hbit⟩

/-- The multiplexer of TDO. -/
theorem tdo_eq (h : Requests s e σ u c bs) (hW : 0 < W) {k : ℕ} (hk : k < bs.length) :
    tdo (domainAt s e (c + 1 + k)) (e (c + 1 + k)) =
      if h.word = BitVec.allOnes W ∧ W ≤ k then
        Discovery.tdo L (domainAt s e (c + 1 + k)).discovery (discoveryWave s e (c + 1 + k))
      else OutputFsm.tdo (domainAt s e (c + 1 + k)).output (outputWave s e (c + 1 + k)) := by
  have hbefore := h.before
  obtain ⟨-, hflag⟩ := h.phase_at hW hk.le
  obtain ⟨hshift, -⟩ := h.signals (t := c + 1 + k) (by omega) (by omega)
  rw [decide_eq_true (by omega)] at hshift
  rw [tdo, hflag, hshift]
  simp only [decide_eq_true_eq, if_true]
  rfl

end Requests

end GlipOsd.Jtag.TckDomain
