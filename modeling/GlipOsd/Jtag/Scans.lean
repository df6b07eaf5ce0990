import GlipOsd.Jtag.Tap

/-! # Scans of the registers of the TAP

A scan of the instruction register goes from Capture-IR to Update-IR and may pause on its way. Only the
bits of the cycles in Shift-IR count. `IDCODE` is read by shifting behind Capture-DR.
-/

namespace GlipOsd.Jtag.Tap
open Clocked ShiftRegister
set_option autoImplicit false

namespace TapState

/-- Between Select-IR-Scan and Update-IR. -/
def InIr (σ : TapState) : Prop :=
  σ = captureIr ∨ σ = shiftIr ∨ σ = exit1Ir ∨ σ = pauseIr ∨ σ = exit2Ir

instance (σ : TapState) : Decidable σ.InIr := inferInstanceAs (Decidable (_ ∨ _))

theorem InIr.next_ne_capture {σ : TapState} (h : σ.InIr) (tms : Bool) : σ.next tms ≠ captureIr := by
  obtain rfl | rfl | rfl | rfl | rfl := h <;> cases tms <;> decide

end TapState

section Waves
variable (s : State) (e : ℕ → Pins) (σ : TapState) (a n : ℕ)

/-- The cycles in which the controller is in `τ`, among the `n` from cycle `a` on. -/
def cyclesIn (τ : TapState) : List ℕ :=
  ((List.range n).filter fun k => controllerAt e σ a k = τ).map fun k => a + k

/-- What is shifted in during a scan of the instruction register. -/
def instructionBits : List Bool := (cyclesIn e σ a n .shiftIr).map fun t => (e t).tdi

/-- What is seen at TDO meanwhile. -/
def instructionAnswer : List Bool := (cyclesIn e σ a n .shiftIr).map fun t => tdoPad (tapAt s e t) (e t)

end Waves

section Scan
variable {s : State} {e : ℕ → Pins} {σ τ : TapState} {a n : ℕ}

theorem cyclesIn_succ : cyclesIn e σ a (n + 1) τ =
    cyclesIn e σ a n τ ++ if controllerAt e σ a n = τ then [a + n] else [] := by
  rw [cyclesIn, List.range_succ, List.filter_append, List.map_append]
  by_cases h : controllerAt e σ a n = τ <;> simp [cyclesIn, h]

theorem tdoPad_of_shiftIr {i : Pins} (h : (cycle s i).flags.shiftIr = true) (j : Pins) :
    tdoPad (cycle s i) j = (cycle s i).jtagIr.getLsbD 0 := if_pos h

theorem tdoPad_of_idcode {i : Pins} (hshift : (cycle s i).flags.shiftIr = false)
    (hlatched : (cycle s i).latchedJtagIr = IDCODE) (j : Pins) :
    tdoPad (cycle s i) j = (cycle s i).idcodeReg.getLsbD 0 := by
  have hneg : (cycle s i).shiftIrNeg = false := hshift
  rw [tdoPad, hneg, if_neg Bool.false_ne_true]
  exact if_pos hlatched

/-! ## The instruction register -/

theorem jtagIr_cycle (h : Shows s σ) (i : Pins) : (cycle s i).jtagIr =
    if σ = .captureIr then 0b0101 else if σ = .shiftIr then shiftIn i.tdi s.jtagIr else s.jtagIr := by
  show (if s.flags.captureIr then _ else if s.flags.shiftIr then _ else _ : BitVec 4) = _
  rw [h.flags]
  cases σ <;> rfl

/-- A scan under way: the bits shifted so far have come in, and as many have been seen. -/
theorem instruction_run (h : Shows (tapAt s e a) .captureIr)
    (hscan : ∀ k < n, (controllerAt e .captureIr a k).InIr) (hn : 0 < n) :
    Shifts 0b0101 (instructionBits e .captureIr a n) (tapAt s e (a + n)).jtagIr
      (instructionAnswer s e .captureIr a n) := by
  induction n, hn using Nat.le_induction with
  | base =>
    have hfirst : (tapAt s e (a + 1)).jtagIr = 0b0101 := jtagIr_cycle h (e a)
    show Shifts _ [] (tapAt s e (a + 1)).jtagIr []
    rw [hfirst]
    exact Shifts.start _
  | succ n hn ih =>
    have hbefore := ih fun k hk => hscan k (by omega)
    have hshows := h.run n
    have hnext : (tapAt s e (a + (n + 1))).jtagIr = _ := jtagIr_cycle hshows (e (a + n))
    have hne : controllerAt e .captureIr a n ≠ .captureIr := by
      obtain ⟨m, rfl⟩ := Nat.exists_eq_succ_of_ne_zero (by omega : n ≠ 0)
      exact (hscan m (by omega)).next_ne_capture _
    rw [if_neg hne] at hnext
    rw [hnext, instructionBits, instructionAnswer, cyclesIn_succ, List.map_append, List.map_append]
    by_cases hshift : controllerAt e .captureIr a n = .shiftIr
    · -- the bit that leaves was put on TDO at the falling edge before
      have htdo : tdoPad (tapAt s e (a + n)) (e (a + n)) = (tapAt s e (a + n)).jtagIr.getLsbD 0 := by
        obtain ⟨m, rfl⟩ := Nat.exists_eq_succ_of_ne_zero (by omega : n ≠ 0)
        refine tdoPad_of_shiftIr (s := tapAt s e (a + m)) (i := e (a + m)) ?_ _
        exact (congrArg Flags.shiftIr hshows.flags).trans (by rw [hshift]; rfl)
      rw [if_pos hshift, if_pos hshift, List.map_singleton, List.map_singleton, htdo]
      exact hbefore.next (by norm_num) _
    · rw [if_neg hshift, if_neg hshift, List.map_nil, List.append_nil, List.map_nil, List.append_nil]
      exact hbefore

/-- **A scan of the instruction.** On every way from Capture-IR to Update-IR the bits of the cycles in
Shift-IR are shifted through a register with `0101`, and what is in it at the end is the instruction. -/
theorem instruction_scanned (s : State) (e : ℕ → Pins) {a n : ℕ} (h : Shows (tapAt s e a) .captureIr)
    (hscan : ∀ k < n, (controllerAt e .captureIr a k).InIr) (hupdate : controllerAt e .captureIr a n = .updateIr) :
    Shifts 0b0101 (instructionBits e .captureIr a n) (tapAt s e (a + n + 1)).latchedJtagIr
      (instructionAnswer s e .captureIr a n) := by
  have hn : 0 < n := by
    by_contra hzero
    obtain rfl : n = 0 := by omega
    cases hupdate
  have hshows := h.run n
  rw [hupdate] at hshows
  have hreset := hshows.tmsReset_eq_false (by decide) (e (a + n))
  have hlatched : (tapAt s e (a + n + 1)).latchedJtagIr = (tapAt s e (a + n)).jtagIr := by
    show (cycle (tapAt s e (a + n)) (e (a + n))).latchedJtagIr = _
    rw [latched_cycle, hreset, hshows.flags]
    rfl
  rw [hlatched]
  exact instruction_run h hscan hn

/-- The registers in a state of the controller, with `IDCODE`. -/
def settled (σ : TapState) : State where
  flags := σ.flags
  tmsQ1 := false
  tmsQ2 := false
  tmsQ3 := false
  tmsQ4 := false
  jtagIr := 0
  latchedJtagIr := IDCODE
  idcodeReg := 0
  bypassReg := false
  instructionTdo := false
  idcodeTdo := false
  bypassedTdo := false
  shiftIrNeg := false
  latchedJtagIrNeg := 0
  tdoPadoe := false

theorem shows_settled (σ : TapState) : Shows (settled σ) σ := ⟨rfl, by cases σ <;> decide⟩

/-- Two bits, a pause and two more, the last of which is high. -/
def pausing (t : ℕ) : Pins := ⟨decide (t ∈ [2, 4, 7, 8]), decide (t = 7)⟩

theorem debug_scanned : (tapAt (settled .captureIr) pausing (0 + 9 + 1)).latchedJtagIr = DEBUG :=
  bits_injective ((instruction_scanned (settled .captureIr) pausing (a := 0) (n := 9) (shows_settled _) (by decide)
    rfl).full rfl).1

/-! ## The identification -/

theorem idcodeReg_cycle (h : Shows s σ) (hlatched : s.latchedJtagIr = IDCODE) (i : Pins) :
    (cycle s i).idcodeReg = if σ = .shiftDr then shiftIn i.tdi s.idcodeReg else IDCODE_VALUE := by
  show (if idcodeSelect s && s.flags.shiftDr then _ else _ : BitVec 32) = _
  rw [h.flags, idcodeSelect, hlatched]
  cases σ <;> rfl

/-- **The identification is read.** While it is selected, the bits seen behind Capture-DR are those of
`IDCODE_VALUE` from the least significant one on, and then those that are shifted in. -/
theorem identification_read (s : State) (e : ℕ → Pins) {a n : ℕ} (h : Shows (tapAt s e a) .captureDr)
    (hlatched : (tapAt s e a).latchedJtagIr = IDCODE)
    (hshift : ∀ k < n, controllerAt e .captureDr a (1 + k) = .shiftDr) :
    (List.range n).map (fun k => tdoPad (tapAt s e (a + 1 + k)) (e (a + 1 + k))) =
      (bits IDCODE_VALUE ++ (List.range n).map fun k => (e (a + 1 + k)).tdi).take n := by
  have hrun : Shifts IDCODE_VALUE ((List.range n).map fun k => (e (a + 1 + k)).tdi)
      (tapAt s e (a + 1 + n)).idcodeReg
      ((List.range n).map fun k => tdoPad (tapAt s e (a + 1 + k)) (e (a + 1 + k))) ∧
        (tapAt s e (a + 1 + n)).latchedJtagIr = IDCODE := by
    induction n with
    | zero =>
      have hfirst : (tapAt s e (a + 1)).idcodeReg = IDCODE_VALUE := idcodeReg_cycle h hlatched (e a)
      refine ⟨?_, (h.latched_eq (by decide) nofun (e a)).trans hlatched⟩
      rw [List.range_zero, List.map_nil, List.map_nil, Nat.add_zero, hfirst]
      exact Shifts.start _
    | succ n ih =>
      obtain ⟨hbefore, hkept⟩ := ih fun k hk => hshift k (by omega)
      have hshows := h.run (1 + n)
      rw [hshift n (by omega), ← Nat.add_assoc] at hshows
      have hnext : (tapAt s e (a + 1 + (n + 1))).idcodeReg = _ := idcodeReg_cycle hshows hkept (e (a + 1 + n))
      have htdo : tdoPad (tapAt s e (a + 1 + n)) (e (a + 1 + n)) =
          (tapAt s e (a + 1 + n)).idcodeReg.getLsbD 0 := by
        rw [Nat.add_right_comm] at hshows hkept ⊢
        exact tdoPad_of_idcode (congrArg Flags.shiftIr hshows.flags) hkept _
      refine ⟨?_, (hshows.latched_eq (by decide) nofun _).trans hkept⟩
      rw [hnext, if_pos rfl, List.range_succ, List.map_append, List.map_append, List.map_singleton,
        List.map_singleton, htdo]
      exact hbefore.next (by norm_num) _
  have houts := hrun.1.left
  rwa [List.length_map, List.length_range] at houts

theorem idcode_read_two : (List.range 2).map (fun k => tdoPad (tapAt (settled .captureDr) (fun _ => ⟨false, false⟩)
    (0 + 1 + k)) ⟨false, false⟩) = [true, false] :=
  identification_read (settled .captureDr) (fun _ => ⟨false, false⟩) (a := 0) (n := 2) (shows_settled _) rfl
    (by decide)

end Scan

end GlipOsd.Jtag.Tap
