import GlipOsd.Foundations.Runs
import GlipOsd.Statctrlif.Model

/-! # Packet boundaries on `debug_in`

The packets on `debug_in` are delimited by `last`. `Tracked` adds to the registers whether the next
flit is the first one of a packet; the module is synchronised when it takes exactly these flits
in `STATE_IDLE`.
-/

namespace GlipOsd.Statctrlif.PacketSync
open Runs
set_option autoImplicit false

variable {w : ℕ}

structure Tracked (w : ℕ) where
  regs : Regs w
  /-- The next flit taken is the first one of a packet. -/
  first : Bool

/-- A cycle: a flit that is taken is followed by a first flit if it is the last one. -/
def cycle (p : Params) (t : Tracked w) (i : Input) : Option (Tracked w) :=
  some ⟨next p t.regs i,
    if i.debugIn.valid && debugInReady t.regs then i.debugIn.last else t.first⟩

/-- The states in which the packet in progress was taken as a whole. -/
def betweenPackets : State → Bool
  | .start | .addr | .write | .drop => false
  | _ => true

/-- In `STATE_IDLE` the next flit starts a packet, and so it does once the module responds; in the
states that take the later flits of a packet it does not. -/
def Synchronised (t : Tracked w) : Prop := t.first = betweenPackets t.regs.state

/-- The module leaves a packet only with its last flit. -/
def TakesWhole (t : Tracked w) (i : Input) : Prop :=
  match t.regs.state with
  | .idle | .start => i.debugIn.valid = true → i.debugIn.last = false
  | .addr =>
    if addrIsExt i.debugIn.data then i.debugIn.valid = true ∧ i.debugIn.last = true
    else i.debugIn.valid = true → i.debugIn.last = false → t.regs.reqWrite = true →
      t.regs.reqSize = reqSize16 ∧ i.debugIn.data = regCs
  | _ => True

instance (t : Tracked w) : Decidable (Synchronised t) := inferInstanceAs (Decidable (_ = _))

instance (t : Tracked w) (i : Input) : Decidable (TakesWhole t i) := by
  unfold TakesWhole
  cases t.regs.state <;> infer_instance

variable {p : Params} {t t' : Tracked w} {i : Input}

theorem synchronised_addr (hs : t.regs.state = .addr) (hsync : Synchronised t) :
    Synchronised (w := w) ⟨next p t.regs i, if i.debugIn.valid then i.debugIn.last else t.first⟩ ↔
      TakesWhole t i := by
  have hfirst : t.first = false := by rw [hsync, hs]; rfl
  unfold Synchronised TakesWhole next
  simp only [hs]
  by_cases hext : addrIsExt i.debugIn.data = true
  · simp only [if_pos hext, hfirst]
    cases i.debugIn.valid <;> simp [betweenPackets]
  · simp only [if_neg hext, hfirst]
    cases hvalid : i.debugIn.valid with
    | false => simp [betweenPackets, hs]
    | true =>
      simp only [if_true, true_implies, acceptAddr, decodeAddr_reqWrite]
      cases hw : t.regs.reqWrite with
      | false => cases i.debugIn.last <;> simp [betweenPackets]
      | true =>
        have herr := decodeAddr_respError_of_write (p := p) hw i.debugIn.data
        cases hlast : i.debugIn.last with
        | true => simp [betweenPackets]
        | false =>
          simp only [if_true, Bool.false_eq_true, if_false, true_implies]
          split_ifs with hrefused
          · simpa [betweenPackets] using herr.mp hrefused
          · simpa [betweenPackets] using not_not.mp (mt herr.mpr hrefused)

/-- One cycle: the module stays synchronised exactly if it takes whole packets. -/
theorem synchronised_cycle (hsync : Synchronised t) (hstep : cycle p t i = some t') :
    Synchronised t' ↔ TakesWhole t i := by
  obtain rfl := Option.some.inj hstep
  cases hs : t.regs.state with
  | addr =>
    have hready : debugInReady t.regs = true := by simp only [debugInReady, hs]
    rw [hready, Bool.and_true]
    exact synchronised_addr hs hsync
  | idle =>
    have hfirst : t.first = true := by rw [hsync, hs]; rfl
    simp only [Synchronised, TakesWhole, next, debugInReady, hs, hfirst]
    cases i.debugIn.valid <;> cases i.debugIn.last <;> simp [betweenPackets, hs]
  | start =>
    have hfirst : t.first = false := by rw [hsync, hs]; rfl
    simp only [Synchronised, TakesWhole, next, debugInReady, hs, hfirst]
    cases i.debugIn.valid with
    | false => simp [betweenPackets, hs]
    | true =>
      simp only [if_true, Bool.and_self, true_implies]
      split_ifs <;> simp [betweenPackets]
  | write =>
    have hfirst : t.first = false := by rw [hsync, hs]; rfl
    simp only [Synchronised, TakesWhole, next, debugInReady, hs, hfirst]
    cases i.debugIn.valid <;> cases i.debugIn.last <;> simp [betweenPackets, hs]
  | drop =>
    have hfirst : t.first = false := by rw [hsync, hs]; rfl
    simp only [Synchronised, TakesWhole, next, debugInReady, hs, hfirst]
    cases i.debugIn.valid <;> cases i.debugIn.last <;> simp [betweenPackets, hs]
  | extWait =>
    have hfirst : t.first = true := by rw [hsync, hs]; rfl
    simp [Synchronised, TakesWhole, next, debugInReady, hs, hfirst, betweenPackets]
  | respStart | respSrc | respValue | extStart =>
    have hfirst : t.first = true := by rw [hsync, hs]; rfl
    simp only [Synchronised, TakesWhole, next, debugInReady, hs, hfirst, Bool.and_false,
      Bool.false_eq_true, if_false, iff_true]
    split_ifs <;> simp [betweenPackets, hs]

theorem cycle_isSome (p : Params) (t : Tracked w) (i : Input) : (cycle p t i).isSome := rfl

/-- **Whole packets.** From reset, every state of a run is synchronised if and only if every cycle of it
takes the packet in progress as a whole. -/
theorem synchronised_iff (p : Params) (s : Regs w) (hs : IsReset s) (inputs : List Input) :
    Passes (cycle p) Synchronised ⟨s, true⟩ inputs ↔ Takes (cycle p) TakesWhole ⟨s, true⟩ inputs := by
  have hstart : Synchronised (⟨s, true⟩ : Tracked w) := by
    simp only [Synchronised, hs.1, betweenPackets]
  obtain ⟨t, hrun⟩ := exists_run (cycle p) (cycle_isSome p) ⟨s, true⟩ inputs
  exact passes_iff_takes (fun _ => True) (fun _ _ _ _ _ _ _ => trivial)
    (fun _ _ _ _ hsync hstep => synchronised_cycle hsync hstep) trivial hstart hrun

def flit (last : Bool) (data : BitVec 16) : Input := ⟨⟨true, last, data⟩, true, true, false, 0⟩

/-- A local read, answered in two more flits than it takes. -/
theorem local_read_synchronised :
    Passes (cycle scmParams) Synchronised ⟨resetRegs, true⟩
      [flit false 0, flit false 5, flit true 0, flit false 0, flit false 0, flit false 0] :=
  (synchronised_iff scmParams resetRegs ⟨rfl, rfl⟩ _).mpr (by decide +kernel)

/-- A packet of one flit: the first flit of the next packet is taken as its header. -/
theorem short_packet_not_synchronised :
    ∃ t, runFrom (cycle scmParams) ⟨resetRegs, true⟩ [flit true 0] = some t ∧ ¬ Synchronised t ∧
      t.first = true ∧ t.regs.state = .start ∧ debugInReady t.regs = true :=
  ⟨_, rfl, by decide, rfl, rfl, rfl⟩

end GlipOsd.Statctrlif.PacketSync
