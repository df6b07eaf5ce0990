import GlipOsd.DemUart.Packets
import GlipOsd.Testbench.Draining

/-! # The greeting

`testbench` with `u_uart` at port 2 and the process that writes to it over the bus. What the host receives from
there, besides the responses of the module, is the text that the process writes, character by character.
-/

namespace GlipOsd.Testbench.Greeting
open Packets Runs GlipOsd.Ring DemUart DemUart.Nasti
set_option autoImplicit false

/-! ## The process -/

/-- The outputs of the process, with 0 for `x`. `aw_valid` is `w_valid`; `b_ready` and `r_ready` are 1. -/
structure Bus where
  wValid : Bool
  arValid : Bool
  awAddr : BitVec 3
  wData : BitVec 8
  arAddr : BitVec 3

def Bus.write (addr : BitVec 3) (data : BitVec 8) : Bus := ⟨true, false, addr, data, 0⟩

def Bus.read (addr : BitVec 3) : Bus := ⟨false, true, 0, 0, addr⟩

def bus (counter : BitVec 5) : Bus :=
  match counter.toNat with
  | 0 => .write 3 0x80
  | 1 => .write 0 0xde
  | 2 => .write 0 0xad
  | 3 => .write 3 0x00
  | 4 => .read 5
  | 5 => .write 0 0x48
  | 6 => .read 5
  | 7 => .write 0 0x65
  | 8 => .write 0 0x6c
  | 9 => .write 0 0x6c
  | 10 => .write 0 0x6f
  | 11 => .write 0 0x20
  | 12 => .write 0 0x57
  | 13 => .write 0 0x6f
  | 14 => .write 0 0x72
  | 15 => .write 0 0x6c
  | 16 => .write 0 0x64
  | 17 => .write 0 0x21
  | 18 => .write 0 0x0a
  | _ => ⟨false, false, 0, 0, 0⟩

/-- The inputs of `u_uart`. -/
def uartIn (counter : BitVec 5) (debugIn : DiiFlit) (debugOutReady : Bool) : Nasti.Input where
  arAddr := (bus counter).arAddr
  arValid := (bus counter).arValid
  rReady := true
  awAddr := (bus counter).awAddr
  awValid := (bus counter).wValid
  wData := (bus counter).wData
  wValid := (bus counter).wValid
  bReady := true
  debugIn := debugIn
  debugOutReady := debugOutReady

/-- `w_valid & w_ready`, where `w_ready` is the same as `aw_ready`, or `ar_valid & ar_ready`. -/
def counts (s : Nasti.Regs) (i : Nasti.Input) : Bool := i.wValid && awReady s i || i.arValid && arReady s i

def nextCounter (s : Nasti.Regs) (i : Nasti.Input) (counter : BitVec 5) : BitVec 5 :=
  if counts s i then counter + 1 else counter

/-- The access that is on the bus. -/
def offered (b : Bus) : Option Transaction :=
  if b.wValid then some (.write b.awAddr b.wData) else if b.arValid then some (.read b.arAddr) else none

/-- All accesses of the process, in their order. -/
def accesses : List Transaction := (List.range 19).filterMap fun n => offered (bus (BitVec.ofNat 5 n))

def text : List (BitVec 8) :=
  ['H', 'e', 'l', 'l', 'o', ' ', 'W', 'o', 'r', 'l', 'd', '!', '\n'].map fun c => BitVec.ofNat 8 c.toNat

/-- The divisor is not part of the text. -/
theorem written_accesses : written false accesses = text := by decide

theorem offered_bus : ∀ counter : BitVec 5, offered (bus counter) = accesses[counter.toNat]? := by decide

theorem accepts_uartIn (s : Nasti.Regs) (counter : BitVec 5) (debugIn : DiiFlit) (debugOutReady : Bool) :
    accepts s (uartIn counter debugIn debugOutReady) =
      if counts s (uartIn counter debugIn debugOutReady) then (offered (bus counter)).toList else [] := by
  unfold accepts counts awReady arReady offered uartIn
  cases (bus counter).wValid <;> cases (bus counter).arValid <;> cases s.busReq <;> cases s.resp <;> simp

theorem offered_of_counts {s : Nasti.Regs} {counter : BitVec 5} {debugIn : DiiFlit} {debugOutReady : Bool}
    (h : counts s (uartIn counter debugIn debugOutReady) = true) : ∃ access, offered (bus counter) = some access := by
  unfold counts uartIn at h
  unfold offered
  split_ifs with hw hr
  · exact ⟨_, rfl⟩
  · exact ⟨_, rfl⟩
  · simp [hw, hr] at h

/-- The counter says how many accesses have been accepted. -/
structure Counted (counter : BitVec 5) (accepted : List Transaction) : Prop where
  le : counter.toNat ≤ accesses.length
  accepted : accepted = accesses.take counter.toNat

theorem Counted.next {counter : BitVec 5} {t : Nasti.Tracked} (h : Counted counter t.accepted) (id : BitVec 10)
    (debugIn : DiiFlit) (debugOutReady : Bool) :
    Counted (nextCounter t.regs (uartIn counter debugIn debugOutReady) counter)
      (Nasti.cycle id t (uartIn counter debugIn debugOutReady)).accepted := by
  have haccepted : (Nasti.cycle id t (uartIn counter debugIn debugOutReady)).accepted =
      accesses.take counter.toNat ++ accepts t.regs (uartIn counter debugIn debugOutReady) := by
    rw [← h.accepted]
    rfl
  rw [haccepted, accepts_uartIn, nextCounter]
  cases hcounts : counts t.regs (uartIn counter debugIn debugOutReady) with
  | false => exact ⟨h.le, by simp⟩
  | true =>
    obtain ⟨access, hoffered⟩ := offered_of_counts hcounts
    have haccess := (offered_bus counter).symm.trans hoffered
    have hlt : counter.toNat < accesses.length := (List.getElem?_eq_some_iff.mp haccess).1
    have hnext : (counter + 1).toNat = counter.toNat + 1 := by
      have hlength : accesses.length = 19 := by decide
      have hone : (1 : BitVec 5).toNat = 1 := rfl
      rw [BitVec.toNat_add, hone]
      omega
    rw [if_pos rfl, if_pos rfl]
    refine ⟨by rw [hnext]; exact hlt, ?_⟩
    rw [hnext, List.take_add_one, haccess, hoffered]

/-! ## The module at the ring -/

structure State where
  system : System
  uart : Nasti.Tracked
  counter : BitVec 5

/-- Nothing drives `cpu_rst`, so that `counter` is not reset: it starts with 0, as in the simulation. -/
def start (data0 data1 : ℕ → List Flit) (data : List Flit) (size : BitVec 5) (ps : List Him.HostPacket)
    (regs : Nasti.Regs) : State :=
  ⟨Testbench.start data0 data1 data size ps, ⟨regs, [], []⟩, 0⟩

/-- `id` is `10'd2`. What is on `debug_out` does not depend on the inputs. -/
def uartOut (s : State) : DiiFlit := (Nasti.debugOut 2 s.uart.regs (uartIn s.counter .idle false)).toDiiFlit

section Signals
variable (N BUFFER_SIZE : ℕ) (s : State) (i : Cycle)

/-- The cycle of the ring, in which the module is at port 2. -/
def wiredIn : Cycle where
  glipInValid := i.glipInValid
  glipOutReady := i.glipOutReady
  diiOut p := if p = 2 then uartOut s else i.diiOut p
  diiInReady p := if p = 2 then Statctrlif.debugInReady s.uart.regs.uart.ctrl else i.diiInReady p

/-- `dii_in[2]` and `dii_out_ready[2]`, and the bus. -/
def portIn : Nasti.Input :=
  uartIn s.counter (muxLocal N s.system.ring (ringIn s.system (wiredIn s i)) 2).out.toDiiFlit
    (muxRing0 BUFFER_SIZE s.system.ring (ringIn s.system (wiredIn s i)) 2).ready1

def step : Option State := do
  let system ← Testbench.step N BUFFER_SIZE s.system (wiredIn s i)
  some ⟨system, Nasti.cycle 2 s.uart (portIn N BUFFER_SIZE s i),
    nextCounter s.uart.regs (portIn N BUFFER_SIZE s i) s.counter⟩

end Signals

variable {N BUFFER_SIZE : ℕ} {s s' t : State} {i : Cycle}

theorem step_eq_some : step N BUFFER_SIZE s i = some s' ↔
    Testbench.step N BUFFER_SIZE s.system (wiredIn s i) = some s'.system ∧
      s'.uart = Nasti.cycle 2 s.uart (portIn N BUFFER_SIZE s i) ∧
      s'.counter = nextCounter s.uart.regs (portIn N BUFFER_SIZE s i) s.counter := by
  unfold step
  cases Testbench.step N BUFFER_SIZE s.system (wiredIn s i) with
  | none => exact ⟨fun h => (nomatch h), fun h => (nomatch h.1)⟩
  | some system =>
    simp only [Option.bind_eq_bind, Option.bind_some, Option.some.injEq]
    constructor
    · rintro rfl
      exact ⟨rfl, rfl, rfl⟩
    · rintro ⟨rfl, huart, hcounter⟩
      rw [← huart, ← hcounter]

theorem mux_out (state : MuxState) (inRing inLocal : Flit) (ready ready' : Bool) :
    (mux state inRing inLocal ready).out = (mux state inRing inLocal ready').out := by
  cases state with
  | noworm =>
    simp only [mux]
    split_ifs <;> rfl
  | wormRing | wormLocal => rfl

theorem debugOut_eq (s : State) (debugIn : DiiFlit) (debugOutReady : Bool) :
    (Nasti.debugOut 2 s.uart.regs (uartIn s.counter debugIn debugOutReady)).toDiiFlit = uartOut s :=
  congrArg Flit.toDiiFlit (mux_out _ _ _ _ _)

/-- What the module has sent is what the ring has accepted. -/
theorem injected_next_eq (h : (s.system.ring.injected 2).map Flit.toDiiFlit = s.uart.sent.map Flit.toDiiFlit)
    (hstep : step N BUFFER_SIZE s i = some s') :
    (s'.system.ring.injected 2).map Flit.toDiiFlit = s'.uart.sent.map Flit.toDiiFlit := by
  obtain ⟨hsystem, huart, -⟩ := step_eq_some.mp hstep
  obtain ⟨-, hring, -⟩ := Testbench.step_eq_some.mp hsystem
  rw [hring, injected_next, List.map_append, h, injecting, map_transfer, huart, Nasti.cycle, List.map_append,
    map_transfer, portIn, debugOut_eq]
  rfl

/-- The stall bit was set before the first flit of a character was taken. -/
def Withdrawn (s : State) : Prop :=
  Blocking.Withdrawn s.uart.regs.uart (Nasti.uartInput s.uart.regs (uartIn s.counter .idle false))

theorem Withdrawn.not_valid (h : Withdrawn s) : (uartOut s).valid = false := by
  obtain ⟨hmux, hnot⟩ := Blocking.withdrawn_iff.mp h
  rw [uartOut, Nasti.debugOut, debugOut_wormLocal hmux]
  exact hnot

/-! ## Every run -/

structure Running (N BUFFER_SIZE : ℕ) (s : State) : Prop where
  delivers : Delivers N BUFFER_SIZE s.system.ring
  sent : (s.system.ring.injected 2).map Flit.toDiiFlit = s.uart.sent.map Flit.toDiiFlit
  performed : Performed 2 s.uart
  locked : Locked 2 s.uart.regs.uart
  merged : Merged 2 s.uart
  counted : Counted s.counter s.uart.accepted
  offered : ∀ flit ∈ s.system.ring.offered 2, flit.valid = true ∧ (uartOut s = flit ∨ Withdrawn s)

theorem Running.offered_next (h : Running N BUFFER_SIZE s) (hstep : step N BUFFER_SIZE s i = some s') :
    ∀ flit ∈ s'.system.ring.offered 2, flit.valid = true ∧ (uartOut s' = flit ∨ Withdrawn s') := by
  obtain ⟨hsystem, huart, -⟩ := step_eq_some.mp hstep
  obtain ⟨-, hring, -⟩ := Testbench.step_eq_some.mp hsystem
  intro flit hflit
  rw [hring] at hflit
  simp only [Ring.next] at hflit
  split_ifs at hflit with hrefused
  · obtain rfl : uartOut s = flit := Option.some.inj hflit
    obtain ⟨hvalid, hnot⟩ := Bool.and_eq_true_iff.mp hrefused
    rw [Ring.accepted, hvalid, Bool.true_and, Bool.not_eq_true'] at hnot
    have hsame : (Nasti.debugOut 2 s.uart.regs (portIn N BUFFER_SIZE s i)).toDiiFlit = uartOut s := debugOut_eq s _ _
    have hv : (Nasti.debugOut 2 s.uart.regs (portIn N BUFFER_SIZE s i)).valid = true :=
      (congrArg DiiFlit.valid hsame).trans hvalid
    refine ⟨hvalid, ?_⟩
    rw [uartOut, Withdrawn, huart, ← hsame]
    exact (h.performed.debugOut_kept h.locked hnot hv (uartIn s'.counter .idle false)).imp (congrArg Flit.toDiiFlit) id
  · cases hflit

theorem diiOut_other {p : ℕ} (htwo : p ≠ 2) : (wiredIn s i).diiOut p = i.diiOut p := if_neg htwo

/-- The module keeps the protocol of the interconnect by itself as long as it is not stalled while the first flit of a
character waits. -/
theorem Running.keeps_iff (h : Running N BUFFER_SIZE s) (hN : 3 ≤ N) : Keeps N s.system (wiredIn s i) ↔
    (s.system.offering = true → i.glipInValid = true) ∧
      (∀ p < N, p ≠ 0 → p ≠ 2 → ∀ flit ∈ s.system.ring.offered p, i.diiOut p = flit) ∧
      (Withdrawn s → s.system.ring.offered 2 = none) := by
  refine and_congr_right fun _ => ⟨fun hall => ⟨fun p hp hzero htwo flit hflit => ?_, fun hwithdrawn => ?_⟩, ?_⟩
  · exact (diiOut_other htwo).symm.trans (hall p hp hzero flit hflit)
  · refine Option.eq_none_iff_forall_not_mem.mpr fun flit hflit => ?_
    have hkept : uartOut s = flit := hall 2 (by omega) (by decide) flit hflit
    obtain ⟨hvalid, -⟩ := h.offered flit hflit
    rw [← hkept, hwithdrawn.not_valid] at hvalid
    cases hvalid
  · rintro ⟨hothers, hnone⟩ p hp hzero flit hflit
    by_cases htwo : p = 2
    · subst htwo
      obtain ⟨-, hkept | hwithdrawn⟩ := h.offered flit hflit
      · exact hkept
      · rw [hnone hwithdrawn] at hflit
        cases hflit
    · exact (diiOut_other htwo).trans (hothers p hp hzero htwo flit hflit)

theorem running_start (hB : 2 ≤ BUFFER_SIZE) {regs : Nasti.Regs} (hregs : Nasti.IsReset regs)
    (data0 data1 : ℕ → List Flit) (data : List Flit) (size : BitVec 5) (ps : List Him.HostPacket) :
    Running N BUFFER_SIZE (start data0 data1 data size ps regs) :=
  ⟨delivers_initial hB data0 data1, rfl, performed_of_isReset hregs, locked_of_isReset hregs.2.2.2, merged_reset hregs,
    ⟨Nat.zero_le _, rfl⟩, fun _ h => nomatch h⟩

theorem running_stable (hN : 1 ≤ N) (hmax : N ≤ 1024) (hB : 2 ≤ BUFFER_SIZE) :
    Stable (step N BUFFER_SIZE) (Running N BUFFER_SIZE) := by
  intro s i s' h hstep
  obtain ⟨hsystem, huart, hcounter⟩ := step_eq_some.mp hstep
  obtain ⟨-, hring, -⟩ := Testbench.step_eq_some.mp hsystem
  refine ⟨hring ▸ h.delivers.next hN hmax hB, injected_next_eq h.sent hstep, ?_, ?_, ?_, ?_, h.offered_next hstep⟩
  · rw [huart]
    exact performed_cycle h.performed
  · rw [huart]
    exact locked_next h.locked
  · rw [huart]
    exact h.merged.cycle
  · rw [huart, hcounter]
    exact h.counted.next 2 _ _

theorem forPort_chars (cs : List (BitVec 8)) : forPort 0 (cs.map (charPacket 2)) = cs.map (charPacket 2) := by
  refine List.filter_eq_self.mpr fun q hq => ?_
  obtain ⟨c, -, rfl⟩ := List.mem_map.mp hq
  rfl

/-- The characters of the packets that the module has sent to the host. -/
theorem Running.chars_sent (h : Running N BUFFER_SIZE s) :
    ((packetsTo 0 (s.system.ring.injected 2)).map (List.map Flit.toDiiFlit)).filter isChar =
      forPort 0 (cut DiiFlit.last (chars s.uart.sent)).1 := by
  rw [packetsTo_map, h.sent, forPort, List.filter_filter, ← h.merged.filter_isChar h.performed, forPort,
    List.filter_filter]
  exact List.filter_congr fun q _ => Bool.and_comm _ _

/-- **The greeting.** In every run of the system in which the module is not stalled while the first flit of a character
waits (`Running.keeps_iff`), whatever the host and the other modules send, the packets from port 2 that the host receives
and that are no responses hold the first characters of the text, in their order, and all of it once the process has done
its last access and the ring is empty. -/
theorem greeting_received (hN : 3 ≤ N) (hmax : N ≤ 1024) (hB : 2 ≤ BUFFER_SIZE) {regs : Nasti.Regs}
    (hregs : Nasti.IsReset regs) {data0 data1 : ℕ → List Flit} {data : List Flit} {size : BitVec 5}
    {ps : List Him.HostPacket} {cycles : List Cycle}
    (hrun : runFrom (step N BUFFER_SIZE) (start data0 data1 data size ps regs) cycles = some t) :
    (received t.system 0 2).filter isChar <+: text.map (charPacket 2) ∧
      (t.counter = 19 → t.uart.regs.busReq = false → load N t.system.ring = 0 →
        (received t.system 0 2).filter isChar = text.map (charPacket 2)) := by
  have h := (running_stable (by omega) hmax hB).run (running_start hB hregs data0 data1 data size ps) hrun
  constructor
  · have hpre := h.delivers.packetsFrom_prefix hmax (i := 0) (j := 2) (by omega) (by omega)
    refine ((hpre.map (List.map Flit.toDiiFlit)).filter isChar).trans ?_
    rw [h.chars_sent, ← forPort_chars]
    refine (h.performed.cut_prefix.trans (List.IsPrefix.map _ ?_)).filter _
    rw [← written_accesses, h.counted.accepted]
    exact written_prefix false (List.take_prefix _ _)
  · intro hcounter hbus hload
    rw [received, h.delivers.packets_eq hmax (load_eq_zero.mp hload) (by omega) (by omega), h.chars_sent]
    have hall : t.uart.accepted = accesses := by
      rw [h.counted.accepted, hcounter]
      rfl
    have hperformed := h.performed
    rw [Performed, hbus] at hperformed
    rw [hperformed.1.sent, hall, packets_eq_flatMap, cut_packets, written_accesses, forPort_chars]

/-! The host clears the stall bit of the module with a write to its register `REG_CS`. -/

def unstallPacket : Him.HostPacket := ⟨[0x0200, 0x0014, 0x0300, 0x0008], by decide⟩

/-- From then on a character leaves every five cycles, and behind the last access of the process the host has received
the whole text. -/
theorem whole_greeting_received : ∃ t, runFrom (step 3 2)
      (start (fun _ => []) (fun _ => []) [] 0 [unstallPacket] Nasti.resetRegs) (List.replicate 83 silent) = some t ∧
    (received t.system 0 2).filter isChar = text.map (charPacket 2) := by
  obtain ⟨t, hrun, hcounter, hbus, hload⟩ : ∃ t ∈ runFrom (step 3 2)
      (start (fun _ => []) (fun _ => []) [] 0 [unstallPacket] Nasti.resetRegs) (List.replicate 83 silent),
      t.counter = 19 ∧ t.uart.regs.busReq = false ∧ load 3 t.system.ring = 0 := by
    decide +kernel
  exact ⟨t, hrun, (greeting_received (by decide) (by decide) (by decide) Nasti.isReset_resetRegs hrun).2 hcounter hbus
    hload⟩

end GlipOsd.Testbench.Greeting
