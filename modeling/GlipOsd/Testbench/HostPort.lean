import GlipOsd.Him.Framing
import GlipOsd.Him.Ingress
import GlipOsd.Ring.Delivery

/-! # The host at the debug ring

`testbench`: the host interface module is at port 0 of the ring. The modules at the other ports are
not looked into: they may send and be ready as they like, but a flit that they offer they keep.
-/

namespace GlipOsd.Testbench
open Packets Runs GlipOsd.Ring Him
set_option autoImplicit false

/-- As history: a word of the host was offered in the last cycle and not taken. -/
structure System where
  ring : Ring.State
  ingress : Receiving
  egress : Tracked
  offering : Bool

def start (data0 data1 : ℕ → List Flit) (data : List Flit) (size : BitVec 5) (ps : List HostPacket) :
    System :=
  ⟨initial data0 data1, Receiving.start size ps, Him.start data, false⟩

/-- Whether the host offers its next word and takes one, and `dii_out` and `dii_in_ready` of the other
modules. -/
structure Cycle where
  glipInValid : Bool
  glipOutReady : Bool
  diiOut : ℕ → DiiFlit
  diiInReady : ℕ → Bool

/-- No module has anything to send, and all are ready. -/
def silent : Cycle := ⟨true, true, fun _ => DiiFlit.idle, fun _ => true⟩

section Signals
variable (N BUFFER_SIZE : ℕ) (s : System) (i : Cycle)

/-- `dii_out[0]`, which does not depend on `dii_out_ready[0]`. -/
def himOut : DiiFlit := s.ingress.regs.diiOut (s.ingress.input ⟨i.glipInValid, 0, false⟩)

def ringIn : Ring.Input where
  diiIn p := if p = 0 then himOut s i else i.diiOut p
  diiOutReady p := if p = 0 then diiInReady s.egress.regs else i.diiInReady p

/-- `dii_out_ready[0]` -/
def himOutReady : Bool := (muxRing0 BUFFER_SIZE s.ring (ringIn s i) 0).ready1

def ingressIn : IngressIn := ⟨i.glipInValid, 0, himOutReady BUFFER_SIZE s i⟩

/-- `dii_in[0]` is its flit. -/
def egressIn : Him.Input := ⟨(muxLocal N s.ring (ringIn s i) 0).out, i.glipOutReady⟩

def wordRefused : Bool :=
  (s.ingress.input (ingressIn BUFFER_SIZE s i)).glipInValid &&
    !s.ingress.regs.glipInReady (s.ingress.input (ingressIn BUFFER_SIZE s i))

/-- The host and the modules keep what they offer until it is taken. -/
def Keeps : Prop :=
  (s.offering = true → i.glipInValid = true) ∧
    ∀ p < N, p ≠ 0 → ∀ flit ∈ s.ring.offered p, i.diiOut p = flit

instance : Decidable (Keeps N s i) :=
  inferInstanceAs (Decidable (_ ∧ ∀ p < N, _))

def step : Option System :=
  if Keeps N s i then do
    let ingress ← s.ingress.cycle (ingressIn BUFFER_SIZE s i)
    let egress ← Him.cycle s.egress (egressIn N s i)
    some ⟨next N BUFFER_SIZE s.ring (ringIn s i), ingress, egress, wordRefused BUFFER_SIZE s i⟩
  else none

end Signals

variable {N BUFFER_SIZE : ℕ} {s s' : System} {i : Cycle}

theorem step_eq_some : step N BUFFER_SIZE s i = some s' ↔ Keeps N s i ∧
    s'.ring = next N BUFFER_SIZE s.ring (ringIn s i) ∧
    s.ingress.cycle (ingressIn BUFFER_SIZE s i) = some s'.ingress ∧
    Him.cycle s.egress (egressIn N s i) = some s'.egress ∧
    s'.offering = wordRefused BUFFER_SIZE s i := by
  unfold step
  split_ifs with hkeeps
  · obtain ⟨ingress, hingress⟩ : ∃ t, s.ingress.cycle (ingressIn BUFFER_SIZE s i) = some t := ⟨_, rfl⟩
    obtain ⟨egress, hegress⟩ : ∃ t, Him.cycle s.egress (egressIn N s i) = some t := ⟨_, rfl⟩
    rw [hingress, hegress]
    simp only [Option.bind_eq_bind, Option.bind_some, Option.some.injEq]
    constructor
    · rintro rfl
      exact ⟨hkeeps, rfl, rfl, rfl, rfl⟩
    · rintro ⟨-, hring, rfl, rfl, hoffering⟩
      rw [← hring, ← hoffering]
  · exact ⟨fun h => (nomatch h), fun h => absurd h.1 hkeeps⟩

/-! ## The wires at port 0 -/

/-- What the module at port 0 has sent and received is what the ring has accepted and delivered there,
and a flit that was not accepted is offered again. -/
structure Wired (s : System) : Prop where
  injected : (s.ring.injected 0).map Flit.toDiiFlit = s.ingress.flits
  accepted : s.egress.accepted = s.ring.delivered 0
  offered : ∀ flit ∈ s.ring.offered 0, s.offering = true ∧
    ∀ i : Cycle, i.glipInValid = true → himOut s i = flit

theorem himOut_eq (s : System) (i : Cycle) (ready : Bool) :
    s.ingress.regs.diiOut (s.ingress.input ⟨i.glipInValid, 0, ready⟩) = himOut s i := by
  unfold himOut Receiving.input
  cases s.ingress.toSend with
  | nil => rfl
  | cons w ws => cases i.glipInValid <;> rfl

theorem diiIn_module {p : ℕ} (hp : p ≠ 0) : (ringIn s i).diiIn p = i.diiOut p := by
  simp only [ringIn, if_neg hp]

theorem input_diiOutReady (t : Receiving) (i : IngressIn) : (t.input i).diiOutReady = i.diiOutReady := by
  unfold Receiving.input
  split
  · rfl
  · split_ifs <;> rfl

theorem himOut_valid (BUFFER_SIZE : ℕ) : (himOut s i).valid = true ↔ s.ingress.regs.ingressActive = true ∧
    (s.ingress.input (ingressIn BUFFER_SIZE s i)).glipInValid = true := by
  rw [← himOut_eq s i (himOutReady BUFFER_SIZE s i)]
  exact Bool.and_eq_true_iff

theorem himOut_congr {j : Cycle} (hingress : s'.ingress = s.ingress)
    (hvalid : j.glipInValid = i.glipInValid) : himOut s' j = himOut s i := by
  unfold himOut
  rw [hingress, hvalid]

theorem wired_start (data0 data1 : ℕ → List Flit) (data : List Flit) (size : BitVec 5)
    (ps : List HostPacket) : Wired (start data0 data1 data size ps) :=
  ⟨rfl, rfl, fun _ h => (nomatch h)⟩

/-- A flit of the host interface module is refused together with the word that it was made of. -/
theorem refused (hvalid : (himOut s i).valid = true) (hready : himOutReady BUFFER_SIZE s i = false) :
    i.glipInValid = true ∧ wordRefused BUFFER_SIZE s i = true ∧
      s.ingress.taken (ingressIn BUFFER_SIZE s i) = [] := by
  obtain ⟨hactive, hword⟩ := (himOut_valid BUFFER_SIZE).mp hvalid
  have hnot : s.ingress.regs.glipInReady (s.ingress.input (ingressIn BUFFER_SIZE s i)) = false := by
    rw [Ingress.glipInReady, hactive, input_diiOutReady]
    exact hready
  refine ⟨?_, ?_, ?_⟩
  · unfold Receiving.input at hword
    split at hword
    · cases hword
    · split_ifs at hword with h
      · exact h
      · exact hword
  · rw [wordRefused, hword, hnot]
    rfl
  · rw [Receiving.taken, hword, hnot]
    rfl

theorem Wired.next (h : Wired s) (hstep : step N BUFFER_SIZE s i = some s') : Wired s' := by
  obtain ⟨-, hring, hingress, hegress, hoffering⟩ := step_eq_some.mp hstep
  refine ⟨?_, ?_, ?_⟩
  · have hflits : s'.ingress.flits = s.ingress.flits ++
        (himOut s i).transfer (himOutReady BUFFER_SIZE s i) := by
      obtain hcycle := Option.some.inj hingress
      rw [← hcycle, ← himOut_eq s i (himOutReady BUFFER_SIZE s i)]
      rfl
    rw [hring, injected_next, List.map_append, h.injected, hflits]
    exact congrArg _ (map_transfer (localIn s.ring (ringIn s i) 0) _)
  · have haccepted : s'.egress.accepted = s.egress.accepted ++
        (muxLocal N s.ring (ringIn s i) 0).out.transfer (diiInReady s.egress.regs) := by
      obtain hcycle := Option.some.inj hegress
      rw [← hcycle]
      rfl
    rw [haccepted, h.accepted, hring, delivered_next]
    rfl
  · intro flit hflit
    rw [hring] at hflit
    simp only [Ring.next] at hflit
    split_ifs at hflit with hrefused
    · obtain rfl : himOut s i = flit := Option.some.inj hflit
      obtain ⟨hvalid, hnot⟩ := Bool.and_eq_true_iff.mp hrefused
      rw [Ring.accepted, hvalid, Bool.true_and, Bool.not_eq_true'] at hnot
      obtain ⟨hword, hkept, htaken⟩ := refused hvalid hnot
      refine ⟨hoffering.trans hkept, fun j hj => himOut_congr ?_ (hj.trans hword.symm)⟩
      exact Receiving.cycle_idle htaken hingress
    · cases hflit

/-- The host interface module keeps the protocol of the interconnect, so that every cycle of the system
is one of the ring. -/
theorem Wired.held (h : Wired s) (hkeeps : Keeps N s i) : Held N s.ring (ringIn s i) := by
  obtain ⟨hhost, hmodules⟩ := hkeeps
  intro p hp flit hflit
  by_cases hzero : p = 0
  · subst hzero
    obtain ⟨hoffering, hkept⟩ := h.offered flit hflit
    exact hkept i (hhost hoffering)
  · exact (diiIn_module hzero).trans (hmodules p hp hzero flit hflit)

theorem Wired.ring_step (h : Wired s) (hstep : step N BUFFER_SIZE s i = some s') :
    Ring.step N BUFFER_SIZE s.ring (ringIn s i) = some s'.ring := by
  obtain ⟨hkeeps, hring, -⟩ := step_eq_some.mp hstep
  rw [Ring.step, if_pos (h.held hkeeps), hring]

theorem wired_stable : Stable (step N BUFFER_SIZE) Wired := fun _ _ _ h hstep => h.next hstep

theorem ring_run {data0 data1 : ℕ → List Flit} {data : List Flit} {size : BitVec 5}
    {ps : List HostPacket} {cycles : List Cycle} {t : System}
    (hrun : runFrom (step N BUFFER_SIZE) (start data0 data1 data size ps) cycles = some t) :
    ∃ inputs, runFrom (Ring.step N BUFFER_SIZE) (initial data0 data1) inputs = some t.ring :=
  wired_stable.project System.ring (fun _ _ _ h hstep => h.ring_step hstep)
    (wired_start data0 data1 data size ps) hrun

end GlipOsd.Testbench
