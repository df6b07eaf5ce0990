import GlipOsd.DiiBuffer.FullPacket
import GlipOsd.Foundations.Runs

/-! # The host interface module, towards the host

The egress half of `osd_him`: packets from the debug interconnect are stored, and each one is sent to the
host as a word with its size and a word for each flit, with the bytes of a word swapped.
-/

namespace GlipOsd.Him
open Packets GlipOsd.Ring DiiBuffer
set_option autoImplicit false

/-- `BUF_SIZE` -/
def bufSize : ℕ := 8

structure Egress where
  egressActive : Bool
  buffer : FullPacket

structure Input where
  diiIn : Flit
  glipOutReady : Bool

/-- `{data[7:0], data[15:8]}` -/
def swap (data : BitVec 16) : BitVec 16 := data.extractLsb' 0 8 ++ data.extractLsb' 8 8

section Signals
variable (s : Egress) (i : Input)

def diiEgress : Flit := s.buffer.flitOut

/-- The wire has `$clog2(BUF_SIZE)` bits, one less than `packet_size`. -/
def egressPacketSize : ℕ := s.buffer.packetSize bufSize % 2 ^ Nat.clog 2 bufSize

def egressDataBe : BitVec 16 :=
  if !s.egressActive then BitVec.ofNat 16 (egressPacketSize s) else (diiEgress s).data

def glipOutData : BitVec 16 := swap (egressDataBe s)

def glipOutValid : Bool := (diiEgress s).valid

def diiEgressReady : Bool := s.egressActive && i.glipOutReady

def diiInReady : Bool := s.buffer.flitInReady bufSize

def next : Egress where
  egressActive :=
    if !s.egressActive then (diiEgress s).valid && i.glipOutReady
    else !(diiEgressReady s i && (diiEgress s).last)
  buffer := s.buffer.next bufSize i.diiIn (diiEgressReady s i)

end Signals

def reset (data : List Flit) : Egress := ⟨false, FullPacket.reset bufSize data⟩

/-- The flits of a packet, offered one a cycle to a module whose host is ready. -/
def packet (n : ℕ) : List Input :=
  (List.range n).map fun k => ⟨⟨⟨true, k + 1 == n, BitVec.ofNat 16 k⟩, 0, 0⟩, true⟩

/-! ## Histories -/

/-- The registers with their history: the flits accepted, the words transferred, and the word that was
offered and not taken in the last cycle. -/
structure Tracked where
  regs : Egress
  accepted : List Flit
  words : List (BitVec 16)
  offered : Option (BitVec 16)

def start (data : List Flit) : Tracked := ⟨reset data, [], [], none⟩

def sent (s : Egress) (i : Input) : List (BitVec 16) :=
  if glipOutValid s && i.glipOutReady then [glipOutData s] else []

def cycle (t : Tracked) (i : Input) : Option Tracked := some
  { regs := next t.regs i
    accepted := t.accepted ++ i.diiIn.transfer (diiInReady t.regs)
    words := t.words ++ sent t.regs i
    offered := if glipOutValid t.regs && !i.glipOutReady then some (glipOutData t.regs) else none }

/-- The stored flits, oldest first. -/
def stored (t : Tracked) : List Flit := t.regs.buffer.queue

/-- `done` are the packets that have been sent, and `front` the flits of the next one that have. -/
structure Sending (t : Tracked) (done : List (List Flit)) (front : List Flit) : Prop where
  wf : t.regs.buffer.Wf bufSize
  packets : ∀ p ∈ done, IsPacket Flit.ends p
  accepted : t.accepted = done.flatten ++ (front ++ stored t)
  openFront : Open Flit.ends front
  idle : t.regs.egressActive = false → front = []
  active : t.regs.egressActive = true → (stored t).any Flit.ends = true

variable {t t' : Tracked} {i : Input} {done : List (List Flit)} {front : List Flit}

theorem sending_start (data : List Flit) : Sending (start data) [] [] where
  wf := FullPacket.wf_reset (by decide) data
  packets _ h := by cases h
  accepted := rfl
  openFront _ h := by cases h
  idle _ := rfl
  active h := by cases h

theorem Sending.valid_eq (h : Sending t done front) : glipOutValid t.regs = (stored t).any Flit.ends :=
  h.wf.out_valid

theorem Sending.next_stored (h : Sending t done front) (hstep : cycle t i = some t') :
    t'.regs.buffer.Wf bufSize ∧ (diiEgress t.regs).transfer (diiEgressReady t.regs i) ++ stored t' =
      stored t ++ i.diiIn.transfer (diiInReady t.regs) := by
  obtain rfl := Option.some.inj hstep
  apply h.wf.next_spec (by decide)
  intro hready
  exact h.valid_eq.trans (h.active (Bool.and_eq_true_iff.mp hready).1)

/-- No flit is sent: the header is taken, or nothing at all. -/
theorem Sending.cycle_header (h : Sending t done front) (hstep : cycle t i = some t')
    (hready : diiEgressReady t.regs i = false) : Sending t' done front ∧
      stored t' = stored t ++ i.diiIn.transfer (diiInReady t.regs) := by
  obtain ⟨hwf, hstored⟩ := h.next_stored hstep
  rw [hready, Flit.transfer_of_not_ready _ rfl, List.nil_append] at hstored
  obtain rfl := Option.some.inj hstep
  refine ⟨⟨hwf, h.packets, ?_, h.openFront, fun hidle => ?_, fun hactive => ?_⟩, hstored⟩
  · show t.accepted ++ i.diiIn.transfer (diiInReady t.regs) = _
    rw [hstored, h.accepted]
    simp only [List.append_assoc]
  · apply h.idle
    by_contra ha
    rw [Bool.not_eq_false] at ha
    simp [next, ha, hready] at hidle
  · rw [hstored, List.any_append]
    have hany : (stored t).any Flit.ends = true := by
      cases ha : t.regs.egressActive with
      | true => exact h.active ha
      | false =>
        rw [← h.valid_eq]
        simp only [next, ha, Bool.not_false, if_true, Bool.and_eq_true] at hactive
        exact hactive.1
    rw [hany, Bool.true_or]

theorem Sending.cycle_flit (h : Sending t done front) (hstep : cycle t i = some t')
    (hready : diiEgressReady t.regs i = true) : ∃ f rest, stored t = f :: rest ∧ diiEgress t.regs = f ∧
      stored t' = rest ++ i.diiIn.transfer (diiInReady t.regs) ∧
      t'.regs.egressActive = !f.last ∧
      if f.last then Sending t' (done ++ [front ++ [f]]) [] else Sending t' done (front ++ [f]) := by
  have hactive : t.regs.egressActive = true := (Bool.and_eq_true_iff.mp hready).1
  have hvalid : (diiEgress t.regs).valid = true := h.valid_eq.trans (h.active hactive)
  have hqueue : stored t = diiEgress t.regs :: (t.regs.buffer.data.take t.regs.buffer.rp).reverse :=
    h.wf.queue_eq hvalid
  obtain ⟨hwf, hstored⟩ := h.next_stored hstep
  generalize (t.regs.buffer.data.take t.regs.buffer.rp).reverse = rest at hqueue
  rw [Flit.transfer_of_valid hvalid hready, hqueue, List.cons_append, List.nil_append, List.cons_append,
    List.cons.injEq] at hstored
  obtain ⟨-, hstored⟩ := hstored
  obtain rfl := Option.some.inj hstep
  have hnext : (next t.regs i).egressActive = !(diiEgress t.regs).last := by
    simp [next, hactive, hready]
  have hacc : t.accepted ++ i.diiIn.transfer (diiInReady t.regs) = done.flatten ++ (front ++
      (diiEgress t.regs :: (rest ++ i.diiIn.transfer (diiInReady t.regs)))) := by
    rw [h.accepted, hqueue]
    simp only [List.append_assoc, List.cons_append]
  refine ⟨diiEgress t.regs, rest, hqueue, rfl, hstored, hnext, ?_⟩
  by_cases hlast : (diiEgress t.regs).last = true
  · rw [if_pos hlast]
    rw [hlast] at hnext
    refine ⟨hwf, ?_, ?_, by simp [Open], fun _ => rfl, fun ha => ?_⟩
    · intro p hp
      obtain hp | hp := List.mem_append.mp hp
      · exact h.packets p hp
      · exact ⟨front, _, List.mem_singleton.mp hp, h.openFront, hlast⟩
    · rw [hstored, hacc, List.flatten_append, List.flatten_singleton]
      simp only [List.append_assoc, List.singleton_append, List.nil_append]
    · rw [hnext] at ha
      cases ha
  · rw [if_neg hlast]
    rw [Bool.not_eq_true] at hlast
    rw [hlast] at hnext
    refine ⟨hwf, h.packets, ?_, ?_, fun ha => ?_, fun _ => ?_⟩
    · rw [hstored, hacc]
      simp only [List.append_assoc, List.singleton_append]
    · intro g hg
      obtain hg | hg := List.mem_append.mp hg
      · exact h.openFront g hg
      · exact List.mem_singleton.mp hg ▸ hlast
    · rw [hnext] at ha
      cases ha
    · have hany := h.active hactive
      have hends : Flit.ends (diiEgress t.regs) = false := hlast
      rw [hqueue, List.any_cons, hends, Bool.false_or] at hany
      rw [hstored, List.any_append, hany, Bool.true_or]

end GlipOsd.Him
