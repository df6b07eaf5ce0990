import GlipOsd.Ring.Components

/-! # The two chains as one line

Both chains together are a line of `2 * PORTS` stages: the demultiplexer and the buffer of chain 0 in
the routers `0, 1, …`, then those of chain 1. A flit enters stage `k` on link `k` and leaves it on
link `k + 1`; link 0 is empty and the last link is dumped. What one cycle does to a stage is said by
the flits that are transferred on its links.
-/

namespace GlipOsd.Ring
open Packets
set_option autoImplicit false

section Stages
variable (PORTS BUFFER_SIZE : ℕ) (s : State) (inp : Input) (k : ℕ)

def port : ℕ := if k < PORTS then k else k - PORTS

def stageBuffer : Buffer :=
  if k < PORTS then (s.routers k).buffer0 else (s.routers (k - PORTS)).buffer1

def stageDemux : Demux :=
  if k < PORTS then (s.routers k).demux0 else (s.routers (k - PORTS)).demux1

def link : Flit := if k < PORTS then chain0 s k else chain1 PORTS s (k - PORTS)

def linkReady : Bool :=
  if k < PORTS then chainReady0 PORTS BUFFER_SIZE s inp k
  else chainReady1 PORTS BUFFER_SIZE s inp (k - PORTS)

def stored : List Flit := (stageBuffer PORTS s k).queue

def flow : List Flit := (link PORTS s k).transfer (linkReady PORTS BUFFER_SIZE s inp k)

/-- The flits that enter the buffer of a stage. -/
def entering : List Flit :=
  if k < PORTS then
    (muxRing0 BUFFER_SIZE s inp k).out.transfer ((stageBuffer PORTS s k).flitInReady BUFFER_SIZE)
  else (ringFwd1 PORTS s (k - PORTS)).transfer ((stageBuffer PORTS s k).flitInReady BUFFER_SIZE)

def injecting : List Flit :=
  (localIn s inp k).transfer (muxRing0 BUFFER_SIZE s inp k).ready1

def delivering : List Flit :=
  (muxLocal PORTS s inp k).out.transfer (inp.diiOutReady k)

/-- The packets with tag `t` leave the line at this stage. -/
def leaves (t : Tag) : Bool := t.2 == routerId (port PORTS k)

/-! The two ways behind the demultiplexer of a stage. -/

def localWay : Flit :=
  (stageDemux PORTS s k).outLocal (routerId (port PORTS k)) (link PORTS s k)

def localReady : Bool :=
  if k < PORTS then (muxLocal PORTS s inp k).ready0 else (muxLocal PORTS s inp (k - PORTS)).ready1

def ringWay : Flit :=
  (stageDemux PORTS s k).outRing (routerId (port PORTS k)) (link PORTS s k)

def ringReady : Bool :=
  if k < PORTS then (muxRing0 BUFFER_SIZE s inp k).ready0
  else (stageBuffer PORTS s k).flitInReady BUFFER_SIZE

end Stages

section Lookup
variable {PORTS BUFFER_SIZE : ℕ} {s : State} {inp : Input} {i : ℕ}

theorem stage_cases {k : ℕ} (hk : k < 2 * PORTS) : k < PORTS ∨ ∃ i < PORTS, k = PORTS + i := by
  by_cases h : k < PORTS
  · exact .inl h
  · exact .inr ⟨k - PORTS, by omega, by omega⟩

theorem port_fst (hi : i < PORTS) : port PORTS i = i := if_pos hi

theorem port_snd : port PORTS (PORTS + i) = i := by
  rw [port, if_neg (by omega), Nat.add_sub_cancel_left]

theorem stageBuffer_fst (hi : i < PORTS) : stageBuffer PORTS s i = (s.routers i).buffer0 := if_pos hi

theorem stageBuffer_snd : stageBuffer PORTS s (PORTS + i) = (s.routers i).buffer1 := by
  rw [stageBuffer, if_neg (by omega), Nat.add_sub_cancel_left]

theorem stageDemux_fst (hi : i < PORTS) : stageDemux PORTS s i = (s.routers i).demux0 := if_pos hi

theorem stageDemux_snd : stageDemux PORTS s (PORTS + i) = (s.routers i).demux1 := by
  rw [stageDemux, if_neg (by omega), Nat.add_sub_cancel_left]

theorem link_fst (hi : i < PORTS) : link PORTS s i = chain0 s i := if_pos hi

theorem link_snd : link PORTS s (PORTS + i) = chain1 PORTS s i := by
  rw [link, if_neg (by omega), Nat.add_sub_cancel_left]

theorem linkReady_fst (hi : i < PORTS) :
    linkReady PORTS BUFFER_SIZE s inp i = chainReady0 PORTS BUFFER_SIZE s inp i := if_pos hi

theorem linkReady_snd :
    linkReady PORTS BUFFER_SIZE s inp (PORTS + i) = chainReady1 PORTS BUFFER_SIZE s inp i := by
  rw [linkReady, if_neg (by omega), Nat.add_sub_cancel_left]

theorem link_zero (hP : 1 ≤ PORTS) : link PORTS s 0 = Flit.idle := link_fst hP

theorem flow_zero (hP : 1 ≤ PORTS) : flow PORTS BUFFER_SIZE s inp 0 = [] := by
  rw [flow, link_zero hP]
  rfl

theorem link_succ {k : ℕ} (hk : k < 2 * PORTS) :
    link PORTS s (k + 1) = (stageBuffer PORTS s k).flitOut := by
  obtain h | ⟨i, hi, rfl⟩ := stage_cases hk
  · rw [stageBuffer_fst h]
    by_cases h' : k + 1 < PORTS
    · exact link_fst h'
    · obtain rfl : PORTS = k + 1 := by omega
      exact link_snd (i := 0)
  · rw [stageBuffer_snd, Nat.add_assoc, link_snd]
    rfl

theorem linkReady_end : linkReady PORTS BUFFER_SIZE s inp (2 * PORTS) = true := by
  rw [Nat.two_mul, linkReady_snd]
  exact if_neg (Nat.lt_irrefl PORTS)

theorem linkReady_succ_fst (hi : i < PORTS) :
    linkReady PORTS BUFFER_SIZE s inp (i + 1) = chainReady0 PORTS BUFFER_SIZE s inp (i + 1) := by
  by_cases h : i + 1 < PORTS
  · exact linkReady_fst h
  · obtain rfl : PORTS = i + 1 := by omega
    have hjoin : chainReady0 (i + 1) BUFFER_SIZE s inp (i + 1) =
        chainReady1 (i + 1) BUFFER_SIZE s inp 0 := if_neg (Nat.lt_irrefl (i + 1))
    rw [hjoin]
    exact linkReady_snd (i := 0)

/-- A stage has the demultiplexer of its router at its input. -/
theorem linkReady_eq {k : ℕ} (hk : k < 2 * PORTS) : linkReady PORTS BUFFER_SIZE s inp k =
    (stageDemux PORTS s k).inRingReady (routerId (port PORTS k)) (link PORTS s k)
      (localReady PORTS s inp k) (ringReady PORTS BUFFER_SIZE s inp k) := by
  obtain h | ⟨i, hi, rfl⟩ := stage_cases hk
  · rw [linkReady_fst h, chainReady0, if_pos h, localReady, if_pos h, ringReady, if_pos h, port_fst h,
      stageDemux_fst h, link_fst h]
  · have h : ¬ PORTS + i < PORTS := by omega
    rw [linkReady_snd, chainReady1, if_pos hi, localReady, if_neg h, ringReady, if_neg h, port_snd,
      stageDemux_snd, link_snd, stageBuffer_snd, Nat.add_sub_cancel_left]

theorem localWay_fst (hi : i < PORTS) : localWay PORTS s i = ringLocal0 s i := by
  rw [localWay, port_fst hi, stageDemux_fst hi, link_fst hi]
  rfl

theorem localWay_snd : localWay PORTS s (PORTS + i) = ringLocal1 PORTS s i := by
  rw [localWay, port_snd, stageDemux_snd, link_snd]
  rfl

theorem localReady_fst (hi : i < PORTS) :
    localReady PORTS s inp i = (muxLocal PORTS s inp i).ready0 := if_pos hi

theorem localReady_snd :
    localReady PORTS s inp (PORTS + i) = (muxLocal PORTS s inp i).ready1 := by
  rw [localReady, if_neg (by omega), Nat.add_sub_cancel_left]

theorem ringWay_fst (hi : i < PORTS) : ringWay PORTS s i = ringFwd0 s i := by
  rw [ringWay, port_fst hi, stageDemux_fst hi, link_fst hi]
  rfl

theorem ringWay_snd : ringWay PORTS s (PORTS + i) = ringFwd1 PORTS s i := by
  rw [ringWay, port_snd, stageDemux_snd, link_snd]
  rfl

theorem ringReady_fst (hi : i < PORTS) :
    ringReady PORTS BUFFER_SIZE s inp i = (muxRing0 BUFFER_SIZE s inp i).ready0 := if_pos hi

theorem ringReady_snd : ringReady PORTS BUFFER_SIZE s inp (PORTS + i) =
    (stageBuffer PORTS s (PORTS + i)).flitInReady BUFFER_SIZE := if_neg (by omega)

end Lookup

/-! ## One cycle -/

section Cycle
variable {PORTS BUFFER_SIZE : ℕ} {s : State} {inp : Input} {k : ℕ}

theorem stageBuffer_next (hk : k < 2 * PORTS) :
    stageBuffer PORTS (next PORTS BUFFER_SIZE s inp) k =
      (stageBuffer PORTS s k).next BUFFER_SIZE
        (if k < PORTS then (muxRing0 BUFFER_SIZE s inp k).out else ringFwd1 PORTS s (k - PORTS))
        (linkReady PORTS BUFFER_SIZE s inp (k + 1)) := by
  obtain h | ⟨i, hi, rfl⟩ := stage_cases hk
  · rw [stageBuffer_fst h, stageBuffer_fst h, if_pos h, linkReady_succ_fst h]
    rfl
  · rw [stageBuffer_snd, stageBuffer_snd, if_neg (by omega), Nat.add_sub_cancel_left, Nat.add_assoc,
      linkReady_snd]
    rfl

/-- What leaves a stage and what stays is what was stored and what enters. -/
theorem stored_next (inp : Input) (hB : 2 ≤ BUFFER_SIZE) (hk : k < 2 * PORTS)
    (hwf : (stageBuffer PORTS s k).Wf BUFFER_SIZE) :
    (stageBuffer PORTS (next PORTS BUFFER_SIZE s inp) k).Wf BUFFER_SIZE ∧
      flow PORTS BUFFER_SIZE s inp (k + 1) ++ stored PORTS (next PORTS BUFFER_SIZE s inp) k =
        stored PORTS s k ++ entering PORTS BUFFER_SIZE s inp k := by
  obtain ⟨hwf', heq⟩ := Buffer.next_spec hB hwf
    (if k < PORTS then (muxRing0 BUFFER_SIZE s inp k).out else ringFwd1 PORTS s (k - PORTS))
    (linkReady PORTS BUFFER_SIZE s inp (k + 1))
  rw [← stageBuffer_next hk] at hwf' heq
  refine ⟨hwf', ?_⟩
  rw [flow, link_succ hk, stored, stored, heq, entering]
  split_ifs <;> rfl

theorem stageDemux_next (hk : k < 2 * PORTS) :
    stageDemux PORTS (next PORTS BUFFER_SIZE s inp) k =
      (stageDemux PORTS s k).next (routerId (port PORTS k)) (link PORTS s k)
        (linkReady PORTS BUFFER_SIZE s inp k) := by
  obtain h | ⟨i, hi, rfl⟩ := stage_cases hk
  · rw [stageDemux_fst h, stageDemux_fst h, port_fst h, link_fst h, linkReady_fst h]
    rfl
  · rw [stageDemux_snd, stageDemux_snd, port_snd, link_snd, linkReady_snd]
    rfl

theorem append_transfer (xs : List Flit) (f : Flit) (ready : Bool) :
    (if f.valid && ready then xs ++ [f] else xs) = xs ++ f.transfer ready := by
  unfold Flit.transfer
  split_ifs
  · rfl
  · exact (List.append_nil xs).symm

theorem injected_next (i : ℕ) : (next PORTS BUFFER_SIZE s inp).injected i =
    s.injected i ++ injecting BUFFER_SIZE s inp i :=
  append_transfer (s.injected i) (localIn s inp i) (muxRing0 BUFFER_SIZE s inp i).ready1

theorem delivered_next (i : ℕ) : (next PORTS BUFFER_SIZE s inp).delivered i =
    s.delivered i ++ delivering PORTS s inp i :=
  append_transfer (s.delivered i) (muxLocal PORTS s inp i).out (inp.diiOutReady i)

end Cycle

/-! ## The ways through a router -/

section Ways
variable {PORTS : ℕ} {s : State}

/-- The packet in progress at the end of link `k`, and the registers of the demultiplexer there. -/
structure Arrives (PORTS : ℕ) (s : State) (u : Option Tag) (k : ℕ) : Prop where
  follows : (stageDemux PORTS s k).Follows (routerId (port PORTS k)) u
  continues : (link PORTS s k).valid = true → Continues Flit.tag Flit.starts u (link PORTS s k)

namespace Arrives
variable {u : Option Tag} {k : ℕ} (h : Arrives PORTS s u k)
include h

theorem localWay_transfer (BUFFER_SIZE : ℕ) (inp : Input) (hk : k < 2 * PORTS) :
    (localWay PORTS s k).transfer (localReady PORTS s inp k) =
      (flow PORTS BUFFER_SIZE s inp k).filter fun f => leaves PORTS k f.tag := by
  rw [flow, linkReady_eq hk]
  exact (h.follows.split h.continues _ _).1

theorem ringWay_transfer (BUFFER_SIZE : ℕ) (inp : Input) (hk : k < 2 * PORTS) :
    (ringWay PORTS s k).transfer (ringReady PORTS BUFFER_SIZE s inp k) =
      (flow PORTS BUFFER_SIZE s inp k).filter fun f => !leaves PORTS k f.tag := by
  rw [flow, linkReady_eq hk]
  exact (h.follows.split h.continues _ _).2

theorem localWay_valid : (localWay PORTS s k).valid = true ↔
    (link PORTS s k).valid = true ∧ leaves PORTS k (link PORTS s k).tag = true :=
  h.follows.outLocal_valid h.continues

theorem ringWay_valid : (ringWay PORTS s k).valid = true ↔
    (link PORTS s k).valid = true ∧ (!leaves PORTS k (link PORTS s k).tag) = true :=
  h.follows.outRing_valid h.continues

theorem localWay_continues (hv : (localWay PORTS s k).valid = true) :
    Continues Flit.tag Flit.starts (u.filter (leaves PORTS k)) (localWay PORTS s k) :=
  h.follows.outLocal_continues h.continues hv

theorem ringWay_continues (hv : (ringWay PORTS s k).valid = true) :
    Continues Flit.tag Flit.starts (u.filter fun t => !leaves PORTS k t) (ringWay PORTS s k) :=
  h.follows.outRing_continues h.continues hv

end Arrives

end Ways

end GlipOsd.Ring
