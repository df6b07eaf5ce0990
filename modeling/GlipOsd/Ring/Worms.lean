import GlipOsd.Ring.Stages

/-! # Packets on the line

On every link the packets follow each other whole: the registers of the demultiplexers and
multiplexers agree with the packets that are in progress there.
-/

namespace GlipOsd.Ring
open Packets Runs
set_option autoImplicit false

section Line
variable (PORTS BUFFER_SIZE : ℕ) (s : State) (u : ℕ → Option Tag)

/-- The packet in progress where flits enter the buffer of a stage, when `u` is the one where they
leave the stage. -/
def entered (k : ℕ) : Option Tag := behind (u (k + 1)) (stored PORTS s k)

def injectTag (i : ℕ) : Option Tag := (s.injecting i).map fun dest => (i, dest)

/-- The packet in progress on link `k` is `u k`. -/
structure Line : Prop where
  start : u 0 = none
  wf : ∀ k < 2 * PORTS, (stageBuffer PORTS s k).Wf BUFFER_SIZE
  worms : ∀ k < 2 * PORTS, FlitWorms (u (k + 1)) (stored PORTS s k)
  follows : ∀ k < 2 * PORTS, (stageDemux PORTS s k).Follows (routerId (port PORTS k)) (u k)
  forward : ∀ i < PORTS, entered PORTS s u (PORTS + i) =
    (u (PORTS + i)).filter fun t => !leaves PORTS (PORTS + i) t
  ring : ∀ i < PORTS, Joined (s.routers i).muxRing0.lock ((u i).filter fun t => !leaves PORTS i t)
    (injectTag s i) (entered PORTS s u i)
  out : ∀ i < PORTS, Joined (s.routers i).muxLocal.lock ((u i).filter (leaves PORTS i))
    ((u (PORTS + i)).filter (leaves PORTS (PORTS + i))) (behind none (s.delivered i))
  delivered : ∀ i < PORTS, FlitWorms none (s.delivered i)
  injected : ∀ i < PORTS, FlitWorms none (s.injected i) ∧ behind none (s.injected i) = injectTag s i

end Line

variable {PORTS BUFFER_SIZE : ℕ} {s : State} {inp : Input} {u : ℕ → Option Tag}

theorem line_initial (hB : 1 ≤ BUFFER_SIZE) (data0 data1 : ℕ → List Flit) :
    Line PORTS BUFFER_SIZE (initial data0 data1) fun _ => none := by
  have hbuf : ∀ k, ∃ data, stageBuffer PORTS (initial data0 data1) k = Buffer.reset data := by
    intro k
    unfold stageBuffer
    split_ifs
    · exact ⟨_, rfl⟩
    · exact ⟨_, rfl⟩
  have hstored : ∀ k, stored PORTS (initial data0 data1) k = [] := by
    intro k
    obtain ⟨data, hdata⟩ := hbuf k
    rw [stored, hdata]
    exact Buffer.queue_eq_nil rfl
  have hentered : ∀ k, entered PORTS (initial data0 data1) (fun _ => none) k = none := by
    intro k
    rw [entered, hstored]
    rfl
  refine ⟨rfl, fun k _ => ?_, fun k _ => ?_, fun k _ => ?_, fun i _ => hentered _, fun i _ => ?_,
    fun i _ => joined_free, fun i _ => trivial, fun i _ => ⟨trivial, rfl⟩⟩
  · obtain ⟨data, hdata⟩ := hbuf k
    rw [hdata]
    exact Buffer.wf_reset hB data
  · rw [hstored]
    trivial
  · unfold stageDemux
    split_ifs <;> exact Demux.follows_reset _
  · rw [hentered]
    exact joined_free

/-! ## One cycle -/

theorem Line.continues (h : Line PORTS BUFFER_SIZE s u) (hP : 1 ≤ PORTS) {k : ℕ} (hk : k ≤ 2 * PORTS)
    (hv : (link PORTS s k).valid = true) :
    Continues Flit.tag Flit.starts (u k) (link PORTS s k) := by
  cases k with
  | zero =>
    rw [link_zero hP] at hv
    cases hv
  | succ k =>
    rw [link_succ hk] at hv ⊢
    have hworms := h.worms k hk
    rw [stored, (h.wf k hk).queue_eq hv] at hworms
    exact hworms.1

theorem Line.arrives (h : Line PORTS BUFFER_SIZE s u) (hP : 1 ≤ PORTS) {k : ℕ} (hk : k < 2 * PORTS) :
    Arrives PORTS s (u k) k := ⟨h.follows k hk, h.continues hP hk.le⟩

theorem Line.flow_worms (h : Line PORTS BUFFER_SIZE s u) (inp : Input) (hP : 1 ≤ PORTS) {k : ℕ}
    (hk : k ≤ 2 * PORTS) : FlitWorms (u k) (flow PORTS BUFFER_SIZE s inp k) :=
  worms_transfer (h.continues hP hk)

/-- The packet in progress on the links one cycle later. -/
def nextOpen (PORTS BUFFER_SIZE : ℕ) (s : State) (inp : Input) (u : ℕ → Option Tag) (k : ℕ) :
    Option Tag := behind (u k) (flow PORTS BUFFER_SIZE s inp k)

/-! The packets in progress on the two ways behind a demultiplexer. -/

theorem Line.ringWay_open (h : Line PORTS BUFFER_SIZE s u) (inp : Input) (hP : 1 ≤ PORTS) {k : ℕ}
    (hk : k < 2 * PORTS) :
    behind ((u k).filter fun t => !leaves PORTS k t)
        ((ringWay PORTS s k).transfer (ringReady PORTS BUFFER_SIZE s inp k)) =
      (nextOpen PORTS BUFFER_SIZE s inp u k).filter fun t => !leaves PORTS k t := by
  rw [(h.arrives hP hk).ringWay_transfer BUFFER_SIZE inp hk]
  exact (worms_filter (fun t => !leaves PORTS k t) (h.flow_worms inp hP hk.le)).2

theorem Line.localWay_open (h : Line PORTS BUFFER_SIZE s u) (inp : Input) (hP : 1 ≤ PORTS) {k : ℕ}
    (hk : k < 2 * PORTS) :
    behind ((u k).filter (leaves PORTS k))
        ((localWay PORTS s k).transfer (localReady PORTS s inp k)) =
      (nextOpen PORTS BUFFER_SIZE s inp u k).filter (leaves PORTS k) := by
  rw [(h.arrives hP hk).localWay_transfer BUFFER_SIZE inp hk]
  exact (worms_filter (leaves PORTS k) (h.flow_worms inp hP hk.le)).2

theorem entered_next (h : Line PORTS BUFFER_SIZE s u) (hB : 2 ≤ BUFFER_SIZE) {k : ℕ}
    (hk : k < 2 * PORTS) :
    entered PORTS (next PORTS BUFFER_SIZE s inp) (nextOpen PORTS BUFFER_SIZE s inp u) k =
      behind (entered PORTS s u k) (entering PORTS BUFFER_SIZE s inp k) := by
  have heq := (stored_next inp hB hk (h.wf k hk)).2
  unfold entered nextOpen behind
  rw [← opened_append, heq, opened_append]

/-- The packets in a stage stay whole when those that enter it are. -/
theorem worms_next (h : Line PORTS BUFFER_SIZE s u) (hB : 2 ≤ BUFFER_SIZE) {k : ℕ}
    (hk : k < 2 * PORTS)
    (henter : FlitWorms (entered PORTS s u k) (entering PORTS BUFFER_SIZE s inp k)) :
    FlitWorms (nextOpen PORTS BUFFER_SIZE s inp u (k + 1))
      (stored PORTS (next PORTS BUFFER_SIZE s inp) k) := by
  have hall : FlitWorms (u (k + 1)) (stored PORTS s k ++ entering PORTS BUFFER_SIZE s inp k) :=
    (worms_append _ _ _).mpr ⟨h.worms k hk, henter⟩
  rw [← (stored_next inp hB hk (h.wf k hk)).2] at hall
  exact ((worms_append _ _ _).mp hall).2

theorem localIn_continues (i : ℕ) :
    Continues Flit.tag Flit.starts (injectTag s i) (localIn s inp i) := by
  unfold injectTag localIn
  cases s.injecting i with
  | none => exact rfl
  | some dest => exact rfl

theorem injectTag_next (i : ℕ) : injectTag (next PORTS BUFFER_SIZE s inp) i =
    behind (injectTag s i) (injecting BUFFER_SIZE s inp i) := by
  have hopen : behind (injectTag s i) (injecting BUFFER_SIZE s inp i) =
      if accepted BUFFER_SIZE s inp i then after Flit.ends Flit.tag (localIn s inp i)
      else injectTag s i := by
    unfold injecting Flit.transfer accepted behind
    split_ifs <;> rfl
  rw [hopen, injectTag]
  simp only [next]
  split_ifs with hacc hl
  · exact (if_pos hl).symm
  · exact (if_neg hl).symm
  · rfl

variable (h : Line PORTS BUFFER_SIZE s u) (hP : 1 ≤ PORTS) {i : ℕ} (hi : i < PORTS)
include h hP hi

theorem Line.entering_fst : entering PORTS BUFFER_SIZE s inp i =
    ((flow PORTS BUFFER_SIZE s inp i).filter fun f => !leaves PORTS i f.tag) ++
      injecting BUFFER_SIZE s inp i := by
  have hring := (h.arrives hP (k := i) (by omega)).ringWay_transfer BUFFER_SIZE inp (by omega)
  rw [ringWay_fst hi, ringReady_fst hi] at hring
  rw [entering, if_pos hi, stageBuffer_fst hi, ← hring]
  exact Serves.transfer (mux_serves (s.routers i).muxRing0 (ringFwd0 s i) (localIn s inp i)
    ((s.routers i).buffer0.flitInReady BUFFER_SIZE))

theorem Line.entering_snd : entering PORTS BUFFER_SIZE s inp (PORTS + i) =
    (flow PORTS BUFFER_SIZE s inp (PORTS + i)).filter fun f => !leaves PORTS (PORTS + i) f.tag := by
  have hn : ¬ PORTS + i < PORTS := by omega
  have hring := (h.arrives hP (k := PORTS + i) (by omega)).ringWay_transfer BUFFER_SIZE inp (by omega)
  rw [ringWay_snd, ringReady_snd] at hring
  rw [entering, if_neg hn, Nat.add_sub_cancel_left, hring]

theorem Line.delivering_eq : delivering PORTS s inp i =
    ((flow PORTS BUFFER_SIZE s inp i).filter fun f => leaves PORTS i f.tag) ++
      (flow PORTS BUFFER_SIZE s inp (PORTS + i)).filter fun f => leaves PORTS (PORTS + i) f.tag := by
  have hlocal0 := (h.arrives hP (k := i) (by omega)).localWay_transfer BUFFER_SIZE inp (by omega)
  have hlocal1 := (h.arrives hP (k := PORTS + i) (by omega)).localWay_transfer BUFFER_SIZE inp
    (by omega)
  rw [localWay_fst hi, localReady_fst hi] at hlocal0
  rw [localWay_snd, localReady_snd] at hlocal1
  rw [← hlocal0, ← hlocal1]
  exact Serves.transfer (muxRr_serves (s.routers i).muxLocal (ringLocal0 s i) (ringLocal1 PORTS s i)
    (inp.diiOutReady i))

/-- A packet that is injected enters chain 0 between the packets of the ring. -/
theorem Line.ring_next :
    FlitWorms (entered PORTS s u i) (entering PORTS BUFFER_SIZE s inp i) ∧
      Joined (muxRing0 BUFFER_SIZE s inp i).next.lock
        ((nextOpen PORTS BUFFER_SIZE s inp u i).filter fun t => !leaves PORTS i t)
        (behind (injectTag s i) (injecting BUFFER_SIZE s inp i))
        (behind (entered PORTS s u i) (entering PORTS BUFFER_SIZE s inp i)) := by
  have hcont := (h.arrives hP (k := i) (by omega)).ringWay_continues
  have hopen := h.ringWay_open inp hP (k := i) (by omega)
  rw [ringWay_fst hi] at hcont
  rw [ringWay_fst hi, ringReady_fst hi] at hopen
  obtain ⟨hworms, hjoined⟩ := Serves.joined
    (mux_serves (s.routers i).muxRing0 (ringFwd0 s i) (localIn s inp i)
      ((s.routers i).buffer0.flitInReady BUFFER_SIZE))
    (h.ring i hi) hcont fun _ => localIn_continues i
  rw [entering, if_pos hi, stageBuffer_fst hi]
  unfold muxRing0 at hopen ⊢
  rw [hopen] at hjoined
  exact ⟨hworms, hjoined⟩

theorem Line.forward_next :
    FlitWorms (entered PORTS s u (PORTS + i)) (entering PORTS BUFFER_SIZE s inp (PORTS + i)) ∧
      behind (entered PORTS s u (PORTS + i)) (entering PORTS BUFFER_SIZE s inp (PORTS + i)) =
        (nextOpen PORTS BUFFER_SIZE s inp u (PORTS + i)).filter
          fun t => !leaves PORTS (PORTS + i) t := by
  rw [h.entering_snd hP hi, h.forward i hi]
  exact worms_filter (fun t => !leaves PORTS (PORTS + i) t)
    (h.flow_worms inp hP (k := PORTS + i) (by omega))

/-- The packets of both chains are delivered one behind the other. -/
theorem Line.out_next :
    FlitWorms (behind none (s.delivered i)) (delivering PORTS s inp i) ∧
      Joined (muxLocal PORTS s inp i).next.lock
        ((nextOpen PORTS BUFFER_SIZE s inp u i).filter (leaves PORTS i))
        ((nextOpen PORTS BUFFER_SIZE s inp u (PORTS + i)).filter (leaves PORTS (PORTS + i)))
        (behind (behind none (s.delivered i)) (delivering PORTS s inp i)) := by
  have hcont0 := (h.arrives hP (k := i) (by omega)).localWay_continues
  have hcont1 := (h.arrives hP (k := PORTS + i) (by omega)).localWay_continues
  have hopen0 := h.localWay_open inp hP (k := i) (by omega)
  have hopen1 := h.localWay_open inp hP (k := PORTS + i) (by omega)
  rw [localWay_fst hi] at hcont0
  rw [localWay_snd] at hcont1
  rw [localWay_fst hi, localReady_fst hi] at hopen0
  rw [localWay_snd, localReady_snd] at hopen1
  obtain ⟨hworms, hjoined⟩ := Serves.joined
    (muxRr_serves (s.routers i).muxLocal (ringLocal0 s i) (ringLocal1 PORTS s i) (inp.diiOutReady i))
    (h.out i hi) hcont0 hcont1
  unfold muxLocal at hopen0 hopen1
  rw [hopen0, hopen1] at hjoined
  exact ⟨hworms, hjoined⟩

omit hi

theorem Line.entering_worms {k : ℕ} (hk : k < 2 * PORTS) :
    FlitWorms (entered PORTS s u k) (entering PORTS BUFFER_SIZE s inp k) := by
  obtain hk | ⟨i, hi, rfl⟩ := stage_cases hk
  · exact (h.ring_next hP hk).1
  · exact (h.forward_next hP hi).1

theorem Line.next (inp : Input) (hB : 2 ≤ BUFFER_SIZE) :
    Line PORTS BUFFER_SIZE (next PORTS BUFFER_SIZE s inp) (nextOpen PORTS BUFFER_SIZE s inp u) where
  start := by
    rw [nextOpen, flow_zero hP]
    exact h.start
  wf k hk := (stored_next inp hB hk (h.wf k hk)).1
  worms k hk := worms_next h hB hk (h.entering_worms hP hk)
  follows k hk := by
    rw [stageDemux_next hk]
    exact (h.follows k hk).next (h.continues hP hk.le) _
  forward i hi := by
    rw [entered_next h hB (by omega)]
    exact (h.forward_next hP hi).2
  ring i hi := by
    rw [entered_next h hB (by omega), injectTag_next]
    exact (h.ring_next hP hi).2
  out i hi := by
    rw [delivered_next, behind, opened_append]
    exact (h.out_next hP hi).2
  delivered i hi := by
    rw [delivered_next]
    exact (worms_append _ _ _).mpr ⟨h.delivered i hi, (h.out_next hP hi).1⟩
  injected i hi := by
    obtain ⟨hworms, hopen⟩ := h.injected i hi
    have hnew : FlitWorms (behind none (s.injected i)) (injecting BUFFER_SIZE s inp i) := by
      rw [hopen]
      exact worms_transfer fun _ => localIn_continues i
    rw [injected_next, injectTag_next, ← hopen]
    exact ⟨(worms_append _ _ _).mpr ⟨hworms, hnew⟩, opened_append _ _ _⟩

end GlipOsd.Ring
