import GlipOsd.Ring.Delivery
import GlipOsd.Ring.Progress
import GlipOsd.DiiBuffer.Fifo
import GlipOsd.Foundations.Potentials

/-! # The ring drains

The potential of the ring counts for each stored flit the stages that it may still have to pass. A
flit that moves lowers it, and only an accepted flit raises it. With ready outputs something moves in
every cycle in which there is something to move, so that the ring is busy for a bounded time.
-/

namespace GlipOsd.Ring
open Packets Runs
set_option autoImplicit false

instance (PORTS : ℕ) (s : State) (inp : Input) : Decidable (Busy PORTS s inp) :=
  inferInstanceAs (Decidable (∃ i < PORTS, _))

instance (PORTS : ℕ) (s : State) (inp : Input) : Decidable (Driven PORTS s inp) :=
  decidable_of_iff ((∀ i < PORTS, inp.diiOutReady i = true) ∧ Held PORTS s inp ∧
      ∀ i < PORTS, s.injecting i ≠ none → (inp.diiIn i).valid = true)
    ⟨fun ⟨hready, hheld, hpacket⟩ => ⟨hready, hheld, hpacket⟩, fun h => ⟨h.outReady, h.held, h.packet⟩⟩

section Potential
variable (PORTS : ℕ) (s : State)

def load : ℕ := ahead (2 * PORTS) fun k => (stored PORTS s k).length

/-- The flits accepted so far at all ports. -/
def acceptedFlits : ℕ := ∑ i ∈ Finset.range PORTS, (s.injected i).length

end Potential

/-- The cycles of a run in which the ring is busy, all outputs are ready and no source stops inside
a packet. -/
def busyCycles (PORTS BUFFER_SIZE : ℕ) : State → List Input → ℕ :=
  cost (step PORTS BUFFER_SIZE) fun s inp => if Driven PORTS s inp ∧ Busy PORTS s inp then 1 else 0

/-- The environment in a cycle in which no port sends and all outputs are ready. -/
structure Quiet (PORTS : ℕ) (s : State) (inp : Input) : Prop where
  driven : Driven PORTS s inp
  silent : ∀ i < PORTS, (inp.diiIn i).valid = false

variable {PORTS BUFFER_SIZE : ℕ} {s : State} {inp : Input} {u : ℕ → Option Tag}

theorem load_eq_zero : load PORTS s = 0 ↔ ∀ k < 2 * PORTS, stored PORTS s k = [] := by
  simp only [load, ahead_eq_zero, List.length_eq_zero_iff]

theorem load_initial (data0 data1 : ℕ → List Flit) : load PORTS (initial data0 data1) = 0 :=
  load_eq_zero.mpr fun k _ => stored_initial data0 data1 k

theorem acceptedFlits_next : acceptedFlits PORTS (next PORTS BUFFER_SIZE s inp) =
    acceptedFlits PORTS s + ∑ i ∈ Finset.range PORTS, (injecting BUFFER_SIZE s inp i).length := by
  unfold acceptedFlits
  rw [← Finset.sum_add_distrib]
  exact Finset.sum_congr rfl fun i _ => by rw [injected_next, List.length_append]

/-- The packets on the line follow each other, and no multiplexer waits for nothing. -/
def Sound (PORTS BUFFER_SIZE : ℕ) (s : State) : Prop :=
  ∃ u, Line PORTS BUFFER_SIZE s u ∧ Waiting PORTS s u

theorem next_of_step {s' : State} (hstep : step PORTS BUFFER_SIZE s inp = some s') :
    next PORTS BUFFER_SIZE s inp = s' := by
  unfold step at hstep
  split_ifs at hstep
  exact Option.some.inj hstep

/-! ## One cycle -/

/-- The flits that are injected at a stage. -/
def injectedAt (PORTS BUFFER_SIZE : ℕ) (s : State) (inp : Input) (k : ℕ) : ℕ :=
  if k < PORTS then (injecting BUFFER_SIZE s inp k).length else 0

theorem sum_injectedAt : ∑ k ∈ Finset.range (2 * PORTS), injectedAt PORTS BUFFER_SIZE s inp k =
    ∑ i ∈ Finset.range PORTS, (injecting BUFFER_SIZE s inp i).length := by
  have hfst : ∀ k ∈ Finset.range PORTS, injectedAt PORTS BUFFER_SIZE s inp k =
      (injecting BUFFER_SIZE s inp k).length := fun k hk => if_pos (Finset.mem_range.mp hk)
  have hsnd : ∀ k ∈ Finset.range PORTS, injectedAt PORTS BUFFER_SIZE s inp (PORTS + k) = 0 :=
    fun k _ => if_neg (by omega)
  rw [Nat.two_mul, Finset.sum_range_add, Finset.sum_congr rfl hfst, Finset.sum_eq_zero hsnd,
    Nat.add_zero]

section Cycle
variable (h : Line PORTS BUFFER_SIZE s u) (hP : 1 ≤ PORTS)
include h hP

theorem entering_le {k : ℕ} (hk : k < 2 * PORTS) : (entering PORTS BUFFER_SIZE s inp k).length ≤
    (flow PORTS BUFFER_SIZE s inp k).length + injectedAt PORTS BUFFER_SIZE s inp k := by
  obtain hi | ⟨i, hi, rfl⟩ := stage_cases hk
  · rw [h.entering_fst hP hi, List.length_append, injectedAt, if_pos hi]
    exact Nat.add_le_add_right (List.length_filter_le _ _) _
  · rw [h.entering_snd hP hi, injectedAt, if_neg (by omega)]
    exact List.length_filter_le _ _

theorem load_next (inp : Input) (hB : 2 ≤ BUFFER_SIZE) : load PORTS (next PORTS BUFFER_SIZE s inp) +
      ∑ k ∈ Finset.range (2 * PORTS), (flow PORTS BUFFER_SIZE s inp (k + 1)).length ≤
    load PORTS s + 2 * PORTS * ∑ i ∈ Finset.range PORTS, (injecting BUFFER_SIZE s inp i).length := by
  have hfirst : (flow PORTS BUFFER_SIZE s inp 0).length = 0 := by rw [flow_zero hP, List.length_nil]
  have hstage : ∀ k < 2 * PORTS, (flow PORTS BUFFER_SIZE s inp (k + 1)).length +
      (stored PORTS (next PORTS BUFFER_SIZE s inp) k).length =
        (stored PORTS s k).length + (entering PORTS BUFFER_SIZE s inp k).length := fun k hk => by
    rw [← List.length_append, (stored_next inp hB hk (h.wf k hk)).2, List.length_append]
  have hline : load PORTS (next PORTS BUFFER_SIZE s inp) +
      ∑ k ∈ Finset.range (2 * PORTS), (flow PORTS BUFFER_SIZE s inp (k + 1)).length ≤
        load PORTS s + ahead (2 * PORTS) (injectedAt PORTS BUFFER_SIZE s inp) :=
    ahead_next hfirst hstage fun k hk => entering_le h hP hk
  rw [← sum_injectedAt]
  exact hline.trans (Nat.add_le_add_left (ahead_le_sum _ _) _)

/-- What moves, moves on a link or is injected. -/
theorem Moves.flows (hmoves : Moves PORTS BUFFER_SIZE s inp) :
    (∃ k < 2 * PORTS, flow PORTS BUFFER_SIZE s inp (k + 1) ≠ []) ∨
      ∃ i < PORTS, injecting BUFFER_SIZE s inp i ≠ [] := by
  have hflow : ∀ k ≤ 2 * PORTS, flow PORTS BUFFER_SIZE s inp k ≠ [] →
      ∃ k < 2 * PORTS, flow PORTS BUFFER_SIZE s inp (k + 1) ≠ [] := by
    intro k hk hne
    cases k with
    | zero => exact absurd (flow_zero hP) hne
    | succ k => exact ⟨k, by omega, hne⟩
  have hfilter : ∀ k ≤ 2 * PORTS, ∀ p : Flit → Bool, (flow PORTS BUFFER_SIZE s inp k).filter p ≠ [] →
      ∃ k < 2 * PORTS, flow PORTS BUFFER_SIZE s inp (k + 1) ≠ [] := by
    intro k hk p hne
    refine hflow k hk fun hnil => hne ?_
    rw [hnil, List.filter_nil]
  have hfire : ∀ {f : Flit} {ready : Bool}, (f.valid && ready) = true → f.transfer ready ≠ [] := by
    intro f ready hf
    rw [Flit.transfer, if_pos hf]
    exact List.cons_ne_nil _ _
  obtain ⟨i, hi, hf⟩ | ⟨i, hi, hf⟩ | ⟨i, hi, hf⟩ | hv := hmoves
  · have henter : entering PORTS BUFFER_SIZE s inp i ≠ [] := by
      rw [entering, if_pos hi, stageBuffer_fst hi]
      exact hfire hf
    rw [h.entering_fst hP hi] at henter
    by_cases hinj : injecting BUFFER_SIZE s inp i = []
    · rw [hinj, List.append_nil] at henter
      exact .inl (hfilter i (by omega) _ henter)
    · exact .inr ⟨i, hi, hinj⟩
  · have henter : entering PORTS BUFFER_SIZE s inp (PORTS + i) ≠ [] := by
      rw [entering, if_neg (by omega), Nat.add_sub_cancel_left, stageBuffer_snd]
      exact hfire hf
    rw [h.entering_snd hP hi] at henter
    exact .inl (hfilter (PORTS + i) (by omega) _ henter)
  · have hout : delivering PORTS s inp i ≠ [] := hfire hf
    rw [h.delivering_eq hP hi] at hout
    by_cases hfst : ((flow PORTS BUFFER_SIZE s inp i).filter fun f => leaves PORTS i f.tag) = []
    · rw [hfst, List.nil_append] at hout
      exact .inl (hfilter (PORTS + i) (by omega) _ hout)
    · exact .inl (hfilter i (by omega) _ hfst)
  · refine .inl (hflow (2 * PORTS) le_rfl ?_)
    rw [flow, linkReady_end, Nat.two_mul, link_snd]
    exact hfire (by rw [hv]; rfl)

theorem flows_of_moves (hmoves : Moves PORTS BUFFER_SIZE s inp) :
    1 ≤ ∑ k ∈ Finset.range (2 * PORTS), (flow PORTS BUFFER_SIZE s inp (k + 1)).length +
      ∑ i ∈ Finset.range PORTS, (injecting BUFFER_SIZE s inp i).length := by
  have hpos : ∀ (n : ℕ) (f : ℕ → List Flit), ∀ k < n, f k ≠ [] →
      1 ≤ ∑ k ∈ Finset.range n, (f k).length := by
    intro n f k hk hne
    have hone := Finset.single_le_sum (f := fun k => (f k).length) (fun _ _ => Nat.zero_le _)
      (Finset.mem_range.mpr hk)
    exact (List.length_pos_iff.mpr hne).trans_le hone
  obtain ⟨k, hk, hne⟩ | ⟨i, hi, hne⟩ := hmoves.flows h hP
  · exact Nat.le_add_right_of_le (hpos _ (fun k => flow PORTS BUFFER_SIZE s inp (k + 1)) k hk hne)
  · exact Nat.le_add_left_of_le (hpos _ (injecting BUFFER_SIZE s inp) i hi hne)

/-- A cycle in which something moves is paid by the flits that are accepted in it, or by the
potential. -/
theorem load_next_of_moves (hB : 2 ≤ BUFFER_SIZE) (hmoves : Moves PORTS BUFFER_SIZE s inp) :
    load PORTS (next PORTS BUFFER_SIZE s inp) + 1 ≤ load PORTS s +
      (2 * PORTS + 1) * ∑ i ∈ Finset.range PORTS, (injecting BUFFER_SIZE s inp i).length := by
  have hnext := load_next h hP inp hB
  have hone := flows_of_moves h hP hmoves
  rw [Nat.succ_mul]
  omega

/-- A flit that is delivered at port 0 comes over a link. -/
theorem delivering_le : (delivering PORTS s inp 0).length ≤
    ∑ k ∈ Finset.range (2 * PORTS), (flow PORTS BUFFER_SIZE s inp (k + 1)).length := by
  have hout : delivering PORTS s inp 0 = _ := h.delivering_eq hP hP
  have hlink : PORTS + 0 = PORTS - 1 + 1 := by omega
  rw [flow_zero hP, List.filter_nil, List.nil_append, hlink] at hout
  rw [hout]
  refine (List.length_filter_le _ _).trans ?_
  exact Finset.single_le_sum (f := fun k => (flow PORTS BUFFER_SIZE s inp (k + 1)).length)
    (fun _ _ => Nat.zero_le _) (Finset.mem_range.mpr (by omega))

omit hP in
theorem busy_of_load (hload : load PORTS s ≠ 0) : Busy PORTS s inp := by
  by_contra hidle
  refine hload (load_eq_zero.mpr fun k hk => ?_)
  by_contra hne
  have hv : (stageBuffer PORTS s k).regOutValid = true := (h.wf k hk).out_valid.mpr hne
  obtain hi | ⟨i, hi, rfl⟩ := stage_cases hk
  · exact hidle ⟨k, hi, .inl (stageBuffer_fst hi ▸ hv)⟩
  · rw [stageBuffer_snd] at hv
    exact hidle ⟨i, hi, .inr (.inl hv)⟩

end Cycle

theorem Quiet.injecting (hquiet : Quiet PORTS s inp) {i : ℕ} (hi : i < PORTS) :
    injecting BUFFER_SIZE s inp i = [] := by
  have hinvalid : (localIn s inp i).valid = false := hquiet.silent i hi
  rw [Ring.injecting, Flit.transfer, hinvalid]
  rfl

theorem Quiet.load_next (hquiet : Quiet PORTS s inp) (hs : Sound PORTS BUFFER_SIZE s) (hP : 1 ≤ PORTS)
    (hB : 2 ≤ BUFFER_SIZE) : load PORTS (next PORTS BUFFER_SIZE s inp) ≤ load PORTS s - 1 := by
  obtain ⟨u, hu, hw⟩ := hs
  have hnone : ∑ i ∈ Finset.range PORTS, (Ring.injecting BUFFER_SIZE s inp i).length = 0 :=
    Finset.sum_eq_zero fun i hi => by
      rw [hquiet.injecting (Finset.mem_range.mp hi), List.length_nil]
  by_cases hload : load PORTS s = 0
  · have hnext := Ring.load_next hu hP inp hB
    rw [hnone] at hnext
    omega
  · have hmoves := moves_of_busy hu hP hw hquiet.driven hB (busy_of_load hu hload)
    have hnext := load_next_of_moves hu hP hB hmoves
    rw [hnone] at hnext
    omega

/-! ## Every run -/

section Runs
variable (hP : 1 ≤ PORTS) (hB : 2 ≤ BUFFER_SIZE)
include hB

theorem sound_initial (data0 data1 : ℕ → List Flit) : Sound PORTS BUFFER_SIZE (initial data0 data1) :=
  ⟨_, line_initial (by omega) data0 data1, waiting_initial PORTS data0 data1 _⟩

include hP

theorem sound_stable : Stable (step PORTS BUFFER_SIZE) (Sound PORTS BUFFER_SIZE) := by
  rintro s inp s' ⟨u, hu, hw⟩ hstep
  unfold step at hstep
  split_ifs at hstep with hheld
  exact Option.some.inj hstep ▸ ⟨_, hu.next hP inp hB, hw.next hu hP hB hheld⟩

/-- The debug ring is never busy for nothing: in every run, the cycles in which something waits
although the outputs are ready are at most `2 * PORTS + 1` for each flit that was accepted. -/
theorem busy_cycles_le {data0 data1 : ℕ → List Flit} {inputs : List Input} {t : State}
    (hrun : runFrom (step PORTS BUFFER_SIZE) (initial data0 data1) inputs = some t) :
    busyCycles PORTS BUFFER_SIZE (initial data0 data1) inputs ≤
      (2 * PORTS + 1) * acceptedFlits PORTS t := by
  have hpay : ∀ s inp s', Sound PORTS BUFFER_SIZE s → True → step PORTS BUFFER_SIZE s inp = some s' →
      load PORTS s' + (if Driven PORTS s inp ∧ Busy PORTS s inp then 1 else 0) +
          (2 * PORTS + 1) * acceptedFlits PORTS s ≤
        load PORTS s + (2 * PORTS + 1) * acceptedFlits PORTS s' := by
    rintro s inp s' ⟨u, hu, hw⟩ - hstep
    obtain rfl := next_of_step hstep
    rw [acceptedFlits_next, Nat.mul_add]
    split_ifs with hbusy
    · have hmoves := moves_of_busy hu hP hw hbusy.1 hB hbusy.2
      have hnext := load_next_of_moves hu hP hB hmoves
      omega
    · have hnext := load_next hu hP inp hB
      rw [Nat.succ_mul _ (∑ _ ∈ _, _)]
      omega
  have hinv : ∀ s inp s', Sound PORTS BUFFER_SIZE s → True →
      step PORTS BUFFER_SIZE s inp = some s' → Sound PORTS BUFFER_SIZE s' :=
    fun s inp s' hs _ hstep => sound_stable hP hB s inp s' hs hstep
  have htotal := Takes.cost_le hinv hpay (takes_of_labels (fun _ _ _ => trivial) _)
    (sound_initial hB data0 data1) hrun
  have hzero : acceptedFlits PORTS (initial data0 data1) = 0 := Finset.sum_eq_zero fun _ _ => rfl
  rw [load_initial, hzero] at htotal
  unfold busyCycles
  omega

/-- Quiet cycles empty the ring. -/
theorem Quiet.drains {quietInputs : List Input} {t : State} (hs : Sound PORTS BUFFER_SIZE s)
    (hquiet : Takes (step PORTS BUFFER_SIZE) (Quiet PORTS) s quietInputs)
    (hlong : PORTS * (2 * PORTS + 1) * BUFFER_SIZE ≤ quietInputs.length)
    (hrun : runFrom (step PORTS BUFFER_SIZE) s quietInputs = some t) :
    (∀ k < 2 * PORTS, stored PORTS t k = []) ∧ ∀ i < PORTS, t.injected i = s.injected i := by
  have hinv : ∀ s inp s', Sound PORTS BUFFER_SIZE s → Quiet PORTS s inp →
      step PORTS BUFFER_SIZE s inp = some s' → Sound PORTS BUFFER_SIZE s' :=
    fun s inp s' hs _ hstep => sound_stable hP hB s inp s' hs hstep
  have hcount : load PORTS t ≤ load PORTS s - quietInputs.length := by
    refine hquiet.countdown hinv (fun a inp b ha hq hstep => ?_) hs hrun
    exact next_of_step hstep ▸ hq.load_next ha hP hB
  have hbound : 2 * load PORTS s ≤ 2 * PORTS * (2 * PORTS + 1) * BUFFER_SIZE := by
    obtain ⟨u, hu, -⟩ := hs
    exact ahead_le fun k hk => DiiBuffer.length_queue_le (hu.wf k hk)
  have hempty : load PORTS t = 0 := by
    have hhalf : 2 * PORTS * (2 * PORTS + 1) * BUFFER_SIZE =
        2 * (PORTS * (2 * PORTS + 1) * BUFFER_SIZE) := by ring
    omega
  refine ⟨load_eq_zero.mp hempty, ?_⟩
  refine hquiet.keep (P := fun t => ∀ i < PORTS, t.injected i = s.injected i) hinv ?_ hs
    (fun _ _ => rfl) hrun
  intro a inp b _ hq hstep hsame i hi
  rw [← next_of_step hstep, injected_next, hq.injecting hi, List.append_nil, hsame i hi]

omit hP hB in
/-- With empty buffers, everything that was sent has been delivered. -/
theorem Delivers.packets_eq (hmax : PORTS ≤ 1024) (h : Delivers PORTS BUFFER_SIZE s)
    (hempty : ∀ k < 2 * PORTS, stored PORTS s k = []) {i j : ℕ} (hi : i < PORTS) (hj : j < PORTS) :
    packetsFrom j (s.delivered i) = packetsTo i (s.injected j) := by
  have hnone : ∀ n ≤ 2 * PORTS, onTheWay PORTS s (j, routerId i) n = [] := by
    intro n hn
    induction n with
    | zero => rfl
    | succ n ih =>
      rw [onTheWay, hempty n (by omega), ih (by omega)]
      rfl
  have hflits := h.conserved i hi j hj
  rw [hnone _ (exitStage_lt hi).le, List.append_nil] at hflits
  rw [← h.packetsFrom_eq hi, ← hflits, h.packetsTo_eq hmax hi hj]

/-- Once no port sends any more, all packets that were accepted are delivered, and the buffers are
empty, after a number of cycles that depends on the ring only. -/
theorem ring_drains (hmax : PORTS ≤ 1024) {data0 data1 : ℕ → List Flit} {inputs quietInputs : List Input}
    {t : State} (hrun : runFrom (step PORTS BUFFER_SIZE) (initial data0 data1) inputs = some s)
    (hquiet : Takes (step PORTS BUFFER_SIZE) (Quiet PORTS) s quietInputs)
    (hlong : PORTS * (2 * PORTS + 1) * BUFFER_SIZE ≤ quietInputs.length)
    (hrun' : runFrom (step PORTS BUFFER_SIZE) s quietInputs = some t) :
    (∀ k < 2 * PORTS, stored PORTS t k = []) ∧
      ∀ i < PORTS, ∀ j < PORTS, packetsFrom j (t.delivered i) = packetsTo i (s.injected j) := by
  have hs := (sound_stable hP hB).run (sound_initial hB data0 data1) hrun
  obtain ⟨hempty, hsame⟩ := Quiet.drains hP hB hs hquiet hlong hrun'
  have hwhole := Delivers.run hP hmax hB (runFrom_append_eq_some.mpr ⟨s, hrun, hrun'⟩)
  refine ⟨hempty, fun i hi j hj => ?_⟩
  rw [hwhole.packets_eq hmax hempty hi hj, hsame j hj]

end Runs

theorem busy_cycles_le_one : busyCycles 2 2 (initial (fun _ => []) fun _ => []) [oneFlit 0 1, quiet] ≤
      (2 * 2 + 1) * acceptedFlits 2 (twoCycles 2 0 1) ∧ acceptedFlits 2 (twoCycles 2 0 1) = 1 :=
  ⟨busy_cycles_le (by decide) (by decide) (run_twoCycles (by decide)), by decide⟩

/-! A packet of one flit, and then quiet cycles. -/

theorem quiet_runs (BUFFER_SIZE : ℕ) (hoffered : ∀ i, s.offered i = none)
    (hinjecting : ∀ i, s.injecting i = none) (n : ℕ) :
    ∃ t, runFrom (step PORTS BUFFER_SIZE) s (List.replicate n quiet) = some t ∧
      Takes (step PORTS BUFFER_SIZE) (Quiet PORTS) s (List.replicate n quiet) := by
  induction n generalizing s with
  | zero => exact ⟨s, rfl, trivial⟩
  | succ n ih =>
    have hheld : Held PORTS s quiet := by
      intro i _ flit hflit
      rw [hoffered i] at hflit
      cases hflit
    have hstep : step PORTS BUFFER_SIZE s quiet = some (next PORTS BUFFER_SIZE s quiet) := if_pos hheld
    obtain ⟨t, hrun, htakes⟩ := ih (s := next PORTS BUFFER_SIZE s quiet) (fun _ => rfl) hinjecting
    refine ⟨t, (runFrom_cons_eq_some _).mpr ⟨_, hstep, hrun⟩,
      ⟨⟨fun _ _ => rfl, hheld, fun i _ h => absurd (hinjecting i) h⟩, fun _ _ => rfl⟩, ?_⟩
    intro s' hstep'
    obtain rfl := Option.some.inj (hstep.symm.trans hstep')
    exact htakes

theorem ring_drains_one : ∃ inputs s t,
    runFrom (step 2 2) (initial (fun _ => []) fun _ => []) inputs = some s ∧
      runFrom (step 2 2) s (List.replicate 20 quiet) = some t ∧ packetsTo 1 (s.injected 0) ≠ [] ∧
      packetsFrom 0 (t.delivered 1) = packetsTo 1 (s.injected 0) := by
  have hrun : runFrom (step 2 2) (initial (fun _ => []) fun _ => []) [oneFlit 0 1, quiet] =
      some (twoCycles 2 0 1) := run_twoCycles (by decide)
  have hinjecting : ∀ i, (twoCycles 2 0 1).injecting i = none := by
    intro i
    by_cases hi : i = 0
    · subst hi
      decide
    · simp [twoCycles, next, accepted, localIn, oneFlit, quiet, initial, DiiFlit.idle, hi]
  obtain ⟨t, hrun', hquiet⟩ : ∃ t,
      runFrom (step 2 2) (twoCycles 2 0 1) (List.replicate 20 quiet) = some t ∧
        Takes (step 2 2) (Quiet 2) (twoCycles 2 0 1) (List.replicate 20 quiet) :=
    quiet_runs 2 (fun _ => rfl) hinjecting 20
  exact ⟨_, _, t, hrun, hrun', by decide, (ring_drains (by decide) (by decide) (by decide) hrun hquiet
    (by decide) hrun').2 1 (by decide) 0 (by decide)⟩

end GlipOsd.Ring
