import GlipOsd.Ring.Worms

/-! # No deadlock

A flit that does not move waits for a buffer behind it or for the rest of a packet before it. The
last stored flit of the line waits for no buffer. The rest of a packet is found by going back along
the line: past empty stages only, so that there is room where it arrives.
-/

namespace GlipOsd.Ring
open Packets Runs
set_option autoImplicit false

/-- A multiplexer that is bound before the first flit of a packet waits for this flit. -/
structure Waiting (PORTS : ℕ) (s : State) (u : ℕ → Option Tag) : Prop where
  ring : ∀ i < PORTS, Waits (s.routers i).muxRing0.lock .in0 ((u i).filter fun t => !leaves PORTS i t)
    (ringWay PORTS s i)
  inject : ∀ i < PORTS, (s.routers i).muxRing0.lock = .in1 → injectTag s i = none →
    ∃ flit ∈ s.offered i, flit.valid = true ∧ flit.last = false
  out0 : ∀ i < PORTS, Waits (s.routers i).muxLocal.lock .in0 ((u i).filter (leaves PORTS i))
    (localWay PORTS s i)
  out1 : ∀ i < PORTS, Waits (s.routers i).muxLocal.lock .in1
    ((u (PORTS + i)).filter (leaves PORTS (PORTS + i))) (localWay PORTS s (PORTS + i))

theorem waiting_initial (PORTS : ℕ) (data0 data1 : ℕ → List Flit) (u : ℕ → Option Tag) :
    Waiting PORTS (initial data0 data1) u :=
  ⟨fun _ _ h => (nomatch h), fun _ _ h => (nomatch h), fun _ _ h => (nomatch h),
    fun _ _ h => (nomatch h)⟩

variable {PORTS BUFFER_SIZE : ℕ} {s : State} {inp : Input} {u : ℕ → Option Tag}

/-- A flit that could go a way and is not taken there is not taken at all. -/
theorem flow_eq_nil {k : ℕ} {p : Tag → Bool} (hp : p (link PORTS s k).tag = true)
    (hstay : (flow PORTS BUFFER_SIZE s inp k).filter (fun f => p f.tag) = []) :
    flow PORTS BUFFER_SIZE s inp k = [] := by
  by_contra hne
  obtain ⟨f, hf⟩ := List.exists_mem_of_ne_nil _ hne
  obtain ⟨rfl, -⟩ := Flit.mem_transfer hf
  exact List.filter_eq_nil_iff.mp hstay _ hf hp

/-- A flit that is offered and not accepted is offered again. -/
theorem localIn_waits (hw : Waiting PORTS s u)
    (hheld : Held PORTS s inp) {i : ℕ} (hi : i < PORTS) :
    Waits (s.routers i).muxRing0.lock .in1 (injectTag s i) (localIn s inp i) := by
  intro hlock hnone
  obtain ⟨flit, hmem, hoffered⟩ := hw.inject i hi hlock hnone
  have hin : (localIn s inp i).toDiiFlit = flit := hheld i hi flit hmem
  rw [hin]
  exact hoffered

section Waiting
variable (h : Line PORTS BUFFER_SIZE s u) (hP : 1 ≤ PORTS) (hB : 2 ≤ BUFFER_SIZE)
include h hP hB

theorem link_next {k : ℕ} (hk : k < 2 * PORTS) (hv : (link PORTS s k).valid = true)
    (hstay : flow PORTS BUFFER_SIZE s inp k = []) :
    link PORTS (next PORTS BUFFER_SIZE s inp) k = link PORTS s k := by
  cases k with
  | zero =>
    rw [link_zero hP] at hv
    cases hv
  | succ k =>
    obtain ⟨hwf', heq⟩ := stored_next inp hB (by omega) (h.wf k (by omega))
    rw [link_succ (by omega)] at hv ⊢
    rw [link_succ (by omega)]
    have hq := (h.wf k (by omega)).queue_eq hv
    rw [hstay, List.nil_append, stored, stored, hq, List.cons_append] at heq
    have hv' : (stageBuffer PORTS (next PORTS BUFFER_SIZE s inp) k).flitOut.valid = true :=
      hwf'.out_valid.mpr (heq ▸ List.cons_ne_nil _ _)
    exact (List.cons.inj ((hwf'.queue_eq hv').symm.trans heq)).1

theorem ringWay_next (inp : Input) {k : ℕ} (hk : k < 2 * PORTS) (hv : (ringWay PORTS s k).valid = true)
    (hstay : (ringWay PORTS s k).transfer (ringReady PORTS BUFFER_SIZE s inp k) = []) :
    (ringWay PORTS (next PORTS BUFFER_SIZE s inp) k).valid = true ∧
      (ringWay PORTS (next PORTS BUFFER_SIZE s inp) k).last = (ringWay PORTS s k).last := by
  have harr := h.arrives hP hk
  have harr' := (h.next hP inp hB).arrives hP hk
  obtain ⟨hlink, hkeep⟩ := harr.ringWay_valid.mp hv
  rw [harr.ringWay_transfer _ _ hk] at hstay
  have hsame := link_next h hP hB hk hlink
    (flow_eq_nil (p := fun t => !leaves PORTS k t) hkeep hstay)
  have hlast := congrArg (fun f : Flit => f.last) hsame
  rw [harr'.ringWay_valid, hsame]
  exact ⟨⟨hlink, hkeep⟩, hlast⟩

theorem localWay_next (inp : Input) {k : ℕ} (hk : k < 2 * PORTS) (hv : (localWay PORTS s k).valid = true)
    (hstay : (localWay PORTS s k).transfer (localReady PORTS s inp k) = []) :
    (localWay PORTS (next PORTS BUFFER_SIZE s inp) k).valid = true ∧
      (localWay PORTS (next PORTS BUFFER_SIZE s inp) k).last = (localWay PORTS s k).last := by
  have harr := h.arrives hP hk
  have harr' := (h.next hP inp hB).arrives hP hk
  obtain ⟨hlink, hleave⟩ := harr.localWay_valid.mp hv
  rw [harr.localWay_transfer BUFFER_SIZE _ hk] at hstay
  have hsame := link_next h hP hB hk hlink (flow_eq_nil hleave hstay)
  have hlast := congrArg (fun f : Flit => f.last) hsame
  rw [harr'.localWay_valid, hsame]
  exact ⟨⟨hlink, hleave⟩, hlast⟩

theorem Waiting.next (hw : Waiting PORTS s u) (hheld : Held PORTS s inp) :
    Waiting PORTS (next PORTS BUFFER_SIZE s inp) (nextOpen PORTS BUFFER_SIZE s inp u) where
  ring i hi hlock hnone := by
    have hserves := mux_serves (s.routers i).muxRing0 (ringFwd0 s i) (localIn s inp i)
      ((s.routers i).buffer0.flitInReady BUFFER_SIZE)
    have hwaits := hw.ring i hi
    rw [← h.ringWay_open inp hP (by omega), ringReady_fst hi, ringWay_fst hi] at hnone
    rw [ringWay_fst hi] at hwaits
    obtain ⟨hv, hlast, hstay⟩ := Serves.waits0 hserves hwaits hlock hnone
    obtain ⟨hv', hlast'⟩ := ringWay_next h hP hB inp (k := i) (by omega) (by rwa [ringWay_fst hi])
      (by rwa [ringWay_fst hi, ringReady_fst hi])
    rw [ringWay_fst hi (s := s)] at hlast'
    exact ⟨hv', hlast'.trans hlast⟩
  inject i hi hlock hnone := by
    have hserves := mux_serves (s.routers i).muxRing0 (ringFwd0 s i) (localIn s inp i)
      ((s.routers i).buffer0.flitInReady BUFFER_SIZE)
    rw [injectTag_next] at hnone
    obtain ⟨hv, hlast, hstay⟩ := Serves.waits1 hserves (localIn_waits hw hheld hi) hlock hnone
    have hrefused : accepted BUFFER_SIZE s inp i = false := Flit.not_fire hstay
    refine ⟨inp.diiIn i, ?_, hv, hlast⟩
    simp only [Ring.next, hv, hrefused]
    rfl
  out0 i hi hlock hnone := by
    have hserves := muxRr_serves (s.routers i).muxLocal (ringLocal0 s i) (ringLocal1 PORTS s i)
      (inp.diiOutReady i)
    have hwaits := hw.out0 i hi
    rw [← h.localWay_open inp hP (by omega), localReady_fst hi, localWay_fst hi] at hnone
    rw [localWay_fst hi] at hwaits
    obtain ⟨hv, hlast, hstay⟩ := Serves.waits0 hserves hwaits hlock hnone
    obtain ⟨hv', hlast'⟩ := localWay_next h hP hB inp (k := i) (by omega) (by rwa [localWay_fst hi])
      (by rwa [localWay_fst hi, localReady_fst hi])
    rw [localWay_fst hi (s := s)] at hlast'
    exact ⟨hv', hlast'.trans hlast⟩
  out1 i hi hlock hnone := by
    have hserves := muxRr_serves (s.routers i).muxLocal (ringLocal0 s i) (ringLocal1 PORTS s i)
      (inp.diiOutReady i)
    have hwaits := hw.out1 i hi
    rw [← h.localWay_open inp hP (by omega), localReady_snd, localWay_snd] at hnone
    rw [localWay_snd] at hwaits
    obtain ⟨hv, hlast, hstay⟩ := Serves.waits1 hserves hwaits hlock hnone
    obtain ⟨hv', hlast'⟩ := localWay_next h hP hB inp (k := PORTS + i) (by omega)
      (by rwa [localWay_snd]) (by rwa [localWay_snd, localReady_snd])
    rw [localWay_snd (s := s)] at hlast'
    exact ⟨hv', hlast'.trans hlast⟩

end Waiting

/-! ## Some flit moves -/

section Moves
variable (PORTS BUFFER_SIZE : ℕ) (s : State) (inp : Input)

/-- A flit is accepted into a buffer, delivered, or dumped at the end of chain 1. -/
def Moves : Prop :=
  (∃ i < PORTS, ((muxRing0 BUFFER_SIZE s inp i).out.valid &&
    (s.routers i).buffer0.flitInReady BUFFER_SIZE) = true) ∨
  (∃ i < PORTS, ((ringFwd1 PORTS s i).valid &&
    (s.routers i).buffer1.flitInReady BUFFER_SIZE) = true) ∨
  (∃ i < PORTS, ((muxLocal PORTS s inp i).out.valid && inp.diiOutReady i) = true) ∨
  (chain1 PORTS s PORTS).valid = true

/-- The environment in a cycle in which all outputs are ready: a flit that is offered is held, and a
source is valid until it has injected the whole packet. -/
structure Driven : Prop where
  outReady : ∀ i < PORTS, inp.diiOutReady i = true
  held : Held PORTS s inp
  packet : ∀ i < PORTS, s.injecting i ≠ none → (inp.diiIn i).valid = true

/-- A buffer holds a flit, or one is offered at a local input. -/
def Busy : Prop :=
  ∃ i < PORTS, (s.routers i).buffer0.regOutValid = true ∨ (s.routers i).buffer1.regOutValid = true ∨
    (inp.diiIn i).valid = true

end Moves

theorem Flit.fire_of_mem {f g : Flit} {ready : Bool} (h : g ∈ f.transfer ready) :
    (f.valid && ready) = true := by
  obtain ⟨-, hv, hr⟩ := Flit.mem_transfer h
  rw [hv, hr]
  rfl

theorem moves_of_entering {k : ℕ} {f : Flit} (hk : k < 2 * PORTS)
    (hf : f ∈ entering PORTS BUFFER_SIZE s inp k) : Moves PORTS BUFFER_SIZE s inp := by
  obtain hi | ⟨i, hi, rfl⟩ := stage_cases hk
  · rw [entering, if_pos hi, stageBuffer_fst hi] at hf
    exact .inl ⟨k, hi, Flit.fire_of_mem hf⟩
  · rw [entering, if_neg (by omega), Nat.add_sub_cancel_left, stageBuffer_snd] at hf
    exact .inr (.inl ⟨i, hi, Flit.fire_of_mem hf⟩)

/-- If a packet that is in progress at the end of a link could go on there, then a flit moves. -/
def Supplied (PORTS BUFFER_SIZE : ℕ) (s : State) (inp : Input) (u : ℕ → Option Tag) (k : ℕ) : Prop :=
  (entered PORTS s u k).isSome → (stageBuffer PORTS s k).flitInReady BUFFER_SIZE = true →
    Moves PORTS BUFFER_SIZE s inp

section Progress
variable (h : Line PORTS BUFFER_SIZE s u) (hP : 1 ≤ PORTS)
include h hP

theorem moves_of_flow {k : ℕ} {f : Flit} (hk : k ≤ 2 * PORTS)
    (hf : f ∈ flow PORTS BUFFER_SIZE s inp k) : Moves PORTS BUFFER_SIZE s inp := by
  obtain hk | rfl := Nat.lt_or_eq_of_le hk
  · cases hleave : leaves PORTS k f.tag with
    | false =>
      have hmem : f ∈ (flow PORTS BUFFER_SIZE s inp k).filter fun f => !leaves PORTS k f.tag :=
        List.mem_filter.mpr ⟨hf, by rw [hleave]; rfl⟩
      obtain hi | ⟨i, hi, rfl⟩ := stage_cases hk
      · exact moves_of_entering hk (h.entering_fst hP hi ▸ List.mem_append_left _ hmem)
      · exact moves_of_entering hk (h.entering_snd hP hi ▸ hmem)
    | true =>
      have hmem : f ∈ (flow PORTS BUFFER_SIZE s inp k).filter fun f => leaves PORTS k f.tag :=
        List.mem_filter.mpr ⟨hf, hleave⟩
      obtain hi | ⟨i, hi, rfl⟩ := stage_cases hk
      · exact .inr (.inr (.inl ⟨k, hi, Flit.fire_of_mem
          (h.delivering_eq hP hi ▸ List.mem_append_left _ hmem)⟩))
      · exact .inr (.inr (.inl ⟨i, hi, Flit.fire_of_mem
          (h.delivering_eq hP hi ▸ List.mem_append_right _ hmem)⟩))
  · obtain ⟨-, hv, -⟩ := Flit.mem_transfer hf
    rw [Nat.two_mul, link_snd] at hv
    exact .inr (.inr (.inr hv))

theorem moves_of_injecting {i : ℕ} {f : Flit} (hi : i < PORTS)
    (hf : f ∈ injecting BUFFER_SIZE s inp i) : Moves PORTS BUFFER_SIZE s inp :=
  moves_of_entering (by omega) (h.entering_fst hP hi ▸ List.mem_append_right _ hf)

theorem moves_of_ringWay {k : ℕ} (hk : k < 2 * PORTS)
    (ht : (ringWay PORTS s k).transfer (ringReady PORTS BUFFER_SIZE s inp k) = [ringWay PORTS s k]) :
    Moves PORTS BUFFER_SIZE s inp := by
  have hmem : ringWay PORTS s k ∈
      (flow PORTS BUFFER_SIZE s inp k).filter fun f => !leaves PORTS k f.tag := by
    rw [← (h.arrives hP hk).ringWay_transfer BUFFER_SIZE inp hk, ht]
    exact List.mem_singleton_self _
  exact moves_of_flow h hP hk.le (List.mem_filter.mp hmem).1

theorem moves_of_localWay {k : ℕ} (hk : k < 2 * PORTS)
    (ht : (localWay PORTS s k).transfer (localReady PORTS s inp k) = [localWay PORTS s k]) :
    Moves PORTS BUFFER_SIZE s inp := by
  have hmem : localWay PORTS s k ∈
      (flow PORTS BUFFER_SIZE s inp k).filter fun f => leaves PORTS k f.tag := by
    rw [← (h.arrives hP hk).localWay_transfer BUFFER_SIZE inp hk, ht]
    exact List.mem_singleton_self _
  exact moves_of_flow h hP hk.le (List.mem_filter.mp hmem).1

/-- Inside a packet, the link has a flit of it, or the rest of it is further back. -/
theorem Line.back (hB : 2 ≤ BUFFER_SIZE) {k : ℕ} {t : Tag} (hk : k < 2 * PORTS) (ht : u k = some t)
    (hback : ∀ m, m + 1 = k → Supplied PORTS BUFFER_SIZE s inp u m) :
    Moves PORTS BUFFER_SIZE s inp ∨ (link PORTS s k).valid = true ∧ (link PORTS s k).tag = t := by
  cases k with
  | zero => exact nomatch h.start.symm.trans ht
  | succ m =>
    cases hv : (link PORTS s (m + 1)).valid with
    | true =>
      have hc := h.continues hP hk.le hv
      rw [ht] at hc
      exact .inr ⟨rfl, hc⟩
    | false =>
      have hwf := h.wf m (by omega)
      have hempty : stored PORTS s m = [] := by
        by_contra hne
        rw [link_succ (by omega), hwf.out_valid.mpr hne] at hv
        cases hv
      refine .inl (hback m rfl ?_ (hwf.inReady_iff.mpr ?_))
      · rw [entered, hempty, behind, opened_nil, ht]
        rfl
      · rw [stored] at hempty
        rw [hempty, List.length_nil]
        omega

theorem ring_moves (hw : Waiting PORTS s u) (hd : Driven PORTS s inp) (hB : 2 ≤ BUFFER_SIZE) {i : ℕ}
    (hi : i < PORTS) (hroom : (stageBuffer PORTS s i).flitInReady BUFFER_SIZE = true)
    (hback : ∀ m, m + 1 = i → Supplied PORTS BUFFER_SIZE s inp u m)
    (hfree : (s.routers i).muxRing0.lock = .free →
      (ringWay PORTS s i).valid = true ∨ (localIn s inp i).valid = true) :
    Moves PORTS BUFFER_SIZE s inp := by
  by_contra hstuck
  -- the input that the multiplexer is bound to has a flit
  have h0 : (s.routers i).muxRing0.lock = .in0 → (ringWay PORTS s i).valid = true := by
    intro hlock
    cases ha : (u i).filter fun t => !leaves PORTS i t with
    | none => exact (hw.ring i hi hlock ha).1
    | some t =>
      obtain ⟨hu, hkeep⟩ := Option.filter_eq_some_iff.mp ha
      obtain hmoves | ⟨hv, htag⟩ := h.back hP hB (by omega) hu hback
      · exact absurd hmoves hstuck
      · exact (h.arrives hP (by omega)).ringWay_valid.mpr ⟨hv, htag ▸ hkeep⟩
  have h1 : (s.routers i).muxRing0.lock = .in1 → (localIn s inp i).valid = true := by
    intro hlock
    by_cases hinj : s.injecting i = none
    · exact (localIn_waits hw hd.held hi hlock (by rw [injectTag, hinj]; rfl)).1
    · exact hd.packet i hi hinj
  have hserves := mux_serves (s.routers i).muxRing0 (ringFwd0 s i) (localIn s inp i) true
  rw [stageBuffer_fst hi] at hroom
  rw [ringWay_fst hi] at h0 hfree
  have hmux : mux (s.routers i).muxRing0 (ringFwd0 s i) (localIn s inp i) true =
      muxRing0 BUFFER_SIZE s inp i := by rw [muxRing0, hroom]
  rw [hmux] at hserves
  obtain ht | ht := Serves.progress hserves h0 h1 hfree
  · rw [← ringWay_fst hi, ← ringReady_fst hi] at ht
    exact hstuck (moves_of_ringWay h hP (by omega) ht)
  · exact hstuck (moves_of_injecting h hP hi (ht ▸ List.mem_singleton_self _))

theorem local_moves (hw : Waiting PORTS s u) (hd : Driven PORTS s inp) (hB : 2 ≤ BUFFER_SIZE) {i : ℕ}
    (hi : i < PORTS) (hback : ∀ m, m + 1 < 2 * PORTS → Supplied PORTS BUFFER_SIZE s inp u m)
    (hany : (localWay PORTS s i).valid = true ∨ (localWay PORTS s (PORTS + i)).valid = true) :
    Moves PORTS BUFFER_SIZE s inp := by
  by_contra hstuck
  have hway : ∀ k < 2 * PORTS, ∀ t, (u k).filter (leaves PORTS k) = some t →
      (localWay PORTS s k).valid = true := by
    intro k hk t ha
    obtain ⟨hu, hleave⟩ := Option.filter_eq_some_iff.mp ha
    obtain hmoves | ⟨hv, htag⟩ := h.back hP hB hk hu fun m hm => hback m (by omega)
    · exact absurd hmoves hstuck
    · exact (h.arrives hP hk).localWay_valid.mpr ⟨hv, htag ▸ hleave⟩
  have h0 : (s.routers i).muxLocal.lock = .in0 → (localWay PORTS s i).valid = true := by
    intro hlock
    cases ha : (u i).filter (leaves PORTS i) with
    | none => exact (hw.out0 i hi hlock ha).1
    | some t => exact hway i (by omega) t ha
  have h1 : (s.routers i).muxLocal.lock = .in1 → (localWay PORTS s (PORTS + i)).valid = true := by
    intro hlock
    cases ha : (u (PORTS + i)).filter (leaves PORTS (PORTS + i)) with
    | none => exact (hw.out1 i hi hlock ha).1
    | some t => exact hway (PORTS + i) (by omega) t ha
  have hserves := muxRr_serves (s.routers i).muxLocal (localWay PORTS s i)
    (localWay PORTS s (PORTS + i)) true
  have hmux : muxRr (s.routers i).muxLocal (localWay PORTS s i) (localWay PORTS s (PORTS + i)) true =
      muxLocal PORTS s inp i := by
    rw [muxLocal, localWay_fst hi, localWay_snd, hd.outReady i hi]
  rw [hmux] at hserves
  obtain ht | ht := Serves.progress hserves h0 h1 fun _ => hany
  · rw [← localReady_fst hi] at ht
    exact hstuck (moves_of_localWay h hP (by omega) ht)
  · rw [← localReady_snd] at ht
    exact hstuck (moves_of_localWay h hP (by omega) ht)

theorem forward_moves {i : ℕ} (hi : i < PORTS)
    (hroom : (stageBuffer PORTS s (PORTS + i)).flitInReady BUFFER_SIZE = true)
    (hv : (ringWay PORTS s (PORTS + i)).valid = true) : Moves PORTS BUFFER_SIZE s inp :=
  moves_of_ringWay h hP (k := PORTS + i) (by omega)
    (Flit.transfer_of_valid hv (ringReady_snd.trans hroom))

theorem supplied (hw : Waiting PORTS s u) (hd : Driven PORTS s inp) (hB : 2 ≤ BUFFER_SIZE) {k : ℕ}
    (hk : k < 2 * PORTS) : Supplied PORTS BUFFER_SIZE s inp u k := by
  induction k using Nat.strong_induction_on with
  | _ k ih =>
    intro hsome hroom
    have hback : ∀ m, m + 1 = k → Supplied PORTS BUFFER_SIZE s inp u m :=
      fun m hm => ih m (by omega) (by omega)
    obtain hi | ⟨i, hi, rfl⟩ := stage_cases hk
    · refine ring_moves h hP hw hd hB hi hroom hback fun hlock => ?_
      rw [(h.ring k hi).free hlock] at hsome
      cases hsome
    · rw [h.forward i hi] at hsome
      obtain ⟨t, ht⟩ := Option.isSome_iff_exists.mp hsome
      obtain ⟨hu, hkeep⟩ := Option.filter_eq_some_iff.mp ht
      obtain hmoves | ⟨hv, htag⟩ := h.back hP hB hk hu hback
      · exact hmoves
      · exact forward_moves h hP hi hroom ((h.arrives hP hk).ringWay_valid.mpr ⟨hv, htag ▸ hkeep⟩)

/-- The last flit that is stored on the line moves, or one that it waits for. -/
theorem moves_of_stored (hw : Waiting PORTS s u) (hd : Driven PORTS s inp) (hB : 2 ≤ BUFFER_SIZE)
    {n k : ℕ} (hn : k + 1 + n = 2 * PORTS) (hne : stored PORTS s k ≠ []) :
    Moves PORTS BUFFER_SIZE s inp := by
  have hsupplied : ∀ m, m + 1 < 2 * PORTS → Supplied PORTS BUFFER_SIZE s inp u m :=
    fun m hm => supplied h hP hw hd hB (by omega)
  induction n generalizing k with
  | zero =>
    have hv : (link PORTS s (k + 1)).valid = true := by
      rw [link_succ (by omega)]
      exact (h.wf k (by omega)).out_valid.mpr hne
    have hready : linkReady PORTS BUFFER_SIZE s inp (k + 1) = true := by
      have hend : k + 1 = 2 * PORTS := hn
      rw [hend]
      exact linkReady_end
    have hmem : link PORTS s (k + 1) ∈ flow PORTS BUFFER_SIZE s inp (k + 1) := by
      rw [flow, Flit.transfer_of_valid hv hready]
      exact List.mem_singleton_self _
    exact moves_of_flow h hP (by omega) hmem
  | succ n ih =>
    by_cases hnext : stored PORTS s (k + 1) = []
    · have hk : k + 1 < 2 * PORTS := by omega
      have hroom : (stageBuffer PORTS s (k + 1)).flitInReady BUFFER_SIZE = true := by
        rw [(h.wf (k + 1) hk).inReady_iff, ← stored, hnext, List.length_nil]
        omega
      have hv : (link PORTS s (k + 1)).valid = true := by
        rw [link_succ (by omega)]
        exact (h.wf k (by omega)).out_valid.mpr hne
      have harr := h.arrives hP hk
      cases hleave : leaves PORTS (k + 1) (link PORTS s (k + 1)).tag with
      | false =>
        have hway := harr.ringWay_valid.mpr ⟨hv, by rw [hleave]; rfl⟩
        obtain hi | ⟨i, hi, heq⟩ := stage_cases hk
        · exact ring_moves h hP hw hd hB hi hroom (fun m _ => hsupplied m (by omega))
            fun _ => .inl hway
        · rw [heq] at hroom hway
          exact forward_moves h hP hi hroom hway
      | true =>
        have hway := harr.localWay_valid.mpr ⟨hv, hleave⟩
        obtain hi | ⟨i, hi, heq⟩ := stage_cases hk
        · exact local_moves h hP hw hd hB hi hsupplied (.inl hway)
        · rw [heq] at hway
          exact local_moves h hP hw hd hB hi hsupplied (.inr hway)
    · exact ih (by omega) hnext

theorem moves_of_busy (hw : Waiting PORTS s u) (hd : Driven PORTS s inp) (hB : 2 ≤ BUFFER_SIZE)
    (hbusy : Busy PORTS s inp) : Moves PORTS BUFFER_SIZE s inp := by
  by_cases hstored : ∃ k < 2 * PORTS, stored PORTS s k ≠ []
  · obtain ⟨k, hk, hne⟩ := hstored
    exact moves_of_stored h hP hw hd hB (by omega : k + 1 + (2 * PORTS - (k + 1)) = 2 * PORTS) hne
  · have hempty : ∀ k < 2 * PORTS, stored PORTS s k = [] :=
      fun k hk => by_contra fun hne => hstored ⟨k, hk, hne⟩
    have hvalid : ∀ k < 2 * PORTS, (stageBuffer PORTS s k).regOutValid = true → False :=
      fun k hk hv => (h.wf k hk).out_valid.mp hv (hempty k hk)
    obtain ⟨i, hi, hv | hv | hv⟩ := hbusy
    · rw [← stageBuffer_fst hi] at hv
      exact (hvalid i (by omega) hv).elim
    · rw [← stageBuffer_snd] at hv
      exact (hvalid (PORTS + i) (by omega) hv).elim
    · have hroom : (stageBuffer PORTS s i).flitInReady BUFFER_SIZE = true := by
        rw [(h.wf i (by omega)).inReady_iff, ← stored, hempty i (by omega), List.length_nil]
        omega
      exact ring_moves h hP hw hd hB hi hroom (fun m _ => supplied h hP hw hd hB (by omega))
        fun _ => .inr hv

end Progress

/-- The debug ring does not deadlock: in every reachable state, while there is something to move and
the outputs are ready, a flit moves. -/
theorem ring_progress (hP : 1 ≤ PORTS) (hB : 2 ≤ BUFFER_SIZE) {data0 data1 : ℕ → List Flit}
    {inputs : List Input}
    (hrun : runFrom (step PORTS BUFFER_SIZE) (initial data0 data1) inputs = some s)
    (hd : Driven PORTS s inp) (hbusy : Busy PORTS s inp) : Moves PORTS BUFFER_SIZE s inp := by
  have hstable : Stable (step PORTS BUFFER_SIZE) fun s =>
      ∃ u, Line PORTS BUFFER_SIZE s u ∧ Waiting PORTS s u := by
    rintro s inp s' ⟨u, hu, hw⟩ hstep
    unfold step at hstep
    split_ifs at hstep with hheld
    exact Option.some.inj hstep ▸ ⟨_, hu.next hP inp hB, hw.next hu hP hB hheld⟩
  have hinit : ∃ u, Line PORTS BUFFER_SIZE (initial data0 data1) u ∧
      Waiting PORTS (initial data0 data1) u :=
    ⟨_, line_initial (by omega) data0 data1, waiting_initial PORTS data0 data1 _⟩
  obtain ⟨u, hu, hw⟩ := hstable.run hinit hrun
  exact moves_of_busy hu hP hw hd hB hbusy

/-- Port 1 offers `flit`. -/
def offers (flit : DiiFlit) (outReady : Bool) : Input := ⟨fun i => if i = 1 then flit else DiiFlit.idle, fun _ => outReady⟩

/-- Of a packet from port 1 to port 0 two flits fill the buffer in front of an output that has not been ready; the
third one waits at the entry, whose multiplexer is bound to it. As soon as the output is ready, a flit moves. -/
theorem ring_progress_stored : ∃ s, runFrom (step 2 2) (initial (fun _ => []) fun _ => [])
      [offers ⟨true, false, 0⟩ false, offers ⟨true, false, 1⟩ false, offers ⟨true, false, 2⟩ false] = some s ∧
    (s.routers 1).muxRing0.lock = .in1 ∧ (s.routers 1).buffer0.regOutValid = true ∧
    Moves 2 2 s (offers ⟨true, false, 2⟩ true) := by
  obtain ⟨s, hrun, hlock, hstored, hheld, hpacket⟩ : ∃ s ∈ runFrom (step 2 2) (initial (fun _ => []) fun _ => [])
      [offers ⟨true, false, 0⟩ false, offers ⟨true, false, 1⟩ false, offers ⟨true, false, 2⟩ false],
      (s.routers 1).muxRing0.lock = .in1 ∧ (s.routers 1).buffer0.regOutValid = true ∧
        Held 2 s (offers ⟨true, false, 2⟩ true) ∧
          ∀ i < 2, s.injecting i ≠ none → ((offers ⟨true, false, 2⟩ true).diiIn i).valid = true := by
    decide +kernel
  exact ⟨s, hrun, hlock, hstored, ring_progress (by decide) (by decide) hrun ⟨fun _ _ => rfl, hheld, hpacket⟩
    ⟨1, by decide, .inl hstored⟩⟩

end GlipOsd.Ring
