import GlipOsd.Testbench.HostPort

/-! # Between the host and the modules

What a module receives from the host is the packets that the host has addressed to it, and what the
host receives is the packets that the modules have sent to it, one behind the other. For this the host
sends no empty packet, and the modules send none of `BUF_SIZE` flits or more.
-/

namespace GlipOsd.Testbench
open Packets Runs GlipOsd.Ring Him
set_option autoImplicit false

/-- The destination is in the first word. -/
def addressedTo (i : ℕ) (p : HostPacket) : Bool :=
  p.data.head?.any fun w => ((swap w).extractLsb' 0 10).toNat == i

/-- The flits of the packets that have come from a port, as the module sees them. -/
def received (s : System) (i j : ℕ) : List (List DiiFlit) :=
  (packetsFrom j (s.ring.delivered i)).map (List.map Flit.toDiiFlit)

/-- No module sends the host a packet that fills the buffer of the host interface module. -/
def Short (N : ℕ) (s : System) : Prop :=
  ∀ j < N, ∀ p ∈ packetsTo 0 (s.ring.injected j), p.length < bufSize

instance (N : ℕ) (s : System) : Decidable (Short N s) := inferInstanceAs (Decidable (∀ j < N, _))

/-! ## From the host -/

section Stream
variable {ps : List HostPacket} {t t' : Receiving} {i : IngressIn}

theorem isPacket_deframe (w : BitVec 16) (ws : List (BitVec 16)) :
    IsPacket DiiFlit.last (deframe (w :: ws).length (w :: ws)) := by
  induction ws generalizing w with
  | nil => exact ⟨[], ⟨true, true, swap w⟩, rfl, by simp [Open], rfl⟩
  | cons v ws ih =>
    obtain ⟨body, x, heq, hopen, hx⟩ := ih v
    refine ⟨⟨true, false, swap w⟩ :: body, x, ?_, ?_, hx⟩
    · rw [List.length_cons, deframe, heq]
      rfl
    · intro f hf
      obtain rfl | hf := List.mem_cons.mp hf
      · rfl
      · exact hopen f hf

theorem isPacket_flits {p : HostPacket} (hp : p.data ≠ []) : IsPacket DiiFlit.last p.flits := by
  have hwords := p.deframe_words
  rw [HostPacket.words, deframe, p.toNat_header] at hwords
  obtain ⟨w, ws, hdata⟩ := List.exists_cons_of_ne_nil hp
  rw [← hwords, hdata]
  exact isPacket_deframe w ws

theorem cut_stream (hps : ∀ p ∈ ps, p.data ≠ []) :
    (cut DiiFlit.last (deframe 0 (stream ps))).1 = ps.map HostPacket.flits := by
  have hall : ∀ q ∈ ps.map HostPacket.flits, IsPacket DiiFlit.last q := by
    intro q hq
    obtain ⟨p, hp, rfl⟩ := List.mem_map.mp hq
    exact isPacket_flits (hps p hp)
  have hcut : cut DiiFlit.last ((ps.map HostPacket.flits).flatten ++ []) =
      (ps.map HostPacket.flits, []) := cut_flatten hall (by simp [Open])
  rw [List.append_nil, ← List.flatMap_def] at hcut
  rw [deframe_stream, hcut]

theorem head_flits (p : HostPacket) (i : ℕ) :
    (p.flits.head?.any fun f => (destOf f).toNat == i) = addressedTo i p := by
  unfold HostPacket.flits addressedTo
  cases p.data with
  | nil => rfl
  | cons w ws =>
    rw [List.mapIdx_cons]
    rfl

/-- With no empty packet, all headers announce flits. -/
theorem headerNonzero (hps : ∀ p ∈ ps, p.data ≠ []) (h : Receiving.Synced ps t) :
    t.HeaderNonzero i := by
  intro hpending w hw hzero
  obtain ⟨v, vs, htaken⟩ := List.exists_cons_of_ne_nil (List.ne_nil_of_mem hw)
  obtain ⟨rfl, -, -, hsend⟩ := Receiving.taken_eq htaken
  rw [htaken, List.mem_singleton] at hw
  subst hw
  have hsplit := h.split
  rw [hsend] at hsplit
  obtain ⟨p, hp, rfl⟩ := header_due hsplit hpending
  have hlen := p.toNat_header
  rw [hzero] at hlen
  exact hps p hp (List.length_eq_zero_iff.mp hlen.symm)

end Stream

/-- The host interface module is in step with the host. -/
structure Fed (ps : List HostPacket) (s : System) : Prop where
  wired : Wired s
  synced : s.ingress.Synced ps
  framed : s.ingress.Framed

variable {N BUFFER_SIZE : ℕ} {s s' t : System} {i : Cycle} {ps : List HostPacket}
  {data0 data1 : ℕ → List Flit} {data : List Flit} {size : BitVec 5} {cycles : List Cycle}

theorem fed_start (data0 data1 : ℕ → List Flit) (data : List Flit) (size : BitVec 5)
    (ps : List HostPacket) : Fed ps (start data0 data1 data size ps) :=
  ⟨wired_start data0 data1 data size ps, Receiving.synced_start size ps, rfl,
    ⟨fun _ => rfl, fun _ => rfl⟩⟩

theorem fed_stable (hps : ∀ p ∈ ps, p.data ≠ []) : Stable (step N BUFFER_SIZE) (Fed ps) := by
  intro s i s' h hstep
  obtain ⟨-, -, hingress, -⟩ := step_eq_some.mp hstep
  obtain ⟨hiff, hsynced⟩ := h.synced.cycle h.framed hingress
  have hframed := hiff.mpr (headerNonzero hps h.synced)
  exact ⟨h.wired.next hstep, hsynced hframed, hframed⟩

theorem Fed.flits_prefix (h : Fed ps s) : s.ingress.flits <+: deframe 0 (stream ps) := by
  rw [h.framed.1, ← h.synced.split, deframe_append]
  exact List.prefix_append _ _

/-- The packets whose first flit names port `i`. -/
def forPort (i : ℕ) (packets : List (List DiiFlit)) : List (List DiiFlit) :=
  packets.filter fun p => p.head?.any fun f => (destOf f).toNat == i

theorem packetsTo_map (i : ℕ) (xs : List Flit) : (packetsTo i xs).map (List.map Flit.toDiiFlit) =
    forPort i (cut DiiFlit.last (xs.map Flit.toDiiFlit)).1 := by
  have hcut : cut DiiFlit.last (xs.map Flit.toDiiFlit) = _ :=
    cut_map Flit.toDiiFlit (fun _ => rfl : ∀ f : Flit, f.toDiiFlit.last = Flit.ends f) _
  rw [hcut, forPort, List.filter_map, packetsTo, packetsWith]
  congr 1
  refine List.filter_congr fun p _ => ?_
  cases p <;> rfl

theorem Wired.packetsTo_map (h : Wired s) (i : ℕ) :
    (packetsTo i (s.ring.injected 0)).map (List.map Flit.toDiiFlit) =
      forPort i (cut DiiFlit.last s.ingress.flits).1 := by
  rw [Testbench.packetsTo_map, h.injected]

theorem forPort_flits (ps : List HostPacket) (i : ℕ) :
    forPort i (ps.map HostPacket.flits) = (ps.filter (addressedTo i)).map HostPacket.flits := by
  rw [forPort, List.filter_map]
  congr 1
  exact List.filter_congr fun p _ => head_flits p i

/-- The packets that port 0 has accepted for a port are the first ones of those addressed to it. -/
theorem Fed.packetsTo_prefix (h : Fed ps s) (hps : ∀ p ∈ ps, p.data ≠ []) (i : ℕ) :
    (packetsTo i (s.ring.injected 0)).map (List.map Flit.toDiiFlit) <+:
      (ps.filter (addressedTo i)).map HostPacket.flits := by
  rw [h.wired.packetsTo_map, ← forPort_flits, ← cut_stream hps]
  exact List.IsPrefix.filter _ <| cut_fst_prefix h.flits_prefix

section Reached
variable (hN : 1 ≤ N) (hmax : N ≤ 1024) (hB : 2 ≤ BUFFER_SIZE)
  (hrun : runFrom (step N BUFFER_SIZE) (start data0 data1 data size ps) cycles = some t)
include hN hmax hB hrun

theorem delivers_of_run : Delivers N BUFFER_SIZE t.ring := by
  obtain ⟨inputs, hring⟩ := ring_run hrun
  exact Delivers.run hN hmax hB hring

/-- What a module receives from the host is the first packets that the host has addressed to it, whole
and in their order, whatever the other modules do. -/
theorem modules_receive (hps : ∀ p ∈ ps, p.data ≠ []) {i : ℕ} (hi : i < N) :
    received t i 0 <+: (ps.filter (addressedTo i)).map HostPacket.flits := by
  have hfed := (fed_stable hps).run (fed_start data0 data1 data size ps) hrun
  have hdelivers := delivers_of_run hN hmax hB hrun
  have hpre := hdelivers.packetsFrom_prefix hmax hi hN
  exact (hpre.map _).trans (hfed.packetsTo_prefix hps i)

end Reached

/-- The host addresses a word to the module at port 1. -/
theorem modules_receive_one : ∃ t, runFrom (step 2 2)
      (start (fun _ => []) (fun _ => []) [] 0 [⟨[0x0100], by decide⟩]) (List.replicate 3 silent) = some t ∧
    received t 1 0 ≠ [] ∧
      received t 1 0 <+: ([⟨[0x0100], by decide⟩].filter (addressedTo 1)).map HostPacket.flits := by
  refine ⟨_, rfl, by decide, ?_⟩
  have hrun : runFrom (step 2 2) (start (fun _ => []) (fun _ => []) [] 0 [⟨[0x0100], by decide⟩])
      (List.replicate 3 silent) = some _ := rfl
  exact modules_receive (by decide) (by decide) (by decide) hrun (by decide) (by decide)

/-! ## To the host -/

/-- The words to the host have been framed as they should. -/
structure Serves (N BUFFER_SIZE : ℕ) (s : System) : Prop where
  wired : Wired s
  delivers : Delivers N BUFFER_SIZE s.ring
  right : Framing.Right s.egress

theorem short_of_next (hstep : step N BUFFER_SIZE s i = some s') (h : Short N s') : Short N s := by
  obtain ⟨-, hring, -⟩ := step_eq_some.mp hstep
  intro j hj p hp
  have hpre : s.ring.injected j <+: s'.ring.injected j := by
    rw [hring, injected_next]
    exact List.prefix_append _ _
  have hcut : (cut Flit.ends (s.ring.injected j)).1 <+: _ := cut_fst_prefix hpre
  exact h j hj p ((hcut.filter _).subset hp)

/-- Every packet delivered at port 0 is one of those that were sent there. -/
theorem length_lt_of_short (hN : 1 ≤ N) (hmax : N ≤ 1024) (h : Delivers N BUFFER_SIZE s.ring)
    (hshort : Short N s) {p : List Flit} (hp : p ∈ (cut Flit.ends (s.ring.delivered 0)).1) :
    p.length < bufSize := by
  obtain ⟨j, hj, hfrom⟩ := h.fromTo hmax hN (.inl hp)
  refine hshort j hj p ((h.packetsFrom_prefix hmax hN hj).subset (List.mem_filter.mpr ⟨hp, ?_⟩))
  obtain ⟨head, hhead, -⟩ := hfrom.dest
  have hmem := List.mem_of_mem_head? hhead
  rw [Option.mem_def.mp hhead, Option.any_some, hfrom.source head hmem]
  exact beq_self_eq_true j

theorem Serves.next (hN : 1 ≤ N) (hmax : N ≤ 1024) (hB : 2 ≤ BUFFER_SIZE)
    (h : Serves N BUFFER_SIZE s) (hshort : Short N s) (hstep : step N BUFFER_SIZE s i = some s') :
    Serves N BUFFER_SIZE s' := by
  obtain ⟨-, hring, -, hegress, -⟩ := step_eq_some.mp hstep
  refine ⟨h.wired.next hstep, hring ▸ h.delivers.next hN hmax hB, Framing.right_cycle h.right hegress ?_⟩
  intro hidle hvalid _
  obtain ⟨done, front, hexact⟩ := h.right
  have hany := hexact.valid_eq.symm.trans hvalid
  obtain ⟨rest, hcut⟩ := cut_eq_first hany
  have hmem : first Flit.ends (stored s.egress) ∈ (cut Flit.ends (s.ring.delivered 0)).1 := by
    rw [← h.wired.accepted, hexact.accepted, cut_packets_append hexact.packets, hexact.idle hidle,
      List.nil_append, hcut]
    exact List.mem_append_right _ List.mem_cons_self
  exact (length_lt_of_short hN hmax h.delivers hshort hmem).ne

theorem Serves.words_framed (h : Serves N BUFFER_SIZE s) :
    s.egress.words <+: Framing.frames (cut Flit.ends (s.ring.delivered 0)).1 := by
  obtain ⟨done, front, hexact⟩ := h.right
  rw [← h.wired.accepted]
  exact hexact.framed.sent

/-- The words that the host takes are frames of the packets that arrive at its port, as far as it has
taken them. They are packets of the modules, and those of each module are the first ones that it has
sent to the host, in their order. -/
theorem host_receives (hN : 1 ≤ N) (hmax : N ≤ 1024) (hB : 2 ≤ BUFFER_SIZE)
    (hrun : runFrom (step N BUFFER_SIZE) (start data0 data1 data size ps) cycles = some t)
    (hshort : Short N t) : ∃ packets, t.egress.words <+: Framing.frames packets ∧
      (∀ p ∈ packets, ∃ j < N, FromTo j 0 p) ∧
      ∀ j < N, (packets.filter fun p => p.head?.any fun f => f.source == j) <+:
        packetsTo 0 (t.ring.injected j) := by
  have hserves : Serves N BUFFER_SIZE t := by
    refine run_of_last (P := Short N) (fun _ _ _ hstep => short_of_next hstep) ?_ ?_ hrun hshort
    · exact fun _ _ _ h hs hstep => h.next hN hmax hB hs hstep
    · exact ⟨wired_start data0 data1 data size ps, delivers_initial hB data0 data1,
        Framing.right_start data⟩
  refine ⟨(cut Flit.ends (t.ring.delivered 0)).1, hserves.words_framed, fun p hp => ?_, fun j hj => ?_⟩
  · exact hserves.delivers.fromTo hmax hN (.inl hp)
  · exact hserves.delivers.packetsFrom_prefix hmax hN hj

/-- A module sends the host a packet of one flit. -/
theorem host_receives_one : ∃ t, runFrom (step 2 2) (start (fun _ => []) (fun _ => []) [] 0 [])
      [⟨true, true, fun _ => ⟨true, true, 0⟩, fun _ => true⟩, silent, silent, silent] = some t ∧
    t.egress.words = [0x0100, 0] ∧ ∃ packets, t.egress.words <+: Framing.frames packets ∧
      (∀ p ∈ packets, ∃ j < 2, FromTo j 0 p) ∧
      ∀ j < 2, (packets.filter fun p => p.head?.any fun f => f.source == j) <+:
        packetsTo 0 (t.ring.injected j) := by
  refine ⟨_, rfl, by decide, ?_⟩
  have hrun : runFrom (step 2 2) (start (fun _ => []) (fun _ => []) [] 0 [])
      [⟨true, true, fun _ => ⟨true, true, 0⟩, fun _ => true⟩, silent, silent, silent] = some _ := rfl
  exact host_receives (by decide) (by decide) (by decide) hrun (by decide)

end GlipOsd.Testbench
