import GlipOsd.DiiBuffer.FullPacket
import GlipOsd.Foundations.Streams

/-! # The buffer of whole packets and its consumer

With `FULLPACKET` the output is not valid before the last flit of a packet is stored, but `reg_out_valid` is cleared by
the ready of the output alone. A consumer that is ready while the first flit of a packet is the only one stored makes
the buffer forget that flit.
-/

namespace GlipOsd.DiiBuffer.EarlyReady
open GlipOsd.Ring Packets Runs Streams FullPacket
set_option autoImplicit false

/-- A cycle has the flit at the input and whether the output is ready. -/
def packetBuffer (size : ℕ) : Circuit FullPacket (Flit × Bool) Flit Flit where
  next b i := b.next size i.1 i.2
  ins b i := i.1.transfer (b.flitInReady size)
  outs b i := b.flitOut.transfer i.2

/-- The flits leave in order, and one is offered while a packet, or the rest of one, is stored with its end. -/
structure Lossless (t : Seen FullPacket Flit Flit) : Prop where
  order : t.outs <+: t.ins
  outValid : t.state.flitOut.valid = true ↔ (cut Flit.ends t.inside).1 ≠ []

/-- The output is not ready too early: with one flit stored, none offered at the output and none at the input. -/
def Timely (b : FullPacket) (i : Flit × Bool) : Prop :=
  i.2 = true → b.flitOut.valid = true ∨ i.1.valid = true ∨ b.regOutValid = false ∨ b.rp ≠ 0

instance (b : FullPacket) (i : Flit × Bool) : Decidable (Timely b i) := inferInstanceAs (Decidable (_ → _))

/-! ## One cycle -/

section Cycle
variable {size : ℕ} {b : FullPacket} {i : Flit × Bool}

/-- A ready that comes early, but not too early, makes no difference. -/
theorem next_of_timely (h : Timely b i) (hv : b.flitOut.valid = false) :
    b.next size i.1 i.2 = b.next size i.1 false := by
  cases hready : i.2 with
  | false => rfl
  | true =>
    obtain hc | hc | hc | hc := h hready
    · rw [hv] at hc
      cases hc
    · simp [FullPacket.next, nextLastBuf, hv, hc]
    · simp [FullPacket.next, nextLastBuf, hv, hc]
    · simp [FullPacket.next, nextLastBuf, hv, hc]

theorem cycle_spec (hsize : 2 ≤ size) (h : Wf size b) (ht : Timely b i) :
    Wf size (b.next size i.1 i.2) ∧
      Flows b.queue (i.1.transfer (b.flitInReady size)) (b.flitOut.transfer i.2) (b.next size i.1 i.2).queue := by
  cases hv : b.flitOut.valid with
  | true => exact h.next_spec hsize i.1 fun _ => hv
  | false =>
    rw [next_of_timely ht hv, Flit.transfer_of_not_valid _ hv, ← Flit.transfer_of_not_valid false hv]
    exact h.next_spec hsize i.1 nofun

end Cycle

/-! ## Runs -/

/-- The registers hold the flits that have not left. -/
structure Holds (size : ℕ) (t : Seen FullPacket Flit Flit) : Prop where
  wf : Wf size t.state
  flow : t.ins = t.outs ++ t.state.queue

section Runs
variable {size : ℕ} {t t' : Seen FullPacket Flit Flit} {i : Flit × Bool}

theorem holds_start (hsize : 2 ≤ size) (data : List Flit) : Holds size (start (FullPacket.reset size data)) :=
  ⟨wf_reset (by omega) data, rfl⟩

theorem Holds.lossless (h : Holds size t) : Lossless t := by
  refine ⟨⟨_, h.flow.symm⟩, ?_⟩
  rw [Seen.inside_eq h.flow, h.wf.out_valid, ne_eq, cut_fst_eq_nil_iff, Bool.not_eq_false]

theorem Holds.passes (hsize : 2 ≤ size) (h : Holds size t) {js : List (Flit × Bool)}
    (hjs : Takes (packetBuffer size).step (fun t i => Timely t.state i) t js) :
    Passes (packetBuffer size).step (Holds size) t js := by
  have hflows := (packetBuffer size).passes_queue (Wf size) Timely (fun b => b.queue)
    (fun b i hwf ht => cycle_spec hsize hwf ht) h.wf h.flow hjs
  exact hflows.mono fun t h => ⟨h.1, h.2⟩

/-- Whatever follows, the buffer loses no flit to a consumer that keeps its time. -/
def GoesWell (size : ℕ) (t : Seen FullPacket Flit Flit) : Prop :=
  ∀ js, Takes (packetBuffer size).step (fun t i => Timely t.state i) t js → Passes (packetBuffer size).step Lossless t js

theorem Holds.goesWell (hsize : 2 ≤ size) (h : Holds size t) : GoesWell size t :=
  fun _ hjs => (h.passes hsize hjs).mono fun _ h => h.lossless

/-- A packet of one flit. -/
def single : Flit := ⟨⟨true, true, 0⟩, 0, 0⟩

/-- A packet of one flit goes straight through a buffer that takes itself for empty. -/
theorem run_single (hsize : 2 ≤ size) (hreg : t.state.regOutValid = false) (hrp : t.state.rp = 0) :
    Takes (packetBuffer size).step (fun t i => Timely t.state i) t [(single, false), (Flit.idle, true)] ∧
      ∃ s, runFrom (packetBuffer size).step t [(single, false), (Flit.idle, true)] =
        some ⟨s, t.ins ++ [single], t.outs ++ [single]⟩ := by
  obtain ⟨n, rfl⟩ := Nat.exists_eq_add_of_le' hsize
  have hready : t.state.flitInReady (n + 2) = true := by simp [Buffer.flitInReady, hreg]
  have hsingle : (t.state.next (n + 2) single false).flitOut = single := by
    simp [FullPacket.next, nextLastBuf, FullPacket.flitOut, single, hready, hreg, hrp]
  have hin : single.transfer (t.state.flitInReady (n + 2)) = [single] := Flit.transfer_of_valid rfl hready
  have hidle (ready : Bool) : Flit.idle.transfer ready = [] := Flit.transfer_of_not_valid ready rfl
  refine ⟨⟨fun h => absurd h Bool.false_ne_true, ?_⟩, t.state.next (n + 2) single false |>.next (n + 2) Flit.idle true, ?_⟩
  · rintro s' hs'
    obtain rfl := Option.some.inj hs'
    refine ⟨fun _ => .inl ?_, fun _ _ => trivial⟩
    show (t.state.next (n + 2) single false).flitOut.valid = true
    rw [hsingle]
    rfl
  · simp only [runFrom_cons, Circuit.step, packetBuffer, Option.bind_some, runFrom_nil, hin, hsingle,
      hidle, Flit.transfer_of_not_ready _ rfl, List.append_nil]
    rfl

/-- Behind a ready that comes too early, the next packet overtakes the flit that is stored. -/
theorem Holds.not_goesWell (hsize : 2 ≤ size) (h : Holds size t) (hi : ¬ Timely t.state i)
    (hstep : (packetBuffer size).step t i = some t') : ¬ GoesWell size t' := by
  simp only [Timely, not_forall, not_or, Bool.not_eq_true, Bool.not_eq_false, not_not] at hi
  obtain ⟨hready, hv, hin, hreg, hrp⟩ := hi
  have hqueue : t.state.queue = [t.state.toBuffer.flitOut] := by
    rw [h.wf.buffer.queue_eq hreg, hrp]
    rfl
  have hlast : t.state.toBuffer.flitOut.last = false := by
    have hout := h.wf.out_valid
    rw [hv, hqueue] at hout
    simpa [Flit.ends] using hout.symm
  -- the flit stays in the shift register, where no register counts it
  have hnext : t.state.next size i.1 i.2 = ⟨⟨t.state.data, 0, false⟩, t.state.dataLastBuf⟩ := by
    simp [FullPacket.next, nextLastBuf, hready, hv, hin, hrp]
  obtain rfl := Option.some.inj hstep
  obtain ⟨htimely, s, hrun⟩ := run_single hsize (t := ⟨t.state.next size i.1 i.2, _, _⟩)
    (congrArg (·.regOutValid) hnext) (congrArg (·.rp) hnext)
  intro hwell
  have horder := ((hwell _ htimely).last hrun).order
  simp only [packetBuffer, Flit.transfer_of_not_valid _ hv, Flit.transfer_of_not_valid _ hin, List.append_nil,
    h.flow, hqueue, List.append_assoc] at horder
  obtain ⟨rest, hrest⟩ := horder
  rw [List.append_assoc, List.append_cancel_left_eq] at hrest
  have hsame : single = t.state.toBuffer.flitOut := (List.cons.inj hrest).1
  rw [← hsame] at hlast
  cases hlast

/-- **A consumer may be ready early, but not too early.** Whatever follows with a consumer that keeps its time, no flit
is lost and the output is valid just while the end of a packet is stored, exactly if the consumer has kept its time so
far. The flits at the input may be any. -/
theorem goesWell_iff_timely (hsize : 2 ≤ size) (data : List Flit) (is : List (Flit × Bool)) :
    Passes (packetBuffer size).step (GoesWell size) (start (FullPacket.reset size data)) is ↔
      Takes (packetBuffer size).step (fun t i => Timely t.state i) (start (FullPacket.reset size data)) is := by
  have hnext (t : Seen FullPacket Flit Flit) (i : Flit × Bool) (t' : Seen FullPacket Flit Flit) (h : Holds size t)
      (hi : Timely t.state i) (hstep : (packetBuffer size).step t i = some t') : Holds size t' := by
    have hcycle : Passes (packetBuffer size).step (Holds size) t [i] := h.passes hsize ⟨hi, fun _ _ => trivial⟩
    exact (hcycle.2 t' hstep).head
  have hiff (t : Seen FullPacket Flit Flit) (i : Flit × Bool) (t' : Seen FullPacket Flit Flit) (h : Holds size t)
      (_ : GoesWell size t) (hstep : (packetBuffer size).step t i = some t') : GoesWell size t' ↔ Timely t.state i := by
    refine ⟨fun hwell => ?_, fun hi => (hnext t i t' h hi hstep).goesWell hsize⟩
    by_contra hi
    exact h.not_goesWell hsize hi hstep hwell
  obtain ⟨t, hrun⟩ := exists_run (packetBuffer size).step (fun _ _ => rfl) (start (FullPacket.reset size data)) is
  have hstart := holds_start hsize data
  refine passes_iff_takes (Holds size) ?_ hiff hstart (hstart.goesWell hsize) hrun
  exact fun t i t' h hwell hstep hwell' => hnext t i t' h ((hiff t i t' h hwell hstep).mp hwell') hstep

/-- Packets in a buffer of four flits, with a consumer that is ready early while two flits are stored. -/
theorem early_goesWell : Passes (packetBuffer 4).step (GoesWell 4) (start (FullPacket.reset 4 []))
    [(⟨⟨true, false, 1⟩, 0, 0⟩, true), (⟨⟨true, false, 2⟩, 0, 0⟩, false), (Flit.idle, true),
      (⟨⟨true, true, 3⟩, 0, 0⟩, true)] :=
  (goesWell_iff_timely (by decide) [] _).mpr (by decide)

/-- The consumer is ready while the first flit of a packet is stored: the flit is lost, and the rest of the packet
goes out without it. -/
theorem first_flit_lost : ∃ t, runFrom (packetBuffer 4).step (start (FullPacket.reset 4 []))
      [(⟨⟨true, false, 1⟩, 0, 0⟩, false), (Flit.idle, true), (⟨⟨true, true, 2⟩, 0, 0⟩, false), (Flit.idle, true)] = some t ∧
    t.ins = [⟨⟨true, false, 1⟩, 0, 0⟩, ⟨⟨true, true, 2⟩, 0, 0⟩] ∧ t.outs = [⟨⟨true, true, 2⟩, 0, 0⟩] ∧ ¬ Lossless t := by
  refine ⟨_, rfl, rfl, rfl, fun h => ?_⟩
  exact absurd h.order (by decide)

end Runs

end GlipOsd.DiiBuffer.EarlyReady
