import GlipOsd.Him.Egress

/-! # The words to the host

Each packet is sent as a word with its number of flits and a word for each flit. The number is cut to
`$clog2(BUF_SIZE)` bits, so that a packet that fills the buffer is announced as one without flits.
-/

namespace GlipOsd.Him.Framing
open Packets Runs GlipOsd.Ring
set_option autoImplicit false

def word (f : Flit) : BitVec 16 := swap f.data

def header (n : ℕ) : BitVec 16 := swap (BitVec.ofNat 16 n)

/-- The words that a packet stands for. -/
def frame (p : List Flit) : List (BitVec 16) := header p.length :: p.map word

def frames (ps : List (List Flit)) : List (BitVec 16) := ps.flatMap frame

/-- The words sent are those of the packets accepted, up to some point, and words are offered as long as
some are left. An offered word stays until it is taken. -/
structure Framed (t : Tracked) : Prop where
  sent : t.words <+: frames (cut Flit.ends t.accepted).1
  rest : glipOutValid t.regs = false → t.words = frames (cut Flit.ends t.accepted).1
  offered : ∀ w ∈ t.offered, glipOutValid t.regs = true ∧ glipOutData t.regs = w

/-- The header that is taken is not the one of a packet that fills the buffer. -/
def ShortHeader (t : Tracked) (i : Input) : Prop :=
  t.regs.egressActive = false → glipOutValid t.regs = true → i.glipOutReady = true →
    (first Flit.ends (stored t)).length ≠ bufSize

instance (t : Tracked) (i : Input) : Decidable (ShortHeader t i) := inferInstanceAs (Decidable (_ → _))

/-- The header and the flits of the packet that is being sent. -/
def opened (t : Tracked) (front : List Flit) : List (BitVec 16) :=
  if t.regs.egressActive then header (first Flit.ends (front ++ stored t)).length :: front.map word else []

/-- All headers sent were right. -/
structure Exact (t : Tracked) (done : List (List Flit)) (front : List Flit) : Prop
    extends Sending t done front where
  words : t.words = frames done ++ opened t front
  offered : ∀ w ∈ t.offered, glipOutValid t.regs = true ∧ glipOutData t.regs = w

variable {t t' : Tracked} {i : Input} {done : List (List Flit)} {front : List Flit}

theorem frames_concat (ps : List (List Flit)) (p : List Flit) : frames (ps ++ [p]) = frames ps ++ frame p := by
  rw [frames, List.flatMap_append, List.flatMap_singleton]
  rfl

theorem clog_bufSize : 2 ^ Nat.clog 2 bufSize = bufSize := by
  decide +kernel

/-- The header is right but for a packet that fills the buffer. -/
theorem header_mod {n : ℕ} (hle : n ≤ bufSize) : header (n % bufSize) = header n ↔ n ≠ bufSize := by
  rw [bufSize] at hle
  rw [bufSize]
  interval_cases n <;> decide

theorem Sending.glipOutData_eq (h : Sending t done front) (hv : glipOutValid t.regs = true) :
    glipOutData t.regs =
      if t.regs.egressActive then word (diiEgress t.regs)
      else header ((first Flit.ends (stored t)).length % bufSize) := by
  obtain ⟨p, rest, hqueue, hp, hsize⟩ := h.wf.packetSize_eq hv
  have hstored : stored t = p ++ rest := hqueue
  rw [glipOutData, egressDataBe, egressPacketSize, clog_bufSize, hsize, hstored, first_packet_append hp]
  cases t.regs.egressActive <;> rfl

theorem Exact.framed (h : Exact t done front) : Framed t where
  offered := h.offered
  sent := by
    rw [h.accepted, cut_packets_append h.packets, frames, List.flatMap_append, h.words]
    refine (List.prefix_append_right_inj _).mpr ?_
    unfold opened
    cases ha : t.regs.egressActive with
    | false => exact List.nil_prefix
    | true =>
      have hany := h.active ha
      have hall : (front ++ stored t).any Flit.ends = true := by rw [List.any_append, hany, Bool.or_true]
      obtain ⟨ps, hcut⟩ := cut_eq_first hall
      rw [hcut, List.flatMap_cons, if_pos rfl]
      apply List.IsPrefix.trans ?_ (List.prefix_append _ _)
      exact List.cons_prefix_cons.mpr ⟨rfl, (open_prefix_first h.openFront hany).map word⟩
  rest hv := by
    rw [h.valid_eq] at hv
    have ha : t.regs.egressActive = false := by
      by_contra ha
      rw [h.active (Bool.not_eq_false _ ▸ ha)] at hv
      cases hv
    rw [h.accepted, cut_packets_append h.packets, h.words, opened, ha, h.idle ha, List.nil_append,
      (cut_fst_eq_nil_iff _).mpr hv, List.append_nil, if_neg Bool.false_ne_true, List.append_nil]

theorem Exact.cycle_waiting (h : Exact t done front) (hstep : cycle t i = some t')
    (hsent : (glipOutValid t.regs && i.glipOutReady) = false) : Exact t' done front := by
  have hready : diiEgressReady t.regs i = false := by
    by_contra hr
    rw [Bool.not_eq_false, diiEgressReady, Bool.and_eq_true] at hr
    rw [h.valid_eq, h.active hr.1, hr.2] at hsent
    cases hsent
  obtain ⟨hsending, hstored⟩ := h.toSending.cycle_header hstep hready
  have hactive : t'.regs.egressActive = t.regs.egressActive := by
    obtain rfl := Option.some.inj hstep
    have hwait : ((diiEgress t.regs).valid && i.glipOutReady) = false := hsent
    simp only [next, hwait, hready, Bool.false_and, Bool.not_false]
    cases t.regs.egressActive <;> rfl
  have hwords : t'.words = t.words := by
    obtain rfl := Option.some.inj hstep
    show t.words ++ sent t.regs i = t.words
    rw [sent, hsent, if_neg Bool.false_ne_true, List.append_nil]
  have hfirst (xs : List Flit) (hany : (stored t).any Flit.ends = true) :
      first Flit.ends (xs ++ stored t') = first Flit.ends (xs ++ stored t) := by
    rw [hstored, ← List.append_assoc]
    exact first_append (by rw [List.any_append, hany, Bool.or_true]) _
  refine ⟨hsending, ?_, fun w hw => ?_⟩
  · rw [hwords, h.words, opened, opened, hactive]
    cases ha : t.regs.egressActive with
    | false => rfl
    | true => rw [hfirst front (h.active ha)]
  · have hoffered : t'.offered =
        if glipOutValid t.regs && !i.glipOutReady then some (glipOutData t.regs) else none := by
      obtain rfl := Option.some.inj hstep
      rfl
    rw [hoffered] at hw
    split_ifs at hw with hv
    · obtain rfl : glipOutData t.regs = w := Option.some.inj hw
      obtain ⟨hv, -⟩ := Bool.and_eq_true_iff.mp hv
      have hany := h.valid_eq.symm.trans hv
      have hv' : glipOutValid t'.regs = true := by
        rw [hsending.valid_eq, hstored, List.any_append, hany, Bool.true_or]
      refine ⟨hv', ?_⟩
      have hhead : diiEgress t'.regs = diiEgress t.regs := by
        have hq : stored t = _ := h.wf.queue_eq hv
        have hq' : stored t' = _ := hsending.wf.queue_eq hv'
        rw [hq, hq', List.cons_append, List.cons.injEq] at hstored
        exact hstored.1
      rw [Sending.glipOutData_eq hsending hv', Sending.glipOutData_eq h.toSending hv, hactive, hhead,
        ← List.nil_append (stored t'), hfirst [] hany]
      rfl
    · cases hw

theorem cycle_header (h : Exact t done front) (hstep : cycle t i = some t')
    (ha : t.regs.egressActive = false) (hv : glipOutValid t.regs = true) (hr : i.glipOutReady = true) :
    Sending t' done front ∧ t'.words = frames done ++ [header ((first Flit.ends (stored t)).length % bufSize)] ∧
      t'.regs.egressActive = true ∧ first Flit.ends (stored t') = first Flit.ends (stored t) ∧
      t'.offered = none := by
  have hready : diiEgressReady t.regs i = false := by rw [diiEgressReady, ha, Bool.false_and]
  obtain ⟨hsending, hstored⟩ := h.toSending.cycle_header hstep hready
  have hdata := Sending.glipOutData_eq h.toSending hv
  rw [ha, if_neg Bool.false_ne_true] at hdata
  have hwords := h.words
  rw [opened, ha, if_neg Bool.false_ne_true, List.append_nil] at hwords
  have hfirst : first Flit.ends (stored t') = first Flit.ends (stored t) := by
    rw [hstored]
    exact first_append (h.valid_eq.symm.trans hv) _
  obtain rfl := Option.some.inj hstep
  refine ⟨hsending, ?_, ?_, hfirst, ?_⟩
  · show t.words ++ sent t.regs i = _
    rw [sent, hv, hr, hwords, hdata]
    rfl
  · have hv' : (diiEgress t.regs).valid = true := hv
    simp [next, ha, hv', hr]
  · show (if glipOutValid t.regs && !i.glipOutReady then some (glipOutData t.regs) else none) = none
    rw [hr]
    simp

theorem Exact.cycle_flit (h : Exact t done front) (hstep : cycle t i = some t')
    (ha : t.regs.egressActive = true) (hr : i.glipOutReady = true) :
    ∃ done' front', Exact t' done' front' := by
  have hready : diiEgressReady t.regs i = true := by rw [diiEgressReady, ha, hr, Bool.and_self]
  have hany := h.active ha
  have hv : glipOutValid t.regs = true := h.valid_eq.trans hany
  have hdata := Sending.glipOutData_eq h.toSending hv
  obtain ⟨f, rest, hqueue, hf, hstored, hactive, hsending⟩ := h.toSending.cycle_flit hstep hready
  rw [ha, if_pos rfl, hf] at hdata
  have hwords : t'.words = t.words ++ [word f] := by
    obtain rfl := Option.some.inj hstep
    show t.words ++ sent t.regs i = _
    rw [sent, hv, hr, hdata]
    rfl
  have hoffered : t'.offered = none := by
    obtain rfl := Option.some.inj hstep
    show (if glipOutValid t.regs && !i.glipOutReady then some (glipOutData t.regs) else none) = none
    rw [hr]
    simp
  have hnone : ∀ w ∈ t'.offered, glipOutValid t'.regs = true ∧ glipOutData t'.regs = w := by
    rw [hoffered]
    intro w hw
    cases hw
  have hopened := h.words
  rw [opened, ha, if_pos rfl] at hopened
  have hsplit : front ++ stored t = (front ++ [f]) ++ rest := by
    rw [hqueue, List.append_assoc, List.singleton_append]
  cases hlast : f.last with
  | true =>
    rw [if_pos hlast] at hsending
    refine ⟨_, _, hsending, ?_, hnone⟩
    have hpacket : IsPacket Flit.ends (front ++ [f]) := ⟨front, f, rfl, h.openFront, hlast⟩
    rw [hsplit, first_packet_append hpacket] at hopened
    rw [opened, hactive, hlast, Bool.not_true, if_neg Bool.false_ne_true, List.append_nil, hwords, hopened,
      frames_concat, frame, List.map_append]
    simp only [List.append_assoc, List.cons_append, List.map_cons, List.map_nil]
  | false =>
    rw [hlast, if_neg Bool.false_ne_true] at hsending
    refine ⟨_, _, hsending, ?_, hnone⟩
    have hfirst : first Flit.ends (front ++ [f] ++ stored t') = first Flit.ends (front ++ stored t) := by
      rw [hstored, ← List.append_assoc, ← hsplit]
      exact first_append (by rw [List.any_append, hany, Bool.or_true]) _
    rw [opened, hactive, hlast, Bool.not_false, if_pos rfl, hfirst, hwords, hopened, List.map_append]
    simp only [List.append_assoc, List.cons_append, List.map_cons, List.map_nil]

/-- Up to some point, everything was sent as it should. -/
def Right (t : Tracked) : Prop := ∃ done front, Exact t done front

theorem right_start (data : List Flit) : Right (start data) := by
  refine ⟨[], [], sending_start data, rfl, fun w hw => ?_⟩
  cases hw

theorem length_first_le (h : Sending t done front) (hv : glipOutValid t.regs = true) :
    (first Flit.ends (stored t)).length ≤ bufSize := by
  obtain ⟨-, rest, hrest⟩ := first_spec (h.valid_eq.symm.trans hv)
  have hlen := congrArg List.length hrest
  have hle : (stored t).length ≤ bufSize := h.wf.length_queue_le
  rw [List.length_append] at hlen
  omega

theorem right_cycle (h : Right t) (hstep : cycle t i = some t') (hshort : ShortHeader t i) : Right t' := by
  obtain ⟨done, front, h⟩ := h
  cases hsent : glipOutValid t.regs && i.glipOutReady with
  | false => exact ⟨done, front, h.cycle_waiting hstep hsent⟩
  | true =>
    obtain ⟨hv, hr⟩ := Bool.and_eq_true_iff.mp hsent
    cases ha : t.regs.egressActive with
    | true => exact h.cycle_flit hstep ha hr
    | false =>
      obtain ⟨hsending, hwords, hactive, hfirst, hoffered⟩ := cycle_header h hstep ha hv hr
      refine ⟨done, front, hsending, ?_, fun w hw => ?_⟩
      · rw [hwords, opened, hactive, if_pos rfl, h.idle ha, List.nil_append, hfirst,
          (header_mod (length_first_le h.toSending hv)).mpr (hshort ha hv hr)]
        rfl
      · rw [hoffered] at hw
        cases hw

/-- A wrong header is seen by the host. -/
theorem not_framed_of_header (h : Right t) (hstep : cycle t i = some t') (hshort : ¬ ShortHeader t i) :
    ¬ Framed t' := by
  intro hframed
  obtain ⟨done, front, h⟩ := h
  simp only [ShortHeader, Classical.not_imp, ne_eq, not_not] at hshort
  obtain ⟨ha, hv, hr, hfull⟩ := hshort
  obtain ⟨hsending, hwords, -, hfirst, -⟩ := cycle_header h hstep ha hv hr
  have hany : (stored t').any Flit.ends = true := by
    apply hsending.active
    exact (cycle_header h hstep ha hv hr).2.2.1
  obtain ⟨ps, hcut⟩ := cut_eq_first hany
  have hsent := hframed.sent
  rw [hsending.accepted, cut_packets_append h.packets, h.idle ha, List.nil_append, hcut, hfirst, hwords, frames,
    frames, List.flatMap_append, List.prefix_append_right_inj, List.flatMap_cons, frame, List.cons_append,
    List.cons_prefix_cons] at hsent
  exact (header_mod (length_first_le h.toSending hv)).mp hsent.1 hfull

/-- **Framing.** From reset, all packets are framed as they should in a run if and only if no
header of a packet of `BUF_SIZE` flits is taken in it. -/
theorem framed_iff (data : List Flit) (inputs : List Input) :
    Passes cycle Framed (start data) inputs ↔ Takes cycle ShortHeader (start data) inputs := by
  obtain ⟨t, hrun⟩ := exists_run cycle (fun _ _ => rfl) (start data) inputs
  have hframed {t : Tracked} (h : Right t) : Framed t := by
    obtain ⟨_, _, h⟩ := h
    exact h.framed
  have hiff (t : Tracked) (i : Input) (t' : Tracked) (h : Right t) (hstep : cycle t i = some t') :
      Framed t' ↔ ShortHeader t i :=
    ⟨fun hf => by_contra fun hs => not_framed_of_header h hstep hs hf,
      fun hs => hframed (right_cycle h hstep hs)⟩
  exact passes_iff_takes Right
    (fun t i t' h _ hstep hf => right_cycle h hstep ((hiff t i t' h hstep).mp hf))
    (fun t i t' h _ hstep => hiff t i t' h hstep) (right_start data) (hframed (right_start data)) hrun

theorem packet_of_seven : Passes cycle Framed (start []) (packet 7 ++ List.replicate 8 ⟨Flit.idle, true⟩) :=
  (framed_iff [] _).mpr (by decide)

/-- Eight flits: the header that is sent says 0. -/
theorem packet_of_eight_header : ¬ Passes cycle Framed (start []) (packet 8 ++ [⟨Flit.idle, true⟩]) :=
  fun h => absurd (h.last rfl).sent (by decide)

end GlipOsd.Him.Framing
