import GlipOsd.Him.Egress

/-! # The capacity of the host interface module

The module offers data to the host only once it has stored a whole packet, in a buffer of `BUF_SIZE` flits.
A packet that does not fit is never sent, and no flit is accepted any more.
-/

namespace GlipOsd.Him.Capacity
open Packets Runs GlipOsd.Ring
set_option autoImplicit false

/-- Nothing is taken from the interconnect, and nothing is offered to the host. -/
def FullAndSilent (t : Tracked) : Prop := diiInReady t.regs = false ∧ glipOutValid t.regs = false

/-- The flits accepted of the packet that is being received. -/
def inProgress (t : Tracked) : List Flit := (cut Flit.ends t.accepted).2

/-- The flit with which the packet being received fills the buffer is its last one. -/
def Fits (t : Tracked) (i : Input) : Prop :=
  (inProgress t).length + 1 = bufSize → i.diiIn.valid = true → diiInReady t.regs = true →
    i.diiIn.last = true

instance (t : Tracked) : Decidable (FullAndSilent t) := inferInstanceAs (Decidable (_ ∧ _))

instance (t : Tracked) (i : Input) : Decidable (Fits t i) := inferInstanceAs (Decidable (_ → _))

variable {t t' : Tracked} {i : Input} {done : List (List Flit)} {front : List Flit}

theorem fullAndSilent_iff (h : Sending t done front) : FullAndSilent t ↔ bufSize ≤ (inProgress t).length := by
  have hready : diiInReady t.regs = false ↔ bufSize ≤ (stored t).length := by
    rw [← Bool.not_eq_true, diiInReady, h.wf.inReady_iff, not_lt]
    rfl
  have hprogress : inProgress t = (cut Flit.ends (front ++ stored t)).2 := by
    rw [inProgress, h.accepted, cut_packets_append h.packets]
  rw [FullAndSilent, hready, h.valid_eq, hprogress]
  cases hany : (stored t).any Flit.ends with
  | true =>
    have hlt : (cut Flit.ends (front ++ stored t)).2.length < (stored t).length := length_cut_snd_lt hany
    have hle : (stored t).length ≤ bufSize := h.wf.length_queue_le
    simp only [Bool.true_eq_false, and_false, false_iff, not_le]
    omega
  | false =>
    have hidle : t.regs.egressActive = false := by
      by_contra ha
      rw [h.active (Bool.not_eq_false _ ▸ ha)] at hany
      cases hany
    have hopen : Open Flit.ends (stored t) := fun f hf => by
      rw [List.any_eq_false] at hany
      exact Bool.not_eq_true _ ▸ hany f hf
    rw [h.idle hidle, List.nil_append, cut_open hopen]
    simp only [and_true]

/-- Some packets have been sent, and the next one in part. -/
def Serving (t : Tracked) : Prop := ∃ done front, Sending t done front

theorem serving_cycle (h : Serving t) (hstep : cycle t i = some t') : Serving t' := by
  obtain ⟨done, front, h⟩ := h
  cases hready : diiEgressReady t.regs i with
  | false => exact ⟨done, front, (h.cycle_header hstep hready).1⟩
  | true =>
    obtain ⟨f, rest, -, -, -, -, hsending⟩ := h.cycle_flit hstep hready
    split_ifs at hsending
    · exact ⟨_, _, hsending⟩
    · exact ⟨_, _, hsending⟩

theorem inProgress_cycle (hstep : cycle t i = some t') : inProgress t' =
    if i.diiIn.valid && diiInReady t.regs then
      if i.diiIn.last then [] else inProgress t ++ [i.diiIn]
    else inProgress t := by
  obtain rfl := Option.some.inj hstep
  have hends : Flit.ends i.diiIn = i.diiIn.last := rfl
  show (cut Flit.ends (t.accepted ++ i.diiIn.transfer (diiInReady t.regs))).2 = _
  unfold Flit.transfer
  split_ifs with hin hlast
  · rw [cut_concat, hends, if_pos hlast]
  · rw [cut_concat, hends, if_neg hlast]
    rfl
  · rw [List.append_nil]
    rfl

/-- One cycle: the module gets stuck exactly with a packet that does not fit. -/
theorem not_fullAndSilent_cycle (h : Serving t) (hok : ¬ FullAndSilent t) (hstep : cycle t i = some t') :
    ¬ FullAndSilent t' ↔ Fits t i := by
  obtain ⟨_, _, h'⟩ := serving_cycle h hstep
  obtain ⟨_, _, h⟩ := h
  rw [fullAndSilent_iff h, not_le] at hok
  rw [fullAndSilent_iff h', inProgress_cycle hstep, Fits, not_le]
  cases hv : i.diiIn.valid with
  | false => simp [hok]
  | true =>
    cases hr : diiInReady t.regs with
    | false => simp [hok]
    | true =>
      cases hl : i.diiIn.last with
      | true => simp [bufSize]
      | false =>
        simp only [Bool.and_self, if_true, Bool.false_eq_true, if_false, List.length_append,
          List.length_singleton, not_true, imp_false]
        omega

/-- **Capacity.** From reset, the module is never full and silent if and only if no packet has more than
`BUF_SIZE` flits. -/
theorem never_full_and_silent_iff (data : List Flit) (inputs : List Input) :
    Passes cycle (fun t => ¬ FullAndSilent t) (start data) inputs ↔ Takes cycle Fits (start data) inputs := by
  have hstable : Stable cycle Serving := fun _ _ _ h hstep => serving_cycle h hstep
  have hstart : Serving (start data) := ⟨[], [], sending_start data⟩
  obtain ⟨t, hrun⟩ := hstable.run_total (fun _ _ _ => rfl) (start data) inputs hstart
  refine passes_iff_takes Serving (fun _ _ _ h _ hstep _ => serving_cycle h hstep)
    (fun _ _ _ h hok hstep => not_fullAndSilent_cycle h hok hstep) hstart ?_ hrun
  rw [fullAndSilent_iff (sending_start data)]
  exact Nat.not_succ_le_zero 7

theorem packet_of_eight : Passes cycle (fun t => ¬ FullAndSilent t) (start []) (packet 8) :=
  (never_full_and_silent_iff [] (packet 8)).mpr (by decide)

/-- A packet of nine flits, which the system allows. -/
theorem packet_of_nine : ¬ Passes cycle (fun t => ¬ FullAndSilent t) (start []) (packet 9) := by
  decide

end GlipOsd.Him.Capacity
