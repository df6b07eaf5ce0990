import GlipOsd.Foundations.Streams
import GlipOsd.Ring.Components

/-! # The buffer of flits

`dii_buffer` without `FULLPACKET`, in any cycles: a flit may be offered while the buffer is not ready, and the output
may be ready while there is none.
-/

namespace GlipOsd.DiiBuffer
open GlipOsd.Ring Runs Streams
set_option autoImplicit false

/-- A cycle has the flit at the input and whether the output is ready. -/
def flitBuffer (size : ℕ) : Circuit Buffer (Flit × Bool) Flit Flit where
  next b i := b.next size i.1 i.2
  ins b i := i.1.transfer (b.flitInReady size)
  outs b i := b.flitOut.transfer i.2

/-- The flits leave in order, and the registers and the handshakes tell how many are stored. -/
structure Fifo (size : ℕ) (t : Seen Buffer Flit Flit) : Prop where
  order : t.outs <+: t.ins
  count : t.inside.length = if t.state.regOutValid then t.state.rp + 1 else 0
  fits : t.inside.length ≤ size
  inReady : t.state.flitInReady size = false ↔ t.inside.length = size
  outValid : t.state.flitOut.valid = true ↔ 1 ≤ t.inside.length
  front : t.state.flitOut.valid = true → t.inside.head? = some t.state.flitOut

variable {size : ℕ}

theorem length_queue_eq {b : Buffer} (h : b.Wf size) : b.queue.length = if b.regOutValid then b.rp + 1 else 0 := by
  cases hv : b.regOutValid with
  | false =>
    rw [Buffer.queue_eq_nil hv]
    rfl
  | true => exact h.length_queue hv

theorem length_queue_le {b : Buffer} (h : b.Wf size) : b.queue.length ≤ size := by
  have hlt := h.rp_lt
  rw [length_queue_eq h]
  split_ifs <;> omega

theorem fifo_of_queue {t : Seen Buffer Flit Flit} (h : t.state.Wf size) (hflow : t.ins = t.outs ++ t.state.queue) :
    Fifo size t := by
  have hinside := Seen.inside_eq hflow
  have hle := length_queue_le h
  refine ⟨⟨_, hflow.symm⟩, ?_, ?_, ?_, ?_, ?_⟩ <;> rw [hinside]
  · exact length_queue_eq h
  · exact hle
  · have hready := h.inReady_iff
    rw [← Bool.not_eq_true, hready]
    omega
  · rw [h.out_valid, Nat.one_le_iff_ne_zero, ne_eq, ne_eq, List.length_eq_zero_iff]
  · intro hv
    rw [h.queue_eq hv]
    rfl

/-- **The buffer is a FIFO** of any size from 2 on, in all cycles. -/
theorem buffer_fifo (hsize : 2 ≤ size) (data : List Flit) (is : List (Flit × Bool)) :
    Passes (flitBuffer size).step (Fifo size) (start (Buffer.reset data)) is := by
  have hcycle (b : Buffer) (i : Flit × Bool) (hwf : b.Wf size) :
      ((flitBuffer size).next b i).Wf size ∧ Flows b.queue ((flitBuffer size).ins b i) ((flitBuffer size).outs b i)
        ((flitBuffer size).next b i).queue := Buffer.next_spec hsize hwf i.1 i.2
  have hflows := (flitBuffer size).always_queue (Buffer.Wf size) Buffer.queue hcycle
    (Buffer.wf_reset (by omega) data) rfl is
  refine hflows.mono ?_
  rintro t ⟨hwf, hflow⟩
  exact fifo_of_queue hwf hflow

/-- A flit enters the empty buffer while the output is ready, a second one fills it, a third one is offered in vain. -/
theorem full_buffer_fifo :
    Passes (flitBuffer 2).step (Fifo 2) (start (Buffer.reset []))
      [(⟨⟨true, false, 1⟩, 0, 0⟩, true), (⟨⟨true, false, 2⟩, 0, 0⟩, false), (⟨⟨true, true, 3⟩, 0, 0⟩, false),
        (Flit.idle, true)] :=
  buffer_fifo le_rfl [] _

end GlipOsd.DiiBuffer
