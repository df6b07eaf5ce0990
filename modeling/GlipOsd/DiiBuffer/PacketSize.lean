import GlipOsd.DiiBuffer.EarlyReady

/-! # The size of the oldest packet

`packet_size` of a `dii_buffer` with `FULLPACKET`, while the output is valid and is not ready before: the register of
the last bits agrees with the shift register, cell by cell, and the size is that of the oldest packet, whatever enters
behind it.
-/

namespace GlipOsd.DiiBuffer
open GlipOsd.Ring Packets Runs Streams FullPacket EarlyReady
set_option autoImplicit false

/-- The output is ready only while it is valid. -/
def ReadyWhenValid (b : FullPacket) (i : Flit × Bool) : Prop := i.2 = true → b.flitOut.valid = true

instance (b : FullPacket) (i : Flit × Bool) : Decidable (ReadyWhenValid b i) := inferInstanceAs (Decidable (_ → _))

/-- What holds of the registers in a state with `flit_out.valid`; `t.inside` are the stored flits, the oldest first. -/
structure SizeExact (size : ℕ) (t : Seen FullPacket Flit Flit) : Prop where
  count : ∃ p rest, t.inside = p ++ rest ∧ IsPacket Flit.ends p ∧ t.state.packetSize size = p.length
  lasts : ∀ i ≤ t.state.rp, t.state.dataLastBuf.getD i false = (t.state.data.getD i Flit.idle).last
  above : ∀ i, t.state.rp < i → t.state.dataLastBuf.getD i false = false
  stable : ∀ flitIn, (t.state.next size flitIn false).packetSize size = t.state.packetSize size

section Registers
variable {size : ℕ} {b : FullPacket}

theorem FullPacket.Wf.cells (h : Wf size b) (hr : b.regOutValid = true) :
    b.dataLastBuf = (b.data.take (b.rp + 1)).map Flit.ends ++ List.replicate (size - (b.rp + 1)) false := by
  have hqueue : b.queue = (b.data.take (b.rp + 1)).reverse := if_pos hr
  rw [h.lasts, h.buffer.length_queue hr, hqueue, List.map_reverse, List.reverse_reverse]

theorem FullPacket.Wf.length_cells (h : Wf size b) (hr : b.regOutValid = true) :
    ((b.data.take (b.rp + 1)).map Flit.ends).length = b.rp + 1 := by
  have hqueue : b.queue = (b.data.take (b.rp + 1)).reverse := if_pos hr
  have hlen := h.buffer.length_queue hr
  rw [hqueue, List.length_reverse] at hlen
  rw [List.length_map, hlen]

theorem FullPacket.Wf.last_at (h : Wf size b) (hr : b.regOutValid = true) {i : ℕ} (hi : i ≤ b.rp) :
    b.dataLastBuf.getD i false = (b.data.getD i Flit.idle).last := by
  have hlen := h.length_cells hr
  have hcell : i < (b.data.take (b.rp + 1)).length := by
    rw [List.length_map] at hlen
    omega
  have hdata : i < b.data.length := hcell.trans_le (List.length_take_le' ..)
  rw [h.cells hr, List.getD_append _ _ _ _ (by omega), List.getD_eq_getElem _ _ (by omega), List.getElem_map,
    List.getElem_take, List.getD_eq_getElem _ _ hdata]
  rfl

theorem FullPacket.Wf.clear_above (h : Wf size b) (hr : b.regOutValid = true) {i : ℕ} (hi : b.rp < i) :
    b.dataLastBuf.getD i false = false := by
  have hlen := h.length_cells hr
  rw [h.cells hr, List.getD_append_right _ _ _ _ (by omega)]
  rw [List.getD_eq_getElem?_getD, List.getElem?_replicate]
  split_ifs <;> rfl

/-- A flit that enters does not change the packet in front of it. -/
theorem FullPacket.Wf.size_stable (hsize : 2 ≤ size) (h : Wf size b) (hv : b.flitOut.valid = true) (flitIn : Flit) :
    (b.next size flitIn false).packetSize size = b.packetSize size := by
  have hready : false = true → b.flitOut.valid = true := fun _ => hv
  obtain ⟨hnext, hflow⟩ := h.next_spec hsize flitIn hready
  rw [Flit.transfer_of_not_ready _ rfl, List.nil_append] at hflow
  have hv' : (b.next size flitIn false).flitOut.valid = true := by
    rw [h.out_valid] at hv
    rw [hnext.out_valid, hflow, List.any_append, hv, Bool.true_or]
  obtain ⟨p, rest, hqueue, hp, hcount⟩ := h.packetSize_eq hv
  obtain ⟨q, rest', hqueue', hq, hcount'⟩ := hnext.packetSize_eq hv'
  have hsame : q ++ rest' = p ++ (rest ++ flitIn.transfer (b.flitInReady size)) := by
    rw [← hqueue', hflow, hqueue, List.append_assoc]
  rw [hcount, hcount', hq.unique hp hsame]

end Registers

/-- **`packet_size` is exact and stable** in every run in which the output is ready only while it is valid. -/
theorem packetSize_exact {size : ℕ} (hsize : 2 ≤ size) (data : List Flit) (is : List (Flit × Bool))
    (h : Takes (packetBuffer size).step (fun t i => ReadyWhenValid t.state i) (start (FullPacket.reset size data)) is) :
    Passes (packetBuffer size).step (fun t => t.state.flitOut.valid = true → SizeExact size t)
      (start (FullPacket.reset size data)) is := by
  have hstart := holds_start hsize data
  have hflows := (packetBuffer size).passes_queue (Wf size) ReadyWhenValid (fun b => b.queue)
    (fun b i hwf hi => hwf.next_spec hsize i.1 hi) hstart.wf hstart.flow h
  refine hflows.mono ?_
  rintro t ⟨hwf, hflow⟩ hv
  have hr := hwf.regOutValid_of_out_valid hv
  refine ⟨?_, fun i hi => hwf.last_at hr hi, fun i hi => hwf.clear_above hr hi, hwf.size_stable hsize hv⟩
  rw [Seen.inside_eq hflow]
  exact hwf.packetSize_eq hv

/-- A packet of two flits with one of one flit behind it. -/
theorem two_packets_exact :
    Passes (packetBuffer 4).step (fun t => t.state.flitOut.valid = true → SizeExact 4 t)
      (start (FullPacket.reset 4 []))
      [(⟨⟨true, false, 1⟩, 0, 0⟩, false), (⟨⟨true, true, 2⟩, 0, 0⟩, false), (⟨⟨true, true, 3⟩, 0, 0⟩, true),
        (Flit.idle, true), (Flit.idle, true)] :=
  packetSize_exact (by decide) [] _ (by decide)

end GlipOsd.DiiBuffer
