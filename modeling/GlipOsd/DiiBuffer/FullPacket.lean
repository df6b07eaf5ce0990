import GlipOsd.Ring.Components

/-! # The buffer of whole packets

`dii_buffer` with `FULLPACKET`: beside the shift register, a register of the `last` bits of the stored
flits. The output is valid while the last flit of some packet is stored, and `packet_size` is the number
of flits up to the first one that is marked.
-/

namespace GlipOsd.DiiBuffer
open Packets GlipOsd.Ring
set_option autoImplicit false

/-- `dataLastBuf` has `BUF_SIZE` bits, the one of the newest flit first. -/
structure FullPacket extends Ring.Buffer where
  dataLastBuf : List Bool

namespace FullPacket

/-- The shift register has no reset. -/
def reset (size : ℕ) (data : List Flit) : FullPacket := ⟨Buffer.reset data, List.replicate size false⟩

variable (size : ℕ) (b : FullPacket)

def flitOut : Flit := { b.data.getD b.rp Flit.idle with valid := b.dataLastBuf.any id }

/-- The bits above the oldest flit are shifted out. -/
def dataLastShifted : List Bool :=
  (List.replicate (size - b.rp) false ++ (b.dataLastBuf ++ [false])).take (size + 1)

/-- The loop of `find_first_one` from index `i` down. -/
def findFirstOne (size : ℕ) (data : List Bool) : ℕ → ℕ
  | 0 => size
  | i + 1 => if data.getD (i + 1) false then i + 1 else findFirstOne size data i

def packetSize : ℕ := size + 1 - findFirstOne size (b.dataLastShifted size) size

def nextLastBuf (flitIn : Flit) (flitOutReady : Bool) : List Bool :=
  let buf := if b.flitOut.valid && flitOutReady then b.dataLastBuf.set b.rp false else b.dataLastBuf
  if flitIn.valid && b.flitInReady size then ((flitIn.last && flitIn.valid) :: buf).take size else buf

def next (flitIn : Flit) (flitOutReady : Bool) : FullPacket :=
  let flitInFire := flitIn.valid && b.flitInReady size
  let flitOutFire := b.flitOut.valid && flitOutReady
  { data := if flitInFire then (flitIn :: b.data).take size else b.data
    rp :=
      if flitInFire && !flitOutFire && b.regOutValid then b.rp + 1
      else if flitOutFire && !flitInFire && b.rp != 0 then b.rp - 1
      else b.rp
    regOutValid :=
      if flitIn.valid then true
      else if flitOutReady && b.rp == 0 then false
      else b.regOutValid
    dataLastBuf := b.nextLastBuf size flitIn flitOutReady }

/-! ## The stored flits -/

variable {size b} {flitIn : Flit} {ready : Bool}

/-- `dataLastBuf` agrees with the shift register. -/
structure Wf (size : ℕ) (b : FullPacket) : Prop where
  buffer : b.toBuffer.Wf size
  lasts : b.dataLastBuf =
    (b.queue.map Flit.ends).reverse ++ List.replicate (size - b.queue.length) false

theorem wf_reset (hsize : 0 < size) (data : List Flit) : Wf size (reset size data) where
  buffer := Buffer.wf_reset hsize data
  lasts := rfl

theorem Wf.length_queue_le (h : Wf size b) : b.queue.length ≤ size := by
  cases hv : b.regOutValid with
  | false =>
    rw [Buffer.queue_eq_nil hv]
    exact Nat.zero_le _
  | true =>
    rw [h.buffer.length_queue hv]
    exact h.buffer.rp_lt

theorem Wf.out_valid (h : Wf size b) : b.flitOut.valid = b.queue.any Flit.ends := by
  have hvalid : b.flitOut.valid = b.dataLastBuf.any id := rfl
  rw [hvalid, h.lasts, List.any_append, List.any_reverse, List.any_map]
  have hpad : (List.replicate (size - b.queue.length) false).any id = false := by
    simp
  rw [hpad, Bool.or_false]
  rfl

theorem Wf.regOutValid_of_out_valid (h : Wf size b) (hv : b.flitOut.valid = true) :
    b.regOutValid = true := by
  rw [h.out_valid] at hv
  by_contra hr
  rw [Bool.not_eq_true] at hr
  rw [Buffer.queue_eq_nil hr] at hv
  cases hv

/-- While the output is valid, the buffer shows its oldest flit. -/
theorem Wf.flitOut_eq (h : Wf size b) (hv : b.flitOut.valid = true) : b.flitOut = b.toBuffer.flitOut := by
  have hr := h.regOutValid_of_out_valid hv
  have hb : b.toBuffer.flitOut.valid = true := hr
  have hout : b.flitOut = { b.toBuffer.flitOut with valid := b.flitOut.valid } := rfl
  rw [hout, hv, ← hb]

theorem Wf.queue_eq (h : Wf size b) (hv : b.flitOut.valid = true) :
    b.queue = b.flitOut :: (b.data.take b.rp).reverse := by
  rw [h.flitOut_eq hv]
  exact h.buffer.queue_eq (h.regOutValid_of_out_valid hv)

theorem Wf.inReady_iff (h : Wf size b) : b.flitInReady size = true ↔ b.queue.length < size :=
  h.buffer.inReady_iff

/-- With the output taken only while it is valid, the shift register works as in the buffer of flits. -/
theorem Wf.next_toBuffer (h : Wf size b) (hready : ready = true → b.flitOut.valid = true) :
    (b.next size flitIn ready).toBuffer = b.toBuffer.next size flitIn ready := by
  cases ready with
  | false => simp [next, Buffer.next]
  | true =>
    have hv := hready rfl
    have hb : b.toBuffer.flitOut.valid = true := h.regOutValid_of_out_valid hv
    simp [next, Buffer.next, hv, hb]

/-- The bits of `n` stored flits, newest first, in a register of `size` bits. -/
def padded (size : ℕ) (bits : List Bool) : List Bool := bits ++ List.replicate (size - bits.length) false

theorem padded_set (size : ℕ) (bits : List Bool) (x : Bool) (h : bits.length < size) :
    (padded size (bits ++ [x])).set bits.length false = padded size bits := by
  have hlen : size - bits.length = size - (bits.length + 1) + 1 := by omega
  rw [padded, padded, List.append_assoc, List.set_append_right _ _ le_rfl, Nat.sub_self,
    List.length_append, List.length_singleton, hlen, List.replicate_succ]
  rfl

theorem padded_shift (size : ℕ) (bits : List Bool) (x : Bool) (h : bits.length < size) :
    (x :: padded size bits).take size = padded size (x :: bits) := by
  have hlen : size - bits.length = size - (bits.length + 1) + 1 := by omega
  rw [padded, padded, List.length_cons, hlen, List.replicate_succ', ← List.append_assoc,
    ← List.cons_append, List.take_append_of_le_length, List.take_of_length_le]
  · rfl
  · simp
    omega
  · simp
    omega

theorem Wf.dataLastBuf_eq (h : Wf size b) :
    b.dataLastBuf = padded size (b.queue.map Flit.ends).reverse := by
  rw [h.lasts, padded, List.length_reverse, List.length_map]

theorem Wf.lasts_leave (h : Wf size b) (ready : Bool) :
    (if b.flitOut.valid && ready then b.dataLastBuf.set b.rp false else b.dataLastBuf) =
      padded size ((b.queue.drop (b.flitOut.transfer ready).length).map Flit.ends).reverse := by
  by_cases hfire : (b.flitOut.valid && ready) = true
  · obtain ⟨hv, hr⟩ := Bool.and_eq_true_iff.mp hfire
    have hq := h.queue_eq hv
    have hlen := h.buffer.length_queue (h.regOutValid_of_out_valid hv)
    have hle := h.length_queue_le
    rw [if_pos hfire, h.dataLastBuf_eq, Flit.transfer_of_valid hv hr, hq, List.map_cons,
      List.reverse_cons]
    have hrest : ((b.data.take b.rp).reverse.map Flit.ends).reverse.length = b.rp := by
      rw [hq, List.length_cons, List.length_reverse] at hlen
      rw [List.length_reverse, List.length_map, List.length_reverse]
      omega
    have hset := padded_set size ((b.data.take b.rp).reverse.map Flit.ends).reverse
      (Flit.ends b.flitOut) (by omega)
    rw [hrest] at hset
    exact hset
  · rw [if_neg hfire, h.dataLastBuf_eq, Flit.transfer, if_neg hfire]
    rfl

/-- A flit leaves at the front and one enters at the back, when the output is taken only while it is
valid. -/
theorem Wf.next_spec (hsize : 2 ≤ size) (h : Wf size b) (flitIn : Flit)
    (hready : ready = true → b.flitOut.valid = true) :
    Wf size (b.next size flitIn ready) ∧
      b.flitOut.transfer ready ++ (b.next size flitIn ready).queue =
        b.queue ++ flitIn.transfer (b.flitInReady size) := by
  have hbuf : (b.next size flitIn ready).toBuffer = _ := h.next_toBuffer hready
  obtain ⟨hwf, hspec⟩ := Buffer.next_spec hsize h.buffer flitIn ready
  have htransfer : b.toBuffer.flitOut.transfer ready = b.flitOut.transfer ready := by
    cases hr : ready with
    | false => rw [Flit.transfer_of_not_ready _ rfl, Flit.transfer_of_not_ready _ rfl]
    | true => rw [h.flitOut_eq (hready hr)]
  rw [← hbuf, htransfer] at hspec
  rw [← hbuf] at hwf
  refine ⟨⟨hwf, ?_⟩, hspec⟩
  have hqueue : (b.next size flitIn ready).queue =
      b.queue.drop (b.flitOut.transfer ready).length ++ flitIn.transfer (b.flitInReady size) := by
    have hdrop := congrArg (List.drop (b.flitOut.transfer ready).length) hspec
    rw [List.drop_left, List.drop_append_of_le_length] at hdrop
    · exact hdrop
    · unfold Flit.transfer
      split_ifs with hfire
      · rw [h.queue_eq (Bool.and_eq_true_iff.mp hfire).1]
        simp
      · exact Nat.zero_le _
  have hlasts : (b.next size flitIn ready).dataLastBuf =
      padded size ((b.next size flitIn ready).queue.map Flit.ends).reverse := by
    have hleave := h.lasts_leave ready
    have hnext : (b.next size flitIn ready).dataLastBuf = b.nextLastBuf size flitIn ready := rfl
    have hrest : (b.queue.drop (b.flitOut.transfer ready).length).length ≤ b.queue.length := by
      rw [List.length_drop]
      omega
    rw [hqueue, hnext, nextLastBuf, hleave]
    generalize b.queue.drop (b.flitOut.transfer ready).length = rest at hrest
    by_cases hin : (flitIn.valid && b.flitInReady size) = true
    · obtain ⟨hf, hroom⟩ := Bool.and_eq_true_iff.mp hin
      have hlt := h.inReady_iff.mp hroom
      rw [if_pos hin, Flit.transfer_of_valid hf hroom, List.map_append, List.reverse_append, hf,
        Bool.and_true]
      exact padded_shift size _ _ (by rw [List.length_reverse, List.length_map]; omega)
    · rw [if_neg hin, Flit.transfer, if_neg hin, List.append_nil]
  rw [hlasts, padded, List.length_reverse, List.length_map]

/-! ## The size of the oldest packet -/

theorem findFirstOne_eq {data : List Bool} {i j : ℕ} (hj : data.getD j false = true) (hpos : 1 ≤ j)
    (hle : j ≤ i) (hclear : ∀ m, j < m → m ≤ i → data.getD m false = false) :
    findFirstOne size data i = j := by
  induction i with
  | zero => omega
  | succ i ih =>
    rw [findFirstOne]
    by_cases heq : j = i + 1
    · rw [← heq, if_pos hj]
    · have hbit := hclear (i + 1) (by omega) le_rfl
      rw [hbit, if_neg Bool.false_ne_true]
      exact ih (by omega) fun m hm hmi => hclear m hm (by omega)

/-- The `k`-th flit from the front is the one whose bit the search meets `k` below the top. -/
theorem Wf.shifted_bit (h : Wf size b) (hr : b.regOutValid = true) {k : ℕ} (hk : k < b.queue.length) :
    (b.dataLastShifted size).getD (size - k) false = (b.queue.map Flit.ends).getD k false := by
  have hlen := h.buffer.length_queue hr
  have hlt := h.buffer.rp_lt
  rw [dataLastShifted, h.lasts, List.getD_eq_getElem?_getD, List.getElem?_take,
    if_pos (by omega), List.getElem?_append_right (by rw [List.length_replicate]; omega),
    List.length_replicate, List.append_assoc, List.getElem?_append_left
      (by rw [List.length_reverse, List.length_map]; omega),
    List.getElem?_reverse (by rw [List.length_map]; omega), List.length_map,
    List.getD_eq_getElem?_getD]
  have hindex : b.queue.length - 1 - (size - k - (size - b.rp)) = k := by omega
  rw [hindex]

theorem Wf.packetSize_eq (h : Wf size b) (hv : b.flitOut.valid = true) :
    ∃ p rest, b.queue = p ++ rest ∧ IsPacket Flit.ends p ∧ b.packetSize size = p.length := by
  have hr := h.regOutValid_of_out_valid hv
  have hlen := h.buffer.length_queue hr
  have hlt := h.buffer.rp_lt
  rw [h.out_valid] at hv
  have hk : b.queue.findIdx Flit.ends < b.queue.length := by
    rw [List.findIdx_lt_length]
    simpa using hv
  have hbit (j : ℕ) (hj : j < b.queue.length) :
      (b.dataLastShifted size).getD (size - j) false = Flit.ends b.queue[j] := by
    rw [h.shifted_bit hr hj, List.getD_eq_getElem?_getD, List.getElem?_map, List.getElem?_eq_getElem hj]
    rfl
  have hends : Flit.ends b.queue[b.queue.findIdx Flit.ends] = true := List.findIdx_getElem
  have hbefore (j : ℕ) (hj : j < b.queue.findIdx Flit.ends) (hj' : j < b.queue.length) :
      Flit.ends b.queue[j] = false := List.not_of_lt_findIdx hj
  refine ⟨b.queue.take (b.queue.findIdx Flit.ends + 1), b.queue.drop (b.queue.findIdx Flit.ends + 1),
    (List.take_append_drop _ _).symm, ⟨b.queue.take (b.queue.findIdx Flit.ends),
      b.queue[b.queue.findIdx Flit.ends], ?_, ?_, hends⟩, ?_⟩
  · rw [List.take_add_one, List.getElem?_eq_getElem hk]
    rfl
  · intro f hf
    obtain ⟨j, hj, rfl⟩ := List.mem_take_iff_getElem.mp hf
    exact hbefore j (by omega) (by omega)
  · have hfind : findFirstOne size (b.dataLastShifted size) size = size - b.queue.findIdx Flit.ends := by
      apply findFirstOne_eq
      · rw [hbit _ hk, hends]
      · omega
      · omega
      · intro m hm hms
        have hj := hbit (size - m) (by omega)
        rw [hbefore (size - m) (by omega) (by omega)] at hj
        rwa [Nat.sub_sub_self hms] at hj
    rw [packetSize, hfind, List.length_take]
    omega

end FullPacket

end GlipOsd.DiiBuffer
