import GlipOsd.Foundations.Pairs
import GlipOsd.Jtag.Acceptance
import GlipOsd.Jtag.DrscanWrite
import GlipOsd.Jtag.Poll

/-! # A transfer

What a request of `poll_thread` becomes in a target with words of 16 bits: the words that enter the FIFO of
the input side, and the answer with the words that the output side takes from its FIFO. In either direction
the first byte of a word is the less significant one.
-/

namespace GlipOsd.Jtag
open Bytes Memory OutputFsm Clocked
set_option autoImplicit false

/-! ## Words of two bytes -/

/-- The complete pairs of bytes. -/
def pairs : List UInt8 → List (UInt8 × UInt8)
  | x :: y :: bytes => (x, y) :: pairs bytes
  | _ => []

def leWord (p : UInt8 × UInt8) : BitVec 16 := BitVec.ofNat 16 (p.1.toNat + 256 * p.2.toNat)

def beWord (p : UInt8 × UInt8) : BitVec 16 := leWord p.swap

def wordBytes (w : BitVec 16) : List UInt8 := leBytes 2 w.toNat

theorem pairs_eq (bytes : List UInt8) : pairs bytes = Pairs.pairs Prod.mk bytes := by
  induction bytes using pairs.induct with
  | case1 x y bytes ih => rw [pairs, ih, Pairs.pairs]
  | case2 bytes h =>
    obtain rfl | ⟨x, rfl⟩ := nil_or_singleton h
    · rfl
    · rfl

theorem length_pairs (bytes : List UInt8) : (pairs bytes).length = bytes.length / 2 := by
  rw [pairs_eq, Pairs.length_pairs]

theorem pairs_append {xs : List UInt8} (ys : List UInt8) (h : xs.length % 2 = 0) :
    pairs (xs ++ ys) = pairs xs ++ pairs ys := by
  rw [pairs_eq, pairs_eq, pairs_eq, Pairs.pairs_append Prod.mk (Nat.even_iff.mpr h)]

theorem pairs_slice (bytes : List UInt8) (i n : ℕ) (h : 2 * (i + n) ≤ bytes.length) :
    pairs (slice bytes (2 * i) (2 * n)) = slice (pairs bytes) i n := by
  have htake : 2 * n ≤ (bytes.drop (2 * i)).length := by
    rw [List.length_drop]
    omega
  have hdrop : 2 * i ≤ bytes.length := by omega
  rw [slice, pairs_eq, Pairs.pairs_take Prod.mk htake, Pairs.pairs_drop Prod.mk hdrop, pairs_eq]
  rfl

theorem wordBits_wordBytes (w : BitVec 16) : bytesBits (wordBytes w) = wordBits w := by
  rw [bytesBits_eq, wordBytes, length_leBytes, leValue_leBytes_of_lt w.isLt]
  rfl

theorem toNat_leWord (p : UInt8 × UInt8) : (leWord p).toNat = leValue [p.1, p.2] := by
  have hfst : p.1.toNat < 256 := p.1.toNat_lt
  have hsnd : p.2.toNat < 256 := p.2.toNat_lt
  rw [leWord, BitVec.toNat_ofNat, Nat.mod_eq_of_lt (by omega)]
  rfl

theorem wordBytes_leWord (p : UInt8 × UInt8) : wordBytes (leWord p) = [p.1, p.2] := by
  rw [wordBytes, toNat_leWord]
  exact leBytes_leValue [p.1, p.2]

theorem leWord_injective {p q : UInt8 × UInt8} (h : leWord p = leWord q) : p = q := by
  have hbytes := congrArg wordBytes h
  rw [wordBytes_leWord, wordBytes_leWord] at hbytes
  obtain ⟨hfst, hrest⟩ := List.cons.inj hbytes
  obtain ⟨hsnd, -⟩ := List.cons.inj hrest
  exact Prod.ext hfst hsnd

/-- The words of a request in the order of their bits on the wire. -/
theorem flatMap_wordBytes {bytes : List UInt8} (h : bytes.length % 2 = 0) :
    ((pairs bytes).map leWord).flatMap wordBytes = bytes := by
  induction bytes using pairs.induct with
  | case1 x y bytes ih =>
    rw [List.length_cons, List.length_cons] at h
    rw [pairs, List.map_cons, List.flatMap_cons, wordBytes_leWord, ih (by omega)]
    rfl
  | case2 bytes hbytes =>
    obtain rfl | ⟨x, rfl⟩ := nil_or_singleton hbytes
    · rfl
    · simp at h

theorem bytesBits_wordBytes (ws : List (BitVec 16)) : bytesBits (ws.flatMap wordBytes) = ws.flatMap wordBits := by
  induction ws with
  | nil => rfl
  | cons w ws ih => rw [List.flatMap_cons, bytesBits_append, wordBits_wordBytes, ih, List.flatMap_cons]

theorem length_flatMap_wordBytes (ws : List (BitVec 16)) : (ws.flatMap wordBytes).length = 2 * ws.length := by
  induction ws with
  | nil => rfl
  | cons w ws ih =>
    rw [List.flatMap_cons, List.length_append, ih, wordBytes, length_leBytes, List.length_cons]
    omega

theorem leValue_slice_wordBytes {ws xs ys : List (BitVec 16)} {w : BitVec 16} (h : ws = xs ++ w :: ys) {n : ℕ}
    (hn : n = 2 * xs.length) : leValue (slice (ws.flatMap wordBytes) n 2) = w.toNat := by
  have hdrop : (ws.flatMap wordBytes).drop n = wordBytes w ++ ys.flatMap wordBytes := by
    rw [h, List.flatMap_append, List.flatMap_cons, List.drop_left' ((length_flatMap_wordBytes xs).trans hn.symm)]
  have hlen : (wordBytes w).length = 2 := length_leBytes _ _
  rw [slice, hdrop, List.take_left' hlen, wordBytes, leValue_leBytes_of_lt w.isLt]

/-! ## A scan -/

/-- The waveforms at the input side, whose FIFO has `levels` cells, and what the output side has seen and
what its FIFO offers. -/
structure Scan where
  levels : ℕ
  input : InputFsm.State 16 levels
  waves : ℕ → InputFsm.In
  capture : ℕ
  past : ℕ → OutputFsm.In 16
  start : ℕ
  fifoValid : ℕ → Bool
  fifoData : ℕ → BitVec 16

namespace Scan
variable (x : Scan)

/-- The input side in the cycle of the capture. -/
def inState : InputFsm.State 16 x.levels := stateAt InputFsm.step x.input x.waves x.capture

def inWave (t : ℕ) : InputFsm.In := x.waves (x.capture + t)

def outState : OutputFsm.State 16 := stateAt OutputFsm.step (OutputFsm.reset 16) x.past x.start

/-- The bits `bs` are shifted without a pause right behind the capture, and both sides have awaited them. -/
structure Shifted (bs : List Bool) : Prop where
  awaits : InputFsm.AwaitsCapture x.waves x.capture
  captures : (x.inWave 0).rst = false ∧ (x.inWave 0).update = false ∧ (x.inWave 0).capture = true
  shift : ∀ t < bs.length, InputFsm.Quiet (x.inWave (1 + t)) ∧ (x.inWave (1 + t)).shift = true ∧
    (x.inWave (1 + t)).tdi = bs.getD t false
  idle : x.outState.outputState = .idle

/-- What the output side sees meanwhile. -/
def exchange (bs : List Bool) : Exchange 16 where
  wrReqSize := BitVec.ofNat 16 (bitValue (bs.take 16))
  rdReqSize := BitVec.ofNat 16 (bitValue (slice bs 16 16))
  rest := fun t => bs.getD t false
  fifoValid := x.fifoValid
  fifoData := x.fifoData
  inWritten := fun t => (stateAt InputFsm.step x.inState x.inWave (1 + t)).regs.accCnt
  inError := (stateAt InputFsm.step x.inState x.inWave 1).regs.error

/-- The words that enter the FIFO of the input side. -/
def delivered (bs : List Bool) : List (BitVec 16) := InputFsm.pushes x.inState x.inWave 0 (1 + bs.length)

/-- The words that are taken from the FIFO of the output side. -/
def taken (bs : List Bool) : List (BitVec 16) := (x.exchange bs).taken x.outState

def captured (bs : List Bool) : List Bool := trace OutputFsm.step tdo x.outState (x.exchange bs).input 0 bs.length

end Scan

theorem shifts_of_bits {W : ℕ} {e : ℕ → InputFsm.In} {a : ℕ} {xs : List (BitVec W)}
    (h : ∀ t < (xs.flatMap wordBits).length, (e (a + t)).shift = true ∧
      (e (a + t)).tdi = (xs.flatMap wordBits).getD t false) : InputFsm.Shifts e a xs := by
  induction xs generalizing a with
  | nil => exact fun m hm => absurd hm (Nat.not_lt_zero m)
  | cons x xs ih =>
    have hlen : ((x :: xs).flatMap wordBits).length = W + (xs.flatMap wordBits).length := by
      rw [List.flatMap_cons, List.length_append, length_wordBits]
    rw [hlen, List.flatMap_cons] at h
    intro m hm i hi
    cases m with
    | zero =>
      rw [Nat.zero_mul, Nat.zero_add]
      obtain ⟨hshift, htdi⟩ := h i (by omega)
      refine ⟨hshift, ?_⟩
      rw [htdi, List.getD_append _ _ _ _ (by rw [length_wordBits]; exact hi), List.getD_eq_getElem?_getD, wordBits,
        List.getElem?_map, List.getElem?_range hi]
      rfl
    | succ m =>
      have hrest := ih (a := a + W) fun t ht => by
        obtain ⟨hshift, htdi⟩ := h (W + t) (by omega)
        rw [← Nat.add_assoc] at hshift htdi
        refine ⟨hshift, ?_⟩
        rw [htdi, List.getD_append_right _ _ _ _ (by rw [length_wordBits]; omega), length_wordBits,
          Nat.add_sub_cancel_left]
      have hbit := hrest m (by rw [List.length_cons] at hm; omega) i hi
      have hcycle : a + ((m + 1) * W + i) = a + W + (m * W + i) := by
        rw [Nat.succ_mul]
        omega
      rw [hcycle]
      exact hbit

/-- A capture clears the error, which nothing sets again. -/
theorem error_of_capture {W L : ℕ} {s : InputFsm.State W L} {i : InputFsm.In}
    (hdrop : s.regs.inputState = .dropPacket) (hcapture : i.capture = true) :
    (InputFsm.step s i).regs.error = false := by
  have hfsm : (InputFsm.inputFsm s.regs s.fifo.inReady i).1.error = false := by
    simp [InputFsm.inputFsm, hdrop, hcapture]
  show (if i.rst || i.update then _ else _ : InputFsm.Regs W).error = false
  split_ifs
  · exact hfsm
  · exact hfsm

theorem error_step {W L : ℕ} {s : InputFsm.State W L} {i : InputFsm.In} (h : s.regs.error = false) :
    (InputFsm.step s i).regs.error = false := by
  have hfsm : (InputFsm.inputFsm s.regs s.fifo.inReady i).1.error = false := by
    cases hstate : s.regs.inputState <;> simp only [InputFsm.inputFsm, hstate] <;> split_ifs <;>
      first | rfl | exact h
  show (if i.rst || i.update then _ else _ : InputFsm.Regs W).error = false
  split_ifs
  · exact hfsm
  · exact hfsm

namespace Scan
variable {x : Scan} {bs : List Bool}

theorem Shifted.error_eq (h : x.Shifted bs) (t : ℕ) :
    (stateAt InputFsm.step x.inState x.inWave (1 + t)).regs.error = false := by
  have hdrop : x.inState.regs.inputState = .dropPacket := InputFsm.dropPacket_of_awaitsCapture h.awaits
  induction t with
  | zero => exact error_of_capture hdrop h.captures.2.2
  | succ t ih => exact error_step ih

/-- The output side sees the bits that are shifted. -/
theorem exchange_tdi (t : ℕ) : ((x.exchange bs).input t).tdi = bs.getD t false := by
  have hbit (n i : ℕ) (hi : i < 16) (hn : n + i = t) (m : List Bool) (hm : m = slice bs n 16) :
      (BitVec.ofNat 16 (bitValue m)).getLsbD i = bs.getD t false := by
    rw [BitVec.getLsbD_ofNat, decide_eq_true hi, Bool.true_and, testBit_bitValue, hm, List.getD_eq_getElem?_getD,
      getElem?_slice, if_pos hi, hn, ← List.getD_eq_getElem?_getD]
  simp only [Exchange.input]
  split_ifs with hlow hhigh
  · exact hbit 0 t hlow (Nat.zero_add t) _ rfl
  · exact hbit 16 (t - 16) (by omega) (by omega) _ rfl
  · rfl

end Scan

/-! ## A request -/

theorem exists_requestWords (ws : List (BitVec 16)) {n : ℕ} (h : ws.length = n + 4) :
    ∃ w r tail, ws = InputFsm.requestWords w r (slice ws 2 n) tail ∧ ws.take 1 = [w] ∧ slice ws 1 1 = [r] := by
  match ws, h with
  | w :: r :: ws, h =>
    rw [List.length_cons, List.length_cons] at h
    obtain ⟨c, d, htail⟩ := List.length_eq_two.mp (by rw [List.length_drop]; omega : (ws.drop n).length = 2)
    refine ⟨w, r, (c, d), ?_, rfl, rfl⟩
    show w :: r :: ws = w :: r :: (ws.take n ++ [c, d])
    rw [← htail, List.take_append_drop]

/-- A request is on its way: its sizes fit the two buffers. -/
structure Sized (req : List UInt8) (wr rd : ℕ) : Prop where
  length : req.length = (max wr rd + 4) * 2
  wrSize : slice req 0 2 = leBytes 2 wr
  rdSize : slice req 2 2 = leBytes 2 rd
  wr_le : wr ≤ 2 ^ 15
  rd_le : rd ≤ 2 ^ 15

section Request
variable {x : Scan} {req : List UInt8} {wr rd : ℕ}

theorem Sized.exchange (h : Sized req wr rd) (x : Scan) :
    (x.exchange (bytesBits req)).wrReqSize = BitVec.ofNat 16 wr ∧
      (x.exchange (bytesBits req)).rdReqSize = BitVec.ofNat 16 rd ∧
        (x.exchange (bytesBits req)).payloadLen = max wr rd := by
  have hwr := h.wr_le
  have hrd := h.rd_le
  have hhead (n v : ℕ) (hn : n + 2 ≤ req.length) (hsize : slice req n 2 = leBytes 2 v) :
      BitVec.ofNat 16 (bitValue (slice (bytesBits req) (8 * n) 16)) = BitVec.ofNat 16 v := by
    have hdrop : (bytesBits req).drop (8 * n) = bytesBits (req.drop n) := by
      have hlen : (bytesBits (req.take n)).length = 8 * n := by
        rw [length_bytesBits, List.length_take_of_le (by omega)]
      rw [← List.take_append_drop n req, bytesBits_append, List.drop_left' hlen, List.take_append_drop]
    have htake : (bytesBits (req.drop n)).take 16 = bytesBits (slice req n 2) := by
      have hlen : (bytesBits (slice req n 2)).length = 16 := by
        rw [length_bytesBits, length_slice hn]
      rw [← List.take_append_drop 2 (req.drop n), bytesBits_append, ← slice, List.take_left' hlen]
    rw [slice, hdrop, htake, hsize, bitValue_bytesBits, leValue_leBytes]
    apply BitVec.eq_of_toNat_eq
    rw [BitVec.toNat_ofNat, BitVec.toNat_ofNat]
    omega
  have hlen := h.length
  have hwrSize : (x.exchange (bytesBits req)).wrReqSize = BitVec.ofNat 16 wr := hhead 0 wr (by omega) h.wrSize
  have hrdSize : (x.exchange (bytesBits req)).rdReqSize = BitVec.ofNat 16 rd := hhead 2 rd (by omega) h.rdSize
  refine ⟨hwrSize, hrdSize, ?_⟩
  rw [Exchange.payloadLen, hwrSize, hrdSize, BitVec.toNat_ofNat, BitVec.toNat_ofNat, Nat.mod_eq_of_lt (by omega),
    Nat.mod_eq_of_lt (by omega)]

theorem pairs_leBytes (v : ℕ) : (pairs (leBytes 2 v)).map leWord = [BitVec.ofNat 16 v] := by
  have hword : leWord (UInt8.ofNat v, UInt8.ofNat (v / 256)) = BitVec.ofNat 16 v := by
    apply BitVec.eq_of_toNat_eq
    rw [toNat_leWord, BitVec.toNat_ofNat]
    exact leValue_leBytes 2 v
  exact congrArg (fun w => [w]) hword

/-- The words that enter the FIFO are the first ones of those to be written, as many as are counted. -/
theorem Sized.accepts (h : Sized req wr rd) (hx : x.Shifted (bytesBits req)) :
    ∃ k ≤ wr, x.delivered (bytesBits req) = (pairs (Poll.payload 2 req k)).map leWord ∧
      (x.exchange (bytesBits req)).status ((max wr rd + 2) * 16) = BitVec.ofNat 16 k ∧
        (k < wr → InputFsm.room x.inState x.inWave (1 + 2 * 16) k = false) := by
  have hwr := h.wr_le
  have hrd := h.rd_le
  have hlen := h.length
  have hpairs : (pairs req).length = max wr rd + 4 := by
    rw [length_pairs, hlen, Nat.mul_div_cancel _ (by norm_num)]
  obtain ⟨w, r, tail, hwords, hw, hr⟩ := exists_requestWords ((pairs req).map leWord)
    (by rw [List.length_map, hpairs] : ((pairs req).map leWord).length = max wr rd + 4)
  have hwsize : w = BitVec.ofNat 16 wr := by
    have hfirst := congrArg (List.map leWord) (pairs_slice req 0 1 (by omega))
    rw [Nat.mul_zero, Nat.mul_one, h.wrSize, pairs_leBytes, slice, List.drop_zero, List.map_take, hw] at hfirst
    exact (List.cons.inj hfirst).1.symm
  have hrsize : r = BitVec.ofNat 16 rd := by
    have hsecond := congrArg (List.map leWord) (pairs_slice req 1 1 (by omega))
    rw [Nat.mul_one, h.rdSize, pairs_leBytes, slice, List.map_take, List.map_drop, ← slice, hr] at hsecond
    exact (List.cons.inj hsecond).1.symm
  have hwnat : w.toNat = wr := by rw [hwsize, BitVec.toNat_ofNat, Nat.mod_eq_of_lt (by omega)]
  have hrnat : r.toNat = rd := by rw [hrsize, BitVec.toNat_ofNat, Nat.mod_eq_of_lt (by omega)]
  have hbits : bytesBits req = ((pairs req).map leWord).flatMap wordBits := by
    rw [← bytesBits_wordBytes, flatMap_wordBytes (by omega)]
  have hcount : (bytesBits req).length = (max wr rd + 4) * 16 := by
    rw [length_bytesBits, hlen]
    omega
  have hpayload : (slice ((pairs req).map leWord) 2 (max wr rd)).length = max wr rd :=
    length_slice (by rw [List.length_map, hpairs]; omega)
  have hshifts : InputFsm.Shifts x.inWave 1
      (InputFsm.requestWords w r (slice ((pairs req).map leWord) 2 (max wr rd)) tail) := by
    rw [← hwords]
    apply shifts_of_bits
    rw [← hbits]
    exact fun t ht => (hx.shift t ht).2
  have hquiet : ∀ t, 1 ≤ t → t < 1 + (bytesBits req).length → InputFsm.Quiet (x.inWave t) := by
    intro t ht hlt
    have hshift := (hx.shift (t - 1) (by omega)).1
    rwa [Nat.add_sub_cancel' ht] at hshift
  obtain ⟨k, haccepts⟩ := InputFsm.request_run (by norm_num) (s := x.inState) (e := x.inWave)
    (by
      rw [hwsize]
      intro hones
      have hval := congrArg BitVec.toNat hones
      rw [BitVec.toNat_ofNat, BitVec.toNat_allOnes] at hval
      omega)
    (by rw [hpayload, hwnat, hrnat]) (InputFsm.dropPacket_of_awaitsCapture hx.awaits) hx.captures hshifts
    (by rw [hpayload, hcount]) hquiet
  have hk : k ≤ wr := hwnat ▸ haccepts.le
  refine ⟨k, hk, ?_, ?_, fun hlt => haccepts.full (hwnat.symm ▸ hlt)⟩
  · have hslice := pairs_slice req 2 k (by omega)
    rw [Poll.payload, Nat.mul_comm k, hslice, slice, List.map_take, List.map_drop]
    show InputFsm.pushes _ _ 0 _ = _
    rw [haccepts.pushes, slice, List.take_take, Nat.min_eq_left (hk.trans (le_max_left _ _))]
  · have hacc := haccepts.accCnt (1 + (max wr rd + 2) * 16) (by rw [hpayload]) (by rw [hcount]; omega)
    have herror : (x.exchange (bytesBits req)).inError = false := hx.error_eq 0
    rw [Exchange.status, herror, if_neg Bool.false_ne_true]
    apply BitVec.eq_of_toNat_eq
    rw [BitVec.toNat_ofNat, Nat.mod_eq_of_lt (by omega)]
    exact hacc

/-- The answer counts the words that have entered the FIFO, `k` of them, and has the words taken. -/
structure Answered (x : Scan) (req resp : List UInt8) (rd k : ℕ) : Prop where
  length : resp.length = req.length
  wrRespSize : Poll.wrRespSize 2 resp = k
  rdRespSize : Poll.rdRespSize 2 resp = (x.taken (bytesBits req)).length
  le : (x.taken (bytesBits req)).length ≤ rd
  data : Poll.payload 2 resp (x.taken (bytesBits req)).length = (x.taken (bytesBits req)).flatMap wordBytes

theorem Sized.taken (h : Sized req wr rd) (hx : x.Shifted (bytesBits req))
    (hover : ¬ (x.exchange (bytesBits req)).Overrun) {k : ℕ} (hk : k ≤ rd)
    (havail : ∀ i < k, (x.exchange (bytesBits req)).available i = true)
    (hstop : k < rd → (x.exchange (bytesBits req)).available k = false) :
    x.taken (bytesBits req) = (List.range k).map (x.exchange (bytesBits req)).loaded ∧
      (x.exchange (bytesBits req)).FrameOk x.outState := by
  have hwr := h.wr_le
  have hrd := h.rd_le
  obtain ⟨hwrSize, hrdSize, -⟩ := h.exchange x
  have hrdnat : (x.exchange (bytesBits req)).rdReqSize.toNat = rd := by
    rw [hrdSize, BitVec.toNat_ofNat, Nat.mod_eq_of_lt (by omega)]
  have hones : (x.exchange (bytesBits req)).wrReqSize ≠ BitVec.allOnes 16 := by
    intro heq
    have hval := congrArg BitVec.toNat heq
    rw [hwrSize, BitVec.toNat_ofNat, BitVec.toNat_allOnes] at hval
    omega
  exact frame_of_not_overrun (by norm_num) hx.idle (idle_bitCnt x.past x.start hx.idle) hones hover
    (by rw [hrdnat]; exact hk) havail (by rw [hrdnat]; exact hstop)

/-- What the host finds in a frame: the last two words are the counts, and the data are in front. -/
theorem answer_frame {hd : List UInt8} (hhd : hd.length = 4) (taken : List (BitVec 16)) (zeros : ℕ)
    (status count : BitVec 16) {resp : List UInt8}
    (hresp : resp = hd ++ (taken ++ List.replicate zeros 0 ++ [status, count]).flatMap wordBytes) :
    resp.length = (taken.length + zeros + 4) * 2 ∧ Poll.wrRespSize 2 resp = status.toNat ∧
      Poll.rdRespSize 2 resp = count.toNat ∧ Poll.payload 2 resp taken.length = taken.flatMap wordBytes := by
  have hdata : (taken ++ List.replicate zeros (0 : BitVec 16)).length = taken.length + zeros := by
    rw [List.length_append, List.length_replicate]
  have hlen : resp.length = (taken.length + zeros + 4) * 2 := by
    rw [hresp, List.length_append, length_flatMap_wordBytes, hhd, List.length_append, hdata]
    show 4 + 2 * (_ + 2) = _
    omega
  have hslice (i m : ℕ) : slice resp (4 + i) m =
      slice ((taken ++ List.replicate zeros 0 ++ [status, count]).flatMap wordBytes) i m := by
    rw [hresp, slice, ← hhd, ← List.drop_drop, List.drop_left]
    rfl
  refine ⟨hlen, ?_, ?_, ?_⟩
  · have hpos : (taken.length + zeros + 4) * 2 - 2 * 2 = 4 + 2 * (taken.length + zeros) := by omega
    rw [Poll.wrRespSize, hlen, hpos, hslice]
    exact leValue_slice_wordBytes rfl (by rw [hdata])
  · have hpos : (taken.length + zeros + 4) * 2 - 2 = 4 + 2 * (taken.length + zeros + 1) := by omega
    have hlast : (taken ++ List.replicate zeros (0 : BitVec 16) ++ [status]).length = taken.length + zeros + 1 := by
      rw [List.length_append, hdata, List.length_singleton]
    rw [Poll.rdRespSize, hlen, hpos, hslice]
    exact leValue_slice_wordBytes (List.append_cons _ _ _) (by rw [hlast])
  · have hfront : slice ((taken ++ List.replicate zeros 0 ++ [status, count]).flatMap wordBytes) 0
        (2 * taken.length) = taken.flatMap wordBytes := by
      rw [List.append_assoc, List.flatMap_append, slice, List.drop_zero,
        List.take_left' (length_flatMap_wordBytes _)]
    have hzero := hslice 0 (2 * taken.length)
    rw [Poll.payload, Nat.mul_comm taken.length]
    exact hzero.trans hfront

theorem Sized.answers (h : Sized req wr rd) (hx : x.Shifted (bytesBits req))
    (hover : ¬ (x.exchange (bytesBits req)).Overrun) {k : ℕ} (hk : k ≤ wr)
    (hstatus : (x.exchange (bytesBits req)).status ((max wr rd + 2) * 16) = BitVec.ofNat 16 k) :
    Answered x req (bitsBytes (x.captured (bytesBits req))) rd k := by
  have hwr := h.wr_le
  have hrd := h.rd_le
  have hlen := h.length
  obtain ⟨-, -, hpayloadLen⟩ := h.exchange x
  obtain ⟨n, hn, havail, hstop⟩ := exists_taken (x.exchange (bytesBits req)) rd
  obtain ⟨htaken, hframe⟩ := h.taken hx hover hn havail hstop
  have htakenLen : (x.taken (bytesBits req)).length = n := by
    rw [htaken, List.length_map, List.length_range]
  have hcount : (bytesBits req).length = (max wr rd + 4) * 16 := by
    rw [length_bytesBits, hlen]
    omega
  have hcaptured : (x.captured (bytesBits req)).drop (2 * 16) =
      bytesBits (((x.exchange (bytesBits req)).response (x.taken (bytesBits req))).flatMap wordBytes) := by
    have hbits := hframe.2
    rw [Exchange.frameLen, hpayloadLen, ← hcount] at hbits
    rw [bytesBits_wordBytes]
    exact hbits
  have hhead : ((x.captured (bytesBits req)).take (2 * 16)).length = 2 * 16 := by
    apply List.length_take_of_le
    show 2 * 16 ≤ (trace _ _ _ _ 0 (bytesBits req).length).length
    rw [length_trace, hcount]
    omega
  -- the two words of the header are not looked at
  have hresp : bitsBytes (x.captured (bytesBits req)) = bitsBytes ((x.captured (bytesBits req)).take (2 * 16)) ++
      ((x.exchange (bytesBits req)).response (x.taken (bytesBits req))).flatMap wordBytes := by
    rw [← bitsBytes_bytesBits (List.flatMap _ _), ← hcaptured, ← bitsBytes_append _ (by rw [hhead]; norm_num),
      List.take_append_drop]
  rw [Exchange.response, hpayloadLen, hstatus] at hresp
  obtain ⟨hlength, hwrResp, hrdResp, hdata⟩ := answer_frame (by rw [length_bitsBytes, hhead]) _ _ _ _ hresp
  refine ⟨?_, ?_, ?_, htakenLen.trans_le hn, hdata⟩
  · rw [hlength, hlen, htakenLen, Nat.add_sub_cancel' (hn.trans (le_max_right _ _))]
  · rw [hwrResp, BitVec.toNat_ofNat, Nat.mod_eq_of_lt (by omega)]
  · rw [hrdResp, BitVec.toNat_ofNat, Nat.mod_eq_of_lt (by omega)]

end Request

end GlipOsd.Jtag
