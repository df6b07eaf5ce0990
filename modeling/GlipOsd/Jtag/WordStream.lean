import GlipOsd.Jtag.ChunkingExact
import GlipOsd.Jtag.SyncFifo
import GlipOsd.Jtag.Transfer
import Mathlib.Logic.Relation

/-! # The streams of words

The host with a target of 16 bit words, transfer by transfer. The words that have entered the FIFO of the
target are, byte by byte, the beginning of what `glip_write` has accepted, and what `glip_read` has returned
is the beginning of the words taken from the FIFO in the other direction.
-/

namespace GlipOsd.Jtag.WordStream
open Bytes Memory CircularBuffer OutputFsm Clocked
set_option autoImplicit false

/-- The host, the words that have entered the FIFO of the input side, and those that the output side has taken. -/
structure State where
  host : Poll.State
  delivered : List (BitVec 16)
  popped : List (BitVec 16)

def initial : State := ⟨Poll.initial 2, [], []⟩

/-- The answer `resp` of the target to the request `req`: a scan without the pause and without the surplus
zero word that spoil the frame, and an answer that arrives in chunks which do not matter. -/
structure Transfer (oocd : List UInt8 → List (ℕ × ℕ)) (req resp : List UInt8) where
  scan : Scan
  cmd : List UInt8
  written : jtagDrscanWrite req = some (0, cmd)
  shifted : scan.Shifted (shiftedBits (oocd cmd))
  inTime : ¬ (scan.exchange (shiftedBits (oocd cmd))).Overrun
  answer : Response
  captured : Captured (oocd cmd) (scan.captured (shiftedBits (oocd cmd))) (answer.first :: answer.others)
  reads : List DrscanRead.ReadResult
  delivers : DrscanRead.Delivers reads answer.text
  clean : DrscanRead.Clean false reads
  fresh : ℕ → UInt8
  block : List UInt8
  room : block.length = req.length
  read : DrscanRead.jtagDrscanRead fresh block req.length reads = .returned 0 resp

section Steps
variable (oocd : List UInt8 → List (ℕ × ℕ))

/-- The steps of the host, and the transfer of a request. -/
inductive Step : State → State → Prop
  | host {s : State} {h : Poll.State} (l : Poll.Label) (hl : ∀ resp, l ≠ .answer resp)
      (hwanted : ∀ wantedWords, l = .calcLen wantedWords → wantedWords < 2 ^ 31)
      (hstep : Poll.step s.host l = some h) : Step s { s with host := h }
  | transfer {s : State} {h : Poll.State} {req resp : List UInt8} (t : Transfer oocd req resp)
      (hpc : s.host.pc = .sent req) (hstep : Poll.step s.host (.answer resp) = some h) :
      Step s ⟨h, s.delivered ++ t.scan.delivered (shiftedBits (oocd t.cmd)),
        s.popped ++ t.scan.taken (shiftedBits (oocd t.cmd))⟩

def Reachable (s : State) : Prop := Relation.ReflTransGen (Step oocd) initial s

end Steps

/-! ## What has passed -/

/-- The words that have entered the FIFO without the host knowing it yet. -/
def underway : Poll.Pc → List UInt8
  | .answered req resp => Poll.payload 2 req (Poll.wrRespSize 2 resp)
  | _ => []

/-- The words taken that are still to be stored. -/
def incoming : Poll.Pc → List UInt8
  | .answered _ resp => Poll.payload 2 resp (Poll.rdRespSize 2 resp)
  | .acked resp _ => Poll.payload 2 resp (Poll.rdRespSize 2 resp)
  | _ => []

/-- The bytes of the words on the two sides. -/
structure Inv (s : State) : Prop where
  host : ∃ w r, Poll.Inv 2 s.host w r
  delivered : s.delivered.flatMap wordBytes = s.host.acknowledged ++ underway s.host.pc
  popped : s.popped.flatMap wordBytes = s.host.returned ++ incoming s.host.pc

theorem inv_initial : Inv initial where
  host := ⟨[], [], Poll.inv_initial 2⟩
  delivered := rfl
  popped := rfl

theorem host_books {s h : Poll.State} {l : Poll.Label} (hww : s.ctx.targetWordWidth = 2)
    (hl : ∀ resp, l ≠ .answer resp) (hstep : Poll.step s l = some h) :
    h.acknowledged ++ underway h.pc = s.acknowledged ++ underway s.pc ∧
      h.returned ++ incoming h.pc = s.returned ++ incoming s.pc := by
  cases l with
  | userWrite channel data =>
    obtain rfl := Option.some.inj hstep
    exact ⟨rfl, rfl⟩
  | userRead channel size =>
    obtain rfl := Option.some.inj hstep
    exact ⟨rfl, rfl⟩
  | look =>
    cases hpc : s.pc <;> simp only [Poll.step, hpc, reduceCtorEq, Option.some.injEq] at hstep
    subst hstep
    exact ⟨rfl, rfl⟩
  | calcLen wantedWords =>
    cases hpc : s.pc <;> simp only [Poll.step, hpc, reduceCtorEq, Option.some.injEq] at hstep
    subst hstep
    exact ⟨rfl, rfl⟩
  | build fresh =>
    cases hpc : s.pc <;> simp only [Poll.step, hpc, reduceCtorEq, Option.some.injEq] at hstep
    subst hstep
    simp only [Poll.build]
    split_ifs
    · rw [hpc]
      exact ⟨rfl, rfl⟩
    · exact ⟨rfl, rfl⟩
    · exact ⟨rfl, rfl⟩
  | answer resp => exact absurd rfl (hl resp)
  | parseAcked =>
    cases hpc : s.pc <;> simp only [Poll.step, hpc, reduceCtorEq, Option.some.injEq] at hstep
    subst hstep
    rw [hww]
    exact ⟨List.append_nil _, rfl⟩
  | parseRead =>
    cases hpc : s.pc <;> simp only [Poll.step, hpc, reduceCtorEq, Option.some.injEq] at hstep
    subst hstep
    rw [hww]
    exact ⟨rfl, List.append_nil _⟩

theorem sized_of_sent {w r req : List UInt8} {wrWords rdWords : ℕ} (h : Poll.Sent 2 w r req wrWords rdWords)
    (hw : w.length ≤ bufferSize) : Sized req wrWords rdWords := by
  have hstored := h.stored
  have hfits := h.fits
  rw [bufferSize_eq] at hw hfits
  exact ⟨h.req.length, h.req.wrSize, h.req.rdSize, by omega, by omega⟩

section Transfers
variable {oocd : List UInt8 → List (ℕ × ℕ)} {req resp : List UInt8}

theorem Transfer.bits_eq (hoocd : ReadsFields oocd) (t : Transfer oocd req resp) :
    oocd t.cmd = (scanFields req).map (fun f => (f.numBits, f.value)) ∧
      shiftedBits (oocd t.cmd) = bytesBits req := by
  have hcmd : t.cmd = command (scanFields req) := by
    have hwritten := t.written
    simp only [jtagDrscanWrite] at hwritten
    split_ifs at hwritten with hlong hline
    · have hrv := congrArg Prod.fst (Option.some.inj hwritten)
      cases hrv
    · exact (congrArg Prod.snd (Option.some.inj hwritten)).symm
  have hfields : oocd t.cmd = (scanFields req).map (fun f => (f.numBits, f.value)) := by
    rw [hcmd]
    exact hoocd _ (scanFields_valid req)
  exact ⟨hfields, by rw [hfields, shiftedBits_scanFields]⟩

theorem Transfer.resp_eq (hoocd : ReadsFields oocd) (t : Transfer oocd req resp) (hlen : req.length ≤ 2 ^ 16 + 8) :
    resp = bitsBytes (t.scan.captured (bytesBits req)) := by
  obtain ⟨hfields, hbits⟩ := t.bits_eq hoocd
  have hcaptured := t.captured
  rw [hbits] at hcaptured
  have hcount : (t.scan.captured (bytesBits req)).length = (bytesBits req).length := length_trace
  have htotal : totalBits (oocd t.cmd) = (bytesBits req).length := by
    rw [← length_shiftedBits, hbits]
  have hdecoded : t.answer.decoded = bitsBytes (t.scan.captured (bytesBits req)) := by
    rw [← hcaptured.decoded (by rw [hcount, htotal]), List.flatMap_cons]
    rfl
  have hsize : t.answer.decoded.length = req.length := by
    rw [hdecoded, length_bitsBytes, hcount, length_bytesBits, Nat.mul_div_cancel_left _ (by norm_num)]
  have htext : t.answer.text.length < 2 ^ 30 := by
    have hbound := hcaptured.length_text
    rw [htotal, length_bytesBits, List.map_cons, List.sum_cons] at hbound
    rw [Response.text, List.length_append, length_textAfter]
    omega
  have hread := t.read
  rw [← hsize] at hread
  have hready := DrscanRead.ready_start t.answer t.fresh (t.room.trans hsize.symm)
  have hrun : DrscanRead.jtagDrscanRead t.fresh t.block t.answer.decoded.length t.reads =
      .returned 0 t.answer.decoded :=
    hready.run htext t.delivers t.clean t.fresh fun hexcess => by
      rw [DrscanRead.jtagDrscanRead, hexcess] at hread
      cases hread
  rw [hrun] at hread
  rw [← hdecoded]
  exact (DrscanRead.Outcome.returned.inj hread).2.symm

/-- What a transfer does to the books of the two sides. -/
theorem Transfer.spec (hoocd : ReadsFields oocd) (t : Transfer oocd req resp) {wr rd : ℕ} (h : Sized req wr rd) :
    (t.scan.delivered (shiftedBits (oocd t.cmd))).flatMap wordBytes =
        Poll.payload 2 req (Poll.wrRespSize 2 resp) ∧
      (t.scan.taken (shiftedBits (oocd t.cmd))).flatMap wordBytes =
        Poll.payload 2 resp (Poll.rdRespSize 2 resp) := by
  have hwr := h.wr_le
  have hrd := h.rd_le
  have hlen := h.length
  obtain ⟨-, hbits⟩ := t.bits_eq hoocd
  have hshifted := t.shifted
  have hover := t.inTime
  rw [hbits] at hshifted hover ⊢
  obtain ⟨k, hk, hdelivered, hstatus, -⟩ := h.accepts hshifted
  have hanswer := h.answers hshifted hover hk hstatus
  rw [← t.resp_eq hoocd (by omega)] at hanswer
  constructor
  · have hpayload : (Poll.payload 2 req k).length = k * 2 := length_slice (by omega)
    rw [hdelivered, flatMap_wordBytes (by omega), hanswer.wrRespSize]
  · rw [hanswer.rdRespSize, hanswer.data]

end Transfers

theorem inv_step {oocd : List UInt8 → List (ℕ × ℕ)} (hoocd : ReadsFields oocd) {s s' : State} (h : Inv s)
    (hstep : Step oocd s s') : Inv s' := by
  obtain ⟨w, r, hhost⟩ := h.host
  cases hstep with
  | host l hl hwanted hstep =>
    obtain ⟨hacknowledged, hreturned⟩ := host_books hhost.width hl hstep
    refine ⟨Poll.inv_step (by omega) _ l _ h.host hwanted hstep, ?_, ?_⟩
    · exact h.delivered.trans hacknowledged.symm
    · exact h.popped.trans hreturned.symm
  | @transfer h' req resp t hpc hstep =>
    obtain ⟨wrWords, rdWords, hsent⟩ : ∃ wrWords rdWords, Poll.Sent 2 w r req wrWords rdWords := by
      have hinv := hhost.pc
      rwa [hpc] at hinv
    obtain ⟨hdelivered, htaken⟩ := t.spec hoocd (sized_of_sent hsent hhost.fits.1)
    have hnext := Poll.inv_step (by omega) _ _ _ h.host (fun _ heq => by cases heq) hstep
    have hold := h.delivered
    have hold' := h.popped
    rw [hpc] at hold hold'
    simp only [Poll.step, hpc] at hstep
    split_ifs at hstep
    obtain rfl := Option.some.inj hstep
    refine ⟨hnext, ?_, ?_⟩
    · rw [List.flatMap_append, hdelivered, hold]
      show _ ++ [] ++ _ = _
      rw [List.append_nil]
      rfl
    · rw [List.flatMap_append, htaken, hold']
      show _ ++ [] ++ _ = _
      rw [List.append_nil]
      rfl

theorem Reachable.inv {oocd : List UInt8 → List (ℕ × ℕ)} (hoocd : ReadsFields oocd) {s : State}
    (h : Reachable oocd s) : Inv s := by
  induction h with
  | refl => exact inv_initial
  | tail _ hstep ih => exact inv_step hoocd ih hstep

/-- What has been delivered begins what has been written. -/
theorem Inv.delivered_isPrefix {s : State} (h : Inv s) : s.delivered.flatMap wordBytes <+: s.host.accepted := by
  obtain ⟨w, r, hhost⟩ := h.host
  rw [h.delivered, hhost.accepted, List.prefix_append_right_inj]
  have hpc := hhost.pc
  cases hs : s.host.pc with
  | answered req resp =>
    rw [hs] at hpc
    obtain ⟨⟨wrWords, rdWords, hsent⟩, -, hack, -⟩ := hpc
    obtain ⟨hwr, -⟩ := hsent.sizes le_rfl hhost.fits.1
    rw [hwr] at hack
    have hdata := congrArg (List.take (Poll.wrRespSize 2 resp * 2)) hsent.req.data
    rw [slice, List.take_take, List.take_take, Nat.min_eq_left (by omega)] at hdata
    show slice req 4 (Poll.wrRespSize 2 resp * 2) <+: w
    rw [slice, hdata]
    exact List.take_prefix _ w
  | top => exact List.nil_prefix
  | looked wr => exact List.nil_prefix
  | ready wr rd => exact List.nil_prefix
  | sent req => exact List.nil_prefix
  | acked resp n => exact List.nil_prefix
  | stopped => exact List.nil_prefix

theorem Inv.read_isPrefix {s : State} (h : Inv s) : s.host.read <+: s.popped.flatMap wordBytes := by
  obtain ⟨w, r, hhost⟩ := h.host
  rw [h.popped, hhost.returned, List.append_assoc]
  exact List.prefix_append _ _

end GlipOsd.Jtag.WordStream
