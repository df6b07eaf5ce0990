import GlipOsd.Foundations.Runs
import GlipOsd.Jtag.Host

/-! # Conservation of data by the polling thread

The body of `poll_thread`'s loop in steps between which the user thread may call `gb_jtag_write`
and `gb_jtag_read`. The target answers a request as the protocol allows it to: it acknowledges at
most the words that were sent and returns at most the words that were wanted, first in the frame.

The state carries what has passed so far in each direction. An answer counts from when the thread
takes it in: its acknowledgement with the discarding, its data with the writing.
-/

namespace GlipOsd.Jtag.Poll
open CircularBuffer Memory Bytes Runs
set_option autoImplicit false

/-- Where the thread is in the body of its loop. -/
inductive Pc
  | top
  /-- `avail_wr` has been read. -/
  | looked (availWr : ℕ)
  | ready (wrWords rdWords : ℕ)
  | sent (req : List UInt8)
  | answered (req resp : List UInt8)
  | acked (resp : List UInt8) (readWords : ℕ)
  | stopped
  deriving DecidableEq

structure State where
  ctx : Ctx
  pc : Pc
  /-- `buf_size` -/
  bufSize : ℕ
  accepted : List UInt8
  acknowledged : List UInt8
  returned : List UInt8
  read : List UInt8
  failed : Bool
  deriving DecidableEq

/-- `MAX_PAYLOAD_WORDS` -/
def maxPayloadWords : ℕ := 15000

def initial (targetWordWidth : ℕ) : State where
  ctx := gbJtagNew targetWordWidth
  pc := .top
  bufSize := (maxPayloadWords + 4) * 2
  accepted := []
  acknowledged := []
  returned := []
  read := []
  failed := false

inductive Label
  | userWrite (channel : ℕ) (data : List UInt8)
  | userRead (channel size : ℕ)
  | look
  | calcLen (wantedWords : ℕ)
  | build (fresh : ℕ → UInt8)
  | answer (resp : List UInt8)
  | parseAcked
  | parseRead

/-- The words written, as the last but one word of an answer counts them. -/
def wrRespSize (ww : ℕ) (resp : List UInt8) : ℕ := leValue (slice resp (resp.length - ww * 2) ww)

/-- The words read, as the last word of an answer counts them. -/
def rdRespSize (ww : ℕ) (resp : List UInt8) : ℕ := leValue (slice resp (resp.length - ww) ww)

/-- An answer is as long as the request, and counts no more words than the request does. -/
def Answers (ww : ℕ) (req resp : List UInt8) : Prop :=
  resp.length = req.length ∧ wrRespSize ww resp ≤ leValue (slice req 0 ww) ∧
    rdRespSize ww resp ≤ leValue (slice req ww ww)

instance (ww : ℕ) (req resp : List UInt8) : Decidable (Answers ww req resp) :=
  inferInstanceAs (Decidable (_ ∧ _))

def payload (ww : ℕ) (frame : List UInt8) (n : ℕ) : List UInt8 := slice frame (ww * 2) (n * ww)

/-- The transfer is built again and again until the buffers are large enough. -/
def build (s : State) (wrWords rdWords : ℕ) (fresh : ℕ → UInt8) : State :=
  let r := buildJtagReq s.ctx (some fresh) wrWords rdWords s.bufSize
  if r.1 = enomem then { s with ctx := r.2.2, bufSize := growBuf s.bufSize }
  else if r.1 < 0 then { s with ctx := r.2.2, pc := .stopped, failed := true }
  else { s with ctx := r.2.2, pc := .sent r.2.1 }

def step (s : State) : Label → Option State
  | .userWrite channel data =>
    let (written, ctx) := gbJtagWrite s.ctx channel data
    some { s with ctx, accepted := s.accepted ++ data.take (written.getD 0) }
  | .userRead channel size =>
    let (data, ctx) := gbJtagRead s.ctx channel size
    some { s with ctx, read := s.read ++ data.getD [] }
  | .look =>
    match s.pc with
    | .top => some { s with pc := .looked (availWr s.ctx) }
    | _ => none
  | .calcLen wantedWords =>
    match s.pc with
    | .looked wr =>
      let words := calcPayloadLen wantedWords wr (availRd s.ctx)
      some { s with pc := .ready words.1 words.2 }
    | _ => none
  | .build fresh =>
    match s.pc with
    | .ready wrWords rdWords => some (build s wrWords rdWords fresh)
    | _ => none
  | .answer resp =>
    match s.pc with
    | .sent req =>
      if Answers s.ctx.targetWordWidth req resp then some { s with pc := .answered req resp } else none
    | _ => none
  | .parseAcked =>
    match s.pc with
    | .answered req resp =>
      let words := respWords s.ctx resp resp.length
      let r := parseAcked s.ctx words.1
      some { s with
        ctx := r.2, pc := .acked resp words.2, failed := s.failed || !r.1.isOk
        acknowledged := s.acknowledged ++ payload s.ctx.targetWordWidth req
          (wrRespSize s.ctx.targetWordWidth resp) }
    | _ => none
  | .parseRead =>
    match s.pc with
    | .acked resp readWords =>
      let r := parseRead s.ctx resp readWords
      some { s with
        ctx := r.2, pc := .top, failed := s.failed || !r.1.isOk
        returned := s.returned ++ payload s.ctx.targetWordWidth resp
          (rdRespSize s.ctx.targetWordWidth resp) }
    | _ => none

/-- No call on the buffers has failed, and every byte is accounted for in both directions. -/
def Conserved (s : State) : Prop :=
  s.failed = false ∧ ∃ w r, Rep 16 s.ctx.writeBuf w ∧ Rep 16 s.ctx.readBuf r ∧
    s.accepted = s.acknowledged ++ w ∧ s.returned = s.read ++ r

/-! ## The invariant -/

/-- A request is on its way: what it carries is still stored, and what it asks for fits. -/
structure Sent (ww : ℕ) (w r req : List UInt8) (wrWords rdWords : ℕ) : Prop where
  req : ReqOk ww w req wrWords rdWords
  stored : wrWords * ww ≤ w.length
  fits : rdWords * ww + r.length ≤ bufferSize

/-- What the thread relies on at each point, when the buffers hold `w` and `r`. -/
def PcInv (ww : ℕ) (w r : List UInt8) : Pc → Prop
  | .top => True
  | .looked wr => wr * ww ≤ w.length
  | .ready wrWords rdWords => wrWords * ww ≤ w.length ∧ rdWords * ww + r.length ≤ bufferSize
  | .sent req => ∃ wrWords rdWords, Sent ww w r req wrWords rdWords
  | .answered req resp => (∃ wrWords rdWords, Sent ww w r req wrWords rdWords) ∧ Answers ww req resp
  | .acked resp n =>
    n = rdRespSize ww resp ∧ n * ww + r.length ≤ bufferSize ∧ ww * 2 + n * ww ≤ resp.length
  | .stopped => False

theorem PcInv.user {ww : ℕ} {w r : List UInt8} {pc : Pc} (h : PcInv ww w r pc) (xs : List UInt8)
    (n : ℕ) : PcInv ww (w ++ xs) (r.drop n) pc := by
  have hw : w.length ≤ (w ++ xs).length := by simp
  have hr : (r.drop n).length ≤ r.length := by simp
  have hsent : ∀ {req wrWords rdWords}, Sent ww w r req wrWords rdWords →
      Sent ww (w ++ xs) (r.drop n) req wrWords rdWords := by
    intro req wrWords rdWords hs
    refine ⟨⟨hs.req.length, hs.req.wrSize, hs.req.rdSize, ?_⟩, hs.stored.trans hw, ?_⟩
    · rw [hs.req.data, List.take_append_of_le_length hs.stored]
    · have := hs.fits
      omega
  cases pc with
  | top => trivial
  | looked wr => exact le_trans h hw
  | ready wrWords rdWords => exact ⟨h.1.trans hw, by have := h.2; omega⟩
  | sent req =>
    obtain ⟨wrWords, rdWords, hs⟩ := h
    exact ⟨wrWords, rdWords, hsent hs⟩
  | answered req resp =>
    obtain ⟨⟨wrWords, rdWords, hs⟩, hanswers⟩ := h
    exact ⟨⟨wrWords, rdWords, hsent hs⟩, hanswers⟩
  | acked resp m => exact ⟨h.1, by have := h.2.1; omega, h.2.2⟩
  | stopped => exact h

structure Inv (ww : ℕ) (s : State) (w r : List UInt8) : Prop where
  width : s.ctx.targetWordWidth = ww
  writeRep : Rep 16 s.ctx.writeBuf w
  writeTmp : TmpRep s.ctx.writeBuf
  readRep : Rep 16 s.ctx.readBuf r
  accepted : s.accepted = s.acknowledged ++ w
  returned : s.returned = s.read ++ r
  ok : s.failed = false
  pc : PcInv ww w r s.pc

theorem Inv.conserved {ww : ℕ} {s : State} {w r : List UInt8} (h : Inv ww s w r) : Conserved s :=
  ⟨h.ok, w, r, h.writeRep, h.readRep, h.accepted, h.returned⟩

theorem inv_initial (ww : ℕ) : Inv ww (initial ww) [] [] where
  width := rfl
  writeRep := rep_cbufInit 16
  writeTmp := tmpRep_cbufInit (by decide)
  readRep := rep_cbufInit 16
  accepted := rfl
  returned := rfl
  ok := rfl
  pc := trivial

section Steps
variable {ww : ℕ} {s s' : State} {w r : List UInt8}

theorem Inv.userWrite (h : Inv ww s w r) {channel : ℕ} {data : List UInt8}
    (hstep : step s (.userWrite channel data) = some s') : ∃ w' r', Inv ww s' w' r' := by
  obtain ⟨written, buf, heq, hrep, htmp⟩ := gbJtagWrite_ok h.writeRep h.writeTmp channel data
  simp only [step, heq, Option.some.injEq] at hstep
  subst hstep
  refine ⟨_, r, h.width, hrep, htmp, h.readRep, ?_, h.returned, h.ok, h.pc.user _ 0⟩
  rw [h.accepted, List.append_assoc]

theorem Inv.userRead (h : Inv ww s w r) {channel size : ℕ}
    (hstep : step s (.userRead channel size) = some s') : ∃ w' r', Inv ww s' w' r' := by
  obtain ⟨n, data, buf, heq, hdata, hrep⟩ := gbJtagRead_ok h.readRep (by norm_num) channel size
  simp only [step, heq, Option.some.injEq] at hstep
  subst hstep
  have hpc := h.pc.user [] n
  rw [List.append_nil] at hpc
  refine ⟨w, _, h.width, h.writeRep, h.writeTmp, hrep, h.accepted, ?_, h.ok, hpc⟩
  rw [h.returned, hdata, List.append_assoc, List.take_append_drop]

theorem Inv.look (h : Inv ww s w r) (hstep : step s .look = some s') : ∃ w' r', Inv ww s' w' r' := by
  cases hpc : s.pc <;> simp only [step, hpc, reduceCtorEq, Option.some.injEq] at hstep
  subst hstep
  refine ⟨w, r, h.width, h.writeRep, h.writeTmp, h.readRep, h.accepted, h.returned, h.ok, ?_⟩
  exact h.width ▸ availWr_mul_le h.writeRep

theorem Inv.fits (h : Inv ww s w r) : w.length ≤ bufferSize ∧ r.length ≤ bufferSize := by
  rw [bufferSize_eq]
  exact ⟨h.writeRep.size_eq ▸ h.writeRep.fits, h.readRep.size_eq ▸ h.readRep.fits⟩

theorem Inv.calcLen (h : Inv ww s w r) (hww : 2 ≤ ww ∧ ww ≤ 4) {wantedWords : ℕ}
    (hwanted : wantedWords < 2 ^ 31) (hstep : step s (.calcLen wantedWords) = some s') :
    ∃ w' r', Inv ww s' w' r' := by
  cases hpc : s.pc <;> simp only [step, hpc, reduceCtorEq, Option.some.injEq] at hstep
  case looked wr =>
  subst hstep
  have hfits := h.fits
  have hlooked : wr * ww ≤ w.length := by
    have hinv := h.pc
    rwa [hpc] at hinv
  have hfree : availRd s.ctx * ww ≤ bufferSize - r.length := by
    have hle := availRd_mul_le h.readRep
    rwa [h.width, h.readRep.size_eq, ← bufferSize_eq] at hle
  have hsize := bufferSize_eq
  have hwr : wr ≤ wr * ww := Nat.le_mul_of_pos_right _ (by omega)
  have hrd : availRd s.ctx ≤ availRd s.ctx * ww := Nat.le_mul_of_pos_right _ (by omega)
  obtain ⟨h1, h2⟩ := calcPayloadLen_le hwanted (by omega : wr < 2 ^ 31)
    (by omega : availRd s.ctx < 2 ^ 31)
  refine ⟨w, r, h.width, h.writeRep, h.writeTmp, h.readRep, h.accepted, h.returned, h.ok, ?_, ?_⟩
  · exact (Nat.mul_le_mul_right ww h1).trans hlooked
  · have hmul := Nat.mul_le_mul_right ww h2
    omega

theorem Inv.build (h : Inv ww s w r) (hww : 2 ≤ ww ∧ ww ≤ 4) {fresh : ℕ → UInt8}
    (hstep : step s (.build fresh) = some s') : ∃ w' r', Inv ww s' w' r' := by
  cases hpc : s.pc <;> simp only [step, hpc, reduceCtorEq, Option.some.injEq] at hstep
  case ready wrWords rdWords =>
  subst hstep
  have hready : wrWords * ww ≤ w.length ∧ rdWords * ww + r.length ≤ bufferSize := by
    have hinv := h.pc
    rwa [hpc] at hinv
  have hsize := bufferSize_eq
  have hbuilt := buildJtagReq_ok wrWords rdWords (by rw [h.width]; omega)
    h.writeRep h.writeTmp (by rw [h.width]; exact hready.1) (by rw [h.width]; omega) fresh s.bufSize
  obtain hgrow | ⟨req, buf, heq, hrep, htmp, hreq⟩ := hbuilt
  · rw [Poll.build, hgrow, if_pos rfl]
    exact ⟨w, r, h.width, h.writeRep, h.writeTmp, h.readRep, h.accepted, h.returned, h.ok, h.pc⟩
  · have hne : (req.length : ℤ) ≠ enomem := by
      have hneg : enomem < 0 := by decide
      omega
    have hnonneg : ¬ (req.length : ℤ) < 0 := by omega
    rw [Poll.build, heq, if_neg hne, if_neg hnonneg]
    rw [h.width] at hreq
    exact ⟨w, r, h.width, hrep, htmp, h.readRep, h.accepted, h.returned, h.ok,
      wrWords, rdWords, hreq, hready.1, hready.2⟩

theorem Inv.answer (h : Inv ww s w r) {resp : List UInt8}
    (hstep : step s (.answer resp) = some s') : ∃ w' r', Inv ww s' w' r' := by
  cases hpc : s.pc <;> simp only [step, hpc, reduceCtorEq] at hstep
  case sent req =>
  split_ifs at hstep with hanswers
  obtain rfl := Option.some.inj hstep
  rw [h.width] at hanswers
  refine ⟨w, r, h.width, h.writeRep, h.writeTmp, h.readRep, h.accepted, h.returned, h.ok, ?_, hanswers⟩
  have hinv := h.pc
  rwa [hpc] at hinv

theorem Sent.sizes {req : List UInt8} {wrWords rdWords : ℕ} (h : Sent ww w r req wrWords rdWords)
    (hww : 2 ≤ ww) (hw : w.length ≤ bufferSize) :
    leValue (slice req 0 ww) = wrWords ∧ leValue (slice req ww ww) = rdWords := by
  have hsize := bufferSize_eq
  have hpow : 256 ^ 2 ≤ 256 ^ ww := Nat.pow_le_pow_right (by omega) hww
  have hwr : wrWords * 2 ≤ wrWords * ww := Nat.mul_le_mul_left _ hww
  have hrd : rdWords * 2 ≤ rdWords * ww := Nat.mul_le_mul_left _ hww
  have hstored := h.stored
  have hfits := h.fits
  rw [h.req.wrSize, h.req.rdSize]
  exact ⟨leValue_leBytes_of_lt (by omega), leValue_leBytes_of_lt (by omega)⟩

theorem Inv.parseAcked (h : Inv ww s w r) (hww : 2 ≤ ww ∧ ww ≤ 4)
    (hstep : step s .parseAcked = some s') : ∃ w' r', Inv ww s' w' r' := by
  cases hpc : s.pc <;> simp only [step, hpc, reduceCtorEq, Option.some.injEq] at hstep
  case answered req resp =>
  have hsize := bufferSize_eq
  obtain ⟨⟨wrWords, rdWords, hsent⟩, hlen, hack, hread⟩ :
      (∃ wrWords rdWords, Sent ww w r req wrWords rdWords) ∧ Answers ww req resp := by
    have hinv := h.pc
    rwa [hpc] at hinv
  obtain ⟨hwr, hrd⟩ := hsent.sizes hww.1 h.fits.1
  rw [hwr] at hack
  rw [hrd] at hread
  have hstored := hsent.stored
  have hfits := hsent.fits
  have hackBytes : wrRespSize ww resp * ww ≤ wrWords * ww := Nat.mul_le_mul_right _ hack
  have hreadBytes : rdRespSize ww resp * ww ≤ rdWords * ww := Nat.mul_le_mul_right _ hread
  have hwords : respWords s.ctx resp resp.length = (wrRespSize ww resp, rdRespSize ww resp) := by
    rw [respWords, copyFromWord_eq (by rw [h.width]; omega), copyFromWord_eq (by rw [h.width]; omega),
      h.width]
    rfl
  have hbytes : toBytes s.ctx (wrRespSize ww resp) = wrRespSize ww resp * ww := by
    have hle := h.fits.1
    rw [toBytes_eq (by rw [h.width]; omega), h.width]
  obtain ⟨hrv, hrep⟩ := cbufDiscard_ok h.writeRep (hackBytes.trans hstored)
  -- the acknowledged words are at the front of what is stored
  have hfront : payload ww req (wrRespSize ww resp) = w.take (wrRespSize ww resp * ww) := by
    have hdata := congrArg (List.take (wrRespSize ww resp * ww)) hsent.req.data
    rwa [slice, List.take_take, List.take_take, Nat.min_eq_left hackBytes] at hdata
  simp only [hwords, Jtag.parseAcked, hbytes, h.width, hfront, hrv] at hstep
  subst hstep
  obtain ⟨rd, hframe⟩ := cbufDiscard_frame s.ctx.writeBuf (wrRespSize ww resp * ww)
  refine ⟨_, r, rfl, hrep, ?_, h.readRep, ?_, h.returned, ?_, rfl, by omega, ?_⟩
  · simp only [hframe]
    exact ⟨h.writeTmp.small, h.writeTmp.read, h.writeTmp.write⟩
  · rw [h.accepted, List.append_assoc, List.take_append_drop]
  · simp only [h.ok, Except.isOk, Except.toBool, Bool.not_true, Bool.or_self]
  · rw [hlen, hsent.req.length]
    have hmax : (rdWords + 4) * ww ≤ (max wrWords rdWords + 4) * ww :=
      Nat.mul_le_mul_right _ (by omega)
    rw [Nat.add_mul] at hmax
    omega

theorem Inv.parseRead (h : Inv ww s w r) (hstep : step s .parseRead = some s') :
    ∃ w' r', Inv ww s' w' r' := by
  cases hpc : s.pc <;> simp only [step, hpc, reduceCtorEq, Option.some.injEq] at hstep
  case acked resp n =>
  have hsize := bufferSize_eq
  obtain ⟨rfl, hfits, hlen⟩ : n = rdRespSize ww resp ∧ n * ww + r.length ≤ bufferSize ∧
      ww * 2 + n * ww ≤ resp.length := by
    have hinv := h.pc
    rwa [hpc] at hinv
  have hdata : respData s.ctx resp (rdRespSize ww resp) = payload ww resp (rdRespSize ww resp) := by
    rw [respData, toBytes_eq (by rw [h.width]; omega), h.width]
    rfl
  have hlenData : (payload ww resp (rdRespSize ww resp)).length = rdRespSize ww resp * ww :=
    length_slice hlen
  obtain ⟨hrv, hrep⟩ := cbufWrite_ok h.readRep (payload ww resp (rdRespSize ww resp)) (by
    rw [hlenData, h.readRep.size_eq]
    omega)
  simp only [Jtag.parseRead, hdata, h.width, hrv] at hstep
  subst hstep
  refine ⟨w, _, rfl, h.writeRep, h.writeTmp, hrep, h.accepted, ?_, ?_, trivial⟩
  · rw [h.returned, List.append_assoc]
  · simp only [h.ok, Except.isOk, Except.toBool, Bool.not_true, Bool.or_self]

end Steps

theorem inv_step {ww : ℕ} (hww : 2 ≤ ww ∧ ww ≤ 4) (s : State) (l : Label) (s' : State)
    (h : ∃ w r, Inv ww s w r) (hl : ∀ wantedWords, l = .calcLen wantedWords → wantedWords < 2 ^ 31)
    (hstep : step s l = some s') : ∃ w r, Inv ww s' w r := by
  obtain ⟨w, r, h⟩ := h
  cases l with
  | userWrite channel data => exact h.userWrite hstep
  | userRead channel size => exact h.userRead hstep
  | look => exact h.look hstep
  | calcLen wantedWords => exact h.calcLen hww (hl wantedWords rfl) hstep
  | build fresh => exact h.build hww hstep
  | answer resp => exact h.answer hstep
  | parseAcked => exact h.parseAcked hww hstep
  | parseRead => exact h.parseRead hstep

/-- **Conservation of data.** For words of two to four bytes, against every target that answers as
the protocol says and with any calls of the user in between, no call on the buffers fails, and in
every state what has been acknowledged and what is stored is what the user has written, and what
the user has read and what is stored is what the target has returned. -/
theorem data_conserved {ww : ℕ} (hww : ww = 2 ∨ ww = 3 ∨ ww = 4) {ls : List Label}
    (hwanted : ∀ wantedWords, .calcLen wantedWords ∈ ls → wantedWords < 2 ^ 31) :
    Passes step Conserved (initial ww) ls := by
  have hpasses : Passes step (fun s => ∃ w r, Inv ww s w r) (initial ww) ls := by
    apply passes_of_labels (inv_step (by omega)) ⟨[], [], inv_initial ww⟩
    rintro l hl wantedWords rfl
    exact hwanted wantedWords hl
  exact hpasses.mono fun s ⟨w, r, h⟩ => h.conserved

/-- A round with an answer that acknowledges one of two words and returns one. -/
theorem round_conserved : Passes step Conserved (initial 2)
    [.userWrite 0 [1, 2, 3, 4, 5], .look, .calcLen 2, .build fun _ => 0, .userWrite 0 [6],
      .answer [0, 0, 0, 0, 7, 8, 0, 0, 1, 0, 1, 0], .parseAcked, .userRead 0 9, .parseRead,
      .userRead 0 9] :=
  data_conserved (.inl rfl) fun wantedWords h => by
    obtain rfl : wantedWords = 2 := by simpa using h
    norm_num

/-- From `2 ^ 31` on the number of wanted words turns negative in `min`, and more is peeked at than
is stored. -/
theorem huge_wanted_not_conserved :
    ¬ Passes step Conserved (initial 2) [.look, .calcLen (2 ^ 31 + 1), .build fun _ => 0] := by
  intro h
  have hfailed : (runFrom step (initial 2) [.look, .calcLen (2 ^ 31 + 1), .build fun _ => 0]).map
      (·.failed) = some true := by
    rfl
  obtain ⟨t, hrun, ht⟩ := Option.map_eq_some_iff.mp hfailed
  have hok := (h.last hrun).1
  rw [ht] at hok
  cases hok

end GlipOsd.Jtag.Poll
