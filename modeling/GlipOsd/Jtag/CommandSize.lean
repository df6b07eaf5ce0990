import GlipOsd.Jtag.DrscanWrite
import GlipOsd.Jtag.Headers

/-! # The sizes of requests and commands

`poll_thread` lets the buffer of the request grow until the request fits, and `jtag_drscan_write` puts the command
together in a buffer of 1 MiB, piece by piece, with an assertion for each piece. What the two circular buffers hold in
an iteration, and what the target answers, is given with the iteration.
-/

namespace GlipOsd.Jtag.CommandSize
open CircularBuffer Memory Bytes
set_option autoImplicit false

/-! ## The buffer of a command -/

/-- `struct cmdbuf`; `buf` has the characters up to `pos`. -/
structure Cmdbuf where
  bufSize : ℕ
  buf : List UInt8

def cmdbufNew (bufSize : ℕ) : Cmdbuf := ⟨bufSize, []⟩

/-- `none` when the assertion fails. -/
def cmdbufAppend (cmdbuf : Cmdbuf) (data : List UInt8) : Option Cmdbuf :=
  if cmdbuf.buf.length + data.length ≤ cmdbuf.bufSize then some { cmdbuf with buf := cmdbuf.buf ++ data } else none

/-- The loop over the bytes of a field. -/
def appendBytes (cmdbuf : Cmdbuf) : List UInt8 → Option Cmdbuf
  | [] => some cmdbuf
  | b :: bs => (cmdbufAppend cmdbuf (hexByte b)).bind fun cmdbuf => appendBytes cmdbuf bs

def appendField (cmdbuf : Cmdbuf) (bytes : List UInt8) : Option Cmdbuf := do
  let cmdbuf ← cmdbufAppend cmdbuf (decimal (bytes.length * 8) ++ ascii " 0x")
  let cmdbuf ← appendBytes cmdbuf bytes.reverse
  cmdbufAppend cmdbuf (ascii " ")

/-- The loop over the request. -/
def appendFields (cmdbuf : Cmdbuf) (req : List UInt8) : Option Cmdbuf :=
  if req = [] then some cmdbuf
  else (appendField cmdbuf (req.take oocdMaxFieldSize)).bind fun cmdbuf =>
    appendFields cmdbuf (req.drop oocdMaxFieldSize)
termination_by req.length
decreasing_by
  have hpos := List.length_pos_of_ne_nil ‹_›
  rw [List.length_drop, oocdMaxFieldSize]
  omega

/-- `jtag_drscan_write` with each `cmdbuf_append`. -/
def drscanWrite (req : List UInt8) : Option (ℤ × List UInt8) := do
  let cmdbuf ← cmdbufAppend (cmdbufNew oocdCmdMaxlen) oocdCmdstart
  let cmdbuf ← appendFields cmdbuf req
  let cmdbuf ← cmdbufAppend cmdbuf oocdCmdend
  if cmdbuf.buf.length > oocdMaxLinesize then some (eoverflow, []) else some (0, cmdbuf.buf)

section Appends
variable {cmdbuf : Cmdbuf}

/-- One append behind another fails exactly if both together do. -/
theorem cmdbufAppend_append (cmdbuf : Cmdbuf) (xs ys : List UInt8) :
    ((cmdbufAppend cmdbuf xs).bind fun cmdbuf => cmdbufAppend cmdbuf ys) = cmdbufAppend cmdbuf (xs ++ ys) := by
  unfold cmdbufAppend
  rw [List.length_append]
  by_cases hxs : cmdbuf.buf.length + xs.length ≤ cmdbuf.bufSize
  · rw [if_pos hxs, Option.bind_some]
    simp only [List.length_append, Nat.add_assoc, List.append_assoc]
  · rw [if_neg hxs, Option.bind_none, if_neg (by omega)]

theorem cmdbufAppend_nil (h : cmdbuf.buf.length ≤ cmdbuf.bufSize) : cmdbufAppend cmdbuf [] = some cmdbuf := by
  rw [cmdbufAppend, if_pos (by simpa using h), List.append_nil]

/-- `f` appends `xs`, to a buffer that has not overflown. -/
def Appends (f : Cmdbuf → Option Cmdbuf) (xs : List UInt8) : Prop :=
  ∀ cmdbuf : Cmdbuf, cmdbuf.buf.length ≤ cmdbuf.bufSize → f cmdbuf = cmdbufAppend cmdbuf xs

theorem appends_append (xs : List UInt8) : Appends (fun cmdbuf => cmdbufAppend cmdbuf xs) xs := fun _ _ => rfl

theorem Appends.bind {f g : Cmdbuf → Option Cmdbuf} {xs ys : List UInt8} (hf : Appends f xs) (hg : Appends g ys) :
    Appends (fun cmdbuf => (f cmdbuf).bind g) (xs ++ ys) := by
  intro cmdbuf h
  show (f cmdbuf).bind g = _
  rw [← cmdbufAppend_append, hf cmdbuf h]
  cases happend : cmdbufAppend cmdbuf xs with
  | none => rfl
  | some cmdbuf' =>
    unfold cmdbufAppend at happend
    split_ifs at happend with hfits
    obtain rfl := Option.some.inj happend
    refine hg _ ?_
    rw [List.length_append]
    exact hfits

theorem appends_bytes (bytes : List UInt8) :
    Appends (fun cmdbuf => appendBytes cmdbuf bytes) (bytes.flatMap hexByte) := by
  induction bytes with
  | nil => exact fun cmdbuf h => (cmdbufAppend_nil h).symm
  | cons b bs ih => exact (appends_append (hexByte b)).bind ih

theorem appends_field (bytes : List UInt8) :
    Appends (fun cmdbuf => appendField cmdbuf bytes) (scanField bytes).text := by
  have hsize := appends_append (decimal (bytes.length * 8) ++ ascii " 0x")
  have hdigits := appends_bytes bytes.reverse
  have hspace := appends_append (ascii " ")
  have hall := hsize.bind (hdigits.bind hspace)
  rw [← List.append_assoc] at hall
  exact hall

theorem appends_fields (req : List UInt8) :
    Appends (fun cmdbuf => appendFields cmdbuf req) ((scanFields req).flatMap ScanField.text) := by
  induction req using scanFields.induct with
  | case1 =>
    intro cmdbuf h
    show appendFields cmdbuf [] = _
    rw [appendFields, if_pos rfl, scanFields_nil, List.flatMap_nil, cmdbufAppend_nil h]
  | case2 req hne ih =>
    have hall := (appends_field (req.take oocdMaxFieldSize)).bind ih
    intro cmdbuf h
    show appendFields cmdbuf req = _
    rw [appendFields, if_neg hne, scanFields_cons hne, List.flatMap_cons]
    exact hall cmdbuf h

/-- The assertions hold exactly if the whole command fits. -/
theorem drscanWrite_eq (req : List UInt8) : drscanWrite req = jtagDrscanWrite req := by
  have hall := ((appends_append oocdCmdstart).bind (appends_fields req)).bind (appends_append oocdCmdend)
  have hwrite : drscanWrite req = (cmdbufAppend (cmdbufNew oocdCmdMaxlen) (command (scanFields req))).bind fun cmdbuf =>
      if cmdbuf.buf.length > oocdMaxLinesize then some (eoverflow, []) else some (0, cmdbuf.buf) := by
    rw [command, ← hall (cmdbufNew oocdCmdMaxlen) (Nat.zero_le _)]
    simp only [drscanWrite, Option.bind_eq_bind, Option.bind_assoc]
  rw [hwrite, jtagDrscanWrite, cmdbufAppend, cmdbufNew, List.length_nil, Nat.zero_add]
  by_cases hle : (command (scanFields req)).length ≤ oocdCmdMaxlen
  · rw [if_pos hle, if_neg (by omega)]
    rfl
  · rw [if_neg hle, if_pos (by omega)]
    rfl

end Appends

/-! ## The size of a request -/

/-- `transfer_len_bytes` of `build_jtag_req` -/
def transferLenBytes (ww wrWords rdWords : ℕ) : ℕ :=
  (Util.toUint (Util.max wrWords rdWords) + 4) % 2 ^ 32 * ww % 2 ^ 32

/-- The words of a transfer are in the buffers, or they are the same huge number in both directions: a number of wanted
words that is negative as an `int`. -/
def Counted (ww wrWords rdWords : ℕ) : Prop :=
  wrWords * ww ≤ 2 ^ 16 ∧ rdWords * ww ≤ 2 ^ 16 ∨ wrWords = rdWords ∧ wrWords < 2 ^ 32

theorem toUint_lt (x : ℤ) : Util.toUint x < 2 ^ 32 := by
  unfold Util.toUint
  omega

theorem calcPayloadLen_cases (wantedWords : ℕ) {availWr availRd : ℕ} (hwr : availWr < 2 ^ 31) (hrd : availRd < 2 ^ 31) :
    (calcPayloadLen wantedWords availWr availRd).1 ≤ availWr ∧ (calcPayloadLen wantedWords availWr availRd).2 ≤ availRd ∨
      (calcPayloadLen wantedWords availWr availRd).1 = (calcPayloadLen wantedWords availWr availRd).2 := by
  obtain ⟨hlt, hint⟩ | ⟨hge, hint⟩ := Util.toInt_cases wantedWords
  · -- only the `int` counts
    have hsame : calcPayloadLen wantedWords availWr availRd =
        calcPayloadLen (wantedWords % 2 ^ 32) availWr availRd := by
      simp only [calcPayloadLen, Util.min, hint, Util.toInt_of_lt hlt]
    rw [hsame]
    exact .inl (calcPayloadLen_le hlt hwr hrd)
  · right
    have hmax : max availWr availRd < 2 ^ 31 := max_lt hwr hrd
    have hneg : Util.toInt wantedWords < 0 := by omega
    have hpayload : Util.min wantedWords (Util.toUint (Util.max availWr availRd)) = Util.toInt wantedWords := by
      rw [Util.max_eq hwr hrd, Util.toUint_natCast (by omega), Util.min, Util.toInt_of_lt hmax, if_neg (by omega)]
    have hback : Util.toInt (Util.toUint (Util.toInt wantedWords)) = Util.toInt wantedWords :=
      Util.toInt_toUint (by omega) (by omega)
    have hmin (avail : ℕ) (havail : avail < 2 ^ 31) :
        Util.min avail (Util.toUint (Util.toInt wantedWords)) = Util.toInt wantedWords := by
      rw [Util.min, hback, Util.toInt_of_lt havail, if_pos (by omega)]
    simp only [calcPayloadLen, hpayload, hmin _ hwr, hmin _ hrd]

/-- Whatever is wanted, and whatever the levels are. -/
theorem counted_words {ww : ℕ} (wantedWords : ℕ) {fillLevel freeLevel : ℕ} (hfill : fillLevel ≤ bufferSize)
    (hfree : freeLevel ≤ bufferSize) :
    Counted ww (calcPayloadLen wantedWords (fillLevel / ww % 2 ^ 32) (freeLevel / ww % 2 ^ 32)).1
      (calcPayloadLen wantedWords (fillLevel / ww % 2 ^ 32) (freeLevel / ww % 2 ^ 32)).2 := by
  have hsize := bufferSize_eq
  have havail (level : ℕ) (hlevel : level ≤ bufferSize) :
      level / ww % 2 ^ 32 < 2 ^ 31 ∧ level / ww % 2 ^ 32 * ww ≤ 2 ^ 16 := by
    have hdiv : level / ww ≤ level := Nat.div_le_self _ _
    have hmul : level / ww * ww ≤ level := Nat.div_mul_le_self _ _
    rw [Nat.mod_eq_of_lt (by omega)]
    omega
  obtain ⟨hwr, hwrBytes⟩ := havail fillLevel hfill
  obtain ⟨hrd, hrdBytes⟩ := havail freeLevel hfree
  have hlt : (calcPayloadLen wantedWords (fillLevel / ww % 2 ^ 32) (freeLevel / ww % 2 ^ 32)).1 < 2 ^ 32 := by
    simp only [calcPayloadLen]
    exact toUint_lt _
  obtain ⟨hle, hle'⟩ | hsame := calcPayloadLen_cases wantedWords hwr hrd
  · exact .inl ⟨(Nat.mul_le_mul_right ww hle).trans hwrBytes, (Nat.mul_le_mul_right ww hle').trans hrdBytes⟩
  · exact .inr ⟨hsame, hlt⟩

/-- A transfer has room for its data, its header and its tail, and is not longer than a buffer with these. -/
theorem transferLenBytes_bounds {ww wrWords rdWords : ℕ} (hww : 1 ≤ ww ∧ ww ≤ 8191) (h : Counted ww wrWords rdWords)
    (hwr : wrWords * ww % 2 ^ 32 ≤ 2 ^ 16) :
    wrWords * ww % 2 ^ 32 + 4 * ww ≤ transferLenBytes ww wrWords rdWords ∧
      transferLenBytes ww wrWords rdWords ≤ 2 ^ 16 + 4 * ww := by
  obtain ⟨hwrBytes, hrdBytes⟩ | ⟨rfl, hlt⟩ := h
  · have hwrLe : wrWords ≤ wrWords * ww := Nat.le_mul_of_pos_right _ hww.1
    have hrdLe : rdWords ≤ rdWords * ww := Nat.le_mul_of_pos_right _ hww.1
    have hmax : max wrWords rdWords * ww ≤ 2 ^ 16 ∧ wrWords * ww ≤ max wrWords rdWords * ww := by
      obtain hle | hle := Nat.le_total wrWords rdWords
      · rw [Nat.max_eq_right hle]
        exact ⟨hrdBytes, Nat.mul_le_mul_right _ hle⟩
      · rw [Nat.max_eq_left hle]
        exact ⟨hwrBytes, le_rfl⟩
    have hwords : max wrWords rdWords ≤ 2 ^ 16 := Nat.max_le.mpr ⟨by omega, by omega⟩
    have hmod : (max wrWords rdWords + 4) % 2 ^ 32 = max wrWords rdWords + 4 := Nat.mod_eq_of_lt (by omega)
    have hlen : transferLenBytes ww wrWords rdWords = max wrWords rdWords * ww + 4 * ww := by
      rw [transferLenBytes, Util.max_eq (by omega) (by omega), Util.toUint_natCast (by omega), hmod, Nat.add_mul]
      exact Nat.mod_eq_of_lt (by omega)
    omega
  · have hback : Util.toUint (Util.max wrWords wrWords) = wrWords := by
      rw [Util.max, ite_self]
      have hcases := Util.toInt_cases wrWords
      unfold Util.toUint
      omega
    have hlen : transferLenBytes ww wrWords wrWords = (wrWords * ww + 4 * ww) % 2 ^ 32 := by
      rw [transferLenBytes, hback, Nat.mod_mul_mod, Nat.add_mul]
    omega

/-- A request for which there is room is built with its full length, unless its data cannot be peeked at. -/
theorem build_spec {ctx : Ctx} {w : List UInt8} (hww : 1 ≤ ctx.targetWordWidth ∧ ctx.targetWordWidth ≤ 8191)
    (hrep : Rep 16 ctx.writeBuf w) (alloc : Alloc) {wrWords rdWords reqSize : ℕ}
    (h : Counted ctx.targetWordWidth wrWords rdWords)
    (hroom : transferLenBytes ctx.targetWordWidth wrWords rdWords ≤ reqSize) :
    (buildJtagReq ctx alloc wrWords rdWords reqSize).1 = -1 ∨
      (buildJtagReq ctx alloc wrWords rdWords reqSize).1 = (buildJtagReq ctx alloc wrWords rdWords reqSize).2.1.length ∧
        (buildJtagReq ctx alloc wrWords rdWords reqSize).2.1.length ≤ 2 ^ 16 + 4 * ctx.targetWordWidth := by
  have hlen : toBytes ctx ((Util.toUint (Util.max wrWords rdWords) + 4) % 2 ^ 32) =
      transferLenBytes ctx.targetWordWidth wrWords rdWords := rfl
  simp only [buildJtagReq, hlen]
  rw [if_neg (by omega)]
  split
  · exact .inl rfl
  · next p buf hpeek =>
    right
    have hfits : w.length ≤ 2 ^ 16 := hrep.size_eq ▸ hrep.fits
    have hstored : toBytes ctx wrWords ≤ w.length := by
      by_contra hc
      rw [cbufPeek_refused hrep alloc (by omega)] at hpeek
      cases hpeek
    obtain ⟨hge, hle⟩ := transferLenBytes_bounds hww h (hstored.trans hfits)
    have hdata : ((p.map fun p => cbufLoad buf p (toBytes ctx wrWords)).getD []).length ≤ toBytes ctx wrWords := by
      cases p with
      | none => exact Nat.zero_le _
      | some p => exact (length_slice_le _ _ _).1
    have hsmall : 2 ^ 16 + 4 * ctx.targetWordWidth < 2 ^ 31 := by omega
    have hroom : 2 * ctx.targetWordWidth + toBytes ctx wrWords ≤ toBytes ctx wrWords + 4 * ctx.targetWordWidth := by
      omega
    have hzeros : (List.replicate (transferLenBytes ctx.targetWordWidth wrWords rdWords) (0 : UInt8)).length =
        transferLenBytes ctx.targetWordWidth wrWords rdWords := List.length_replicate
    have hblock := ((Nat.add_le_add_left hdata _).trans (hroom.trans hge)).trans hzeros.ge
    have hreq := (memcpy_request (length_copyToWord ctx wrWords) (length_copyToWord ctx rdWords) hblock).1
    rw [hzeros] at hreq
    dsimp only
    rw [hreq]
    exact ⟨Util.toInt_of_lt (hle.trans_lt hsmall), hle⟩

/-! ## The loop that builds a request -/

theorem lt_growBuf {n : ℕ} (h : 1 ≤ n) : n < growBuf n := by
  unfold growBuf
  split_ifs <;> omega

/-- The inner loop of `poll_thread`, for at most `n` turns: what `build_jtag_req` returns at last, the request, and the
size of its buffer. `ctx bufSize` is what the turn with a buffer of this size finds. -/
def buildLoop (ctx : ℕ → Ctx) (alloc : Alloc) (wrWords rdWords : ℕ) : ℕ → ℕ → Option (ℤ × List UInt8 × ℕ)
  | 0, _ => none
  | n + 1, bufSize =>
    let r := buildJtagReq (ctx bufSize) alloc wrWords rdWords bufSize
    if r.1 = enomem then buildLoop ctx alloc wrWords rdWords n (growBuf bufSize) else some (r.1, r.2.1, bufSize)

/-- The request is ready, in a buffer that is large enough, or its data could not be peeked at. -/
structure Built (ww wrWords rdWords : ℕ) (rv : ℤ) (req : List UInt8) (bufSize : ℕ) : Prop where
  room : transferLenBytes ww wrWords rdWords ≤ bufSize
  request : rv = -1 ∨ rv = req.length ∧ req.length ≤ 2 ^ 16 + 4 * ww

theorem buildLoop_ends {ctx : ℕ → Ctx} {ww : ℕ} (hww : 1 ≤ ww ∧ ww ≤ 8191)
    (hctx : ∀ n, (ctx n).targetWordWidth = ww ∧ ∃ w, Rep 16 (ctx n).writeBuf w) (alloc : Alloc) {wrWords rdWords : ℕ}
    (h : Counted ww wrWords rdWords) {bufSize : ℕ} (hpos : 1 ≤ bufSize) :
    ∃ n rv req bufSize', buildLoop ctx alloc wrWords rdWords n bufSize = some (rv, req, bufSize') ∧
      Built ww wrWords rdWords rv req bufSize' := by
  induction hleft : transferLenBytes ww wrWords rdWords - bufSize using Nat.strong_induction_on generalizing bufSize with
  | _ left ih =>
    obtain ⟨hwidth, w, hrep⟩ := hctx bufSize
    by_cases hroom : transferLenBytes ww wrWords rdWords ≤ bufSize
    · have hspec := build_spec (hwidth ▸ hww) hrep alloc (hwidth ▸ h) (hwidth ▸ hroom)
      rw [hwidth] at hspec
      have hne : (buildJtagReq (ctx bufSize) alloc wrWords rdWords bufSize).1 ≠ enomem := by
        have hneg : enomem = -12 := rfl
        omega
      exact ⟨1, _, _, bufSize, if_neg hne, hroom, hspec⟩
    · have hgrows := lt_growBuf hpos
      obtain ⟨n, rv, req, bufSize', hloop, hbuilt⟩ := ih _ (by omega) (hpos.trans hgrows.le) rfl
      have hfull : (buildJtagReq (ctx bufSize) alloc wrWords rdWords bufSize).1 = enomem := by
        have hlen : toBytes (ctx bufSize) ((Util.toUint (Util.max wrWords rdWords) + 4) % 2 ^ 32) =
            transferLenBytes ww wrWords rdWords := by rw [toBytes, hwidth, transferLenBytes]
        simp only [buildJtagReq, hlen]
        rw [if_pos (by omega)]
      refine ⟨n + 1, rv, req, bufSize', ?_, hbuilt⟩
      rw [buildLoop, if_pos hfull, hloop]

/-! ## The thread -/

/-- What an iteration of the loop of `poll_thread` finds and gets: the two levels that `calc_payload_len` reads, what
the turns of the inner loop find, and the two counters of the answer. -/
structure Round where
  fillLevel : ℕ
  freeLevel : ℕ
  ctx : ℕ → Ctx
  alloc : Alloc
  ackedWords : ℕ
  readWords : ℕ

/-- The buffers have 64 KiB, and `write_buf` stores some bytes. -/
structure Round.Possible (ww : ℕ) (r : Round) : Prop where
  fill : r.fillLevel ≤ bufferSize
  free : r.freeLevel ≤ bufferSize
  stored : ∀ n, (r.ctx n).targetWordWidth = ww ∧ ∃ w, Rep 16 (r.ctx n).writeBuf w

/-- `wr_words` and `rd_words` -/
def Round.words (r : Round) (ww wantedWords : ℕ) : ℕ × ℕ :=
  calcPayloadLen wantedWords (r.fillLevel / ww % 2 ^ 32) (r.freeLevel / ww % 2 ^ 32)

/-- What `poll_thread` keeps from one iteration to the next. -/
structure Thread where
  wantedWords : ℕ
  bufSize : ℕ

/-- The states in front of an iteration; a transfer that is not built ends the thread. -/
inductive Reaches (undef : ℕ → ℤ) (ww minWantedWords : ℕ) : Thread → Prop
  | start : Reaches undef ww minWantedWords ⟨minWantedWords, (Poll.maxPayloadWords + 4) * 2⟩
  | round {t : Thread} {r : Round} {n : ℕ} {rv : ℤ} {req : List UInt8} {bufSize : ℕ}
      (h : Reaches undef ww minWantedWords t) (hr : r.Possible ww)
      (hloop : buildLoop r.ctx r.alloc (r.words ww t.wantedWords).1 (r.words ww t.wantedWords).2 n t.bufSize =
        some (rv, req, bufSize)) (hrv : 0 ≤ rv) :
      Reaches undef ww minWantedWords ⟨Headers.nextWanted undef ww minWantedWords t.wantedWords
        (r.words ww t.wantedWords).1 (r.words ww t.wantedWords).2 r.ackedWords r.readWords, bufSize⟩

section Thread
variable {undef : ℕ → ℤ} {ww minWantedWords : ℕ} {t : Thread}

theorem buildLoop_grows {ctx : ℕ → Ctx} {alloc : Alloc} {wrWords rdWords n bufSize : ℕ} {rv : ℤ} {req : List UInt8}
    {bufSize' : ℕ} (hpos : 1 ≤ bufSize)
    (h : buildLoop ctx alloc wrWords rdWords n bufSize = some (rv, req, bufSize')) : bufSize ≤ bufSize' := by
  induction n generalizing bufSize with
  | zero => cases h
  | succ n ih =>
    have hgrows := lt_growBuf hpos
    rw [buildLoop] at h
    split_ifs at h
    · exact hgrows.le.trans (ih (hpos.trans hgrows.le) h)
    · obtain ⟨-, -, rfl⟩ : _ ∧ _ ∧ bufSize = bufSize' := by simpa using h
      exact le_rfl

theorem Reaches.bufSize_pos (h : Reaches undef ww minWantedWords t) : 1 ≤ t.bufSize := by
  induction h with
  | start => norm_num [Poll.maxPayloadWords]
  | round h hr hloop hrv ih => exact ih.trans (buildLoop_grows ih hloop)

theorem drscanWrite_fits {req : List UInt8} (hww : ww ≤ 8191) (h : req.length ≤ 2 ^ 16 + 4 * ww) :
    drscanWrite req = some (0, command (scanFields req)) := by
  have hlen := length_command_le req
  rw [drscanWrite_eq]
  apply jtagDrscanWrite_of_le
  rw [oocdCmdMaxlen]
  omega

/-- With a number of wanted words that is an `int`, and while what has been counted stays stored, the data can be
peeked at. -/
theorem request_built (hww : 1 ≤ ww ∧ ww ≤ 8191) {r : Round} (hr : r.Possible ww) {wantedWords : ℕ}
    (hwanted : wantedWords < 2 ^ 31) {fresh : ℕ → UInt8}
    (hstored : ∀ n, TmpRep (r.ctx n).writeBuf ∧ r.fillLevel ≤ cbufFillLevel (r.ctx n).writeBuf) {n bufSize : ℕ} {rv : ℤ}
    {req : List UInt8} {bufSize' : ℕ}
    (hloop : buildLoop r.ctx (some fresh) (r.words ww wantedWords).1 (r.words ww wantedWords).2 n bufSize =
      some (rv, req, bufSize')) : rv = req.length := by
  have hfill := hr.fill
  have hfree := hr.free
  have hsize := bufferSize_eq
  have havail (level : ℕ) : level / ww % 2 ^ 32 ≤ level ∧ level / ww % 2 ^ 32 * ww ≤ level :=
    ⟨(Nat.mod_le _ _).trans (Nat.div_le_self _ _),
      (Nat.mul_le_mul_right _ (Nat.mod_le _ _)).trans (Nat.div_mul_le_self _ _)⟩
  obtain ⟨hwr, hwrBytes⟩ := havail r.fillLevel
  obtain ⟨hrd, hrdBytes⟩ := havail r.freeLevel
  have hle := calcPayloadLen_le hwanted (by omega : r.fillLevel / ww % 2 ^ 32 < 2 ^ 31)
    (by omega : r.freeLevel / ww % 2 ^ 32 < 2 ^ 31)
  have hwrWords : (r.words ww wantedWords).1 * ww ≤ r.fillLevel := (Nat.mul_le_mul_right ww hle.1).trans hwrBytes
  have hrdWords : (r.words ww wantedWords).2 * ww ≤ r.freeLevel := (Nat.mul_le_mul_right ww hle.2).trans hrdBytes
  induction n generalizing bufSize with
  | zero => cases hloop
  | succ n ih =>
    obtain ⟨hwidth, w, hrep⟩ := hr.stored bufSize
    obtain ⟨htmp, hfilled⟩ := hstored bufSize
    rw [hrep.fillLevel_eq] at hfilled
    obtain hfull | ⟨req', buf, hreq, -⟩ := buildJtagReq_request (r.words ww wantedWords).1 (r.words ww wantedWords).2
      (by rw [hwidth]; omega) hrep htmp (by rw [hwidth]; omega) (by rw [hwidth]; omega) fresh bufSize
    · rw [buildLoop, hfull, if_pos rfl] at hloop
      exact ih hloop
    · have hne : (req'.length : ℤ) ≠ enomem := by
        have hneg : enomem = -12 := rfl
        omega
      rw [buildLoop, hreq, if_neg hne] at hloop
      obtain ⟨rfl, rfl, -⟩ : (req'.length : ℤ) = rv ∧ req' = req ∧ _ := by simpa using hloop
      rfl

/-- **Commands always fit.** For words of 1 to 8191 bytes, whatever the target is and answers and whatever the buffers
store, in every iteration the buffer of the request has grown large enough after some turns, and a request that is
built is encoded with none of the assertions failing. -/
theorem commands_fit (hww : 1 ≤ ww ∧ ww ≤ 8191) (h : Reaches undef ww minWantedWords t) {r : Round}
    (hr : r.Possible ww) :
    ∃ n rv req bufSize,
      buildLoop r.ctx r.alloc (r.words ww t.wantedWords).1 (r.words ww t.wantedWords).2 n t.bufSize =
        some (rv, req, bufSize) ∧
      transferLenBytes ww (r.words ww t.wantedWords).1 (r.words ww t.wantedWords).2 ≤ bufSize ∧
      (0 ≤ rv → rv = req.length ∧ drscanWrite req = some (0, command (scanFields req))) := by
  obtain ⟨n, rv, req, bufSize, hloop, hbuilt⟩ := buildLoop_ends hww hr.stored r.alloc
    (counted_words t.wantedWords hr.fill hr.free) h.bufSize_pos
  refine ⟨n, rv, req, bufSize, hloop, hbuilt.room, fun hrv => ?_⟩
  obtain hfailed | ⟨hlen, hle⟩ := hbuilt.request
  · omega
  · exact ⟨hlen, drscanWrite_fits hww.2 hle⟩

end Thread

/-- Empty buffers, all of `read_buf` free, and all the memory that is asked for. -/
def emptyRound (ww : ℕ) : Round := ⟨0, bufferSize, fun _ => gbJtagNew ww, some fun _ => 0, 0, 0⟩

theorem emptyRound_possible (ww : ℕ) : (emptyRound ww).Possible ww :=
  ⟨Nat.zero_le _, le_rfl, fun _ => ⟨rfl, [], (Headers.rep_gbJtagNew ww).1⟩⟩

/-- The widest words, and as many wanted as an `int` can count: the request is built, and its command fits. -/
theorem widest_command_fits :
    ∃ n rv req bufSize,
      buildLoop (emptyRound 8191).ctx (emptyRound 8191).alloc ((emptyRound 8191).words 8191 (2 ^ 30)).1
        ((emptyRound 8191).words 8191 (2 ^ 30)).2 n ((Poll.maxPayloadWords + 4) * 2) = some (rv, req, bufSize) ∧
      transferLenBytes 8191 ((emptyRound 8191).words 8191 (2 ^ 30)).1 ((emptyRound 8191).words 8191 (2 ^ 30)).2 ≤
        bufSize ∧
      rv = req.length ∧ drscanWrite req = some (0, command (scanFields req)) := by
  have hpossible := emptyRound_possible 8191
  obtain ⟨n, rv, req, bufSize, hloop, hroom, hfits⟩ :=
    commands_fit (by decide) (.start : Reaches (fun _ => 0) 8191 (2 ^ 30) _) hpossible
  have hbuilt : rv = req.length :=
    request_built (by decide) hpossible (by norm_num) (fun _ => ⟨(Headers.rep_gbJtagNew 8191).2.2, Nat.zero_le _⟩) hloop
  exact ⟨n, rv, req, bufSize, hloop, hroom, hfits (hbuilt ▸ Int.natCast_nonneg _)⟩

end GlipOsd.Jtag.CommandSize
