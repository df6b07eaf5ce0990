import GlipOsd.CircularBuffer.Queue
import GlipOsd.Foundations.Bytes
import GlipOsd.Util

/-! # The host side of the JTAG backend

The functions of `backend_jtag.c` around the two circular buffers: the calls of the user and those
with which `poll_thread` sizes, builds and parses a transfer. `wsize_t` is a 32 bit type.
-/

namespace GlipOsd.Jtag
open CircularBuffer Memory Bytes
set_option autoImplicit false

/-- `BUFFER_SIZE` -/
def bufferSize : ℕ := 64 * 1024

theorem bufferSize_eq : bufferSize = 2 ^ 16 := by norm_num [bufferSize]

/-- The part of `struct glip_backend_ctx` that is used here. -/
structure Ctx where
  targetWordWidth : ℕ
  writeBuf : Cbuf
  readBuf : Cbuf
  deriving DecidableEq

/-- The context behind `gb_jtag_new` and the discovery of the target. -/
def gbJtagNew (targetWordWidth : ℕ) : Ctx := ⟨targetWordWidth, cbufInit bufferSize, cbufInit bufferSize⟩

/-! ## The calls of the user -/

/-- `gb_jtag_read`: the bytes read, `none` for an error. -/
def gbJtagRead (ctx : Ctx) (channel size : ℕ) : Option (List UInt8) × Ctx :=
  if channel ≠ 0 then (none, ctx)
  else
    let sizeReadReq := Util.toSize (Util.min (cbufFillLevel ctx.readBuf) size)
    let r := cbufRead ctx.readBuf sizeReadReq
    (r.1.toOption, { ctx with readBuf := r.2 })

/-- `gb_jtag_write`: the number of bytes written, `none` for an error. -/
def gbJtagWrite (ctx : Ctx) (channel : ℕ) (data : List UInt8) : Option ℕ × Ctx :=
  if channel ≠ 0 then (none, ctx)
  else
    let bufSizeFree := cbufFreeLevel ctx.writeBuf % 2 ^ 32
    let sizeWritten := if data.length > bufSizeFree then bufSizeFree else data.length
    (some sizeWritten, { ctx with writeBuf := (cbufWrite ctx.writeBuf (data.take sizeWritten)).2 })

/-! ## Sizes and words -/

def toWords (ctx : Ctx) (bytes : ℕ) : ℕ := bytes / ctx.targetWordWidth % 2 ^ 32

/-- The product is formed in 32 bits. -/
def toBytes (ctx : Ctx) (words : ℕ) : ℕ := words * ctx.targetWordWidth % 2 ^ 32

/-- The cases of the source fall through, so that the bytes of a word are stored least significant
first. -/
def copyToWord (ctx : Ctx) (value : ℕ) : List UInt8 :=
  let wordWidth := ctx.targetWordWidth
  if 1 ≤ wordWidth ∧ wordWidth ≤ 4 then leBytes wordWidth value
  else (List.replicate wordWidth 0).set (wordWidth - 4) (UInt8.ofNat value)

def copyFromWord (ctx : Ctx) (src : List UInt8) (pos : ℕ) : ℕ :=
  let wordWidth := ctx.targetWordWidth
  let cp := Util.toSize (Util.min wordWidth 4)
  leValue (slice src (pos + (wordWidth - cp)) cp)

/-- `avail_wr` of `calc_payload_len` -/
def availWr (ctx : Ctx) : ℕ := toWords ctx (cbufFillLevel ctx.writeBuf)

/-- `avail_rd` of `calc_payload_len` -/
def availRd (ctx : Ctx) : ℕ := toWords ctx (cbufFreeLevel ctx.readBuf)

/-- `calc_payload_len` with the two levels it has read: `wr_words` and `rd_words`. -/
def calcPayloadLen (wantedWords availWr availRd : ℕ) : ℕ × ℕ :=
  let payloadLen := Util.toUint (Util.min wantedWords (Util.toUint (Util.max availWr availRd)))
  (Util.toUint (Util.min availWr payloadLen), Util.toUint (Util.min availRd payloadLen))

def growBuf (currentSize : ℕ) : ℕ :=
  if currentSize < 32 * 1024 then currentSize * 2 else currentSize + 32 * 1024

/-! ## Transfers -/

/-- `-ENOMEM` -/
def enomem : ℤ := -12

/-- `build_jtag_req`: what it returns, and the bytes of `req` that are to be transferred. -/
def buildJtagReq (ctx : Ctx) (alloc : Alloc) (wrWords rdWords reqSize : ℕ) :
    ℤ × List UInt8 × Ctx :=
  let wordWidth := ctx.targetWordWidth
  let wrBytes := toBytes ctx wrWords
  let payloadLenWords := Util.toUint (Util.max wrWords rdWords)
  let transferLenWords := (payloadLenWords + 4) % 2 ^ 32
  let transferLenBytes := toBytes ctx transferLenWords
  if transferLenBytes > reqSize then (enomem, [], ctx)
  else
    let req := List.replicate transferLenBytes 0
    let req := memcpy req 0 (copyToWord ctx wrWords)
    let req := memcpy req wordWidth (copyToWord ctx rdWords)
    match cbufPeek ctx.writeBuf alloc wrBytes with
    | (.error _, buf) => (-1, [], { ctx with writeBuf := buf })
    | (.ok p, buf) =>
      let writeBufData := (p.map fun p => cbufLoad buf p wrBytes).getD []
      (Util.toInt transferLenBytes, memcpy req (2 * wordWidth) writeBufData,
        { ctx with writeBuf := buf })

/-- The two counters in `parse_jtag_resp`: `acked_words` and `read_words`. -/
def respWords (ctx : Ctx) (resp : List UInt8) (respSize : ℕ) : ℕ × ℕ :=
  (copyFromWord ctx resp (respSize - ctx.targetWordWidth * 2),
    copyFromWord ctx resp (respSize - ctx.targetWordWidth))

/-- `parse_jtag_resp` up to the discarding of the acknowledged words. -/
def parseAcked (ctx : Ctx) (ackedWords : ℕ) : Except Errno Unit × Ctx :=
  let r := cbufDiscard ctx.writeBuf (toBytes ctx ackedWords)
  (r.1, { ctx with writeBuf := r.2 })

def respData (ctx : Ctx) (resp : List UInt8) (readWords : ℕ) : List UInt8 :=
  slice resp (ctx.targetWordWidth * 2) (toBytes ctx readWords)

/-- The rest of `parse_jtag_resp`. -/
def parseRead (ctx : Ctx) (resp : List UInt8) (readWords : ℕ) : Except Errno Unit × Ctx :=
  let r := cbufWrite ctx.readBuf (respData ctx resp readWords)
  (r.1, { ctx with readBuf := r.2 })

/-! ## What the functions do

From here on words have at most four bytes, and numbers of bytes are far below `2 ^ 32`.
-/

section Specs
variable {ctx : Ctx} {w r : List UInt8}

theorem toWords_mul_le (ctx : Ctx) (bytes : ℕ) : toWords ctx bytes * ctx.targetWordWidth ≤ bytes :=
  (Nat.mul_le_mul_right _ (Nat.mod_le _ _)).trans (Nat.div_mul_le_self _ _)

theorem availWr_mul_le {k : ℕ} (h : Rep k ctx.writeBuf w) :
    availWr ctx * ctx.targetWordWidth ≤ w.length :=
  (toWords_mul_le ctx _).trans h.fillLevel_eq.le

theorem availRd_mul_le {k : ℕ} (h : Rep k ctx.readBuf r) :
    availRd ctx * ctx.targetWordWidth ≤ ctx.readBuf.size - r.length :=
  (toWords_mul_le ctx _).trans h.freeLevel_eq.le

theorem toBytes_eq {words : ℕ} (h : words * ctx.targetWordWidth < 2 ^ 32) :
    toBytes ctx words = words * ctx.targetWordWidth := Nat.mod_eq_of_lt h

theorem copyToWord_eq (hww : 1 ≤ ctx.targetWordWidth ∧ ctx.targetWordWidth ≤ 4) (value : ℕ) :
    copyToWord ctx value = leBytes ctx.targetWordWidth value := if_pos hww

theorem copyFromWord_eq (hww : ctx.targetWordWidth ≤ 4) (src : List UInt8) (pos : ℕ) :
    copyFromWord ctx src pos = leValue (slice src pos ctx.targetWordWidth) := by
  have hcp : Util.toSize (Util.min ctx.targetWordWidth 4) = ctx.targetWordWidth := by
    have hmin : min ctx.targetWordWidth 4 = ctx.targetWordWidth := Nat.min_eq_left hww
    rw [Util.min_eq (by omega) (by omega), hmin, Util.toSize_natCast (by omega)]
  simp only [copyFromWord, hcp, Nat.sub_self, Nat.add_zero]

/-- Each direction is limited by what is wanted and by its own buffer, as long as no conversion to
`int` interferes. -/
theorem calcPayloadLen_eq {wantedWords availWr availRd : ℕ} (hwanted : wantedWords < 2 ^ 31)
    (hwr : availWr < 2 ^ 31) (hrd : availRd < 2 ^ 31) :
    calcPayloadLen wantedWords availWr availRd = (min availWr wantedWords, min availRd wantedWords) := by
  have hmax : max availWr availRd < 2 ^ 31 := max_lt hwr hrd
  have hlen : min wantedWords (max availWr availRd) < 2 ^ 31 := min_lt_of_left_lt hwanted
  have hpayload : Util.toUint (Util.min wantedWords (Util.toUint (Util.max availWr availRd))) =
      min wantedWords (max availWr availRd) := by
    rw [Util.max_eq hwr hrd, Util.toUint_natCast (hmax.trans (by norm_num)), Util.min_eq hwanted hmax,
      Util.toUint_natCast (hlen.trans (by norm_num))]
  have hmin : ∀ avail ≤ max availWr availRd,
      Util.toUint (Util.min avail (min wantedWords (max availWr availRd))) = min avail wantedWords := by
    intro avail havail
    have heq : min avail (min wantedWords (max availWr availRd)) = min avail wantedWords := by
      rw [← min_assoc, Nat.min_eq_left ((Nat.min_le_left _ _).trans havail)]
    rw [Util.min_eq (havail.trans_lt hmax) hlen, heq, Util.toUint_natCast (by omega)]
  simp only [calcPayloadLen, hpayload, hmin _ (le_max_left _ _), hmin _ (le_max_right _ _)]

/-- No more words are to be written or read than the buffers have and take. -/
theorem calcPayloadLen_le {wantedWords availWr availRd : ℕ} (hwanted : wantedWords < 2 ^ 31)
    (hwr : availWr < 2 ^ 31) (hrd : availRd < 2 ^ 31) :
    (calcPayloadLen wantedWords availWr availRd).1 ≤ availWr ∧
      (calcPayloadLen wantedWords availWr availRd).2 ≤ availRd := by
  rw [calcPayloadLen_eq hwanted hwr hrd]
  exact ⟨Nat.min_le_left _ _, Nat.min_le_left _ _⟩

theorem availWr_eq (h : Rep 16 ctx.writeBuf w) : availWr ctx = w.length / ctx.targetWordWidth := by
  have hfits : w.length ≤ 2 ^ 16 := h.size_eq ▸ h.fits
  have hdiv : w.length / ctx.targetWordWidth ≤ w.length := Nat.div_le_self _ _
  rw [availWr, toWords, h.fillLevel_eq, Nat.mod_eq_of_lt (by omega)]

theorem availRd_eq (h : Rep 16 ctx.readBuf r) :
    availRd ctx = (2 ^ 16 - r.length) / ctx.targetWordWidth := by
  have hdiv : (2 ^ 16 - r.length) / ctx.targetWordWidth ≤ 2 ^ 16 - r.length := Nat.div_le_self _ _
  rw [availRd, toWords, h.freeLevel_eq, h.size_eq, Nat.mod_eq_of_lt (by omega)]

theorem calcPayloadLen_avail (hw : Rep 16 ctx.writeBuf w) (hr : Rep 16 ctx.readBuf r) {wantedWords : ℕ}
    (hwanted : wantedWords < 2 ^ 31) : calcPayloadLen wantedWords (availWr ctx) (availRd ctx) =
      (min (w.length / ctx.targetWordWidth) wantedWords,
        min ((2 ^ 16 - r.length) / ctx.targetWordWidth) wantedWords) := by
  have hfits : w.length ≤ 2 ^ 16 := hw.size_eq ▸ hw.fits
  have hwrLe : w.length / ctx.targetWordWidth ≤ w.length := Nat.div_le_self _ _
  have hrdLe : (2 ^ 16 - r.length) / ctx.targetWordWidth ≤ 2 ^ 16 - r.length := Nat.div_le_self _ _
  rw [availWr_eq hw, availRd_eq hr, calcPayloadLen_eq hwanted (by omega) (by omega)]

theorem gbJtagWrite_ok {k : ℕ} (h : Rep k ctx.writeBuf w) (ht : TmpRep ctx.writeBuf) (channel : ℕ)
    (data : List UInt8) :
    ∃ written buf, gbJtagWrite ctx channel data = (written, { ctx with writeBuf := buf }) ∧
      Rep k buf (w ++ data.take (written.getD 0)) ∧ TmpRep buf := by
  by_cases hchannel : channel ≠ 0
  · refine ⟨none, ctx.writeBuf, if_pos hchannel, ?_, ht⟩
    rwa [Option.getD_none, List.take_zero, List.append_nil]
  · have hsmall := ht.small
    have hfree : cbufFreeLevel ctx.writeBuf % 2 ^ 32 = ctx.writeBuf.size - w.length := by
      rw [h.freeLevel_eq, Nat.mod_eq_of_lt (by omega)]
    have hfits := h.fits
    simp only [gbJtagWrite, if_neg hchannel, hfree]
    refine ⟨_, _, rfl, ?_, ?_⟩
    · apply (cbufWrite_ok h _ _).2
      rw [List.length_take]
      split_ifs <;> omega
    · obtain ⟨cells, wr, heq⟩ := cbufWrite_frame ctx.writeBuf
        (data.take (if data.length > ctx.writeBuf.size - w.length then ctx.writeBuf.size - w.length
          else data.length))
      rw [heq]
      exact ⟨ht.small, ht.read, ht.write⟩

theorem gbJtagRead_ok {k : ℕ} (h : Rep k ctx.readBuf r) (hk : k ≤ 31) (channel size : ℕ) :
    ∃ n data buf, gbJtagRead ctx channel size = (data, { ctx with readBuf := buf }) ∧
      data.getD [] = r.take n ∧ Rep k buf (r.drop n) := by
  by_cases hchannel : channel ≠ 0
  · exact ⟨0, none, ctx.readBuf, by rw [gbJtagRead, if_pos hchannel], rfl, h⟩
  · obtain ⟨n, hdata, hrep⟩ := cbufRead_takes h hk
      (Util.toSize (Util.min (cbufFillLevel ctx.readBuf) size))
    exact ⟨n, _, _, by rw [gbJtagRead, if_neg hchannel], hdata, hrep⟩

theorem gbJtagRead_eq (h : Rep 16 ctx.readBuf r) {size : ℕ} (hsize : size ≤ r.length) :
    gbJtagRead ctx 0 size = (some (r.take size), { ctx with readBuf := (cbufRead ctx.readBuf size).2 }) := by
  have hfits : r.length ≤ 2 ^ 16 := h.size_eq ▸ h.fits
  have hreq : Util.toSize (Util.min (cbufFillLevel ctx.readBuf) size) = size := by
    rw [h.fillLevel_eq, Util.min_eq (by omega) (by omega), Nat.min_eq_right hsize, Util.toSize_natCast (by omega)]
  have hread := (cbufRead_ok h (by norm_num) hsize).1
  rw [gbJtagRead, if_neg (not_not.mpr rfl), hreq]
  simp only [hread, Except.toOption]

/-- A request as it is meant to be: the sizes, the first `wrWords` words of what is stored, zeros. -/
structure ReqOk (ww : ℕ) (w req : List UInt8) (wrWords rdWords : ℕ) : Prop where
  length : req.length = (max wrWords rdWords + 4) * ww
  wrSize : slice req 0 ww = leBytes ww wrWords
  rdSize : slice req ww ww = leBytes ww rdWords
  data : slice req (ww * 2) (wrWords * ww) = w.take (wrWords * ww)

theorem memcpy_request {ww : ℕ} {a b d block : List UInt8} (ha : a.length = ww) (hb : b.length = ww)
    (hroom : 2 * ww + d.length ≤ block.length) :
    (memcpy (memcpy (memcpy block 0 a) ww b) (2 * ww) d).length = block.length ∧
      slice (memcpy (memcpy (memcpy block 0 a) ww b) (2 * ww) d) 0 ww = a ∧
      slice (memcpy (memcpy (memcpy block 0 a) ww b) (2 * ww) d) ww ww = b ∧
      slice (memcpy (memcpy (memcpy block 0 a) ww b) (2 * ww) d) (ww * 2) d.length = d := by
  have hab : (a ++ b).length = 2 * ww := by
    rw [List.length_append, ha, hb]
    omega
  have hheader := memcpy_memcpy a b (Nat.zero_le block.length)
  have hall := memcpy_memcpy (a ++ b) d (Nat.zero_le block.length)
  rw [Nat.zero_add, ha] at hheader
  rw [Nat.zero_add, hab] at hall
  rw [hheader, hall]
  have hsum : (a ++ b ++ d).length = 2 * ww + d.length := by
    rw [List.length_append, hab]
  refine ⟨length_memcpy (by rw [hsum, Nat.zero_add]; exact hroom), ?_, ?_, ?_⟩
  · simp only [slice, memcpy, List.take_zero, List.nil_append, List.drop_zero, List.append_assoc]
    exact List.take_left' ha
  · simp only [slice, memcpy, List.take_zero, List.nil_append, List.append_assoc]
    rw [List.drop_left' ha]
    exact List.take_left' hb
  · simp only [slice, memcpy, List.take_zero, List.nil_append]
    rw [Nat.mul_comm ww 2, List.append_assoc, List.drop_left' hab]
    exact List.take_left' rfl

/-- A request as the source builds it, at any width of a word. -/
structure Request (ctx : Ctx) (w req : List UInt8) (wrWords rdWords : ℕ) : Prop where
  length : req.length = (max wrWords rdWords + 4) * ctx.targetWordWidth
  wrSize : slice req 0 ctx.targetWordWidth = copyToWord ctx wrWords
  rdSize : slice req ctx.targetWordWidth ctx.targetWordWidth = copyToWord ctx rdWords
  data : slice req (ctx.targetWordWidth * 2) (wrWords * ctx.targetWordWidth) =
    w.take (wrWords * ctx.targetWordWidth)

theorem length_copyToWord (ctx : Ctx) (value : ℕ) : (copyToWord ctx value).length = ctx.targetWordWidth := by
  rw [copyToWord]
  split_ifs
  · exact length_leBytes _ _
  · rw [List.length_set, List.length_replicate]

theorem request_memcpy (ctx : Ctx) {wrWords : ℕ} (rdWords : ℕ) {w : List UInt8}
    (hwr : wrWords * ctx.targetWordWidth ≤ w.length) :
    Request ctx w (memcpy (memcpy (memcpy
      (List.replicate ((max wrWords rdWords + 4) * ctx.targetWordWidth) 0) 0 (copyToWord ctx wrWords))
      ctx.targetWordWidth (copyToWord ctx rdWords)) (2 * ctx.targetWordWidth)
      (w.take (wrWords * ctx.targetWordWidth))) wrWords rdWords := by
  have hdata : (w.take (wrWords * ctx.targetWordWidth)).length = wrWords * ctx.targetWordWidth := by
    rw [List.length_take, Nat.min_eq_left hwr]
  have hroom : 2 * ctx.targetWordWidth + (w.take (wrWords * ctx.targetWordWidth)).length ≤
      (List.replicate ((max wrWords rdWords + 4) * ctx.targetWordWidth) (0 : UInt8)).length := by
    rw [hdata, List.length_replicate, ← Nat.add_mul]
    have hle : wrWords ≤ max wrWords rdWords := Nat.le_max_left _ _
    exact Nat.mul_le_mul_right _ (by omega)
  obtain ⟨hlen, hwrSize, hrdSize, hslice⟩ :=
    memcpy_request (length_copyToWord ctx wrWords) (length_copyToWord ctx rdWords) hroom
  rw [List.length_replicate] at hlen
  rw [hdata] at hslice
  exact ⟨hlen, hwrSize, hrdSize, hslice⟩

/-- The request is built, unless its buffer is too small; what is stored stays stored. -/
theorem buildJtagReq_request {k : ℕ} (wrWords rdWords : ℕ)
    (hww : 1 ≤ ctx.targetWordWidth ∧ ctx.targetWordWidth < 2 ^ 28) (h : Rep k ctx.writeBuf w)
    (ht : TmpRep ctx.writeBuf) (hwr : wrWords * ctx.targetWordWidth ≤ w.length)
    (hrd : rdWords * ctx.targetWordWidth < 2 ^ 30) (fresh : ℕ → UInt8) (reqSize : ℕ) :
    buildJtagReq ctx (some fresh) wrWords rdWords reqSize = (enomem, [], ctx) ∨
      ∃ req buf, buildJtagReq ctx (some fresh) wrWords rdWords reqSize =
          ((req.length : ℤ), req, { ctx with writeBuf := buf }) ∧
        Rep k buf w ∧ TmpRep buf ∧ Request ctx w req wrWords rdWords := by
  have hfits := h.fits
  have hsmall := ht.small
  have hwr1 : wrWords ≤ wrWords * ctx.targetWordWidth := Nat.le_mul_of_pos_right _ hww.1
  have hrd1 : rdWords ≤ rdWords * ctx.targetWordWidth := Nat.le_mul_of_pos_right _ hww.1
  have hmax : Util.max wrWords rdWords = (max wrWords rdWords : ℕ) :=
    Util.max_eq (by omega) (by omega)
  have hpayload : Util.toUint (Util.max wrWords rdWords) = max wrWords rdWords := by
    rw [hmax, Util.toUint_natCast (max_lt (by omega) (by omega))]
  have hwrBytes : toBytes ctx wrWords = wrWords * ctx.targetWordWidth := toBytes_eq (by omega)
  have hbytes : max wrWords rdWords * ctx.targetWordWidth ≤ 2 ^ 30 := by
    obtain hle | hle := Nat.le_total wrWords rdWords
    · rw [Nat.max_eq_right hle]
      omega
    · rw [Nat.max_eq_left hle]
      omega
  have hlen : toBytes ctx ((max wrWords rdWords + 4) % 2 ^ 32) =
      (max wrWords rdWords + 4) * ctx.targetWordWidth := by
    have hpos : max wrWords rdWords ≤ max wrWords rdWords * ctx.targetWordWidth :=
      Nat.le_mul_of_pos_right _ hww.1
    rw [Nat.mod_eq_of_lt (by omega), toBytes_eq (by rw [Nat.add_mul]; omega)]
  have hreq := request_memcpy ctx rdWords hwr
  have hint : Util.toInt ((max wrWords rdWords + 4) * ctx.targetWordWidth) =
      ((max wrWords rdWords + 4) * ctx.targetWordWidth : ℕ) :=
    Util.toInt_of_lt (by rw [Nat.add_mul]; omega)
  simp only [buildJtagReq, hpayload, hlen, hwrBytes, hint]
  by_cases hroom : (max wrWords rdWords + 4) * ctx.targetWordWidth > reqSize
  · exact .inl (if_pos hroom)
  rw [if_neg hroom]
  right
  by_cases hzero : wrWords * ctx.targetWordWidth = 0
  · -- nothing to peek at
    have hpeek : cbufPeek ctx.writeBuf (some fresh) (wrWords * ctx.targetWordWidth) =
        (.ok none, ctx.writeBuf) := if_pos hzero
    have hnone : w.take (wrWords * ctx.targetWordWidth) = [] := by rw [hzero, List.take_zero]
    rw [hpeek]
    rw [hnone] at hreq
    simp only [Option.map_none, Option.getD_none]
    exact ⟨_, ctx.writeBuf, by rw [hreq.length], h, ht, hreq⟩
  · obtain ⟨p, n, tmp, hpeek, hn, hload⟩ := cbufPeek_ok h ht.read (ht.peekFits (hwr.trans h.fits)) fresh hzero hwr
    rw [hpeek]
    simp only [Option.map_some, Option.getD_some, hload]
    exact ⟨_, { ctx.writeBuf with readDataTmpSize := n, readDataTmp := tmp }, by rw [hreq.length],
      ⟨h.size_eq, h.length_data, h.rd_lt, h.wr_eq, h.fits, h.reads⟩, ⟨ht.small, hn, ht.write⟩, hreq⟩

/-- A buffer that is large enough does not grow. -/
theorem buildJtagReq_ne_enomem {alloc : Alloc} {wrWords rdWords reqSize n : ℕ}
    (hn : toBytes ctx ((Util.toUint (Util.max wrWords rdWords) + 4) % 2 ^ 32) = n) (hsmall : n < 2 ^ 31)
    (hroom : n ≤ reqSize) : (buildJtagReq ctx alloc wrWords rdWords reqSize).1 ≠ enomem := by
  have hneg : enomem < 0 := by decide
  simp only [buildJtagReq, hn]
  rw [if_neg (by omega)]
  split
  · show (-1 : ℤ) ≠ enomem
    decide
  · rw [Util.toInt_of_lt hsmall]
    show (n : ℤ) ≠ enomem
    omega

/-- With words of at most four bytes the sizes are right. -/
theorem Request.reqOk {req : List UInt8} {wrWords rdWords : ℕ} (h : Request ctx w req wrWords rdWords)
    (hww : 1 ≤ ctx.targetWordWidth ∧ ctx.targetWordWidth ≤ 4) :
    ReqOk ctx.targetWordWidth w req wrWords rdWords :=
  ⟨h.length, h.wrSize.trans (copyToWord_eq hww wrWords), h.rdSize.trans (copyToWord_eq hww rdWords), h.data⟩

theorem buildJtagReq_ok {k : ℕ} (wrWords rdWords : ℕ)
    (hww : 1 ≤ ctx.targetWordWidth ∧ ctx.targetWordWidth ≤ 4) (h : Rep k ctx.writeBuf w)
    (ht : TmpRep ctx.writeBuf) (hwr : wrWords * ctx.targetWordWidth ≤ w.length)
    (hrd : rdWords * ctx.targetWordWidth < 2 ^ 30) (fresh : ℕ → UInt8) (reqSize : ℕ) :
    buildJtagReq ctx (some fresh) wrWords rdWords reqSize = (enomem, [], ctx) ∨
      ∃ req buf, buildJtagReq ctx (some fresh) wrWords rdWords reqSize =
          ((req.length : ℤ), req, { ctx with writeBuf := buf }) ∧
        Rep k buf w ∧ TmpRep buf ∧ ReqOk ctx.targetWordWidth w req wrWords rdWords := by
  obtain hfull | ⟨req, buf, hreq, hrep, htmp, hok⟩ :=
    buildJtagReq_request wrWords rdWords ⟨hww.1, by omega⟩ h ht hwr hrd fresh reqSize
  · exact .inl hfull
  · exact .inr ⟨req, buf, hreq, hrep, htmp, hok.reqOk hww⟩

end Specs

end GlipOsd.Jtag
