import GlipOsd.Backends.BlockingWrite
import GlipOsd.CypressFx2.Threads
import GlipOsd.Jtag.Host
import GlipOsd.Uart.Host

/-! # Non-blocking reads

`gb_uart_read`, `gb_jtag_read` and `gb_cypressfx2_read`, with all that they return. The first two choose how much is
read with `min`, which is for `int`s; the third compares the sizes as they are, and then posts a semaphore when the
buffer has room for a packet.
-/

namespace GlipOsd.Backends.NonBlockingRead
open CircularBuffer BlockingWrite
set_option autoImplicit false

/-- What a call returns, stores in `*size_read` if anything, copies to `data`, and leaves in the buffer. -/
structure Returned where
  rv : ℤ
  sizeRead : Option ℕ
  data : List UInt8
  buf : Cbuf
  deriving DecidableEq

/-- The three functions; `sizeReadReq` is computed from the fill level and the size. -/
def readWith (sizeReadReq : ℕ → ℕ → ℕ) (buf : Cbuf) (channel size : ℕ) : Returned :=
  if channel ≠ 0 then ⟨-1, none, [], buf⟩
  else
    match cbufRead buf (sizeReadReq (cbufFillLevel buf) size) with
    | (.ok data, buf') => ⟨0, some (sizeReadReq (cbufFillLevel buf) size), data, buf'⟩
    | (.error _, buf') => ⟨-1, none, [], buf'⟩

/-- `min(fill_level, size)` as a `size_t` -/
def minReq (fillLevel size : ℕ) : ℕ := Util.toSize (Util.min fillLevel size)

def gbUartRead : Cbuf → ℕ → ℕ → Returned := readWith minReq

def gbJtagRead : Cbuf → ℕ → ℕ → Returned := readWith minReq

/-- `size > fill_level ? fill_level : size` -/
def conditionalReq (fillLevel size : ℕ) : ℕ := if size > fillLevel then fillLevel else size

/-- With the value of `read_notification_sem`. -/
def gbCypressfx2Read (buf : Cbuf) (readSem channel size : ℕ) : Returned × ℕ :=
  let r := readWith conditionalReq buf channel size
  (r, if r.rv ≠ 0 then readSem
    else CypressFx2.notify readSem (cbufFreeLevel r.buf ≥ CypressFx2.usbTransferPacketSizeBytes))

def read : Backend → Cbuf → ℕ → ℕ → ℕ → Returned
  | .uart, buf, _, channel, size => gbUartRead buf channel size
  | .jtag, buf, _, channel, size => gbJtagRead buf channel size
  | .cypressfx2, buf, readSem, channel, size => (gbCypressfx2Read buf readSem channel size).1

/-- The oldest bytes are read, as many as there are up to `size`, and the others stay. -/
structure ReadsOldest (k : ℕ) (r : Returned) (q : List UInt8) (size : ℕ) : Prop where
  rv : r.rv = 0
  sizeRead : r.sizeRead = some (min size q.length)
  data : r.data = q.take (min size q.length)
  rest : Rep k r.buf (q.drop (min size q.length))

/-! ## The functions -/

section Reads
variable {k : ℕ} {buf : Cbuf} {q : List UInt8} {req : ℕ → ℕ → ℕ} {size : ℕ}

theorem readWith_ok (h : Rep k buf q) (hk : k ≤ 16) (hreq : req q.length size ≤ q.length) :
    ∃ buf', readWith req buf 0 size = ⟨0, some (req q.length size), q.take (req q.length size), buf'⟩ ∧
      Rep k buf' (q.drop (req q.length size)) := by
  obtain ⟨hok, hrep⟩ := cbufRead_ok h (by omega) hreq
  obtain ⟨r, buf', hread⟩ : ∃ r buf', cbufRead buf (req q.length size) = (r, buf') := ⟨_, _, rfl⟩
  rw [hread] at hok hrep
  obtain rfl : r = .ok (q.take (req q.length size)) := hok
  exact ⟨buf', by simp only [readWith, h.fillLevel_eq, hread, ne_eq, not_true_eq_false, if_false], hrep⟩

theorem readWith_refused (h : Rep k buf q) (hreq : q.length < req q.length size) :
    readWith req buf 0 size = ⟨-1, none, [], buf⟩ := by
  simp only [readWith, h.fillLevel_eq, cbufRead_refused h hreq, ne_eq, not_true_eq_false, if_false]

theorem readsOldest_readWith_iff (h : Rep k buf q) (hk : k ≤ 16) :
    ReadsOldest k (readWith req buf 0 size) q size ↔ req q.length size = min size q.length := by
  obtain hreq | hreq := Nat.lt_or_ge q.length (req q.length size)
  · rw [readWith_refused h hreq]
    constructor
    · intro hread
      have hrv : (-1 : ℤ) = 0 := hread.rv
      norm_num at hrv
    · intro heq
      have hle : min size q.length ≤ q.length := Nat.min_le_right _ _
      omega
  · obtain ⟨buf', heq, hrep⟩ := readWith_ok h hk hreq
    rw [heq]
    constructor
    · exact fun hread => Option.some.inj hread.sizeRead
    · intro hmin
      rw [hmin] at hrep ⊢
      exact ⟨rfl, rfl, rfl, hrep⟩

theorem conditionalReq_eq (fillLevel size : ℕ) : conditionalReq fillLevel size = min size fillLevel := by
  rw [conditionalReq]
  split_ifs with h
  · exact (Nat.min_eq_right (Nat.le_of_lt h)).symm
  · exact (Nat.min_eq_left (not_lt.mp h)).symm

/-- The number that is chosen with `min` is right if the size is an `int` or looks like one that is large enough. -/
theorem minReq_eq_iff {fillLevel : ℕ} (hfill : fillLevel < 2 ^ 31) (size : ℕ) :
    minReq fillLevel size = min size fillLevel ↔ size < 2 ^ 31 ∨ (fillLevel : ℤ) ≤ Util.toInt size := by
  have hcases := Util.toInt_cases size
  rw [minReq, Util.min, Util.toInt_of_lt hfill]
  split_ifs with hgt
  · -- the size is the smaller one as an `int`
    by_cases hsize : size < 2 ^ 31
    · rw [Util.toInt_of_lt hsize] at hgt ⊢
      rw [Util.toSize_natCast (by omega), Nat.min_eq_left (by omega)]
      exact iff_of_true rfl (.inl hsize)
    · refine iff_of_false ?_ (by omega)
      rw [Util.toSize]
      omega
  · rw [Util.toSize_natCast (by omega), Nat.min_eq_right (by omega)]
    exact iff_of_true rfl (.inr (not_lt.mp hgt))

/-- **Non-blocking reads.** For every backend, every contents of the buffer and every size: the oldest bytes are
read, and only these, if and only if the backend is the cypressfx2 one, or the size fits into an `int`, or what is
left of it in an `int` is not below the fill level. -/
theorem readsOldest_iff (b : Backend) (h : Rep b.log2Size buf q) (readSem size : ℕ) :
    ReadsOldest b.log2Size (read b buf readSem 0 size) q size ↔
      b = .cypressfx2 ∨ size < 2 ^ 31 ∨ (q.length : ℤ) ≤ Util.toInt size := by
  have hfits := h.fits
  have hsize : 2 ^ b.log2Size ≤ 2 ^ 16 := Nat.pow_le_pow_right (by norm_num) b.log2Size_le
  rw [h.size_eq] at hfits
  have hmin := minReq_eq_iff (by omega : q.length < 2 ^ 31) size
  cases b with
  | uart =>
    show ReadsOldest _ (readWith minReq buf 0 size) q size ↔ _
    rw [readsOldest_readWith_iff h (by decide), hmin]
    exact ⟨.inr, fun hb => hb.resolve_left (by decide)⟩
  | jtag =>
    show ReadsOldest _ (readWith minReq buf 0 size) q size ↔ _
    rw [readsOldest_readWith_iff h (by decide), hmin]
    exact ⟨.inr, fun hb => hb.resolve_left (by decide)⟩
  | cypressfx2 =>
    show ReadsOldest _ (readWith conditionalReq buf 0 size) q size ↔ _
    rw [readsOldest_readWith_iff h (by decide)]
    exact iff_of_true (conditionalReq_eq _ _) (.inl rfl)

/-- The input buffer of the UART backend, filled up to one place from its end, emptied, and with three bytes more. -/
def wrapped : Cbuf :=
  (cbufWrite (cbufRead (cbufWrite (cbufInit (2 ^ 15)) (List.replicate 32767 0)).2 32767).2 [1, 2, 3]).2

/-- The three bytes stand in the last place of the block and in its first two. -/
theorem rep_wrapped : Rep 15 wrapped [1, 2, 3] ∧ wrapped.rdPtr = 32767 ∧ wrapped.wrPtr = 2 ^ 15 + 2 := by
  have hlength : (List.replicate 32767 (0 : UInt8)).length = 32767 := List.length_replicate
  obtain ⟨hempty, hread⟩ := (rep_cbufInit 15).moved (by norm_num) hlength (by norm_num [cbufInit])
  have hkept : wrapped.rdPtr = 32767 := by
    rw [wrapped, cbufWrite_rdPtr, hread]
    norm_num [cbufInit]
  have hthree : Rep 15 wrapped [1, 2, 3] := (cbufWrite_ok hempty [1, 2, 3] (by
    rw [hempty.size_eq]
    norm_num)).2
  refine ⟨hthree, hkept, ?_⟩
  rw [hthree.wr_eq, hkept, hthree.size_eq]
  rfl

/-- Two of the three bytes are read, over the end of the block, and the third stays. -/
theorem wrapped_readsOldest : (wrapped.rdPtr = 32767 ∧ wrapped.wrPtr = 2 ^ 15 + 2) ∧
    ReadsOldest 15 (read .uart wrapped 0 0 2) [1, 2, 3] 2 ∧
    (read .uart wrapped 0 0 2).data = [1, 2] ∧ Rep 15 (read .uart wrapped 0 0 2).buf [3] := by
  obtain ⟨hrep, hpos⟩ := rep_wrapped
  have hread : ReadsOldest Backend.uart.log2Size (read .uart wrapped 0 0 2) [1, 2, 3] 2 :=
    (readsOldest_iff .uart hrep 0 2).mpr (.inr (.inl (by norm_num)))
  exact ⟨hpos, hread, hread.data, hread.rest⟩

theorem huge_size_not_readsOldest : Rep 15 (cbufInit (2 ^ 15)) [] ∧
    ¬ ReadsOldest 15 (read .uart (cbufInit (2 ^ 15)) 0 0 (2 ^ 64 - 1)) [] (2 ^ 64 - 1) := by
  have hrep : Rep 15 (cbufInit (2 ^ 15)) [] := rep_cbufInit 15
  refine ⟨hrep, fun h => ?_⟩
  have hread : ReadsOldest 15 (readWith minReq (cbufInit (2 ^ 15)) 0 (2 ^ 64 - 1)) [] (2 ^ 64 - 1) := h
  rw [readsOldest_readWith_iff hrep (by decide), minReq_eq_iff (by norm_num)] at hread
  revert hread
  decide

end Reads

/-! ## With the contexts of the backends -/

theorem uart_read_eq (ctx : Uart.Ctx) (channel size : ℕ) : Uart.gbUartRead ctx channel size =
    (if (gbUartRead ctx.inputBuffer channel size).rv = 0 then some (gbUartRead ctx.inputBuffer channel size).data else none,
      { ctx with inputBuffer := (gbUartRead ctx.inputBuffer channel size).buf }) := by
  obtain ⟨⟨r, buf⟩, hread⟩ : ∃ p, cbufRead ctx.inputBuffer (minReq (cbufFillLevel ctx.inputBuffer) size) = p := ⟨_, rfl⟩
  by_cases hchannel : channel = 0
  · subst hchannel
    have hread' := hread
    rw [minReq] at hread'
    simp only [Uart.gbUartRead, lt_irrefl, if_false, hread', gbUartRead, readWith, ne_eq, not_true_eq_false,
      hread]
    cases r <;> rfl
  · simp only [Uart.gbUartRead, gt_iff_lt, Nat.pos_of_ne_zero hchannel, if_true, gbUartRead, readWith, ne_eq, hchannel,
      not_false_eq_true]
    rfl

theorem jtag_read_eq (ctx : Jtag.Ctx) (channel size : ℕ) : Jtag.gbJtagRead ctx channel size =
    (if (gbJtagRead ctx.readBuf channel size).rv = 0 then some (gbJtagRead ctx.readBuf channel size).data else none,
      { ctx with readBuf := (gbJtagRead ctx.readBuf channel size).buf }) := by
  obtain ⟨⟨r, buf⟩, hread⟩ : ∃ p, cbufRead ctx.readBuf (minReq (cbufFillLevel ctx.readBuf) size) = p := ⟨_, rfl⟩
  by_cases hchannel : channel = 0
  · subst hchannel
    have hread' := hread
    rw [minReq] at hread'
    simp only [Jtag.gbJtagRead, if_false, hread', gbJtagRead, readWith, ne_eq, not_true_eq_false, hread]
    cases r <;> rfl
  · simp only [Jtag.gbJtagRead, if_true, gbJtagRead, readWith, ne_eq, hchannel, not_false_eq_true]
    rfl

end GlipOsd.Backends.NonBlockingRead
