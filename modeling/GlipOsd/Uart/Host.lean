import GlipOsd.CircularBuffer.Queue
import GlipOsd.Uart.Ingress
import GlipOsd.Util

/-! # The host side of the UART backend

The context of `backend_uart.c` with its two circular buffers and credit counters, the three parts
of the loop of `thread_func` and the calls of the user. The bytes that have arrived and are not
yet read are an argument; a blocking read that finds too few of them is `blocked`, a failed
assertion ends the process. The counters stay far below the range of `size_t`.
-/

namespace GlipOsd.Uart
open CircularBuffer
set_option autoImplicit false

def uartMaxTranche : ℕ := 0x3fff

def tmpBufferSize : ℕ := 256

structure Ctx where
  bufferSize : ℕ
  inputBuffer : Cbuf
  outputBuffer : Cbuf
  debt : ℕ
  credit : ℕ

/-- Why a part of the thread does not come to its end. -/
inductive Stop
  | assertion
  | blocked
  deriving DecidableEq, Repr

def gbUartNew : Ctx where
  bufferSize := 32768
  inputBuffer := cbufInit 32768
  outputBuffer := cbufInit 32768
  debt := 0
  credit := 0

def updateDebt (ctx : Ctx) (first second : UInt8) : Ctx :=
  { ctx with debt := ctx.debt + creditOf first second }

/-- The effect of `reset` on the context; `first` and `second` are the debt read from the logic. -/
def reset (ctx : Ctx) (first second : UInt8) : Ctx :=
  updateDebt
    { ctx with
      inputBuffer := (cbufDiscard ctx.inputBuffer (cbufFillLevel ctx.inputBuffer)).2
      outputBuffer := (cbufDiscard ctx.outputBuffer (cbufFillLevel ctx.outputBuffer)).2
      credit := uartMaxTranche
      debt := 0 } first second

/-! ## The thread -/

/-- Store one data word: the three lines that `parse_buffer` repeats. -/
def storeWord (ctx : Ctx) (b : UInt8) : Except Stop Ctx :=
  if ctx.credit = 0 then .error .assertion
  else
    match cbufWrite ctx.inputBuffer [b] with
    | (.ok _, buf) => .ok { ctx with inputBuffer := buf, credit := ctx.credit - 1 }
    | (.error _, _) => .error .assertion

/-- `parse_buffer` on the bytes of one chunk; what it misses at the end it takes from `rx`. -/
def parseBuffer (ctx : Ctx) : List UInt8 → List UInt8 → Except Stop (Ctx × List UInt8)
  | [], rx => .ok (ctx, rx)
  | b :: chunk, rx =>
    if b = 0xfe then
      match chunk with
      | c :: chunk =>
        if c = 0xfe then
          match storeWord ctx b with
          | .ok ctx => parseBuffer ctx chunk rx
          | .error stop => .error stop
        else
          match chunk with
          | d :: chunk => parseBuffer (updateDebt ctx c d) chunk rx
          | [] =>
            match rx with
            | d :: rx => .ok (updateDebt ctx c d, rx)
            | [] => .error .blocked
      | [] =>
        match rx with
        | [] => .error .blocked
        | c :: rx =>
          if c = 0xfe then
            match storeWord ctx c with
            | .ok ctx => .ok (ctx, rx)
            | .error stop => .error stop
          else
            match rx with
            | d :: rx => .ok (updateDebt ctx c d, rx)
            | [] => .error .blocked
    else
      match storeWord ctx b with
      | .ok ctx => parseBuffer ctx chunk rx
      | .error stop => .error stop

/-- The read part of the loop, when `read` returns `n` bytes or all that it may. -/
def threadRead (ctx : Ctx) (rx : List UInt8) (n : ℕ) : Except Stop (Ctx × List UInt8) :=
  let avail := cbufFreeLevel ctx.inputBuffer
  if avail = 0 then
    -- only a credit message is expected
    match rx.take (min n 1), rx.drop (min n 1) with
    | [], rx => .ok (ctx, rx)
    | b :: _, rx =>
      if b = 0xfe then
        match rx with
        | c :: d :: rx => .ok (updateDebt ctx c d, rx)
        | _ => .error .blocked
      else .error .assertion
  else
    let size := Util.toSize (Util.min avail tmpBufferSize)
    parseBuffer ctx (rx.take (min n size)) (rx.drop (min n size))

/-- The number of bytes that `read` returns there. -/
def readLen (ctx : Ctx) (rx : List UInt8) (n : ℕ) : ℕ :=
  let avail := cbufFreeLevel ctx.inputBuffer
  min (min n (if avail = 0 then 1 else min avail tmpBufferSize)) rx.length

/-- The write part of the loop and the bytes it writes. -/
def threadWrite (ctx : Ctx) : Except Stop (Ctx × List UInt8) :=
  if ctx.debt > 0 then
    let size := Util.toSize (Util.min ctx.debt tmpBufferSize)
    let avail := cbufFillLevel ctx.outputBuffer
    if avail > 0 then
      let size := Util.toSize (Util.min avail size)
      match cbufRead ctx.outputBuffer size with
      | (.ok buffer, buf) =>
        .ok ({ ctx with outputBuffer := buf, debt := ctx.debt - size }, buffer.flatMap sendWord)
      | (.error _, _) => .error .assertion
    else .ok (ctx, [])
  else .ok (ctx, [])

/-- The end of the loop: new credit, if necessary, and the message that gives it. -/
def threadCredit (ctx : Ctx) : Ctx × List UInt8 :=
  if ctx.credit < ctx.bufferSize - uartMaxTranche then
    ({ ctx with credit := ctx.credit + uartMaxTranche }, sendCredit uartMaxTranche)
  else (ctx, [])

/-! ## The user -/

def gbUartRead (ctx : Ctx) (channel size : ℕ) : Option (List UInt8) × Ctx :=
  if channel > 0 then (none, ctx)
  else
    let fillLevel := cbufFillLevel ctx.inputBuffer
    let sizeReadReq := Util.toSize (Util.min fillLevel size)
    match cbufRead ctx.inputBuffer sizeReadReq with
    | (.ok data, buf) => (some data, { ctx with inputBuffer := buf })
    | (.error _, buf) => (none, { ctx with inputBuffer := buf })

def gbUartWrite (ctx : Ctx) (channel : ℕ) (data : List UInt8) : Option ℕ × Ctx :=
  if channel > 0 then (none, ctx)
  else
    let bufSizeFree := cbufFreeLevel ctx.outputBuffer
    let sizeWritten := if data.length > bufSizeFree then bufSizeFree else data.length
    (some sizeWritten,
      { ctx with outputBuffer := (cbufWrite ctx.outputBuffer (data.take sizeWritten)).2 })

/-! ## What the parts do -/

section Parts
variable {k : ℕ} {ctx : Ctx} {q : List UInt8}

theorem storeWord_ok (h : Rep k ctx.inputBuffer q) (hcredit : 0 < ctx.credit)
    (hfree : q.length < ctx.inputBuffer.size) (b : UInt8) :
    ∃ buf, storeWord ctx b = .ok { ctx with inputBuffer := buf, credit := ctx.credit - 1 } ∧
      Rep k buf (q ++ [b]) := by
  obtain ⟨hok, hrep⟩ := cbufWrite_ok h [b] (by simpa using hfree)
  refine ⟨(cbufWrite ctx.inputBuffer [b]).2, ?_, hrep⟩
  unfold storeWord
  rw [if_neg (by omega)]
  split
  · rename_i heq
    rw [heq]
  · rename_i heq
    rw [heq] at hok
    cases hok

/-- The result of parsing the first `m` bytes of the stream `items`: the items that begin there are parsed, their
words stored and paid for and their credits added to the debt, and the rest is still to be read. -/
def Parses (k : ℕ) (ctx : Ctx) (q : List UInt8) (items : List Item) (m : ℕ)
    (result : Except Stop (Ctx × List UInt8)) : Prop :=
  ∃ parsed rest buf, items = parsed ++ rest ∧ rest = itemsBehind items m ∧ Rep k buf (q ++ dataWords parsed) ∧
    result = .ok
      ({ ctx with
          inputBuffer := buf
          credit := ctx.credit - (dataWords parsed).length
          debt := ctx.debt + creditSum parsed }, encode rest)

theorem Parses.nothing (h : Rep k ctx.inputBuffer q) (items : List Item) :
    Parses k ctx q items 0 (.ok (ctx, encode items)) :=
  ⟨[], items, ctx.inputBuffer, rfl, (itemsBehind_zero items).symm, by simpa [dataWords] using h, rfl⟩

theorem Parses.all (h : Rep k ctx.inputBuffer q) (m : ℕ) : Parses k ctx q [] m (.ok (ctx, [])) :=
  ⟨[], [], ctx.inputBuffer, rfl, rfl, by simpa [dataWords] using h, rfl⟩

variable {items : List Item} {result : Except Stop (Ctx × List UInt8)} {m m' : ℕ}

theorem Parses.word {buf : Cbuf} {d : UInt8} (hm : m + 1 - (Item.word d).encode.length = m')
    (h : Parses k { ctx with inputBuffer := buf, credit := ctx.credit - 1 } (q ++ [d]) items m'
      result) : Parses k ctx q (.word d :: items) (m + 1) result := by
  obtain ⟨parsed, rest, buf', hitems, hrest, hrep, rfl⟩ := h
  refine ⟨.word d :: parsed, rest, buf', by rw [hitems, List.cons_append], by rw [itemsBehind, hm, hrest], ?_, ?_⟩
  · rwa [List.append_assoc] at hrep
  · simp only [dataWords, creditSum, List.length_cons, Nat.sub_sub, Nat.add_comm 1]

theorem Parses.credit {tranche : BitVec 15} (hm : m + 1 - 3 = m')
    (h : Parses k { ctx with debt := ctx.debt + tranche.toNat } q items m' result) :
    Parses k ctx q (.credit tranche :: items) (m + 1) result := by
  obtain ⟨parsed, rest, buf, hitems, hrest, hrep, rfl⟩ := h
  have hbehind : itemsBehind (.credit tranche :: items) (m + 1) = itemsBehind items (m + 1 - 3) := rfl
  refine ⟨.credit tranche :: parsed, rest, buf, by rw [hitems, List.cons_append], by rw [hbehind, hm, hrest], hrep, ?_⟩
  simp only [dataWords, creditSum, Nat.add_assoc]

/-- A chunk of a stream of items, with what `parse_buffer` reads behind it, is parsed into the items
that begin in the chunk. -/
theorem parseBuffer_encode (chunk rx : List UInt8) (h : Rep k ctx.inputBuffer q)
    (hstream : chunk ++ rx = encode items)
    (hfree : q.length + chunk.length ≤ ctx.inputBuffer.size)
    (hcredit : (dataWords items).length ≤ ctx.credit) :
    Parses k ctx q items chunk.length (parseBuffer ctx chunk rx) := by
  induction items generalizing ctx q chunk with
  | nil =>
    obtain ⟨rfl, rfl⟩ := List.append_eq_nil_iff.mp hstream
    exact .nothing h []
  | cons item items ih =>
    cases chunk with
    | nil =>
      rw [List.nil_append] at hstream
      rw [hstream]
      exact .nothing h _
    | cons b chunk =>
      rw [List.length_cons] at hfree
      cases item with
      | word d =>
        rw [dataWords, List.length_cons] at hcredit
        obtain ⟨buf, hstore, hrep⟩ := storeWord_ok h (by omega) (by omega) d
        have hsize : buf.size = ctx.inputBuffer.size := hrep.size_eq.trans h.size_eq.symm
        have hmore : ∀ chunk : List UInt8, chunk ++ rx = encode items →
            q.length + chunk.length + 1 ≤ ctx.inputBuffer.size →
            Parses k { ctx with inputBuffer := buf, credit := ctx.credit - 1 } (q ++ [d]) items chunk.length
              (parseBuffer { ctx with inputBuffer := buf, credit := ctx.credit - 1 } chunk rx) :=
          fun chunk hchunk hlen => ih _ hrep hchunk
            (by rw [hsize, List.length_append, List.length_singleton]; omega)
            (Nat.le_sub_of_add_le hcredit)
        by_cases hd : d = 0xfe
        · -- the marker doubled: in the chunk, or its second byte behind the chunk
          simp only [encode_cons, Item.encode, if_pos hd, List.cons_append, List.cons.injEq] at hstream
          obtain ⟨rfl, hstream⟩ := hstream
          subst hd
          cases chunk with
          | nil =>
            rw [List.nil_append] at hstream
            simp only [hstream, parseBuffer, if_true, hstore, List.nil_append]
            exact .word rfl (.nothing hrep items)
          | cons c chunk =>
            rw [List.cons_append, List.cons.injEq] at hstream
            obtain ⟨rfl, hstream⟩ := hstream
            rw [parseBuffer.eq_def]
            simp only [if_true, hstore]
            rw [List.length_cons] at hfree
            exact .word (by simp [Item.encode]) (hmore chunk hstream (by omega))
        · simp only [encode_cons, Item.encode, if_neg hd, List.cons_append, List.cons.injEq,
            List.nil_append] at hstream
          obtain ⟨rfl, hstream⟩ := hstream
          rw [parseBuffer.eq_def]
          simp only [if_neg hd, hstore]
          exact .word (by simp [Item.encode, hd]) (hmore chunk hstream (by omega))
      | credit tranche =>
        have hdebt : ∀ ctx : Ctx, updateDebt ctx _ _ = { ctx with debt := ctx.debt + _ } :=
          fun ctx => congrArg (fun n => { ctx with debt := ctx.debt + n })
            (creditOf_message tranche.isLt)
        have hfirst := first_ne_marker (tranche.toNat >>> 8)
        simp only [encode_cons, Item.encode, creditMessage, List.cons_append, List.cons.injEq,
          List.nil_append] at hstream
        obtain ⟨rfl, hstream⟩ := hstream
        match chunk, hstream with
        | [], hstream =>
          rw [List.nil_append] at hstream
          simp only [hstream, parseBuffer, if_true, if_neg hfirst, hdebt]
          exact .credit rfl (.nothing (by exact h) items)
        | [c], hstream =>
          simp only [List.cons_append, List.cons.injEq, List.nil_append] at hstream
          obtain ⟨rfl, hstream⟩ := hstream
          simp only [hstream, parseBuffer, if_true, if_neg hfirst, hdebt]
          exact .credit rfl (.nothing (by exact h) items)
        | c :: d :: chunk, hstream =>
          simp only [List.cons_append, List.cons.injEq] at hstream
          obtain ⟨rfl, rfl, hstream⟩ := hstream
          simp only [parseBuffer, if_true, if_neg hfirst, hdebt]
          simp only [List.length_cons] at hfree
          refine .credit (Nat.add_sub_cancel chunk.length 3) (ih _ ?_ hstream ?_ ?_)
          · exact h
          · exact (by omega : q.length + chunk.length ≤ ctx.inputBuffer.size)
          · exact hcredit

/-- The read part on a line that carries whole items, when no word waits in front of a full buffer:
the items that begin in the bytes that are read are parsed. -/
theorem threadRead_encode (hk : k ≤ 30) (h : Rep k ctx.inputBuffer q)
    (hcredit : (dataWords items).length ≤ ctx.credit)
    (hfull : cbufFreeLevel ctx.inputBuffer = 0 → ∀ d rest, items ≠ .word d :: rest) (n : ℕ) :
    Parses k ctx q items (readLen ctx (encode items) n) (threadRead ctx (encode items) n) := by
  have hsize := h.size_eq
  have hpow : 2 ^ k ≤ 2 ^ 30 := Nat.pow_le_pow_right (by omega) hk
  have hfits := h.fits
  unfold threadRead readLen
  by_cases hfree : cbufFreeLevel ctx.inputBuffer = 0
  · -- only a credit message may be in front
    simp only [if_pos hfree]
    cases n with
    | zero =>
      rw [Nat.zero_min, Nat.zero_min]
      exact .nothing h items
    | succ n =>
      rw [Nat.min_eq_right (Nat.succ_le_succ n.zero_le)]
      cases items with
      | nil => exact .all h _
      | cons item items =>
        cases item with
        | word d => exact absurd rfl (hfull hfree d items)
        | credit tranche =>
          have hdebt : updateDebt ctx (UInt8.ofNat (0x1 ||| (tranche.toNat >>> 8) <<< 1))
              (UInt8.ofNat (tranche.toNat &&& 0xff)) =
                { ctx with debt := ctx.debt + tranche.toNat } :=
            congrArg (fun n => { ctx with debt := ctx.debt + n }) (creditOf_message tranche.isLt)
          simp only [encode_cons, Item.encode, creditMessage, List.cons_append, List.nil_append,
            List.take_succ_cons, List.drop_succ_cons, List.drop_zero, if_true, hdebt]
          have hone (b c d : UInt8) : min 1 (b :: c :: d :: encode items).length = 0 + 1 := Nat.min_eq_left (by simp)
          rw [hone]
          exact .credit rfl (.nothing (by exact h) items)
  · -- a chunk of at most the free level
    simp only [if_neg hfree]
    rw [h.freeLevel_eq] at hfree ⊢
    have hsmall : min (ctx.inputBuffer.size - q.length) tmpBufferSize ≤ 256 :=
      Nat.min_le_right _ _
    rw [Util.min_eq (by omega) (by decide), Util.toSize_natCast (by omega)]
    have hlen : min n (min (ctx.inputBuffer.size - q.length) tmpBufferSize) ≤
        ctx.inputBuffer.size - q.length := (Nat.min_le_right _ _).trans (Nat.min_le_left _ _)
    rw [← List.length_take]
    exact parseBuffer_encode _ _ h (List.take_append_drop _ (encode items))
      (by rw [List.length_take]; omega) hcredit

theorem gbUartRead_none (ctx : Ctx) {channel : ℕ} (h : channel > 0) (size : ℕ) :
    gbUartRead ctx channel size = (none, ctx) := if_pos h

theorem userResult_eq (ctx : Ctx) (r : Except Errno (List UInt8) × Cbuf) :
    (match r with
      | (.ok data, buf) => (some data, { ctx with inputBuffer := buf })
      | (.error _, buf) => (none, { ctx with inputBuffer := buf })) =
      (r.1.toOption, { ctx with inputBuffer := r.2 }) := by
  obtain ⟨data | _, buf⟩ := r <;> rfl

theorem gbUartRead_some (ctx : Ctx) {channel : ℕ} (h : ¬ channel > 0) (size : ℕ) :
    ∃ n, gbUartRead ctx channel size = ((cbufRead ctx.inputBuffer n).1.toOption,
      { ctx with inputBuffer := (cbufRead ctx.inputBuffer n).2 }) := by
  simp only [gbUartRead, if_neg h]
  generalize Util.toSize (Util.min (cbufFillLevel ctx.inputBuffer) size) = sizeReadReq
  exact ⟨sizeReadReq, userResult_eq ctx _⟩

theorem gbUartRead_takes (h : Rep k ctx.inputBuffer q) (hk : k ≤ 31) (channel size : ℕ) :
    ∃ n buf, (gbUartRead ctx channel size).1.getD [] = q.take n ∧
      (gbUartRead ctx channel size).2 = { ctx with inputBuffer := buf } ∧ Rep k buf (q.drop n) := by
  by_cases hchannel : channel > 0
  · rw [gbUartRead_none ctx hchannel]
    exact ⟨0, ctx.inputBuffer, rfl, rfl, h⟩
  · obtain ⟨sizeReadReq, heq⟩ := gbUartRead_some ctx hchannel size
    obtain ⟨n, htake, hrep⟩ := cbufRead_takes h hk sizeReadReq
    rw [heq]
    exact ⟨n, _, htake, rfl, hrep⟩

/-- A read of as many bytes as are stored, or fewer. -/
theorem gbUartRead_ok (h : Rep k ctx.inputBuffer q) (hk : k ≤ 30) {size : ℕ} (hsize : size ≤ q.length) :
    ∃ buf, gbUartRead ctx 0 size = (some (q.take size), { ctx with inputBuffer := buf }) ∧ Rep k buf (q.drop size) := by
  have hfits := h.fits
  have hsmall := h.size_le hk
  obtain ⟨hok, hrep⟩ := cbufRead_ok h (by omega) hsize
  have hreq : Util.toSize (Util.min (cbufFillLevel ctx.inputBuffer) size) = size := by
    rw [h.fillLevel_eq, Util.min_eq (by omega) (by omega), Nat.min_eq_right hsize, Util.toSize_natCast (by omega)]
  refine ⟨_, ?_, hrep⟩
  simp only [gbUartRead, if_neg (lt_irrefl 0), hreq]
  refine (userResult_eq ctx _).trans ?_
  rw [hok]
  rfl

end Parts

end GlipOsd.Uart
