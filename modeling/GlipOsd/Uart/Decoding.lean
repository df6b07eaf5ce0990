import GlipOsd.Foundations.Runs
import GlipOsd.Uart.Host

/-! # Decoding the stream of the logic

A stream of items is read by the thread in chunks of any size up to the free level of the input
buffer. An item that straddles the end of a chunk is finished with the bytes behind the chunk, so
that every read consumes whole items: those that begin in its chunk. Between two reads the user takes
bytes from the buffer and the thread may grant credit.
-/

namespace GlipOsd.Uart.Decoding
open CircularBuffer Runs
set_option autoImplicit false

/-- `rx` is the rest of the stream; as history the bytes taken by the user, the credit granted and how
many bytes each `read` has returned. -/
structure State where
  ctx : Ctx
  rx : List UInt8
  taken : List UInt8
  granted : ℕ
  chunks : List ℕ
  stop : Option Stop

def start (ctx : Ctx) (items : List Item) : State := ⟨ctx, encode items, [], 0, [], none⟩

inductive Label
  | threadRead (n : ℕ)
  | threadCredit
  | userRead (channel size : ℕ)
  deriving DecidableEq

/-- Where a read does not come to its end, this is recorded. -/
def step (s : State) : Label → Option State
  | .threadRead n =>
    let chunks := s.chunks ++ [readLen s.ctx s.rx n]
    match threadRead s.ctx s.rx n with
    | .ok (ctx, rx) => some { s with ctx := ctx, rx := rx, chunks := chunks }
    | .error stop => some { s with chunks := chunks, stop := some stop }
  | .threadCredit =>
    let ctx := (threadCredit s.ctx).1
    some { s with ctx := ctx, granted := s.granted + (ctx.credit - s.ctx.credit) }
  | .userRead channel size =>
    let read := gbUartRead s.ctx channel size
    some { s with ctx := read.2, taken := s.taken ++ read.1.getD [] }

/-- Only a credit message is read into a full buffer. -/
def CreditWhenFull (s : State) : Label → Prop
  | .threadRead _ => cbufFreeLevel s.ctx.inputBuffer = 0 →
      s.rx = [] ∨ s.rx[0]? = some 0xfe ∧ s.rx[1]? ≠ some 0xfe
  | _ => True

instance (s : State) : ∀ l, Decidable (CreditWhenFull s l)
  | .threadRead _ => inferInstanceAs (Decidable (_ → _ ∨ _ ∧ _))
  | .threadCredit => inferInstanceAs (Decidable True)
  | .userRead _ _ => inferInstanceAs (Decidable True)

/-- Of `items`, `parsed` is processed, which is all that begins in one of the chunks: its words are in the
buffer behind what was there before, its credits in the debt, and its words paid for. -/
structure Decoded (k : ℕ) (ctx : Ctx) (q : List UInt8) (items parsed rest : List Item)
    (buffered : List UInt8) (s : State) : Prop where
  items_eq : items = parsed ++ rest
  rest_eq : rest = s.chunks.foldl itemsBehind items
  rx : s.rx = encode rest
  rep : Rep k s.ctx.inputBuffer buffered
  words : q ++ dataWords parsed = s.taken ++ buffered
  debt : s.ctx.debt = ctx.debt + creditSum parsed
  credit : s.ctx.credit + (dataWords parsed).length = ctx.credit + s.granted
  stop : s.stop = none

section Steps
variable {k : ℕ} {ctx : Ctx} {q buffered : List UInt8} {items parsed rest : List Item} {s s' : State}

theorem decoded_start (h : Rep k ctx.inputBuffer q) (items : List Item) :
    Decoded k ctx q items [] items q (start ctx items) :=
  ⟨rfl, rfl, rfl, h, List.append_nil q, rfl, rfl, rfl⟩

theorem not_word {d : UInt8} {items : List Item} {rx : List UInt8}
    (h : rx = [] ∨ rx[0]? = some 0xfe ∧ rx[1]? ≠ some 0xfe) :
    rx ≠ encode (.word d :: items) := by
  rintro rfl
  rw [encode_cons, Item.encode] at h
  split_ifs at h with hd <;> simp [hd] at h

theorem decoded_threadRead (hk : k ≤ 30) (h : Decoded k ctx q items parsed rest buffered s)
    (hcredit : (dataWords items).length ≤ ctx.credit) {n : ℕ}
    (hfull : CreditWhenFull s (.threadRead n)) (hstep : step s (.threadRead n) = some s') :
    ∃ parsed' rest' buffered', Decoded k ctx q items parsed' rest' buffered' s' := by
  have hpaid := h.credit
  rw [h.items_eq, dataWords_append, List.length_append] at hcredit
  have hnot : cbufFreeLevel s.ctx.inputBuffer = 0 → ∀ d items', rest ≠ .word d :: items' := by
    rintro hfree d items' rfl
    exact not_word (hfull hfree) h.rx
  obtain ⟨now, later, buf, hrest, hlater, hrep, heq⟩ :=
    threadRead_encode hk h.rep (by omega) hnot n
  rw [← h.rx] at heq
  simp only [step, heq] at hstep
  obtain rfl := Option.some.inj hstep
  rw [hrest, dataWords_append, List.length_append] at hcredit
  refine ⟨parsed ++ now, later, buffered ++ dataWords now, ?_, ?_, rfl, hrep, ?_, ?_, ?_, h.stop⟩
  · rw [h.items_eq, hrest, List.append_assoc]
  · rw [List.foldl_append, ← h.rest_eq, h.rx, List.foldl_cons, List.foldl_nil, hlater]
  · rw [dataWords_append, ← List.append_assoc, h.words, List.append_assoc]
  · rw [creditSum_append, ← Nat.add_assoc, ← h.debt]
  · rw [dataWords_append, List.length_append]
    simp only
    omega

theorem decoded_threadCredit (h : Decoded k ctx q items parsed rest buffered s)
    (hstep : step s .threadCredit = some s') :
    Decoded k ctx q items parsed rest buffered s' := by
  have hpaid := h.credit
  obtain rfl := Option.some.inj hstep
  unfold threadCredit
  split_ifs
  · refine ⟨h.items_eq, h.rest_eq, h.rx, h.rep, h.words, h.debt, ?_, h.stop⟩
    simp only
    omega
  · simpa only [Nat.sub_self, Nat.add_zero] using h

theorem decoded_userRead (hk : k ≤ 30) (h : Decoded k ctx q items parsed rest buffered s) {channel size : ℕ}
    (hstep : step s (.userRead channel size) = some s') :
    ∃ n, Decoded k ctx q items parsed rest (buffered.drop n) s' := by
  obtain ⟨n, buf, hdata, heq, hrep⟩ := gbUartRead_takes h.rep (by omega) channel size
  obtain rfl := Option.some.inj hstep
  simp only [hdata, heq]
  refine ⟨n, h.items_eq, h.rest_eq, h.rx, hrep, ?_, h.debt, h.credit, h.stop⟩
  simp only
  rw [h.words, List.append_assoc, List.take_append_drop]

end Steps

/-- **Decoding is correct for every chunking.** From any context whose credit covers the words of a
stream, along every run of reads in chunks of any size, with the user taking bytes and the thread
granting credit at any time, as long as only a credit message is read into a full buffer: after
every step whole items are consumed, namely those that begin in the bytes that the reads have returned,
their words are in the buffer or taken by the user, in order and behind what was in the buffer before,
the sum of their credits is added to the debt and the number of their words taken from the credit, and
no assertion failed. -/
theorem decoding_correct {k : ℕ} (hk : k ≤ 30) {ctx : Ctx} {q : List UInt8}
    (h : Rep k ctx.inputBuffer q) (items : List Item)
    (hcredit : (dataWords items).length ≤ ctx.credit) (ls : List Label)
    (hfull : Takes step CreditWhenFull (start ctx items) ls) :
    Passes step (fun s => ∃ parsed rest buffered, Decoded k ctx q items parsed rest buffered s)
      (start ctx items) ls := by
  refine hfull.passes ?_ ⟨[], items, q, decoded_start h items⟩
  rintro s l s' ⟨parsed, rest, buffered, hs⟩ hl hstep
  cases l with
  | threadRead n => exact decoded_threadRead hk hs hcredit hl hstep
  | threadCredit => exact ⟨parsed, rest, buffered, decoded_threadCredit hs hstep⟩
  | userRead channel size =>
    obtain ⟨n, hs'⟩ := decoded_userRead hk hs hstep
    exact ⟨parsed, rest, _, hs'⟩

def smallCtx : Ctx := ⟨2, cbufInit 2, cbufInit 2, 0, 3⟩

def smallStream : List Item := [.word 0xfe, .credit 5, .word 7, .credit 0x7ffe]

/-- A marker word and a credit are read in chunks of one byte, one more word fills the buffer, and a
credit of two markers is read into the full buffer. With that the whole stream is parsed. -/
theorem decoding_small :
    ∃ s, runFrom step (start smallCtx smallStream) [.threadRead 1, .threadRead 1, .threadRead 9, .threadRead 9] = some s ∧
      s.chunks = [1, 1, 1, 1] ∧ s.rx = [] ∧ s.ctx.debt = 5 + 0x7ffe ∧ s.ctx.credit = 1 ∧
      ∃ parsed rest buffered, Decoded 1 smallCtx [] smallStream parsed rest buffered s :=
  ⟨_, rfl, rfl, rfl, rfl, rfl, (decoding_correct (by decide) (rep_cbufInit 1) smallStream (by decide)
    [.threadRead 1, .threadRead 1, .threadRead 9, .threadRead 9] (by decide)).last rfl⟩

end GlipOsd.Uart.Decoding
