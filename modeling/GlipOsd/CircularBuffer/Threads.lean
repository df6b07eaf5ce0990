import GlipOsd.CircularBuffer.Model
import GlipOsd.Foundations.Runs

/-! # One reader thread and one writer thread

The operations of the circular buffer cut into their accesses to shared memory: every load of
`wr_ptr` or `rd_ptr`, every byte copied and every pointer store is one step of one thread, and the
steps of the two threads interleave in any order. The mutex around the pointer stores only
excludes interleavings and is left out. An access outside a block has no step.

The last four fields of the state are history: the bytes published by the pointer stores of the
writer, the bytes released by those of the reader (`none` where the reader discarded a byte
that it never looked at), and whether a byte that was published and not yet released has ever been
stored over.
-/

namespace GlipOsd.CircularBuffer.Threads
open Memory
set_option autoImplicit false

/-! ## The level computation -/

inductive Shared
  | wrPtr
  | rdPtr
  deriving DecidableEq, Repr

/-- `cbuf_fill_level` in progress: what is loaded for the comparison in `cbuf_is_full`, then what is
loaded for the subtraction, then the result. -/
inductive LevelPc
  | isFull (wr rd : Option ℕ)
  | subtract (wr rd : Option ℕ)
  | done (fillLevel : ℕ)
  deriving DecidableEq, Repr

/-- The masked subtraction at the end of `cbuf_fill_level`. -/
def fillLevelOf (size wr rd : ℕ) : ℕ :=
  let fillLevel : ℤ := (wr &&& (size - 1) : ℕ) - (rd &&& (size - 1) : ℕ)
  (if fillLevel < 0 then fillLevel + size else fillLevel).toNat

def LevelPc.load (buf : Cbuf) : LevelPc → Shared → Option LevelPc
  | .isFull none rd, .wrPtr => some (.isFull (some buf.wrPtr) rd)
  | .isFull wr none, .rdPtr => some (.isFull wr (some buf.rdPtr))
  | .subtract none rd, .wrPtr => some (.subtract (some buf.wrPtr) rd)
  | .subtract wr none, .rdPtr => some (.subtract wr (some buf.rdPtr))
  | _, _ => none

/-- What is computed once both operands are there. -/
def LevelPc.next (size : ℕ) : LevelPc → LevelPc
  | .isFull (some wr) (some rd) => if wr == rd ^^^ size then .done size else .subtract none none
  | .subtract (some wr) (some rd) => .done (fillLevelOf size wr rd)
  | pc => pc

/-! ## States -/

inductive ReadOp
  | read (size : ℕ)
  | peek (alloc : Alloc) (size : ℕ)
  | discard (size : ℕ)

def ReadOp.size : ReadOp → ℕ
  | .read size => size
  | .peek _ size => size
  | .discard size => size

inductive WriteOp
  | write (data : List UInt8)
  | reserve (alloc : Alloc) (size : ℕ)

def WriteOp.size : WriteOp → ℕ
  | .write data => data.length
  | .reserve _ size => size

inductive ReaderPc
  | idle
  | level (op : ReadOp) (pc : LevelPc)
  /-- about to load `rd_ptr` for the position in the block -/
  | locateRead (size : ℕ)
  | locatePeek (alloc : Alloc) (size : ℕ)
  /-- `cbuf_read` copies to the caller -/
  | copy (size pos : ℕ) (got : List UInt8)
  /-- `cbuf_peek` copies to the temporary block -/
  | gather (size pos : ℕ) (got : List UInt8)
  /-- about to load and to store `rd_ptr` -/
  | load (taken : List (Option UInt8))
  | store (rdPtr : ℕ) (taken : List (Option UInt8))

inductive WriterPc
  | idle
  | level (op : WriteOp) (pc : LevelPc)
  | locateWrite (data : List UInt8)
  | locateReserve (alloc : Alloc) (size : ℕ)
  | locateCommit (size : ℕ)
  /-- `cbuf_write`, or `cbuf_commit` of a temporary block, copies into the buffer -/
  | copy (pos : ℕ) (copied rest : List UInt8) (size : ℕ)
  /-- about to load and to store `wr_ptr` -/
  | load (bytes : List UInt8)
  | store (wrPtr : ℕ) (bytes : List UInt8)

/-- `peeked` is the pointer of the last peek and what was loaded through it, `reserved` the pointer
and the size of the last reservation. -/
structure State where
  buf : Cbuf
  reader : ReaderPc
  peeked : Option (Ptr × List (Option UInt8))
  writer : WriterPc
  reserved : Option (Ptr × ℕ)
  published : List UInt8
  obtained : List (Option UInt8)
  clobbered : Bool

def initial (k : ℕ) : State :=
  ⟨cbufInit (2 ^ k), .idle, none, .idle, none, [], [], false⟩

/-- Cell `c` holds a byte that is published and not yet released. -/
def State.live (s : State) (c : ℕ) : Bool :=
  (List.range (s.published.length - s.obtained.length)).any fun i =>
    (s.obtained.length + i) % s.buf.size == c

def storeCell (s : State) (c : ℕ) (b : UInt8) : State :=
  { s with
    buf := { s.buf with data := memcpy s.buf.data c [b] }
    clobbered := s.clobbered || s.live c }

/-- Where byte `j` of a copy that starts at `pos` is: the second part of a split copy starts at the
beginning of the block. -/
def cell (size pos j : ℕ) : ℕ := if pos + j < size then pos + j else pos + j - size

/-! ## The reader -/

/-- What the caller of `cbuf_discard` saw of the bytes it discards. -/
def seen (peeked : Option (Ptr × List (Option UInt8))) (size : ℕ) : List (Option UInt8) :=
  (List.range size).map fun j => (((peeked.map Prod.snd).getD [])[j]?).join

def callReader (s : State) (op : ReadOp) : Option State :=
  match s.reader, op with
  | .idle, .read 0 => some s
  | .idle, .peek _ 0 => some s
  | .idle, op => some { s with reader := .level op (.isFull none none) }
  | _, _ => none

/-- The caller loads a byte through the pointer of the last peek. -/
def look (s : State) (j : ℕ) : Option State :=
  match s.reader, s.peeked with
  | .idle, some (p, loaded) =>
    if j < loaded.length then
      ((s.buf.block p)[p.offset + j]?).map fun b =>
        { s with peeked := some (p, loaded.set j (some b)) }
    else none
  | _, _ => none

/-- After the level is known: `-EINVAL`, or the operation goes on. -/
def readerChecked (s : State) (fillLevel : ℕ) (op : ReadOp) : State :=
  if fillLevel < op.size then { s with reader := .idle }
  else
    match op with
    | .read size => { s with reader := .locateRead size }
    | .peek alloc size => { s with reader := .locatePeek alloc size }
    | .discard size => { s with reader := .load (seen s.peeked size) }

def locatePeek (s : State) (alloc : Alloc) (size : ℕ) : State :=
  let buf := s.buf
  let pos := buf.rdPtr &&& (buf.size - 1)
  if pos + size ≤ buf.size then
    { s with reader := .idle, peeked := some (.data pos, List.replicate size none) }
  else
    let tmp := growTmp buf.hintMaxReadSize buf.readDataTmpSize buf.readDataTmp buf.size alloc size
    let buf' := { buf with readDataTmpSize := tmp.1, readDataTmp := tmp.2 }
    if buf.readDataTmpSize < size ∧ tmp.2 = none then
      { s with buf := buf', reader := .idle, peeked := none }
    else { s with buf := buf', reader := .gather size pos [], peeked := none }

def gather (s : State) (size pos : ℕ) (got : List UInt8) : Option State :=
  if got.length = size then
    some { s with reader := .idle, peeked := some (.readDataTmp, List.replicate size none) }
  else
    match s.buf.readDataTmp, s.buf.data[cell s.buf.size pos got.length]? with
    | some block, some b =>
      if got.length < block.length then
        some { s with
          buf := { s.buf with readDataTmp := some (memcpy block got.length [b]) }
          reader := .gather size pos (got ++ [b]) }
      else none
    | _, _ => none

def readerStep (s : State) (p : Shared) : Option State :=
  match s.reader with
  | .idle => none
  | .level op (.done fillLevel) => some (readerChecked s fillLevel op)
  | .level op pc =>
    (pc.load s.buf p).map fun pc => { s with reader := .level op (pc.next s.buf.size) }
  | .locateRead size =>
    some { s with reader := .copy size (s.buf.rdPtr &&& (s.buf.size - 1)) [] }
  | .locatePeek alloc size => some (locatePeek s alloc size)
  | .copy size pos got =>
    if got.length = size then some { s with reader := .load (got.map some) }
    else
      (s.buf.data[cell s.buf.size pos got.length]?).map fun b =>
        { s with reader := .copy size pos (got ++ [b]) }
  | .gather size pos got => gather s size pos got
  | .load taken => some { s with reader := .store s.buf.rdPtr taken }
  | .store rdPtr taken =>
    some { s with
      buf := { s.buf with rdPtr := cbufPtrAdd s.buf rdPtr taken.length }
      reader := .idle
      peeked := none
      obtained := s.obtained ++ taken }

/-! ## The writer -/

def callWriter (s : State) (op : WriteOp) : Option State :=
  match s.writer with
  | .idle => some { s with writer := .level op (.isFull none none) }
  | _ => none

/-- The caller stores a byte through the pointer of the last reservation. -/
def fill (s : State) (off : ℕ) (b : UInt8) : Option State :=
  match s.writer, s.reserved with
  | .idle, some (p, size) =>
    if off < size ∧ p.offset + off < (s.buf.block p).length then
      match p with
      | .data pos => some (storeCell s (pos + off) b)
      | p => some { s with buf := cbufStore s.buf p off [b] }
    else none
  | _, _ => none

/-- `cbuf_commit` of at most the reserved size. -/
def callCommit (s : State) (size : ℕ) : Option State :=
  match s.writer, s.reserved with
  | .idle, some (p, reserved) =>
    if size ≤ reserved then
      if size = 0 then some s
      else if p = .writeDataTmp then some { s with writer := .locateCommit size }
      else some { s with writer := .load (cbufLoad s.buf p size) }
    else none
  | _, _ => none

def writerChecked (s : State) (fillLevel : ℕ) (op : WriteOp) : State :=
  if op.size > s.buf.size - fillLevel then { s with writer := .idle }
  else
    match op with
    | .write data => { s with writer := .locateWrite data }
    | .reserve alloc size => { s with writer := .locateReserve alloc size }

def locateReserve (s : State) (alloc : Alloc) (size : ℕ) : State :=
  let buf := s.buf
  let pos := buf.wrPtr &&& (buf.size - 1)
  if pos + size ≤ buf.size then { s with writer := .idle, reserved := some (.data pos, size) }
  else
    let tmp :=
      growTmp buf.hintMaxWriteSize buf.writeDataTmpSize buf.writeDataTmp buf.size alloc size
    let buf' := { buf with writeDataTmpSize := tmp.1, writeDataTmp := tmp.2 }
    if buf.writeDataTmpSize < size ∧ tmp.2 = none then
      { s with buf := buf', writer := .idle, reserved := none }
    else { s with buf := buf', writer := .idle, reserved := some (.writeDataTmp, size) }

/-- The end of the block is filled also when less is committed. -/
def locateCommit (s : State) (size : ℕ) : Option State :=
  let pos := s.buf.wrPtr &&& (s.buf.size - 1)
  let total := max size (s.buf.size - pos)
  let tmp := s.buf.writeDataTmp.getD []
  if total ≤ tmp.length then some { s with writer := .copy pos [] (slice tmp 0 total) size }
  else none

def writerStep (s : State) (p : Shared) : Option State :=
  match s.writer with
  | .idle => none
  | .level op (.done fillLevel) => some (writerChecked s fillLevel op)
  | .level op pc =>
    (pc.load s.buf p).map fun pc => { s with writer := .level op (pc.next s.buf.size) }
  | .locateWrite data =>
    some { s with writer := .copy (s.buf.wrPtr &&& (s.buf.size - 1)) [] data data.length }
  | .locateReserve alloc size => some (locateReserve s alloc size)
  | .locateCommit size => locateCommit s size
  | .copy _ copied [] size => some { s with writer := .load (copied.take size) }
  | .copy pos copied (b :: rest) size =>
    some { storeCell s (cell s.buf.size pos copied.length) b with
      writer := .copy pos (copied ++ [b]) rest size }
  | .load bytes => some { s with writer := .store s.buf.wrPtr bytes }
  | .store wrPtr bytes =>
    some { s with
      buf := { s.buf with wrPtr := cbufPtrAdd s.buf wrPtr bytes.length }
      writer := .idle
      reserved := none
      published := s.published ++ bytes }

/-! ## Interleavings -/

/-- A call or an access of the calling code, or the next step of a thread; where the order of two
loads is open, the label tells which one is next. -/
inductive Label
  | read (op : ReadOp)
  | look (j : ℕ)
  | reader (p : Shared)
  | write (op : WriteOp)
  | fill (off : ℕ) (b : UInt8)
  | commit (size : ℕ)
  | writer (p : Shared)

def step (s : State) : Label → Option State
  | .read op => callReader s op
  | .look j => look s j
  | .reader p => readerStep s p
  | .write op => callWriter s op
  | .fill off b => fill s off b
  | .commit size => callCommit s size
  | .writer p => writerStep s p

end GlipOsd.CircularBuffer.Threads
