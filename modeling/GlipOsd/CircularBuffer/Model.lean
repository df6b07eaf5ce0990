import GlipOsd.Foundations.Memory

/-! # The circular buffer

The operations of `cbuf.c` on the fields of `struct cbuf` (the mutex and the condition variable
are the subject of `GlipOsd.CircularBuffer.Wakeup`). Sizes and positions are `size_t` values; the buffers
considered are far smaller than the range of `size_t`, and every sum below is formed after the
level check that bounds it. A pointer into the buffer is the block it points into and an
offset; the blocks never overlap, so that pointer equality is equality of blocks.
-/

namespace GlipOsd.CircularBuffer
open Memory
set_option autoImplicit false

/-- The error codes, negated in the source. -/
inductive Errno
  | EINVAL
  | ENOMEM
  deriving DecidableEq, Repr

/-- `struct cbuf`. The length of an allocated temporary block is what `realloc` returned; `none`
is the null pointer. -/
structure Cbuf where
  wrPtr : ℕ
  rdPtr : ℕ
  size : ℕ
  data : List UInt8
  hintMaxReadSize : ℕ
  readDataTmpSize : ℕ
  readDataTmp : Option (List UInt8)
  hintMaxWriteSize : ℕ
  writeDataTmpSize : ℕ
  writeDataTmp : Option (List UInt8)
  deriving DecidableEq, Repr

/-- What a `realloc` does: it fails, or it returns a block whose new bytes are indeterminate. -/
abbrev Alloc := Option (ℕ → UInt8)

/-- A pointer handed out by `cbuf_reserve` or `cbuf_peek`. -/
inductive Ptr
  | data (off : ℕ)
  | readDataTmp
  | writeDataTmp
  deriving DecidableEq, Repr

/-! ## Pointers and levels -/

def cbufPtrAdd (buf : Cbuf) (val1 val2 : ℕ) : ℕ := (val1 + val2) &&& (2 * buf.size - 1)

/-- A value stored in an `int` and converted to `size_t`. -/
def intToSize (x : ℕ) : ℕ :=
  if x % 2 ^ 32 < 2 ^ 31 then x % 2 ^ 32 else 2 ^ 64 - 2 ^ 32 + x % 2 ^ 32

/-- The loop of the source counts the shifts until nothing is left, which is `Nat.log2`; the
power is formed in `int`. -/
def cbufCalcBufsize (sizeReq sizeMax : ℕ) : ℕ :=
  let powTwo := intToSize (1 <<< (Nat.log2 sizeReq + 1))
  if powTwo > sizeMax then sizeMax else powTwo

/-- `calloc` succeeds; the size is a power of two. -/
def cbufInit (size : ℕ) : Cbuf where
  wrPtr := 0
  rdPtr := 0
  size := size
  data := List.replicate size 0
  hintMaxReadSize := 0
  readDataTmpSize := 0
  readDataTmp := none
  hintMaxWriteSize := 0
  writeDataTmpSize := 0
  writeDataTmp := none

def cbufIsEmpty (buf : Cbuf) : Bool := buf.wrPtr == buf.rdPtr

def cbufIsFull (buf : Cbuf) : Bool := buf.wrPtr == buf.rdPtr ^^^ buf.size

def cbufFillLevel (buf : Cbuf) : ℕ :=
  if cbufIsFull buf then buf.size
  else
    let fillLevel : ℤ := (buf.wrPtr &&& (buf.size - 1) : ℕ) - (buf.rdPtr &&& (buf.size - 1) : ℕ)
    (if fillLevel < 0 then fillLevel + buf.size else fillLevel).toNat

def cbufFreeLevel (buf : Cbuf) : ℕ := buf.size - cbufFillLevel buf

/-! ## The write side -/

def cbufSetHintMaxReadSize (buf : Cbuf) (hint : ℕ) : Cbuf := { buf with hintMaxReadSize := hint }

def cbufSetHintMaxWriteSize (buf : Cbuf) (hint : ℕ) : Cbuf := { buf with hintMaxWriteSize := hint }

/-- Publish `size` bytes: the store to `wr_ptr` under the mutex. -/
def advanceWrPtr (buf : Cbuf) (size : ℕ) : Cbuf :=
  { buf with wrPtr := cbufPtrAdd buf buf.wrPtr size }

/-- Release `size` bytes: the store to `rd_ptr` under the mutex. -/
def advanceRdPtr (buf : Cbuf) (size : ℕ) : Cbuf :=
  { buf with rdPtr := cbufPtrAdd buf buf.rdPtr size }

def cbufWrite (buf : Cbuf) (data : List UInt8) : Except Errno Unit × Cbuf :=
  let freeLevel := cbufFreeLevel buf
  if data.length > freeLevel then (.error .EINVAL, buf)
  else
    let pos := buf.wrPtr &&& (buf.size - 1)
    let cells :=
      if pos + data.length ≤ buf.size then memcpy buf.data pos data
      else
        let sizeAtEnd := buf.size - pos
        memcpy (memcpy buf.data pos (data.take sizeAtEnd)) 0 (data.drop sizeAtEnd)
    (.ok (), advanceWrPtr { buf with data := cells } data.length)

/-- `realloc(old, n)`: old bytes are kept, new ones are whatever the allocator returns. -/
def realloc (old : Option (List UInt8)) (n : ℕ) : Alloc → Option (List UInt8)
  | none => none
  | some fresh => some ((List.range n).map fun i => ((old.getD [])[i]?).getD (fresh i))

/-- The temporary block of one side, grown by `realloc` when it is smaller than `size`: its recorded
size and the block. `cbuf_reserve` and `cbuf_peek` contain this code once each. -/
def growTmp (hint tmpSize : ℕ) (tmp : Option (List UInt8)) (sizeMax : ℕ) (alloc : Alloc)
    (size : ℕ) : ℕ × Option (List UInt8) :=
  if tmpSize < size then
    let n := if size ≤ hint then hint else cbufCalcBufsize size sizeMax
    (n, realloc tmp n alloc)
  else (tmpSize, tmp)

def cbufReserve (buf : Cbuf) (alloc : Alloc) (size : ℕ) : Except Errno Ptr × Cbuf :=
  let freeLevel := cbufFreeLevel buf
  if size > freeLevel then (.error .EINVAL, buf)
  else
    let pos := buf.wrPtr &&& (buf.size - 1)
    if pos + size ≤ buf.size then (.ok (.data pos), buf)
    else
      let tmp :=
        growTmp buf.hintMaxWriteSize buf.writeDataTmpSize buf.writeDataTmp buf.size alloc size
      let buf' := { buf with writeDataTmpSize := tmp.1, writeDataTmp := tmp.2 }
      if buf.writeDataTmpSize < size ∧ tmp.2 = none then (.error .ENOMEM, buf')
      else (.ok .writeDataTmp, buf')

def cbufCommit (buf : Cbuf) (data : Ptr) (size : ℕ) : Cbuf :=
  if size = 0 then buf
  else if data = .writeDataTmp then
    let tmp := buf.writeDataTmp.getD []
    let pos := buf.wrPtr &&& (buf.size - 1)
    let sizeAtEnd := buf.size - pos
    -- the whole end of the block is copied, also when less is committed
    let cells := memcpy buf.data pos (slice tmp 0 sizeAtEnd)
    let cells :=
      if size > sizeAtEnd then memcpy cells 0 (slice tmp sizeAtEnd (size - sizeAtEnd)) else cells
    advanceWrPtr { buf with data := cells } size
  else advanceWrPtr buf size

/-! ## The read side -/

def cbufRead (buf : Cbuf) (size : ℕ) : Except Errno (List UInt8) × Cbuf :=
  if size = 0 then (.ok [], buf)
  else
    let fillLevel := cbufFillLevel buf
    if fillLevel < size then (.error .EINVAL, buf)
    else
      let pos := buf.rdPtr &&& (buf.size - 1)
      let data :=
        if pos + size ≤ buf.size then slice buf.data pos size
        else
          let sizeToEnd := intToSize (buf.size - pos)
          slice buf.data pos sizeToEnd ++ slice buf.data 0 (size - sizeToEnd)
      (.ok data, advanceRdPtr buf size)

/-- A peek of nothing leaves the caller's pointer alone (`none`). -/
def cbufPeek (buf : Cbuf) (alloc : Alloc) (size : ℕ) : Except Errno (Option Ptr) × Cbuf :=
  if size = 0 then (.ok none, buf)
  else
    let fillLevel := cbufFillLevel buf
    if fillLevel < size then (.error .EINVAL, buf)
    else
      let pos := buf.rdPtr &&& (buf.size - 1)
      if pos + size ≤ buf.size then (.ok (some (.data pos)), buf)
      else
        let tmp :=
          growTmp buf.hintMaxReadSize buf.readDataTmpSize buf.readDataTmp buf.size alloc size
        let buf' := { buf with readDataTmpSize := tmp.1, readDataTmp := tmp.2 }
        if buf.readDataTmpSize < size ∧ tmp.2 = none then (.error .ENOMEM, buf')
        else
          let sizeToEnd := intToSize (buf.size - pos)
          let gather := fun block => memcpy (memcpy block 0 (slice buf.data pos sizeToEnd)) sizeToEnd
            (slice buf.data 0 (size - sizeToEnd))
          (.ok (some .readDataTmp), { buf' with readDataTmp := tmp.2.map gather })

def cbufDiscard (buf : Cbuf) (size : ℕ) : Except Errno Unit × Cbuf :=
  if cbufFillLevel buf < size then (.error .EINVAL, buf)
  else (.ok (), advanceRdPtr buf size)

/-! ## The caller's accesses through a pointer -/

/-- The block a pointer points into. -/
def Cbuf.block (buf : Cbuf) : Ptr → List UInt8
  | .data _ => buf.data
  | .readDataTmp => buf.readDataTmp.getD []
  | .writeDataTmp => buf.writeDataTmp.getD []

def Ptr.offset : Ptr → ℕ
  | .data off => off
  | .readDataTmp => 0
  | .writeDataTmp => 0

/-- The caller reads `n` bytes through `p`. -/
def cbufLoad (buf : Cbuf) (p : Ptr) (n : ℕ) : List UInt8 := slice (buf.block p) p.offset n

/-- The caller stores `bytes` at `p + off`. -/
def cbufStore (buf : Cbuf) (p : Ptr) (off : ℕ) (bytes : List UInt8) : Cbuf :=
  let block := memcpy (buf.block p) (p.offset + off) bytes
  match p with
  | .data _ => { buf with data := block }
  | .readDataTmp => { buf with readDataTmp := some block }
  | .writeDataTmp => { buf with writeDataTmp := some block }

end GlipOsd.CircularBuffer
