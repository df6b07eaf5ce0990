import GlipOsd.Jtag.Response
import GlipOsd.Jtag.Host

/-! # Reading a response of OpenOCD

`jtag_drscan_read` as a function of what the `read` calls on the socket return. The four cursors are
`unsigned int`s and wrap; a failed assertion and an access outside of the buffer end in
`undefined`.
-/

namespace GlipOsd.Jtag.DrscanRead
open Memory
set_option autoImplicit false

/-- The local variables; `buf_size` is the length of `buf`. -/
structure Locals where
  buf : List UInt8
  bufPos : ℕ
  fieldStart : ℕ
  fieldEnd : ℕ
  resp : List UInt8
  respPos : ℕ
  deriving DecidableEq, Repr

/-- What a `read` on the socket returns: bytes, `EAGAIN` or another error. -/
inductive ReadResult
  | data (chunk : List UInt8)
  | eagain
  | error
  deriving DecidableEq, Repr

inductive Outcome
  /-- Another `read` follows. -/
  | more (s : Locals)
  | returned (rv : ℤ) (resp : List UInt8)
  | undefined
  /-- The `read` returned more than it was asked for. -/
  | excess
  deriving DecidableEq, Repr

/-- The control flow: what follows is only done when the loop goes on. -/
def Outcome.andThen (o : Outcome) (f : Locals → Outcome) : Outcome :=
  match o with
  | .more s => f s
  | o => o

/-- Copy the field that ends at `fieldEnd` to the output. -/
def copyField (size : ℕ) (s : Locals) (fieldEnd : ℕ) : Option Locals :=
  let fieldSizeChars := Util.toInt (Util.toUint (fieldEnd - s.fieldStart))
  let respPos := Util.toUint (s.respPos + fieldSizeChars.tdiv 2)
  if respPos > size then none
  else
    (hexstringToBinarrayLe s.buf s.fieldStart (Util.toSize fieldSizeChars)).map fun bytes =>
      { s with
        resp := memcpy s.resp s.respPos bytes
        respPos := respPos
        fieldStart := Util.toUint (fieldEnd + 1)
        fieldEnd := fieldEnd }

/-- The loop body for the character `c` at `pos`. -/
def extractField (size : ℕ) (s : Locals) (pos : ℕ) (c : UInt8) : Outcome :=
  if isSeparator c then
    (copyField size s pos).elim .undefined fun s =>
      if c = 0x1a then .returned 0 s.resp else .more s
  else .more s

/-- The loop over the new characters, from the `i`-th one on; `m` are left. -/
def extractFields (size : ℕ) (s : Locals) (i : ℕ) : ℕ → Outcome
  | 0 => .more s
  | m + 1 =>
    let pos := Util.toUint (s.bufPos + i)
    match s.buf[pos]? with
    | none => .undefined
    | some c => (extractField size s pos c).andThen fun s => extractFields size s (i + 1) m

/-- Remove the complete fields from the buffer, after a `read` that returned `n`. -/
def compact (s : Locals) (n : ℤ) : Outcome :=
  if s.fieldEnd > s.buf.length then .undefined
  else
    .more { s with
      buf := memcpy s.buf 0 (s.buf.drop s.fieldEnd)
      bufPos := Util.toUint (s.bufPos + n - s.fieldEnd)
      fieldStart := Util.toUint (s.fieldStart - s.fieldEnd) }

/-- Grow the buffer if needed; `realloc` succeeds. The heap is not initialized: cell `i` of a block
first holds `fresh i`. -/
def grow (fresh : ℕ → UInt8) (s : Locals) : Locals :=
  if s.bufPos ≥ s.buf.length then
    { s with
      buf := s.buf ++
        (List.range' s.buf.length (growBuf s.buf.length - s.buf.length)).map fresh }
  else s

def readStep (fresh : ℕ → UInt8) (size : ℕ) (s : Locals) (r : ReadResult) : Outcome :=
  let s := grow fresh s
  if s.bufPos > s.buf.length then .undefined
  else
    match r with
    | .error => .returned (-1) s.resp
    | .eagain => compact s (-1)
    | .data chunk =>
      if chunk.length > s.buf.length - s.bufPos then .excess
      else if chunk = [] then .returned (-1) s.resp
      else
        (extractFields size { s with buf := memcpy s.buf s.bufPos chunk } 0 chunk.length).andThen
          fun s => compact s chunk.length

def readLoop (fresh : ℕ → UInt8) (size : ℕ) : Locals → List ReadResult → Outcome
  | s, [] => .more s
  | s, r :: rs => (readStep fresh size s r).andThen fun s => readLoop fresh size s rs

def bufInitialSize : ℕ := 2048

/-- `resp` is what the caller's buffer holds, which has room for `size` bytes. -/
def start (fresh : ℕ → UInt8) (resp : List UInt8) : Locals where
  buf := (List.range bufInitialSize).map fresh
  bufPos := 0
  fieldStart := 0
  fieldEnd := 0
  resp := resp
  respPos := 0

def jtagDrscanRead (fresh : ℕ → UInt8) (resp : List UInt8) (size : ℕ) (reads : List ReadResult) :
    Outcome := readLoop fresh size (start fresh resp) reads

end GlipOsd.Jtag.DrscanRead
