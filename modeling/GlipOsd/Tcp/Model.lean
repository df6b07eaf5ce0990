import GlipOsd.Foundations.BigEndian

/-! # The class `GlipTcp`

The methods of `GlipTcp.cpp` that the simulator calls, and `reset`. The queues are single-producer,
single-consumer queues with a fixed number of places; `push` fails when all are taken and `pop` fails when
none is. An assertion that fails is `none`.

A byte is an `int` of 32 bits before it is shifted. A shift by 32 places or more is undefined in C++; what
the target makes of it is the parameter `undef`.
-/

namespace GlipOsd.Tcp
open Bytes
set_option autoImplicit false

/-- `TempStorage`: `part` is the number of bytes that have been moved (`partial` in the source). -/
structure TempStorage where
  valid : Bool
  part : ℕ
  value : BitVec 64
  deriving DecidableEq

structure GlipTcp where
  numBytes : ℕ
  connected : Bool
  dataOut : List UInt8
  dataIn : List UInt8
  control : List UInt8
  readItem : TempStorage
  writeItem : TempStorage
  controlItem : TempStorage
  deriving DecidableEq

/-- The places of `mDataIn` and of `mDataOut`. -/
def dataSize : ℕ := 16 * 1024

def controlSize : ℕ := 256

/-- The bit mask that `next_cycle` returns. -/
structure Mask where
  controlAvailable : Bool
  incomingAvailable : Bool
  outgoingReady : Bool
  deriving DecidableEq

def TempStorage.empty : TempStorage := ⟨false, 0, 0⟩

def reset (t : GlipTcp) : GlipTcp :=
  { t with
    control := []
    dataIn := []
    dataOut := []
    controlItem := .empty
    readItem := .empty
    writeItem := .empty }

/-- After `init`, which resets everything. -/
def initial (width : ℕ) : GlipTcp := ⟨width >>> 3, false, [], [], [], .empty, .empty, .empty⟩

/-! ## `next_cycle` -/

section NextCycle
variable (undef : UInt8 → ℕ → BitVec 32)

/-- `data << n` -/
def shl (data : UInt8) (n : ℕ) : BitVec 32 := if n < 32 then data.toBitVec.setWidth 32 <<< n else undef data n

/-- `value |= data << n`, where the `int` is converted to 64 bits. -/
def TempStorage.insert (item : TempStorage) (data : UInt8) (n : ℕ) : TempStorage :=
  { item with
    part := item.part + 1
    value := item.value ||| (shl undef data n).signExtend 64 }

/-- The loop that assembles an item of `n` bytes from a queue. -/
def assemble (n : ℕ) (item : TempStorage) : List UInt8 → TempStorage × List UInt8
  | [] => (item, [])
  | data :: queue =>
    if item.part < n then assemble n (item.insert undef data ((n - item.part - 1) * 8)) queue
    else (item, data :: queue)

/-- `(value >> n) & 0xff` -/
def TempStorage.byte (item : TempStorage) (n : ℕ) : UInt8 := UInt8.ofBitVec ((item.value >>> n).setWidth 8)

/-- The loop that pushes the bytes of an item, of which `k` are left. -/
def emit (n : ℕ) : ℕ → TempStorage → List UInt8 → TempStorage × List UInt8
  | 0, item, queue => (item, queue)
  | k + 1, item, queue =>
    if queue.length < dataSize then
      emit n k { item with part := item.part + 1 } (queue ++ [item.byte ((n - item.part - 1) * 8)])
    else (item, queue)

/-- The control message: its item, the queue and the bit of the mask. -/
def nextControl (t : GlipTcp) : Bool × TempStorage × List UInt8 :=
  let (item, queue) := assemble undef 2 t.controlItem t.control
  if item.part = 2 then (true, { item with valid := true }, queue) else (false, item, queue)

def nextRead (t : GlipTcp) : Bool × TempStorage × List UInt8 :=
  if t.readItem.valid then (true, t.readItem, t.dataIn)
  else
    let (item, queue) := assemble undef t.numBytes t.readItem t.dataIn
    if item.part = t.numBytes then (true, { item with valid := true }, queue) else (false, item, queue)

def nextWrite (t : GlipTcp) : Bool × TempStorage × List UInt8 :=
  if !t.writeItem.valid then (true, t.writeItem, t.dataOut)
  else
    let (item, queue) := emit t.numBytes (t.numBytes - t.writeItem.part) t.writeItem t.dataOut
    if item.part = t.numBytes then (true, { item with valid := false }, queue) else (false, item, queue)

def nextCycle (t : GlipTcp) : Option (Mask × GlipTcp) :=
  if !t.connected then some (⟨false, false, false⟩, t)
  else if t.controlItem.valid then none
  else
    let (ctrl, controlItem, control) := nextControl undef t
    let (incoming, readItem, dataIn) := nextRead undef t
    let (outgoing, writeItem, dataOut) := nextWrite t
    some (⟨ctrl, incoming, outgoing⟩,
      { t with controlItem, control, readItem, dataIn, writeItem, dataOut })

end NextCycle

/-! ## The other methods -/

/-- The value stays. -/
def controlMsg (t : GlipTcp) : BitVec 32 × GlipTcp :=
  (t.controlItem.value.setWidth 32, { t with controlItem := { t.controlItem with valid := false, part := 0 } })

def readData (t : GlipTcp) : Option (BitVec 64) := if t.readItem.valid then some t.readItem.value else none

def readAck (t : GlipTcp) : GlipTcp := { t with readItem := .empty }

def writeData (t : GlipTcp) (data : BitVec 64) : Option GlipTcp :=
  if t.writeItem.valid then none else some { t with writeItem := ⟨true, 0, data⟩ }

end GlipOsd.Tcp
