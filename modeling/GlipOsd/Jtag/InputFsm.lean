import GlipOsd.Jtag.OutputFsm

/-! # The input path of the JTAG backend

The finite state machine `glip_jtag_input_fsm` and the FIFO `glip_jtag_fifo` that it writes to: the
header of a request says how many of the words behind it are meant for the FIFO. `inputFsm` is the
combinational block, `step` the clocked one. `WORD_WIDTH` is `W`, and `L` the length of the FIFO.
-/

namespace GlipOsd.Jtag
set_option autoImplicit false

/-! ## The FIFO -/

/-- The write pointer is one-hot and points to the first free cell. -/
structure JtagFifo (w L : ℕ) where
  fifoWritePtr : BitVec (L + 1)
  fifoData : List (BitVec w)
  deriving DecidableEq, Repr

namespace JtagFifo
variable {w L : ℕ} (s : JtagFifo w L)

def outFlit : BitVec w := s.fifoData.getD 0 0

def outValid : Bool := !s.fifoWritePtr.getLsbD 0

def inReady : Bool := !s.fifoWritePtr.getLsbD L

def next (rst : Bool) (inFlit : BitVec w) (inValid outReady : Bool) : JtagFifo w L :=
  let pop := s.outValid && outReady
  let push := inValid && s.inReady
  { fifoWritePtr :=
      if rst then 1
      else if push && !pop then s.fifoWritePtr <<< 1
      else if !push && pop then s.fifoWritePtr >>> 1
      else s.fifoWritePtr
    fifoData := (List.range L).map fun i =>
      if pop then
        if push && s.fifoWritePtr.getLsbD (i + 1) then inFlit
        else if i < L - 1 then s.fifoData.getD (i + 1) 0
        else s.fifoData.getD i 0
      else if push && s.fifoWritePtr.getLsbD i then inFlit
      else s.fifoData.getD i 0 }

/-- The FIFO after a reset, which leaves the cells alone. -/
def reset (fifoData : List (BitVec w)) : JtagFifo w L := ⟨1, fifoData⟩

end JtagFifo

/-! ## The state machine -/

namespace InputFsm
open OutputFsm Clocked

inductive InputState
  | idle
  | readPacketLength
  | ignoreReadLength
  | readPacket
  | dropPacket
  deriving DecidableEq, Repr

structure Regs (W : ℕ) where
  error : Bool
  jtagReset : Bool
  inputState : InputState
  bitCnt : BitVec W
  inRegCnt : BitVec W
  accCnt : BitVec W
  inRegData : BitVec W
  deriving DecidableEq, Repr

structure In where
  rst : Bool
  tdi : Bool
  shift : Bool
  update : Bool
  capture : Bool
  fifoReady : Bool
  deriving DecidableEq, Repr

/-- The next registers and, with `in_valid`, the word `in_flit` for the FIFO. -/
def inputFsm {W : ℕ} (s : Regs W) (inReady : Bool) (i : In) : Regs W × Option (BitVec W) :=
  match s.inputState with
  | .idle =>
    let idle := { s with error := false, inRegData := 0, jtagReset := false, accCnt := 0 }
    (if i.shift then
      { idle with inputState := .readPacketLength, bitCnt := s.bitCnt + 1#W,
                  inRegCnt := setBit 0 s.bitCnt.toNat i.tdi }
    else { idle with bitCnt := 0, inRegCnt := 0 }, none)
  | .readPacketLength =>
    let s := { s with inRegCnt := setBit s.inRegCnt s.bitCnt.toNat i.tdi }
    let length := concatTop i.tdi s.inRegCnt
    (if s.bitCnt.toNat < W - 1 then { s with bitCnt := s.bitCnt + 1#W }
    else if s.bitCnt.toNat = W - 1 then
      if length = BitVec.allOnes W then
        { s with bitCnt := 0, inputState := .dropPacket, jtagReset := true, error := false }
      else if length ≠ 0 then
        { s with bitCnt := 0, inputState := .ignoreReadLength, jtagReset := false, error := false }
      else { s with bitCnt := 0, inputState := .dropPacket, jtagReset := false }
    else { s with error := false }, none)
  | .ignoreReadLength =>
    (if s.bitCnt.toNat = W - 1 then { s with bitCnt := 0, inputState := .readPacket }
    else { s with bitCnt := s.bitCnt + 1#W }, none)
  | .readPacket =>
    let s := { s with error := false }
    if s.bitCnt.toNat < W - 1 then
      ({ s with bitCnt := s.bitCnt + 1#W, inRegData := setBit s.inRegData s.bitCnt.toNat i.tdi }, none)
    else if s.bitCnt.toNat = W - 1 then
      let s := { s with inRegData := setBit s.inRegData s.bitCnt.toNat i.tdi, bitCnt := 0 }
      if inReady then
        ({ s with
            accCnt := s.accCnt + 1#W
            inRegCnt := s.inRegCnt - 1#W
            inputState := if s.inRegCnt - 1#W = 0 then .dropPacket else .readPacket },
          some (concatTop i.tdi s.inRegData))
      -- the FIFO is full: the rest of the request is dropped to keep the order
      else ({ s with inputState := .dropPacket }, none)
    else (s, none)
  | .dropPacket =>
    (if i.update || i.capture then
      { s with bitCnt := 0, inputState := .idle, error := false, jtagReset := false }
    else { s with bitCnt := 0, jtagReset := false }, none)

structure State (W L : ℕ) where
  regs : Regs W
  fifo : JtagFifo W L
  deriving DecidableEq, Repr

variable {W L : ℕ}

def step (s : State W L) (i : In) : State W L where
  regs :=
    let next := (inputFsm s.regs s.fifo.inReady i).1
    if i.rst || i.update then ⟨next.error, false, .dropPacket, 0, 0, 0, 0⟩ else next
  fifo :=
    let inFlit := (inputFsm s.regs s.fifo.inReady i).2
    s.fifo.next i.rst (inFlit.getD 0) inFlit.isSome i.fifoReady

/-- The word that enters the FIFO in this cycle. -/
def pushed (s : State W L) (i : In) : Option (BitVec W) :=
  if s.fifo.inReady then (inputFsm s.regs s.fifo.inReady i).2 else none

theorem pushed_of_none {st : State W L} {i : In} (h : (inputFsm st.regs st.fifo.inReady i).2 = none) :
    pushed st i = none := by
  rw [pushed, h, ite_self]

end InputFsm

end GlipOsd.Jtag
