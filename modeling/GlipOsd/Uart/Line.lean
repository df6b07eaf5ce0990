import GlipOsd.Foundations.Runs

/-! # The serial line

`glip_uart_transmit` and `glip_uart_receive` as functions of the registers and the inputs of one clock cycle, and
the receiver connected to the transmitter. Either counts the cycles of a bit down with its own divisor; the
receiver looks at the line in the middle of a bit, which it knows from the falling edge of the start bit.
-/

namespace GlipOsd.Uart
open Runs
set_option autoImplicit false

/-- The states of either state machine. -/
inductive LineState
  | idle
  | start
  | bits
  | stop
  deriving DecidableEq, Repr

/-- What `divcounter` counts to, unless a state says otherwise. -/
def nextDivcounter (divisor divcounter : BitVec 32) : BitVec 32 :=
  if divcounter = 0 then divisor - 1 else divcounter - 1

/-! ## The transmitter -/

/-- Only `state` has a reset value. -/
structure Transmit where
  state : LineState
  divcounter : BitVec 32
  bitpos : BitVec 3
  deriving DecidableEq

def Transmit.nextedge (s : Transmit) : Bool := s.divcounter = 0

def Transmit.tx (s : Transmit) (data : BitVec 8) : Bool :=
  match s.state with
  | .idle => true
  | .start => false
  | .bits => data.getLsbD s.bitpos.toNat
  | .stop => true

def Transmit.done (s : Transmit) : Bool := s.state = .stop && s.nextedge

def Transmit.next (divisor : BitVec 32) (s : Transmit) (rst enable : Bool) : Transmit :=
  let divcounter := nextDivcounter divisor s.divcounter
  let s' : Transmit :=
    match s.state with
    | .idle => if enable then { s with state := .start, divcounter := divisor - 1 } else { s with divcounter }
    | .start => if s.nextedge then { state := .bits, divcounter, bitpos := 0 } else { s with divcounter }
    | .bits =>
      if s.nextedge then
        { state := if s.bitpos = 7 then .stop else .bits, divcounter, bitpos := s.bitpos + 1 }
      else { s with divcounter }
    | .stop => if s.nextedge then { s with state := .idle, divcounter } else { s with divcounter }
  if rst then { s' with state := .idle } else s'

/-! ## The receiver -/

/-- `rxReg` holds the last two samples of the line, the older one first. -/
structure Receive where
  state : LineState
  divcounter : BitVec 32
  bitpos : BitVec 3
  rxReg : Bool × Bool
  data : BitVec 8
  deriving DecidableEq

def Receive.rxnegedge (s : Receive) : Bool := (s.rxReg.1 != s.rxReg.2) && !s.rxReg.2

def Receive.bitend (s : Receive) : Bool := s.divcounter = 0

def Receive.bitmid (divisor : BitVec 32) (s : Receive) : Bool := s.divcounter = divisor >>> 1

/-- `data[bitpos] = bit` -/
def setBit (data : BitVec 8) (bitpos : BitVec 3) (bit : Bool) : BitVec 8 :=
  if bit then data ||| (1#8 <<< bitpos.toNat) else data &&& ~~~(1#8 <<< bitpos.toNat)

def Receive.enable (divisor : BitVec 32) (s : Receive) : Bool :=
  s.state = .stop && s.bitmid divisor && s.rxReg.2

def Receive.error (divisor : BitVec 32) (s : Receive) : Bool :=
  s.state = .stop && s.bitmid divisor && !s.rxReg.2

def Receive.next (divisor : BitVec 32) (s : Receive) (rst rx : Bool) : Receive :=
  let divcounter := nextDivcounter divisor s.divcounter
  let rxReg := (s.rxReg.2, rx)
  let s' : Receive :=
    match s.state with
    | .idle =>
      if s.rxnegedge then { s with state := .start, divcounter := divisor - 1, rxReg } else { s with divcounter, rxReg }
    | .start =>
      if s.bitend then { s with state := .bits, divcounter, bitpos := 0, rxReg } else { s with divcounter, rxReg }
    | .bits =>
      if s.bitmid divisor then
        { state := if s.bitpos = 7 then .stop else .bits, divcounter, bitpos := s.bitpos + 1, rxReg
          data := setBit s.data s.bitpos s.rxReg.2 }
      else { s with divcounter, rxReg }
    | .stop => if s.bitmid divisor then { s with state := .idle, divcounter, rxReg } else { s with divcounter, rxReg }
  if rst then { s' with state := .idle, divcounter := 0, rxReg := (rx, rx) } else s'

/-! ## The line between them -/

/-- `pending` is the byte that is being handed over, `handed` are the bytes handed to the transmitter so far,
`reported` those that the receiver has put out with `enable`; `errors` counts the cycles with `error`. -/
structure Link where
  tx : Transmit
  rx : Receive
  pending : Option (BitVec 8)
  handed : List (BitVec 8)
  reported : List (BitVec 8)
  errors : ℕ
  deriving DecidableEq

/-- `enable` and `data` of the transmitter in a cycle. -/
structure LinkIn where
  enable : Bool
  data : BitVec 8
  deriving DecidableEq

/-- Both modules leave reset; the registers that it does not set have any value, and the line is high. -/
def Link.reset (divisorTx divisorRx : BitVec 32) (tx : Transmit) (enable : Bool) (rx : Receive) : Link where
  tx := tx.next divisorTx true enable
  rx := rx.next divisorRx true true
  pending := none
  handed := []
  reported := []
  errors := 0

/-- One cycle; the byte and `enable` are held until `done`. -/
def Link.step (divisorTx divisorRx : BitVec 32) (s : Link) (i : LinkIn) : Option Link :=
  if s.pending.all fun data => i.enable && i.data == data then
    some {
      tx := s.tx.next divisorTx false i.enable
      rx := s.rx.next divisorRx false (s.tx.tx i.data)
      pending := if i.enable && !s.tx.done then some i.data else none
      handed := if i.enable && s.pending.isNone then s.handed ++ [i.data] else s.handed
      reported := if s.rx.enable divisorRx then s.reported ++ [s.rx.data] else s.reported
      errors := if s.rx.error divisorRx then s.errors + 1 else s.errors }
  else none

end GlipOsd.Uart
