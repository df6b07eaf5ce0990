import GlipOsd.DemUart.Model

/-! # The emulated UART on an AXI bus

`osd_dem_uart_nasti`: an AXI transaction becomes an access to the registers of `osd_dem_uart_16550`,
and a character that is written to its transmit register goes on to `osd_dem_uart`.
-/

namespace GlipOsd.DemUart.Nasti
set_option autoImplicit false

/-- The registers: those of the bus, `lcr_7` of `u_16550` and those of `u_uart_emul`. -/
structure Regs where
  busReq : Bool
  busAddr : BitVec 3
  busWrite : Bool
  busWdata : BitVec 8
  resp : Bool
  rData : BitVec 8
  lcr7 : Bool
  uart : DemUart.Regs

structure Input where
  arAddr : BitVec 3
  arValid : Bool
  rReady : Bool
  awAddr : BitVec 3
  awValid : Bool
  wData : BitVec 8
  wValid : Bool
  bReady : Bool
  debugIn : DiiFlit
  debugOutReady : Bool

def regTxrx : BitVec 3 := 0
def regLcr : BitVec 3 := 3
def regLsr : BitVec 3 := 5

section Signals
variable (id : BitVec 10) (s : Regs) (i : Input)

/-! ## `osd_dem_uart_16550` -/

def outValid : Bool := s.busReq && s.busWrite && s.busAddr == regTxrx && !s.lcr7

def busRdata : BitVec 8 := if s.busAddr = regLsr then 0x60 else 0

def busAck (outReady : Bool) : Bool :=
  s.lcr7 || s.busAddr != regTxrx || if s.busWrite then outReady else true

def nextLcr7 : Bool :=
  if s.busReq && s.busWrite && s.busAddr == regLcr then s.busWdata.getLsbD 7 else s.lcr7

/-! ## `osd_dem_uart_nasti` -/

def uartInput : DemUart.Input := ⟨i.debugIn, i.debugOutReady, s.busWdata, outValid s⟩

def debugOut : Ring.Flit := DemUart.debugOut id s.uart (uartInput s i)

def awReady : Bool := !s.busReq && !s.resp && i.awValid && i.wValid

def arReady : Bool := !s.busReq && !s.resp && i.arValid && !awReady s i

def bValid : Bool := s.resp && s.busWrite

def rValid : Bool := s.resp && !s.busWrite

def nextBus : Regs :=
  if !s.busReq && !s.resp then
    if i.awValid && i.wValid then
      { s with busReq := true, busAddr := i.awAddr, busWrite := true, busWdata := i.wData }
    else if i.arValid then { s with busReq := true, busAddr := i.arAddr, busWrite := false }
    else s
  else if !s.resp then
    if busAck s (DemUart.outReady id s.uart (uartInput s i)) then
      { s with rData := busRdata s, resp := true, busReq := false }
    else s
  else if s.busWrite && i.bReady then { s with resp := false }
  else if !s.busWrite && i.rReady then { s with resp := false }
  else s

def next : Regs :=
  { nextBus id s i with
    lcr7 := nextLcr7 s
    uart := DemUart.next id s.uart (uartInput s i) }

end Signals

/-- The registers that a reset sets. -/
def IsReset (s : Regs) : Prop :=
  s.busReq = false ∧ s.resp = false ∧ s.lcr7 = false ∧ DemUart.IsReset s.uart

/-- A state after reset, with 0 in the other registers. -/
def resetRegs : Regs := ⟨false, 0, false, 0, false, 0, false, DemUart.resetRegs⟩

theorem isReset_resetRegs : IsReset resetRegs := ⟨rfl, rfl, rfl, DemUart.isReset_resetRegs⟩

end GlipOsd.DemUart.Nasti
