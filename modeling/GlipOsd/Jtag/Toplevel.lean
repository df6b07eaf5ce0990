import GlipOsd.Jtag.CdcFifo
import GlipOsd.Jtag.Discovery
import GlipOsd.Jtag.SyncFifo

/-! # The toplevel of the JTAG logic

`glip_jtag_toplevel` behind the TAP: the three state machines, which all see the same bits, the FIFOs
between the clock domains and the wiring of the resets. A step is an edge of `tck`, of `clk` or of both,
or none of them while `rst` changes. The parameter `WORD_WIDTH` is `W`, and `NUM_WORDS` is `L`.
-/

namespace GlipOsd.Jtag.Toplevel
set_option autoImplicit false

/-- What the TAP offers at an edge of `tck`, and what the flops of the FIFOs sample. -/
structure TckIn where
  tdi : Bool
  shiftDr : Bool
  updateDr : Bool
  captureDr : Bool
  debugSelect : Bool
  inSel : BitVec 5
  outSel : BitVec 5
  deriving DecidableEq

structure ClkIn (W : ℕ) where
  fifoOutData : BitVec W
  fifoOutValid : Bool
  fifoInReady : Bool
  inSel : BitVec 5
  outSel : BitVec 5
  deriving DecidableEq

structure Edge (W : ℕ) where
  rst : Bool
  tck : Option TckIn
  clk : Option (ClkIn W)
  deriving DecidableEq

/-- The modules, and as history the words that have passed the two ends of either direction: `accepted`
are those that `acc_cnt` has counted. -/
structure State (W L : ℕ) where
  input : InputFsm.State W L
  discovery : Discovery.State W
  output : OutputFsm.State W
  inFifo : CdcFifo.State 4 W
  outFifo : CdcFifo.State 4 W
  accepted : List (BitVec W)
  offered : List (BitVec W)
  taken : List (BitVec W)
  popped : List (BitVec W)

/-! ## The FIFOs between the domains -/

section Fifo
variable {W : ℕ} (f : CdcFifo.State 4 W)

/-- The edges of the two clocks that come at the same time. -/
def fifoEdge : Option (CdcFifo.WrIn 4 W) → Option (CdcFifo.RdIn 4) → CdcFifo.State 4 W
  | some i, some j => (CdcFifo.step f (.both i j)).getD f
  | some i, none => (CdcFifo.step f (.wrClk i)).getD f
  | none, some j => (CdcFifo.step f (.rdClk j)).getD f
  | none, none => f

def stored : List (BitVec W) := f.accepted.drop f.delivered.length

/-- The word that enters at an edge of the writer's clock. -/
def entering (i : Option (CdcFifo.WrIn 4 W)) : List (BitVec W) :=
  i.elim [] fun i => if i.wrEn && !f.wr.wrFull then [i.wrData] else []

def leaving (j : Option (CdcFifo.RdIn 4)) : List (BitVec W) :=
  j.elim [] fun j => if j.rdEn && !f.rd.rdEmpty then [f.rdData] else []

end Fifo

/-! ## The wiring -/

section Wiring
variable {W L : ℕ} (s : State W L) (l : Edge W)

/-- `int_rst` -/
def intRst : Bool := s.input.regs.jtagReset || l.rst

def inputIn (t : TckIn) : InputFsm.In where
  rst := intRst s l
  tdi := t.tdi
  shift := t.shiftDr && t.debugSelect
  update := t.updateDr && t.debugSelect
  capture := t.captureDr && t.debugSelect
  fifoReady := !s.inFifo.wr.wrFull

/-- The update is not gated. -/
def discoveryIn (t : TckIn) : Discovery.In := ⟨t.tdi, t.shiftDr && t.debugSelect, t.updateDr⟩

def outputIn (t : TckIn) : OutputFsm.In W where
  tdi := t.tdi
  shift := t.shiftDr && t.debugSelect
  update := t.updateDr && t.debugSelect
  inError := s.input.regs.error
  inWritten := s.input.regs.accCnt
  fifoData := s.outFifo.rdData
  fifoValid := !s.outFifo.rd.rdEmpty

def inWr : Option (CdcFifo.WrIn 4 W) := l.tck.map fun t => ⟨s.input.fifo.outValid, s.input.fifo.outFlit, t.inSel⟩

def inRd : Option (CdcFifo.RdIn 4) := l.clk.map fun c => ⟨c.fifoInReady, c.inSel⟩

def outWr : Option (CdcFifo.WrIn 4 W) := l.clk.map fun c => ⟨c.fifoOutValid, c.fifoOutData, c.outSel⟩

def outRd : Option (CdcFifo.RdIn 4) :=
  l.tck.map fun t => ⟨(OutputFsm.outputFsm s.output (outputIn s t)).2.fifoReady, t.outSel⟩

def nextInput : InputFsm.State W L := l.tck.elim s.input fun t => InputFsm.step s.input (inputIn s l t)

/-- The reset of the FIFOs between the domains is asynchronous: it is active before the edge or behind. -/
def clears : Bool := intRst s l || (nextInput s l).regs.jtagReset

/-- The words that come into `sync_fifo` and go on into `in_fifo` at this edge. -/
def pushed : List (BitVec W) := l.tck.elim [] fun t => (InputFsm.pushed s.input (inputIn s l t)).toList

def moved : List (BitVec W) := entering s.inFifo (inWr s l)

/-- The words between the state machine and the logic, and those between the logic and the host. -/
def pending : List (BitVec W) := stored s.inFifo ++ s.input.fifo.words

def outgoing : List (BitVec W) := stored s.outFifo

/-- With an external reset the history starts anew. -/
def restart : State W L :=
  { s with accepted := pending s, offered := [], taken := outgoing s, popped := [] }

end Wiring

def step {W L : ℕ} (s : State W L) (l : Edge W) : Option (State W L) :=
  let fifo (f : CdcFifo.State 4 W) := if clears s l then CdcFifo.initial f.mem else f
  let s' : State W L :=
    { input := nextInput s l
      discovery := l.tck.elim s.discovery fun t => Discovery.step L s.discovery (discoveryIn t)
      output := l.tck.elim s.output fun t => OutputFsm.step s.output (outputIn s t)
      inFifo := fifo (fifoEdge s.inFifo (inWr s l) (inRd l))
      outFifo := fifo (fifoEdge s.outFifo (outWr l) (outRd s l))
      accepted := s.accepted ++ pushed s l
      offered := s.offered ++ leaving s.inFifo (inRd l)
      taken := s.taken ++ entering s.outFifo (outWr l)
      popped := s.popped ++ leaving s.outFifo (outRd s l) }
  some (if l.rst then restart s' else s')

/-- The modules after a reset by `rst`, which the other two state machines and the cells do not see. -/
def initial {W L : ℕ} (error : Bool) (cells : Fin L → BitVec W) (discovery : Discovery.State W)
    (output : OutputFsm.State W) (inMem outMem : BitVec 4 → BitVec W) : State W L where
  input := ⟨⟨error, false, .dropPacket, 0, 0, 0, 0⟩, .reset (List.ofFn cells)⟩
  discovery := discovery
  output := output
  inFifo := CdcFifo.initial inMem
  outFifo := CdcFifo.initial outMem
  accepted := []
  offered := []
  taken := []
  popped := []

end GlipOsd.Jtag.Toplevel
