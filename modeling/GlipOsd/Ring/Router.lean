import GlipOsd.Dii
import GlipOsd.Foundations.Runs

/-! # The debug ring

`ring_router_demux`, `ring_router_mux`, `ring_router_mux_rr` and `dii_buffer`, the router made of
them and the ring of `PORTS` routers: chain 0 runs through all routers into chain 1, which runs
through all routers again and is dumped at its end. Packets are injected into chain 0 only.
-/

namespace GlipOsd.Ring
set_option autoImplicit false

/-- A flit on the ring. Noted with it, and seen by no module, are the port where it was injected and
the destination of its packet. -/
structure Flit extends DiiFlit where
  source : ℕ
  dest : BitVec 10
  deriving DecidableEq

def Flit.idle : Flit := ⟨DiiFlit.idle, 0, 0⟩

/-- `data[9:0]` -/
def destOf (flit : DiiFlit) : BitVec 10 := flit.data.extractLsb' 0 10

/-- A flit that is valid on this way only with `en`. -/
def Flit.gate (flit : Flit) (en : Bool) : Flit := { flit with valid := en && flit.valid }

/-! ## The demultiplexer -/

/-- `wormLocal` has no reset value. -/
structure Demux where
  worm : Bool
  wormLocal : Bool
  deriving DecidableEq

namespace Demux

def reset : Demux := ⟨false, false⟩

variable (d : Demux) (id : BitVec 10) (inRing : Flit)

def switchLocal : Bool := if d.worm then d.wormLocal else destOf inRing.toDiiFlit == id

def outLocal : Flit := inRing.gate (d.switchLocal id inRing)

def outRing : Flit := inRing.gate !(d.switchLocal id inRing)

def inRingReady (outLocalReady outRingReady : Bool) : Bool :=
  if d.switchLocal id inRing then outLocalReady else outRingReady

def next (ready : Bool) : Demux :=
  if !d.worm then ⟨ready && inRing.valid && !inRing.last, destOf inRing.toDiiFlit == id⟩
  else if ready && inRing.valid && inRing.last then { d with worm := false }
  else d

end Demux

/-! ## The multiplexers -/

/-- The outputs and the next state of a multiplexer with two inputs; `out` is idle where the source
has `x`. -/
structure MuxOut (σ : Type) where
  next : σ
  out : Flit
  ready0 : Bool
  ready1 : Bool

inductive MuxState
  | noworm
  | wormLocal
  | wormRing
  deriving DecidableEq

/-- `ring_router_mux`: the ring has priority; input 0 is the ring and input 1 the local one. -/
def mux (state : MuxState) (inRing inLocal : Flit) (outReady : Bool) : MuxOut MuxState :=
  match state with
  | .noworm =>
    if inRing.valid then
      ⟨if !inRing.last then .wormRing else .noworm, inRing, outReady, false⟩
    else if inLocal.valid then
      ⟨if !inLocal.last then .wormLocal else .noworm, inLocal, false, outReady⟩
    else ⟨.noworm, Flit.idle, false, false⟩
  | .wormRing =>
    ⟨if inRing.last && inRing.valid && outReady then .noworm else .wormRing, inRing, outReady, false⟩
  | .wormLocal =>
    ⟨if inLocal.last && inLocal.valid && outReady then .noworm else .wormLocal, inLocal, false,
      outReady⟩

inductive MuxRrState
  | noworm0
  | noworm1
  | worm0
  | worm1
  deriving DecidableEq

/-- `ring_router_mux_rr` -/
def muxRr (state : MuxRrState) (in0 in1 : Flit) (outReady : Bool) : MuxOut MuxRrState :=
  match state with
  | .noworm0 =>
    if in0.valid then ⟨if !in0.last then .worm0 else .noworm0, in0, outReady, false⟩
    else if in1.valid then ⟨if !in1.last then .worm1 else .noworm0, in1, false, outReady⟩
    else ⟨.noworm0, Flit.idle, false, false⟩
  | .noworm1 =>
    if in1.valid then ⟨if !in1.last then .worm1 else .noworm1, in1, false, outReady⟩
    else if in0.valid then ⟨if !in0.last then .worm0 else .noworm1, in0, outReady, false⟩
    else ⟨.noworm1, Flit.idle, false, false⟩
  | .worm0 =>
    ⟨if in0.last && in0.valid && outReady then .noworm1 else .worm0, in0, outReady, false⟩
  | .worm1 =>
    ⟨if in1.last && in1.valid && outReady then .noworm0 else .worm1, in1, false, outReady⟩

/-! ## The buffer -/

/-- The shift register, newest flit first, the read pointer and the valid bit. -/
structure Buffer where
  data : List Flit
  rp : ℕ
  regOutValid : Bool

namespace Buffer

/-- The shift register has no reset. -/
def reset (data : List Flit) : Buffer := ⟨data, 0, false⟩

variable (size : ℕ) (b : Buffer)

def flitOut : Flit := { b.data.getD b.rp Flit.idle with valid := b.regOutValid }

def flitInReady : Bool := b.rp != size - 1 || !b.regOutValid

def next (flitIn : Flit) (flitOutReady : Bool) : Buffer :=
  let flitInFire := flitIn.valid && b.flitInReady size
  let flitOutFire := b.flitOut.valid && flitOutReady
  { data := if flitInFire then (flitIn :: b.data).take size else b.data
    rp :=
      if flitInFire && !flitOutFire && b.regOutValid then b.rp + 1
      else if flitOutFire && !flitInFire && b.rp != 0 then b.rp - 1
      else b.rp
    regOutValid :=
      if flitIn.valid then true
      else if flitOutReady && b.rp == 0 then false
      else b.regOutValid }

end Buffer

/-! ## The router and the ring -/

structure Router where
  demux0 : Demux
  demux1 : Demux
  muxLocal : MuxRrState
  muxRing0 : MuxState
  buffer0 : Buffer
  buffer1 : Buffer

def Router.reset (data0 data1 : List Flit) : Router :=
  ⟨Demux.reset, Demux.reset, .noworm0, .noworm, Buffer.reset data0, Buffer.reset data1⟩

/-- The routers, of which those below `PORTS` are there. As history: the flits accepted and delivered
at the ports, the destination of a packet that is injected in part, and the flit that was offered and
not accepted in the last cycle. -/
structure State where
  routers : ℕ → Router
  injected : ℕ → List Flit
  delivered : ℕ → List Flit
  injecting : ℕ → Option (BitVec 10)
  offered : ℕ → Option DiiFlit

def initial (data0 data1 : ℕ → List Flit) : State :=
  ⟨fun i => Router.reset (data0 i) (data1 i), fun _ => [], fun _ => [], fun _ => none, fun _ => none⟩

structure Input where
  diiIn : ℕ → DiiFlit
  diiOutReady : ℕ → Bool

/-- The identifier of a router is cut to 10 bits. -/
def routerId (i : ℕ) : BitVec 10 := BitVec.ofNat 10 i

section Signals
variable (PORTS BUFFER_SIZE : ℕ) (s : State) (inp : Input) (i : ℕ)

/-- `chain[0][i]` -/
def chain0 : ℕ → Flit
  | 0 => Flit.idle
  | i + 1 => (s.routers i).buffer0.flitOut

/-- `chain[1][i]` -/
def chain1 : ℕ → Flit
  | 0 => chain0 s PORTS
  | i + 1 => (s.routers i).buffer1.flitOut

/-- The flit at the local input, with its notes. -/
def localIn : Flit := ⟨inp.diiIn i, i, (s.injecting i).getD (destOf (inp.diiIn i))⟩

def ringLocal0 : Flit := (s.routers i).demux0.outLocal (routerId i) (chain0 s i)

def ringLocal1 : Flit := (s.routers i).demux1.outLocal (routerId i) (chain1 PORTS s i)

def ringFwd0 : Flit := (s.routers i).demux0.outRing (routerId i) (chain0 s i)

def ringFwd1 : Flit := (s.routers i).demux1.outRing (routerId i) (chain1 PORTS s i)

def muxLocal : MuxOut MuxRrState :=
  muxRr (s.routers i).muxLocal (ringLocal0 s i) (ringLocal1 PORTS s i) (inp.diiOutReady i)

def muxRing0 : MuxOut MuxState :=
  mux (s.routers i).muxRing0 (ringFwd0 s i) (localIn s inp i)
    ((s.routers i).buffer0.flitInReady BUFFER_SIZE)

/-- `chain_ready[1][i]` -/
def chainReady1 : Bool :=
  if i < PORTS then
    (s.routers i).demux1.inRingReady (routerId i) (chain1 PORTS s i) (muxLocal PORTS s inp i).ready1
      ((s.routers i).buffer1.flitInReady BUFFER_SIZE)
  else true

/-- `chain_ready[0][i]` -/
def chainReady0 : Bool :=
  if i < PORTS then
    (s.routers i).demux0.inRingReady (routerId i) (chain0 s i) (muxLocal PORTS s inp i).ready0
      (muxRing0 BUFFER_SIZE s inp i).ready0
  else chainReady1 PORTS BUFFER_SIZE s inp 0

def accepted : Bool := (localIn s inp i).valid && (muxRing0 BUFFER_SIZE s inp i).ready1

def nextRouter : Router where
  demux0 := (s.routers i).demux0.next (routerId i) (chain0 s i)
    (chainReady0 PORTS BUFFER_SIZE s inp i)
  demux1 := (s.routers i).demux1.next (routerId i) (chain1 PORTS s i)
    (chainReady1 PORTS BUFFER_SIZE s inp i)
  muxLocal := (muxLocal PORTS s inp i).next
  muxRing0 := (muxRing0 BUFFER_SIZE s inp i).next
  buffer0 := (s.routers i).buffer0.next BUFFER_SIZE (muxRing0 BUFFER_SIZE s inp i).out
    (chainReady0 PORTS BUFFER_SIZE s inp (i + 1))
  buffer1 := (s.routers i).buffer1.next BUFFER_SIZE (ringFwd1 PORTS s i)
    (chainReady1 PORTS BUFFER_SIZE s inp (i + 1))

end Signals

def next (PORTS BUFFER_SIZE : ℕ) (s : State) (inp : Input) : State where
  routers := nextRouter PORTS BUFFER_SIZE s inp
  injected i :=
    if accepted BUFFER_SIZE s inp i then s.injected i ++ [localIn s inp i] else s.injected i
  delivered i :=
    if (muxLocal PORTS s inp i).out.valid && inp.diiOutReady i then
      s.delivered i ++ [(muxLocal PORTS s inp i).out]
    else s.delivered i
  injecting i :=
    if accepted BUFFER_SIZE s inp i then
      if (localIn s inp i).last then none else some (localIn s inp i).dest
    else s.injecting i
  offered i :=
    if (localIn s inp i).valid && !accepted BUFFER_SIZE s inp i then some (inp.diiIn i) else none

/-- Valid and data are held until the flit is accepted. -/
def Held (PORTS : ℕ) (s : State) (inp : Input) : Prop :=
  ∀ i < PORTS, ∀ flit ∈ s.offered i, inp.diiIn i = flit

instance (PORTS : ℕ) (s : State) (inp : Input) : Decidable (Held PORTS s inp) :=
  inferInstanceAs (Decidable (∀ i < PORTS, _))

def step (PORTS BUFFER_SIZE : ℕ) (s : State) (inp : Input) : Option State :=
  if Held PORTS s inp then some (next PORTS BUFFER_SIZE s inp) else none

end GlipOsd.Ring
