import GlipOsd.Dii

/-! # The status and control interface

`osd_statctrlif`, which serves the register accesses of a debug module: the registers, the next state
of a clock cycle and the outputs. All outputs are functions of the registers.
-/

namespace GlipOsd.Statctrlif
set_option autoImplicit false

inductive State
  | idle | start | addr | write | respStart | respSrc | respValue | drop | extStart | extWait
  deriving DecidableEq, Repr

/-- The parameters of the module, and its `id`. -/
structure Params where
  modid : BitVec 16
  modversion : BitVec 16
  canStall : Bool
  id : BitVec 10

/-- The registers; `w` is `MAX_REG_SIZE`. -/
structure Regs (w : ℕ) where
  state : State
  modCsStall : Bool
  reqWrite : Bool
  reqBurst : Bool
  reqSize : BitVec 2
  reqAddr : BitVec 16
  reqrespValue : BitVec w
  respDest : BitVec 10
  respError : Bool
  deriving DecidableEq

structure Input where
  debugIn : DiiFlit
  debugOutReady : Bool
  regAck : Bool
  regErr : Bool
  regRdata : BitVec 16
  deriving DecidableEq

def reqSize16 : BitVec 2 := 0b01
def regModid : BitVec 16 := 0
def regVersion : BitVec 16 := 1
def regCs : BitVec 16 := 3
def csStall : BitVec 5 := 1

variable {w : ℕ}

def addrIsExt (data : BitVec 16) : Bool := data.extractLsb' 9 7 != 0

/-! ## Outputs -/

def debugInReady (s : Regs w) : Bool :=
  match s.state with
  | .idle | .start | .addr | .write | .drop => true
  | _ => false

def debugOut (p : Params) (s : Regs w) : DiiFlit :=
  match s.state with
  | .respStart => ⟨true, false, s.respDest.zeroExtend 16⟩
  | .respSrc =>
    ⟨true, s.respError || s.reqWrite, 0#4 ++ BitVec.ofBool s.reqWrite ++ BitVec.ofBool s.respError ++ p.id⟩
  | .respValue => ⟨true, true, s.reqrespValue.setWidth 16⟩
  | _ => .idle

def regRequest (s : Regs w) : Bool :=
  match s.state with
  | .extStart => true
  | _ => false

def regWdata (s : Regs w) : BitVec 16 := s.reqrespValue.setWidth 16

def stall (p : Params) (s : Regs w) : Bool := if p.canStall then s.modCsStall else false

/-! ## The next state -/

/-- `STATE_START`: the header is taken over in every cycle. -/
def decodeHeader (s : Regs w) (data : BitVec 16) : Regs w :=
  { s with
    reqWrite := data.getLsbD 12
    reqBurst := data.getLsbD 13
    reqSize := data.extractLsb' 10 2
    respDest := data.extractLsb' 0 10
    respError := false }

/-- `STATE_ADDR` with a local address: what happens in every cycle. -/
def decodeAddr (p : Params) (s : Regs w) (data : BitVec 16) : Regs w :=
  if s.reqWrite then
    if s.reqSize ≠ reqSize16 then { s with respError := true }
    else { s with reqAddr := data, respError := data != regCs }
  else if data = regModid then { s with reqrespValue := p.modid.setWidth w }
  else if data = regVersion then { s with reqrespValue := p.modversion.setWidth w }
  else { s with respError := true }

/-- `STATE_ADDR` with a local address that is valid. -/
def acceptAddr (s : Regs w) (last : Bool) : Regs w :=
  if s.reqWrite then
    if last then { s with respError := true, state := .respStart }
    else if s.respError then { s with state := .respStart }
    else { s with state := .write }
  else if last then { s with state := .respStart }
  else { s with state := .drop }

/-- `STATE_WRITE` with a valid value. -/
def acceptValue (p : Params) (s : Regs w) (data : BitVec 16) : Regs w :=
  if s.reqAddr = regCs then
    if data.extractLsb' 11 5 = csStall then
      if p.canStall then { s with modCsStall := data.getLsbD 0 } else { s with respError := true }
    else { s with respError := true }
  else s

def next (p : Params) (s : Regs w) (i : Input) : Regs w :=
  let data := i.debugIn.data
  match s.state with
  | .idle => if i.debugIn.valid then { s with state := .start } else s
  | .start =>
    let s := decodeHeader s data
    if i.debugIn.valid then
      { s with state := if data.extractLsb' 14 2 ≠ 0 then .drop else .addr }
    else s
  | .addr =>
    if addrIsExt data then { s with reqAddr := data, state := .extStart }
    else
      let s := decodeAddr p s data
      if i.debugIn.valid then acceptAddr s i.debugIn.last else s
  | .write =>
    if i.debugIn.valid then
      let s := acceptValue p s data
      { s with state := if i.debugIn.last then .respStart else .drop }
    else s
  | .respStart => if i.debugOutReady then { s with state := .respSrc } else s
  | .respSrc =>
    if i.debugOutReady then { s with state := if s.reqWrite then .idle else .respValue } else s
  | .respValue => if i.debugOutReady then { s with state := .idle } else s
  | .extStart =>
    let s := { s with reqrespValue := i.regRdata.setWidth w }
    if i.regAck || i.regErr then { s with respError := i.regErr, state := .respStart } else s
  | .drop => if i.debugIn.valid && i.debugIn.last then { s with state := .idle } else s
  | .extWait => s

/-- The registers that a reset sets. -/
def IsReset (s : Regs w) : Prop := s.state = .idle ∧ s.modCsStall = true

instance (s : Regs w) : Decidable (IsReset s) := inferInstanceAs (Decidable (_ ∧ _))

/-- A state after reset, with 0 in the other registers. -/
def resetRegs : Regs 16 := ⟨.idle, true, false, false, 0, 0, 0, 0, false⟩

/-- The instance in the system control module, with `id` 0. -/
def scmParams : Params := ⟨1, 0, false, 0⟩

/-! ## The state after a cycle -/

variable {p : Params} {s : Regs w} {i : Input}

@[simp] theorem decodeHeader_state (s : Regs w) (data : BitVec 16) :
    (decodeHeader s data).state = s.state := rfl

@[simp] theorem decodeAddr_state (p : Params) (s : Regs w) (data : BitVec 16) :
    (decodeAddr p s data).state = s.state := by
  unfold decodeAddr
  split_ifs <;> rfl

@[simp] theorem decodeAddr_reqWrite (p : Params) (s : Regs w) (data : BitVec 16) :
    (decodeAddr p s data).reqWrite = s.reqWrite := by
  unfold decodeAddr
  split_ifs <;> rfl

/-- A local write is refused unless it is a 16 bit write to `REG_CS`. -/
theorem decodeAddr_respError_of_write (hw : s.reqWrite = true) (data : BitVec 16) :
    (decodeAddr p s data).respError = true ↔ ¬ (s.reqSize = reqSize16 ∧ data = regCs) := by
  unfold decodeAddr
  rw [if_pos hw]
  split_ifs with hsize
  · simp only [true_iff]
    exact fun h => hsize h.1
  · rw [not_not] at hsize
    simp only [hsize, true_and, bne_iff_ne, ne_eq]

end GlipOsd.Statctrlif
