import GlipOsd.CircularBuffer.Interleaved

/-! # The threads of the cypressfx2 backend

`usb_write_thread` and `usb_read_thread` next to a user who calls `gb_cypressfx2_write` and
`gb_cypressfx2_read`. A step of a thread is a load of `wr_ptr` or `rd_ptr` in a level, with what the thread computes
from it, or what a call of `cbuf.c` does behind its level check, or a bulk transfer. A failed assertion ends the
process. `sem_timedwait` returns at any time.
-/

namespace GlipOsd.CypressFx2
open CircularBuffer Threads
set_option autoImplicit false

def usbTransferPacketSizeBytes : ℕ := 512

def usbMaxPacketsPerTransfer : ℕ := 64

def usbBufSize : ℕ := usbTransferPacketSizeBytes * usbMaxPacketsPerTransfer * 2

def getFifoWidth : ℕ := 2

inductive UsbResult
  | success
  | timeout
  | error
  deriving DecidableEq

/-- The counters are for the next call that the thread makes; `transferData` is `none` while nothing was written to
it. -/
inductive WriteThread
  | wait
  | level (pc : LevelPc)
  | peekLevel (transferLen : ℕ) (pc : LevelPc)
  | peek (transferLen : ℕ)
  | transfer (transferData : Option Ptr) (transferLen : ℕ)
  | discardLevel (transferLenSent : ℕ) (pc : LevelPc)
  | discard (transferLenSent : ℕ)

inductive ReadThread
  | wait
  | level (pc : LevelPc)
  | reserveLevel (bufSize : ℕ) (pc : LevelPc)
  | reserve (bufSize : ℕ)
  | transfer (bufSize : ℕ)
  | commit (received : ℕ)

/-- The first constructors are in `gb_cypressfx2_write`, the last in `gb_cypressfx2_read`. -/
inductive User
  | idle
  | writeFree (data : List UInt8) (pc : LevelPc)
  | writeLevel (data : List UInt8) (pc : LevelPc)
  | write (data : List UInt8)
  | writeNotify (pc : LevelPc)
  | readFill (size : ℕ) (pc : LevelPc)
  | readLevel (sizeReadReq : ℕ) (pc : LevelPc)
  | read (sizeReadReq : ℕ)
  | readNotify (pc : LevelPc)

/-- A bulk transfer to the device: the fill level when the thread read `wr_ptr` for it last, the fill level at the
transfer, and the length. -/
structure Transfer where
  level : ℕ
  fill : ℕ
  len : ℕ

/-- `buf` is the variable of `usb_read_thread`. The fields from `level` on are history: the fill level when
`usb_write_thread` read `wr_ptr` last to choose a length, its transfers, the four streams, and whether an assertion
or a call of `cbuf.c` has failed in one of the two threads. -/
structure System where
  writeBuf : Cbuf
  readBuf : Cbuf
  writeSem : ℕ
  readSem : ℕ
  writeThread : WriteThread
  readThread : ReadThread
  buf : Option Ptr
  user : User
  aborted : Bool
  level : ℕ
  transfers : List Transfer
  accepted : List UInt8
  moved : List UInt8
  received : List UInt8
  read : List UInt8
  failed : Bool

/-- Behind `gb_cypressfx2_open`. -/
def start : System where
  writeBuf := cbufSetHintMaxReadSize (cbufInit usbBufSize) (usbMaxPacketsPerTransfer * usbTransferPacketSizeBytes)
  readBuf := cbufInit usbBufSize
  writeSem := 0
  readSem := 0
  writeThread := .wait
  readThread := .wait
  buf := none
  user := .idle
  aborted := false
  level := 0
  transfers := []
  accepted := []
  moved := []
  received := []
  read := []
  failed := false

/-- An assertion fails. -/
def System.abort (s : System) : System := { s with aborted := true, failed := true }

/-- One load of a level, with what follows when it was the last one. -/
def levelStep (buf : Cbuf) (pc : LevelPc) (p : Shared) (busy : LevelPc → System) (known : ℕ → System) : Option System :=
  (pc.load buf p).map fun pc =>
    match pc.next buf.size with
    | .done level => known level
    | pc => busy pc

/-! ## `usb_write_thread` -/

def transferLen (writeBufFillLevel : ℕ) : ℕ :=
  if writeBufFillLevel ≥ usbTransferPacketSizeBytes then
    let numPackets := writeBufFillLevel / usbTransferPacketSizeBytes
    let numPackets := if numPackets > usbMaxPacketsPerTransfer then usbMaxPacketsPerTransfer else numPackets
    numPackets * usbTransferPacketSizeBytes
  else writeBufFillLevel - writeBufFillLevel % getFifoWidth

/-- From the fill level to the call of `cbuf_peek`, which does nothing for the length 0. -/
def sized (s : System) (writeBufFillLevel : ℕ) : System :=
  if writeBufFillLevel = 0 then { s with writeThread := .wait }
  else
    let len := transferLen writeBufFillLevel
    if len % getFifoWidth ≠ 0 then s.abort
    else if len = 0 then { s with writeThread := .transfer none 0 }
    else { s with writeThread := .peekLevel len (.isFull none none) }

def writeThreadStep (s : System) (p : Shared) : Option System :=
  match s.writeThread with
  | .wait => some { s with writeSem := s.writeSem - 1, writeThread := .level (.isFull none none) }
  | .level pc =>
    let s := { s with level := if p = .wrPtr then cbufFillLevel s.writeBuf else s.level }
    levelStep s.writeBuf pc p (fun pc => { s with writeThread := .level pc }) (sized s)
  | .peekLevel len pc =>
    levelStep s.writeBuf pc p (fun pc => { s with writeThread := .peekLevel len pc }) fun fillLevel =>
      if fillLevel < len then s.abort else { s with writeThread := .peek len }
  | .discardLevel sent pc =>
    levelStep s.writeBuf pc p (fun pc => { s with writeThread := .discardLevel sent pc }) fun fillLevel =>
      if fillLevel < sent then { s with writeThread := .wait, failed := true } else { s with writeThread := .discard sent }
  | .discard sent => some { s with writeBuf := advanceRdPtr s.writeBuf sent, writeThread := .wait }
  | .peek _ | .transfer _ _ => none

def writePeek (s : System) (alloc : Alloc) : Option System :=
  match s.writeThread with
  | .peek len =>
    match peekChecked s.writeBuf alloc len with
    | (.ok p, buf) => some { s with writeBuf := buf, writeThread := .transfer (some p) len }
    | (.error _, buf) => some { s.abort with writeBuf := buf }
  | _ => none

/-- A transfer that moves the first `sent` bytes; it is one that the library makes. -/
def writeTransfer (s : System) (rv : UsbResult) (sent : ℕ) : Option System :=
  match s.writeThread with
  | .transfer data len =>
    if sent ≤ len ∧ sent % 2 = 0 ∧ (rv = .error → sent = 0) then
      let s := { s with
        moved := s.moved ++ (data.map fun p => cbufLoad s.writeBuf p sent).getD []
        transfers := s.transfers ++ [Transfer.mk s.level (cbufFillLevel s.writeBuf) len] }
      if rv = .error then
        if sent ≠ 0 then some s.abort else some { s with writeThread := .wait }
      else some { s with writeThread := .discardLevel sent (.isFull none none) }
    else none
  | _ => none

/-! ## `usb_read_thread` -/

def bufSize (freeLevel : ℕ) : ℕ :=
  let numPackets := freeLevel / usbTransferPacketSizeBytes
  let numPackets := if numPackets > usbMaxPacketsPerTransfer then usbMaxPacketsPerTransfer else numPackets
  numPackets * usbTransferPacketSizeBytes

/-- The results of `cbuf_reserve` and `cbuf_commit` are dropped. -/
def readThreadStep (s : System) (p : Shared) : Option System :=
  match s.readThread with
  | .wait => some { s with readSem := s.readSem - 1, readThread := .level (.isFull none none) }
  | .level pc =>
    levelStep s.readBuf pc p (fun pc => { s with readThread := .level pc }) fun fillLevel =>
      let size := bufSize (s.readBuf.size - fillLevel)
      if size = 0 then { s with readThread := .wait } else { s with readThread := .reserveLevel size (.isFull none none) }
  | .reserveLevel size pc =>
    levelStep s.readBuf pc p (fun pc => { s with readThread := .reserveLevel size pc }) fun fillLevel =>
      if size > s.readBuf.size - fillLevel then { s with readThread := .transfer size, failed := true }
      else { s with readThread := .reserve size }
  | .commit received => s.buf.map fun p => { s with readBuf := cbufCommit s.readBuf p received, readThread := .wait }
  | .reserve _ | .transfer _ => none

def readReserve (s : System) (alloc : Alloc) : Option System :=
  match s.readThread with
  | .reserve size =>
    match reserveChecked s.readBuf alloc size with
    | (.ok p, buf) => some { s with readBuf := buf, buf := some p, readThread := .transfer size }
    | (.error _, buf) => some { s with readBuf := buf, readThread := .transfer size, failed := true }
  | _ => none

/-- A transfer that gives `bytes`. -/
def readTransfer (s : System) (rv : UsbResult) (bytes : List UInt8) : Option System :=
  match s.readThread, s.buf with
  | .transfer size, some p =>
    if bytes.length ≤ size ∧ bytes.length % 2 = 0 ∧ (rv = .error → bytes = []) then
      some { s with
        readBuf := cbufStore s.readBuf p 0 bytes
        received := s.received ++ bytes
        readThread := if rv = .error then .wait else .commit bytes.length }
    else none
  | _, _ => none

/-! ## The user -/

def callWrite (s : System) (channel : ℕ) (data : List UInt8) : Option System :=
  match s.user with
  | .idle => if channel ≠ 0 then some s else some { s with user := .writeFree data (.isFull none none) }
  | _ => none

def callRead (s : System) (channel size : ℕ) : Option System :=
  match s.user with
  | .idle => if channel ≠ 0 then some s else some { s with user := .readFill size (.isFull none none) }
  | _ => none

/-- `sem_post`, if the value is 0. -/
def notify (sem : ℕ) (enough : Bool) : ℕ := if enough && sem == 0 then sem + 1 else sem

/-- What `gb_cypressfx2_write` reports in `size_written` counts as accepted, also when the result of `cbuf_write` that
it drops is an error. -/
def userStep (s : System) (p : Shared) : Option System :=
  match s.user with
  | .idle => none
  | .writeFree data pc =>
    levelStep s.writeBuf pc p (fun pc => { s with user := .writeFree data pc }) fun fillLevel =>
      let bufSizeFree := s.writeBuf.size - fillLevel
      let sizeWritten := if data.length > bufSizeFree then bufSizeFree else data.length
      { s with user := .writeLevel (data.take sizeWritten) (.isFull none none) }
  | .writeLevel data pc =>
    levelStep s.writeBuf pc p (fun pc => { s with user := .writeLevel data pc }) fun fillLevel =>
      if data.length > s.writeBuf.size - fillLevel then
        { s with user := .writeNotify (.isFull none none), accepted := s.accepted ++ data }
      else { s with user := .write data }
  | .write data =>
    some { s with
      writeBuf := writeChecked s.writeBuf data
      accepted := s.accepted ++ data
      user := .writeNotify (.isFull none none) }
  | .writeNotify pc =>
    levelStep s.writeBuf pc p (fun pc => { s with user := .writeNotify pc }) fun fillLevel =>
      { s with writeSem := notify s.writeSem (fillLevel ≥ usbBufSize / 2), user := .idle }
  | .readFill size pc =>
    levelStep s.readBuf pc p (fun pc => { s with user := .readFill size pc }) fun fillLevel =>
      let sizeReadReq := if size > fillLevel then fillLevel else size
      if sizeReadReq = 0 then { s with user := .readNotify (.isFull none none) }
      else { s with user := .readLevel sizeReadReq (.isFull none none) }
  | .readLevel size pc =>
    levelStep s.readBuf pc p (fun pc => { s with user := .readLevel size pc }) fun fillLevel =>
      if fillLevel < size then { s with user := .idle } else { s with user := .read size }
  | .read size =>
    let r := readChecked s.readBuf size
    some { s with readBuf := r.2, read := s.read ++ r.1, user := .readNotify (.isFull none none) }
  | .readNotify pc =>
    levelStep s.readBuf pc p (fun pc => { s with user := .readNotify pc }) fun fillLevel =>
      { s with
        readSem := notify s.readSem (s.readBuf.size - fillLevel ≥ usbTransferPacketSizeBytes)
        user := .idle }

/-! ## Interleavings -/

/-- The next step of a thread, with what comes from outside: which of two loads is next, what `realloc` does, what a
transfer does. -/
inductive Label
  | writeThread (p : Shared)
  | writePeek (alloc : Alloc)
  | writeTransfer (rv : UsbResult) (sent : ℕ)
  | readThread (p : Shared)
  | readReserve (alloc : Alloc)
  | readTransfer (rv : UsbResult) (bytes : List UInt8)
  | callWrite (channel : ℕ) (data : List UInt8)
  | callRead (channel size : ℕ)
  | user (p : Shared)

def step (s : System) (l : Label) : Option System :=
  if s.aborted then none
  else
    match l with
    | .writeThread p => writeThreadStep s p
    | .writePeek alloc => writePeek s alloc
    | .writeTransfer rv sent => writeTransfer s rv sent
    | .readThread p => readThreadStep s p
    | .readReserve alloc => readReserve s alloc
    | .readTransfer rv bytes => readTransfer s rv bytes
    | .callWrite channel data => callWrite s channel data
    | .callRead channel size => callRead s channel size
    | .user p => userStep s p

/-! ## What is claimed -/

/-- Bytes that are moved, but not yet discarded. -/
def WriteThread.pending : WriteThread → ℕ
  | .discardLevel sent _ | .discard sent => sent
  | _ => 0

/-- Bytes that are received, but not yet committed. -/
def System.uncommitted (s : System) : List UInt8 :=
  match s.readThread, s.buf with
  | .commit received, some p => cbufLoad s.readBuf p received
  | _, _ => []

structure Transfer.Ok (t : Transfer) : Prop where
  even : t.len % 2 = 0
  le_level : t.len ≤ t.level
  le_fill : t.len ≤ t.fill
  le_max : t.len ≤ 64 * 512
  pos : 2 ≤ t.level → t.len ≠ 0

structure Conserved (s : System) : Prop where
  outgoing : s.moved ++ (contents s.writeBuf).drop s.writeThread.pending = s.accepted
  incoming : s.read ++ (contents s.readBuf ++ s.uncommitted) = s.received
  lengths : ∀ t ∈ s.transfers, t.Ok
  calls : s.failed = false

/-- In `cbuf_peek` and in a `cbuf_discard` of at least one byte, the pointers loaded for the subtraction of
`cbuf_fill_level` are not those of a full buffer; a temporary block that is too small can be allocated. -/
def InTime (s : System) : Label → Prop
  | .writeThread p =>
    match s.writeThread with
    | .peekLevel n pc | .discardLevel n pc =>
      n ≠ 0 → ∀ pc', pc.load s.writeBuf p = some pc' → pc'.filled s.writeBuf.size = false
    | _ => True
  | .writePeek alloc => ∀ n, s.writeThread = .peek n → PeekServed s.writeBuf alloc n
  | .readReserve alloc => ∀ n, s.readThread = .reserve n → ReserveServed s.readBuf alloc n
  | _ => True

instance (s : System) : ∀ l, Decidable (InTime s l)
  | .writeThread p =>
    match hw : s.writeThread with
    | .peekLevel n pc | .discardLevel n pc =>
      decidable_of_iff (n ≠ 0 → ∀ pc' ∈ pc.load s.writeBuf p, pc'.filled s.writeBuf.size = false)
        (by simp only [InTime, hw, Option.mem_def])
    | .wait | .level _ | .peek _ | .transfer _ _ | .discard _ => isTrue (by simp only [InTime, hw])
  | .writePeek alloc =>
    match hw : s.writeThread with
    | .peek n => decidable_of_iff (PeekServed s.writeBuf alloc n) (by simp [InTime, hw])
    | .wait | .level _ | .peekLevel _ _ | .transfer _ _ | .discardLevel _ _ | .discard _ => isTrue (by simp [InTime, hw])
  | .readReserve alloc =>
    match hr : s.readThread with
    | .reserve n => decidable_of_iff (ReserveServed s.readBuf alloc n) (by simp [InTime, hr])
    | .wait | .level _ | .reserveLevel _ _ | .transfer _ | .commit _ => isTrue (by simp [InTime, hr])
  | .writeTransfer _ _ | .readThread _ | .readTransfer _ _ | .callWrite _ _ | .callRead _ _ | .user _ => isTrue trivial

end GlipOsd.CypressFx2
