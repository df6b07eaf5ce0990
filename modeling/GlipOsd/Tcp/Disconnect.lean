import GlipOsd.Tcp.Server
import GlipOsd.Tcp.Words

/-! # The simulator and the server thread

The calls of `glip_tcp_toplevel` outside reset and the steps of the server thread interleave in any order, over
any number of connections. Every byte carries the number of the connection it was received on; this and the
counts are history, which no step of the program reads.
-/

namespace GlipOsd.Tcp.Disconnect
open Runs
set_option autoImplicit false

/-- The next call of the simulator, with the mask that `next_cycle` has returned. -/
inductive SimPc
  | connected
  | nextCycle
  | control (mask : Mask)
  | read (mask : Mask)
  | readAck
  | writeData
  deriving DecidableEq

/-- `conn` connections have been established and `reset` has been called `resets` times; `cycleConn` and
`cycleResets` are these counts at the last `next_cycle`. The lists give the connection of each byte in the queues, in
the items and in the word on `fifo_in`. For every byte that the logic was handed, `handed` has the connection
at that time and that of the byte. -/
structure System where
  tcp : GlipTcp
  server : ServerPc
  sim : SimPc
  comRst : Bool
  logicRst : Bool
  valid : Bool
  data : BitVec 64
  ready : Bool
  failed : Bool
  conn : ℕ
  resets : ℕ
  cycleConn : ℕ
  cycleResets : ℕ
  dataFrom : List ℕ
  controlFrom : List ℕ
  readFrom : List ℕ
  messageFrom : List ℕ
  portFrom : List ℕ
  handed : List (ℕ × ℕ)

inductive Event
  | server (answer : Answer)
  | negedge
  | readAck (ready : Bool)
  | writeData (item : Option (BitVec 64))
  deriving DecidableEq

def start (width : ℕ) : System :=
  ⟨initial width, .accept, .connected, false, false, false, 0, false, false, 0, 0, 0, 0, [], [], [], [], [], []⟩

/-- The history of a step of the server thread. -/
def serverStep (s : System) (tcp : GlipTcp) (server : ServerPc) : System :=
  match s.server with
  | .reset | .resetAgain =>
    { s with tcp, server, resets := s.resets + 1, dataFrom := [], controlFrom := [], readFrom := [], messageFrom := [] }
  | .connect => { s with tcp, server, conn := s.conn + 1 }
  | _ => { s with
    tcp, server
    dataFrom := s.dataFrom ++ List.replicate (tcp.dataIn.length - s.tcp.dataIn.length) s.conn
    controlFrom := s.controlFrom ++ List.replicate (tcp.control.length - s.tcp.control.length) s.conn }

section Step
variable (undef : UInt8 → ℕ → BitVec 32)

/-- The calls at the negative edge of the clock. The value of a control message stays in its item. -/
def negedge (s : System) : Option System :=
  match s.sim with
  | .connected => some { s with comRst := !s.tcp.connected, sim := .nextCycle }
  | .nextCycle =>
    match nextCycle undef s.tcp with
    | some (mask, tcp) =>
      let moved := s.tcp.dataIn.length - tcp.dataIn.length
      let movedControl := s.tcp.control.length - tcp.control.length
      some { s with
        tcp, sim := .control mask, cycleConn := s.conn, cycleResets := s.resets
        readFrom := s.readFrom ++ s.dataFrom.take moved
        dataFrom := s.dataFrom.drop moved
        messageFrom := s.messageFrom ++ s.controlFrom.take movedControl
        controlFrom := s.controlFrom.drop movedControl }
    | none => some { s with failed := true }
  | .control mask =>
    if mask.controlAvailable then
      let (data, tcp) := controlMsg s.tcp
      some { s with
        tcp, sim := .read mask, logicRst := data.getLsbD 0
        handed := s.handed ++ s.messageFrom.map fun c => (s.conn, c) }
    else some { s with logicRst := false, sim := .read mask }
  | .read mask =>
    if mask.incomingAvailable then
      match readData s.tcp with
      | some data =>
        some { s with data, valid := true, ready := mask.outgoingReady, portFrom := s.readFrom, sim := .readAck }
      | none => some { s with failed := true }
    else some { s with valid := false, ready := mask.outgoingReady, sim := .readAck }
  | _ => none

def step (s : System) : Event → Option System
  | .server answer => (threadStep s.tcp s.server answer).map fun (tcp, server) => serverStep s tcp server
  | .negedge => if s.failed then none else negedge undef s
  | .readAck ready =>
    match s.failed, s.sim with
    | false, .readAck =>
      if s.valid && ready then
        some { s with
          tcp := readAck s.tcp, sim := .writeData, readFrom := []
          handed := s.handed ++ s.portFrom.map fun c => (s.conn, c) }
      else some { s with sim := .writeData }
    | _, _ => none
  | .writeData item =>
    match s.failed, s.sim with
    | false, .writeData =>
      match s.ready, item with
      | true, some data =>
        match writeData s.tcp data with
        | some tcp => some { s with tcp, sim := .connected }
        | none => some { s with failed := true }
      | _, _ => some { s with sim := .connected }
    | _, _ => none

end Step

/-- No assertion has failed, and the logic was handed only bytes of the connection that was established last. -/
def Fresh (s : System) : Prop := s.failed = false ∧ ∀ p ∈ s.handed, p.1 = p.2

/-- `readData` is called before another `reset`, and the logic takes a word before another connection is
established. -/
def InTime (s : System) : Event → Prop
  | .negedge => ∀ mask, s.sim = .read mask → mask.incomingAvailable = true → s.resets = s.cycleResets
  | .readAck ready => s.sim = .readAck → s.valid = true → ready = true → s.conn = s.cycleConn
  | _ => True

instance : DecidablePred Fresh := fun _ => inferInstanceAs (Decidable (_ ∧ _))

instance : ∀ s e, Decidable (InTime s e)
  | s, .negedge =>
    match h : s.sim with
    | .read mask => decidable_of_iff (mask.incomingAvailable = true → s.resets = s.cycleResets) (by simp [InTime, h])
    | .connected | .nextCycle | .control _ | .readAck | .writeData => isTrue (by simp [InTime, h])
  | s, .readAck ready =>
    inferInstanceAs (Decidable (s.sim = .readAck → s.valid = true → ready = true → s.conn = s.cycleConn))
  | _, .server _ | _, .writeData _ => isTrue trivial

/-! ## The server thread -/

/-- The places at which the client counts as connected. -/
def serving (pc : ServerPc) : Bool := pc.inLoop || pc = .disconnect || pc = .failed

/-- The connections of the bytes between the sockets and the logic. -/
def held (s : System) : List ℕ := s.dataFrom ++ s.controlFrom ++ s.readFrom ++ s.messageFrom

/-- What the mask says about the items. After a `reset`, nothing can be read. -/
structure Promise (mask : Mask) (s : System) : Prop where
  incoming : mask.incomingAvailable = true →
    s.resets = s.cycleResets ∧ s.tcp.readItem.valid = true ∧ s.conn = s.cycleConn ∧
        (serving s.server = true ∨ s.server = .resetAgain) ∨
      s.cycleResets < s.resets ∧ s.tcp.readItem.valid = false
  outgoing : mask.outgoingReady = true → s.tcp.writeItem.valid = false

/-- What the simulator relies on at each of its calls. -/
def Relied (s : System) : SimPc → Prop
  | .connected | .nextCycle => True
  | .control mask | .read mask => Promise mask s
  | .readAck => (s.valid = true → s.portFrom ≠ [] ∧ ∀ c ∈ s.portFrom, c = s.cycleConn) ∧
      (s.ready = true → s.tcp.writeItem.valid = false)
  | .writeData => s.ready = true → s.tcp.writeItem.valid = false

structure Inv (s : System) : Prop where
  numBytes_pos : 0 < s.tcp.numBytes
  connected : s.tcp.connected = serving s.server
  current : ∀ c ∈ held s, c = s.conn
  cleared : s.server = .connect → held s = []
  dataFrom_length : s.dataFrom.length = s.tcp.dataIn.length
  readFrom_length : s.readFrom.length = s.tcp.readItem.part
  readItem_le : s.tcp.readItem.part ≤ s.tcp.numBytes
  readItem_full : s.tcp.readItem.valid = true → s.tcp.readItem.part = s.tcp.numBytes
  message : s.tcp.controlItem.valid = true → ∃ mask, s.sim = .control mask ∧ mask.controlAvailable = true
  relied : Relied s s.sim

section Server
variable {t t' : GlipTcp} {pc pc' : ServerPc} {answer : Answer} {s : System}

theorem threadStep_cases (h : threadStep t pc answer = some (t', pc')) :
    (pc = .reset ∧ pc' = .connect ∨ pc = .resetAgain ∧ pc' = .accept) ∧ t' = reset t ∨
      pc = .connect ∧ pc' = .readControl ∧ t' = { t with connected := true } ∨
      pc = .disconnect ∧ pc' = .resetAgain ∧ t' = { t with connected := false } ∨
      pc = .accept ∧ pc' = .reset ∧ t' = t ∨
      pc.inLoop = true ∧ serving pc' = true ∧ ∃ xs ys zs, t' =
        { t with dataIn := t.dataIn ++ xs, control := t.control ++ ys, dataOut := zs } := by
  have hsame : ∃ xs ys zs, t = { t with dataIn := t.dataIn ++ xs, control := t.control ++ ys, dataOut := zs } :=
    ⟨[], [], t.dataOut, by rw [List.append_nil, List.append_nil]⟩
  unfold threadStep at h
  split at h
  case h_1 => cases h; exact .inr (.inr (.inr (.inl ⟨rfl, rfl, rfl⟩)))
  case h_2 => cases h; exact .inl ⟨.inl ⟨rfl, rfl⟩, rfl⟩
  case h_3 => cases h; exact .inr (.inl ⟨rfl, rfl, rfl⟩)
  case h_16 => cases h; exact .inr (.inr (.inl ⟨rfl, rfl, rfl⟩))
  case h_17 => cases h; exact .inl ⟨.inr ⟨rfl, rfl⟩, rfl⟩
  case h_18 => cases h
  all_goals refine .inr (.inr (.inr (.inr ⟨rfl, ?_⟩)))
  case h_7 b data =>
    split_ifs at h
    · cases h; exact ⟨rfl, [], [b], t.dataOut, by rw [List.append_nil]⟩
    · cases h; exact ⟨rfl, hsame⟩
  case h_11 b data =>
    split_ifs at h
    · cases h; exact ⟨rfl, [b], [], t.dataOut, by rw [List.append_nil]⟩
    · cases h; exact ⟨rfl, hsame⟩
  case h_12 => cases h; exact ⟨rfl, [], [], _, by rw [List.append_nil, List.append_nil]⟩
  all_goals first
    | cases h <;> exact ⟨rfl, hsame⟩
    | split_ifs at h <;> cases h <;> exact ⟨rfl, hsame⟩

/-- The thread leaves the items alone, except in `reset`. -/
theorem Relied.server {sim : SimPc} (h : Relied s sim) (tcp : GlipTcp) (hread : tcp.readItem = s.tcp.readItem)
    (hwrite : tcp.writeItem = s.tcp.writeItem) {server : ServerPc} {conn : ℕ} (dataFrom controlFrom : List ℕ)
    (hstay : serving s.server = true ∨ s.server = .resetAgain →
      conn = s.conn ∧ (serving server = true ∨ server = .resetAgain)) :
    Relied { s with tcp, server, conn, dataFrom, controlFrom } sim := by
  have hpromise {mask : Mask} (h : Promise mask s) : Promise mask { s with tcp, server, conn, dataFrom, controlFrom } := by
    refine ⟨fun hmask => ?_, fun hmask => (congrArg _ hwrite).trans (h.outgoing hmask)⟩
    obtain ⟨hresets, hvalid, hconn, hserver⟩ | ⟨hresets, hvalid⟩ := h.incoming hmask
    · obtain ⟨hconn', hserver'⟩ := hstay hserver
      exact .inl ⟨hresets, (congrArg _ hread).trans hvalid, hconn'.trans hconn, hserver'⟩
    · exact .inr ⟨hresets, (congrArg _ hread).trans hvalid⟩
  cases sim with
  | connected => trivial
  | nextCycle => trivial
  | control mask => exact hpromise h
  | read mask => exact hpromise h
  | readAck => exact ⟨h.1, fun hready => (congrArg _ hwrite).trans (h.2 hready)⟩
  | writeData => exact fun hready => (congrArg _ hwrite).trans (h hready)

/-- After a `reset` nothing can be read, and a word can still be written. -/
theorem Relied.reset {sim : SimPc} (h : Relied s sim) (server : ServerPc) : Relied { s with
    tcp := Tcp.reset s.tcp, server, resets := s.resets + 1, dataFrom := [], controlFrom := [], readFrom := [], messageFrom := [] } sim := by
  have hpromise {mask : Mask} (h : Promise mask s) : Promise mask { s with
      tcp := Tcp.reset s.tcp, server, resets := s.resets + 1, dataFrom := [], controlFrom := [], readFrom := [], messageFrom := [] } := by
    refine ⟨fun hmask => .inr ⟨?_, rfl⟩, fun _ => rfl⟩
    show s.cycleResets < s.resets + 1
    obtain ⟨hresets, -⟩ | ⟨hresets, -⟩ := h.incoming hmask
    · omega
    · omega
  cases sim with
  | connected => trivial
  | nextCycle => trivial
  | control mask => exact hpromise h
  | read mask => exact hpromise h
  | readAck => exact ⟨h.1, fun _ => rfl⟩
  | writeData => exact fun _ => rfl

theorem serverStep_loop (h : s.server.inLoop = true) (tcp : GlipTcp) (server : ServerPc) : serverStep s tcp server = { s with
    tcp, server
    dataFrom := s.dataFrom ++ List.replicate (tcp.dataIn.length - s.tcp.dataIn.length) s.conn
    controlFrom := s.controlFrom ++ List.replicate (tcp.control.length - s.tcp.control.length) s.conn } := by
  unfold serverStep
  split
  case h_1 heq => rw [heq] at h; exact absurd h Bool.false_ne_true
  case h_2 heq => rw [heq] at h; exact absurd h Bool.false_ne_true
  case h_3 heq => rw [heq] at h; exact absurd h Bool.false_ne_true
  case h_4 => rfl

theorem Inv.reset (h : Inv s) (server : ServerPc) (hserver : serving s.server = serving server) : Inv { s with
    tcp := Tcp.reset s.tcp, server, resets := s.resets + 1, dataFrom := [], controlFrom := [], readFrom := [], messageFrom := [] } where
  numBytes_pos := h.numBytes_pos
  connected := h.connected.trans hserver
  current := fun _ hc => absurd hc List.not_mem_nil
  cleared := fun _ => rfl
  dataFrom_length := rfl
  readFrom_length := rfl
  readItem_le := Nat.zero_le _
  readItem_full := fun hvalid => absurd hvalid Bool.false_ne_true
  message := fun hvalid => absurd hvalid Bool.false_ne_true
  relied := h.relied.reset server

theorem Inv.connect (h : Inv s) (hserver : s.server = .connect) :
    Inv { s with tcp := { s.tcp with connected := true }, server := .readControl, conn := s.conn + 1 } where
  numBytes_pos := h.numBytes_pos
  connected := rfl
  current := fun c hc => absurd ((h.cleared hserver) ▸ hc : c ∈ []) List.not_mem_nil
  cleared := fun heq => absurd heq (by simp)
  dataFrom_length := h.dataFrom_length
  readFrom_length := h.readFrom_length
  readItem_le := h.readItem_le
  readItem_full := h.readItem_full
  message := h.message
  relied := by
    refine h.relied.server { s.tcp with connected := true } rfl rfl s.dataFrom s.controlFrom fun hstay => ?_
    rw [hserver] at hstay
    exact absurd hstay (by decide)

/-- The bytes that are pushed are received on the current connection. -/
theorem Inv.loop (h : Inv s) (hloop : s.server.inLoop = true) (hserver : serving pc' = true) (xs ys zs : List UInt8) :
    Inv { s with
      tcp := { s.tcp with dataIn := s.tcp.dataIn ++ xs, control := s.tcp.control ++ ys, dataOut := zs }, server := pc'
      dataFrom := s.dataFrom ++ List.replicate xs.length s.conn
      controlFrom := s.controlFrom ++ List.replicate ys.length s.conn } where
  numBytes_pos := h.numBytes_pos
  connected := by
    have hserving : serving s.server = true := by rw [serving, hloop]; rfl
    exact h.connected.trans (hserving.trans hserver.symm)
  current := by
    intro c hc
    have hcurrent := h.current c
    simp only [held, List.mem_append, List.mem_replicate] at hc hcurrent
    tauto
  cleared := by
    intro heq
    have heq' : pc' = .connect := heq
    rw [heq'] at hserver
    exact absurd hserver (by decide)
  dataFrom_length := by
    show (s.dataFrom ++ List.replicate xs.length s.conn).length = (s.tcp.dataIn ++ xs).length
    rw [List.length_append, List.length_append, List.length_replicate, h.dataFrom_length]
  readFrom_length := h.readFrom_length
  readItem_le := h.readItem_le
  readItem_full := h.readItem_full
  message := h.message
  relied := h.relied.server { s.tcp with dataIn := s.tcp.dataIn ++ xs, control := s.tcp.control ++ ys, dataOut := zs } rfl rfl
    _ _ fun _ => ⟨rfl, .inl hserver⟩

theorem Inv.disconnect (h : Inv s) :
    Inv { s with tcp := { s.tcp with connected := false }, server := .resetAgain } where
  numBytes_pos := h.numBytes_pos
  connected := rfl
  current := h.current
  cleared := fun heq => absurd heq (by simp)
  dataFrom_length := h.dataFrom_length
  readFrom_length := h.readFrom_length
  readItem_le := h.readItem_le
  readItem_full := h.readItem_full
  message := h.message
  relied := h.relied.server { s.tcp with connected := false } rfl rfl s.dataFrom s.controlFrom fun _ => ⟨rfl, .inr rfl⟩

theorem Inv.accept (h : Inv s) (hserver : s.server = .accept) : Inv { s with server := .reset } where
  numBytes_pos := h.numBytes_pos
  connected := by
    have hconn := h.connected
    rw [hserver] at hconn
    exact hconn
  current := h.current
  cleared := fun heq => absurd heq (by simp)
  dataFrom_length := h.dataFrom_length
  readFrom_length := h.readFrom_length
  readItem_le := h.readItem_le
  readItem_full := h.readItem_full
  message := h.message
  relied := by
    refine h.relied.server s.tcp rfl rfl s.dataFrom s.controlFrom fun hstay => ?_
    rw [hserver] at hstay
    exact absurd hstay (by decide)

theorem Inv.server (h : Inv s) (hthread : threadStep s.tcp s.server answer = some (t', pc')) :
    Inv (serverStep s t' pc') := by
  obtain ⟨hpc, rfl⟩ | ⟨hpc, rfl, rfl⟩ | ⟨hpc, rfl, rfl⟩ | ⟨hpc, rfl, rfl⟩ | ⟨hpc, hpc', xs, ys, zs, rfl⟩ := threadStep_cases hthread
  · obtain ⟨hpc, rfl⟩ | ⟨hpc, rfl⟩ := hpc
    · simp only [serverStep, hpc]
      exact h.reset .connect (by rw [hpc]; rfl)
    · simp only [serverStep, hpc]
      exact h.reset .accept (by rw [hpc]; rfl)
  · simp only [serverStep, hpc]
    exact h.connect hpc
  · simp only [serverStep, hpc, Nat.sub_self, List.replicate_zero, List.append_nil]
    exact h.disconnect
  · simp only [serverStep, hpc, Nat.sub_self, List.replicate_zero, List.append_nil]
    exact h.accept hpc
  · rw [serverStep_loop hpc]
    simp only [List.length_append, Nat.add_sub_cancel_left]
    exact h.loop hpc hpc' xs ys zs

end Server

/-! ## The simulator -/

section Simulator
variable {undef : UInt8 → ℕ → BitVec 32} {s : System} {mask : Mask}

theorem nextCycle_connected {t : GlipTcp} (hconn : t.connected = true) (hctrl : t.controlItem.valid = false) :
    nextCycle undef t = some (⟨(nextControl undef t).1, (nextRead undef t).1, (nextWrite t).1⟩, { t with
      controlItem := (nextControl undef t).2.1, control := (nextControl undef t).2.2
      readItem := (nextRead undef t).2.1, dataIn := (nextRead undef t).2.2
      writeItem := (nextWrite t).2.1, dataOut := (nextWrite t).2.2 }) := by
  simp [nextCycle, hconn, hctrl]

/-- `s'` is reached without a failure, and the logic is handed the bytes of the connections `cs`. -/
structure Hands (s s' : System) (cs : List ℕ) : Prop where
  inv : Inv s'
  failed : s'.failed = s.failed
  handed : s'.handed = s.handed ++ cs.map fun c => (s.conn, c)

theorem Hands.fresh_iff {s' : System} {cs : List ℕ} (h : Hands s s' cs) (hfresh : Fresh s) :
    Fresh s' ↔ ∀ c ∈ cs, c = s.conn := by
  rw [Fresh, h.failed, h.handed]
  constructor
  · rintro ⟨-, hall⟩ c hc
    exact (hall (s.conn, c) (List.mem_append_right _ (List.mem_map_of_mem hc))).symm
  · intro hall
    refine ⟨hfresh.1, fun p hp => ?_⟩
    obtain hp | hp := List.mem_append.mp hp
    · exact hfresh.2 p hp
    · obtain ⟨c, hc, rfl⟩ := List.mem_map.mp hp
      exact (hall c hc).symm

theorem Hands.fresh {s' : System} (h : Hands s s' []) (hfresh : Fresh s) : Fresh s' :=
  (h.fresh_iff hfresh).mpr fun _ hc => absurd hc List.not_mem_nil

theorem Inv.noMessage (h : Inv s) (hno : ∀ mask, s.sim = .control mask → mask.controlAvailable = false) :
    s.tcp.controlItem.valid = false := by
  rw [← Bool.not_eq_true]
  intro hvalid
  obtain ⟨mask, hmask, hctrl⟩ := h.message hvalid
  exact absurd ((hno mask hmask).symm.trans hctrl) Bool.false_ne_true

theorem Inv.connectedCall (h : Inv s) (hsim : s.sim = .connected) :
    Hands s { s with comRst := !s.tcp.connected, sim := .nextCycle } [] where
  inv := ⟨h.numBytes_pos, h.connected, h.current, h.cleared, h.dataFrom_length, h.readFrom_length, h.readItem_le,
    h.readItem_full, fun hvalid => absurd ((h.noMessage (by simp [hsim])).symm.trans hvalid) Bool.false_ne_true, trivial⟩
  failed := rfl
  handed := (List.append_nil _).symm

variable (undef) in
theorem Inv.nextCycle (h : Inv s) (hsim : s.sim = .nextCycle) : ∃ s', negedge undef s = some s' ∧ Hands s s' [] := by
  have hctrl : s.tcp.controlItem.valid = false := h.noMessage (by simp [hsim])
  cases hconn : s.tcp.connected with
  | false =>
    have hnext : Tcp.nextCycle undef s.tcp = some (⟨false, false, false⟩, s.tcp) := by
      rw [Tcp.nextCycle, hconn]
      rfl
    simp only [negedge, hsim, hnext, Nat.sub_self, List.take_zero, List.append_nil, List.drop_zero]
    refine ⟨_, rfl, ?_, rfl, (List.append_nil _).symm⟩
    exact ⟨h.numBytes_pos, h.connected, h.current, h.cleared, h.dataFrom_length, h.readFrom_length, h.readItem_le,
      h.readItem_full, fun hvalid => absurd (hctrl.symm.trans hvalid) Bool.false_ne_true,
      ⟨fun hmask => absurd hmask Bool.false_ne_true, fun hmask => absurd hmask Bool.false_ne_true⟩⟩
  | true =>
    have hserving : serving s.server = true := h.connected.symm.trans hconn
    obtain ⟨xs, hqueue, hpart, hle, hfull, -⟩ := nextRead_spec undef [] (t := s.tcp)
      (fun item pending => item.part = s.tcp.readItem.part + pending.length) (fun _ _ hpart => hpart)
      (fun item pending data hpart _ => by
        rw [List.length_append, ← Nat.add_assoc, ← hpart]
        rfl)
      rfl h.readItem_le h.readItem_full
    have hmoved : s.tcp.dataIn.length - (nextRead undef s.tcp).2.2.length = xs.length := by
      rw [hqueue, List.length_append, Nat.add_sub_cancel]
    have hlen : s.dataFrom.length = xs.length + (nextRead undef s.tcp).2.2.length := by
      rw [h.dataFrom_length, ← List.length_append, ← hqueue]
    simp only [negedge, hsim, nextCycle_connected hconn hctrl, hmoved]
    refine ⟨_, rfl, ?_, rfl, (List.append_nil _).symm⟩
    constructor
    case numBytes_pos => exact h.numBytes_pos
    case connected => exact h.connected
    case current =>
      intro c hc
      have hcurrent := h.current c
      simp only [held, List.mem_append] at hc hcurrent
      obtain ((hc | hc) | (hc | hc)) | (hc | hc) := hc
      · exact hcurrent (.inl (.inl (.inl (List.mem_of_mem_drop hc))))
      · exact hcurrent (.inl (.inl (.inr (List.mem_of_mem_drop hc))))
      · exact hcurrent (.inl (.inr hc))
      · exact hcurrent (.inl (.inl (.inl (List.mem_of_mem_take hc))))
      · exact hcurrent (.inr hc)
      · exact hcurrent (.inl (.inl (.inr (List.mem_of_mem_take hc))))
    case cleared =>
      intro hserver
      rw [show s.server = _ from hserver] at hserving
      exact absurd hserving (by decide)
    case dataFrom_length =>
      show (s.dataFrom.drop xs.length).length = (nextRead undef s.tcp).2.2.length
      rw [List.length_drop, hlen, Nat.add_sub_cancel_left]
    case readFrom_length =>
      show (s.readFrom ++ s.dataFrom.take xs.length).length = (nextRead undef s.tcp).2.1.part
      rw [List.length_append, List.length_take, h.readFrom_length, hlen, Nat.min_eq_left (Nat.le_add_right _ _), hpart]
      rfl
    case readItem_le => exact hle
    case readItem_full => exact hfull
    case message =>
      intro hvalid
      refine ⟨_, rfl, ?_⟩
      by_contra hmask
      have hno := nextControl_valid hctrl (Bool.not_eq_true _ ▸ hmask)
      exact absurd (hno.symm.trans hvalid) Bool.false_ne_true
    case relied =>
      exact ⟨fun hmask => .inl ⟨rfl, nextRead_valid hmask, rfl, .inl hserving⟩, fun hmask => nextWrite_valid hmask⟩

variable (undef) in
/-- The bits of a message come from bytes of this connection. -/
theorem Inv.control (h : Inv s) (hsim : s.sim = .control mask) :
    ∃ s' cs, negedge undef s = some s' ∧ Hands s s' cs ∧ ∀ c ∈ cs, c = s.conn := by
  have hrelied : Promise mask s := by
    have hr := h.relied
    rwa [hsim] at hr
  cases hmask : mask.controlAvailable with
  | true =>
    simp only [negedge, hsim, hmask, if_true]
    refine ⟨_, s.messageFrom, rfl, ⟨?_, rfl, rfl⟩, fun c hc => h.current c (List.mem_append_right _ hc)⟩
    exact ⟨h.numBytes_pos, h.connected, h.current, h.cleared, h.dataFrom_length, h.readFrom_length, h.readItem_le,
      h.readItem_full, fun hvalid => absurd hvalid Bool.false_ne_true, hrelied.incoming, hrelied.outgoing⟩
  | false =>
    simp only [negedge, hsim, hmask, Bool.false_eq_true, if_false]
    refine ⟨_, [], rfl, ⟨?_, rfl, (List.append_nil _).symm⟩, fun _ hc => absurd hc List.not_mem_nil⟩
    have hctrl : s.tcp.controlItem.valid = false := h.noMessage fun mask' hmask' => by
      rw [hsim] at hmask'
      cases hmask'
      exact hmask
    exact ⟨h.numBytes_pos, h.connected, h.current, h.cleared, h.dataFrom_length, h.readFrom_length, h.readItem_le,
      h.readItem_full, fun hvalid => absurd (hctrl.symm.trans hvalid) Bool.false_ne_true,
      hrelied.incoming, hrelied.outgoing⟩

variable (undef) in
theorem Inv.read (h : Inv s) (hsim : s.sim = .read mask)
    (htime : mask.incomingAvailable = true → s.resets = s.cycleResets) :
    ∃ s', negedge undef s = some s' ∧ Hands s s' [] := by
  have hrelied : Promise mask s := by
    have hr := h.relied
    rwa [hsim] at hr
  have hctrl : s.tcp.controlItem.valid = false := h.noMessage (by simp [hsim])
  cases hmask : mask.incomingAvailable with
  | true =>
    obtain ⟨-, hvalid, hconn, -⟩ := (hrelied.incoming hmask).resolve_right fun hno => by
      have hresets := htime hmask
      omega
    simp only [negedge, hsim, hmask, if_true, readData, hvalid]
    refine ⟨_, rfl, ?_, rfl, (List.append_nil _).symm⟩
    refine ⟨h.numBytes_pos, h.connected, h.current, h.cleared, h.dataFrom_length, h.readFrom_length, h.readItem_le,
      h.readItem_full, fun hvalid => absurd (hctrl.symm.trans hvalid) Bool.false_ne_true, fun _ => ⟨?_, ?_⟩, hrelied.outgoing⟩
    · intro hnil
      have hlen := h.readFrom_length.trans (h.readItem_full hvalid)
      rw [show s.readFrom = [] from hnil] at hlen
      exact absurd hlen h.numBytes_pos.ne
    · intro c hc
      exact (h.current c (List.mem_append_left _ (List.mem_append_right _ hc))).trans hconn
  | false =>
    simp only [negedge, hsim, hmask, Bool.false_eq_true, if_false]
    refine ⟨_, rfl, ?_, rfl, (List.append_nil _).symm⟩
    exact ⟨h.numBytes_pos, h.connected, h.current, h.cleared, h.dataFrom_length, h.readFrom_length, h.readItem_le,
      h.readItem_full, fun hvalid => absurd (hctrl.symm.trans hvalid) Bool.false_ne_true,
      fun hvalid => absurd hvalid Bool.false_ne_true, hrelied.outgoing⟩

theorem Inv.read_late (h : Inv s) (hsim : s.sim = .read mask) (hmask : mask.incomingAvailable = true)
    (hlate : s.resets ≠ s.cycleResets) : negedge undef s = some { s with failed := true } := by
  have hrelied := h.relied
  rw [hsim] at hrelied
  obtain ⟨-, hvalid⟩ := (hrelied.incoming hmask).resolve_left fun hin => hlate hin.1
  simp only [negedge, hsim, hmask, if_true, readData, hvalid, Bool.false_eq_true, if_false]

variable (undef) in
theorem Inv.readAck (h : Inv s) (hfailed : s.failed = false) (hsim : s.sim = .readAck) (ready : Bool) :
    ∃ s', step undef s (.readAck ready) = some s' ∧
      Hands s s' (if s.valid && ready then s.portFrom else []) := by
  have hrelied := h.relied
  rw [hsim] at hrelied
  have hctrl : s.tcp.controlItem.valid = false := h.noMessage (by simp [hsim])
  have hmessage {P : Prop} (hvalid : s.tcp.controlItem.valid = true) : P :=
    absurd (hctrl.symm.trans hvalid) Bool.false_ne_true
  simp only [step, hfailed, hsim]
  split_ifs with hack
  · refine ⟨_, rfl, ?_, hfailed.symm, rfl⟩
    refine ⟨h.numBytes_pos, h.connected, ?_, ?_, h.dataFrom_length, rfl, Nat.zero_le _,
      fun hvalid => absurd hvalid Bool.false_ne_true, hmessage, hrelied.2⟩
    · intro c hc
      have hcurrent := h.current c
      simp only [held, List.append_nil, List.mem_append] at hc hcurrent
      exact hcurrent (hc.imp_left .inl)
    · intro hserver
      have hnil := h.cleared hserver
      simp only [held, List.append_eq_nil_iff] at hnil ⊢
      exact ⟨⟨hnil.1.1, trivial⟩, hnil.2⟩
  · refine ⟨_, rfl, ?_, hfailed.symm, (List.append_nil _).symm⟩
    exact ⟨h.numBytes_pos, h.connected, h.current, h.cleared, h.dataFrom_length, h.readFrom_length, h.readItem_le,
      h.readItem_full, hmessage, hrelied.2⟩

variable (undef) in
theorem Inv.writeData (h : Inv s) (hfailed : s.failed = false) (hsim : s.sim = .writeData) (item : Option (BitVec 64)) :
    ∃ s', step undef s (.writeData item) = some s' ∧ Hands s s' [] := by
  have hrelied := h.relied
  rw [hsim] at hrelied
  have hctrl : s.tcp.controlItem.valid = false := h.noMessage (by simp [hsim])
  have hmessage {P : Prop} (hvalid : s.tcp.controlItem.valid = true) : P :=
    absurd (hctrl.symm.trans hvalid) Bool.false_ne_true
  simp only [step, hfailed, hsim]
  split
  case h_1 data hready =>
    rw [Tcp.writeData, hrelied hready]
    refine ⟨_, rfl, ?_, hfailed.symm, (List.append_nil _).symm⟩
    exact ⟨h.numBytes_pos, h.connected, h.current, h.cleared, h.dataFrom_length, h.readFrom_length, h.readItem_le,
      h.readItem_full, hmessage, trivial⟩
  case h_2 =>
    refine ⟨_, rfl, ?_, hfailed.symm, (List.append_nil _).symm⟩
    exact ⟨h.numBytes_pos, h.connected, h.current, h.cleared, h.dataFrom_length, h.readFrom_length, h.readItem_le,
      h.readItem_full, hmessage, trivial⟩

end Simulator

/-! ## All runs -/

section Run
variable {undef : UInt8 → ℕ → BitVec 32} {s s' : System} {e : Event}

theorem inv_start {width : ℕ} (h : 8 ≤ width) : Inv (start width) where
  numBytes_pos := by
    show 0 < width >>> 3
    rw [Nat.shiftRight_eq_div_pow]
    omega
  connected := rfl
  current := fun _ hc => absurd hc List.not_mem_nil
  cleared := fun _ => rfl
  dataFrom_length := rfl
  readFrom_length := rfl
  readItem_le := Nat.zero_le _
  readItem_full := fun hvalid => absurd hvalid Bool.false_ne_true
  message := fun hvalid => absurd hvalid Bool.false_ne_true
  relied := trivial

theorem serverStep_fresh (s : System) (tcp : GlipTcp) (server : ServerPc) : Fresh (serverStep s tcp server) ↔ Fresh s := by
  unfold serverStep
  split <;> rfl

theorem readAck_sim {ready : Bool} (hstep : step undef s (.readAck ready) = some s') : s.sim = .readAck := by
  cases hf : s.failed <;> cases hsim : s.sim <;> simp [step, hf, hsim] at hstep ⊢

theorem writeData_sim {item : Option (BitVec 64)} (hstep : step undef s (.writeData item) = some s') :
    s.sim = .writeData := by
  cases hf : s.failed <;> cases hsim : s.sim <;> simp [step, hf, hsim] at hstep ⊢

/-- One step: nothing is broken if and only if it is in time, and then the invariant is kept. -/
theorem step_spec (h : Inv s) (hfresh : Fresh s) (hstep : step undef s e = some s') :
    (Fresh s' ↔ InTime s e) ∧ (Fresh s' → Inv s') := by
  cases e with
  | server answer =>
    obtain ⟨⟨tcp, server⟩, hthread, rfl⟩ := Option.map_eq_some_iff.mp hstep
    exact ⟨iff_of_true ((serverStep_fresh s tcp server).mpr hfresh) trivial, fun _ => h.server hthread⟩
  | negedge =>
    rw [step, hfresh.1, if_neg Bool.false_ne_true] at hstep
    cases hsim : s.sim with
    | connected =>
      rw [negedge, hsim] at hstep
      cases hstep
      have hhands := h.connectedCall hsim
      exact ⟨iff_of_true (hhands.fresh hfresh) fun _ hmask => by simp [hsim] at hmask, fun _ => hhands.inv⟩
    | nextCycle =>
      obtain ⟨u, hu, hhands⟩ := h.nextCycle undef hsim
      obtain rfl := Option.some.inj (hu.symm.trans hstep)
      exact ⟨iff_of_true (hhands.fresh hfresh) fun _ hmask => by simp [hsim] at hmask, fun _ => hhands.inv⟩
    | control mask =>
      obtain ⟨u, cs, hu, hhands, hcs⟩ := h.control undef hsim
      obtain rfl := Option.some.inj (hu.symm.trans hstep)
      exact ⟨iff_of_true ((hhands.fresh_iff hfresh).mpr hcs) fun _ hmask => by simp [hsim] at hmask, fun _ => hhands.inv⟩
    | read mask =>
      by_cases htime : mask.incomingAvailable = true → s.resets = s.cycleResets
      · obtain ⟨u, hu, hhands⟩ := h.read undef hsim htime
        obtain rfl := Option.some.inj (hu.symm.trans hstep)
        refine ⟨iff_of_true (hhands.fresh hfresh) fun mask' hmask' => ?_, fun _ => hhands.inv⟩
        rw [hsim] at hmask'
        cases hmask'
        exact htime
      · obtain ⟨hmask, hlate⟩ := not_forall.mp htime
        rw [h.read_late hsim hmask hlate] at hstep
        cases hstep
        exact ⟨iff_of_false (fun hf => absurd hf.1 (by simp)) fun hin => hlate (hin mask hsim hmask),
          fun hf => absurd hf.1 (by simp)⟩
    | readAck =>
      rw [negedge, hsim] at hstep
      cases hstep
    | writeData =>
      rw [negedge, hsim] at hstep
      cases hstep
  | readAck ready =>
    have hsim := readAck_sim hstep
    obtain ⟨u, hu, hhands⟩ := h.readAck undef hfresh.1 hsim ready
    obtain rfl := Option.some.inj (hu.symm.trans hstep)
    refine ⟨?_, fun _ => hhands.inv⟩
    have hrelied := h.relied
    rw [hsim] at hrelied
    rw [hhands.fresh_iff hfresh]
    constructor
    · intro hall _ hvalid hready
      rw [hvalid, hready] at hall
      obtain ⟨hne, hport⟩ := hrelied.1 hvalid
      obtain ⟨c, hc⟩ := List.exists_mem_of_ne_nil _ hne
      exact (hall c hc).symm.trans (hport c hc)
    · intro htime c hc
      split_ifs at hc with hack
      · obtain ⟨hvalid, hready⟩ := (Bool.and_eq_true _ _).mp hack
        exact ((hrelied.1 hvalid).2 c hc).trans (htime hsim hvalid hready).symm
      · exact absurd hc List.not_mem_nil
  | writeData item =>
    obtain ⟨u, hu, hhands⟩ := h.writeData undef hfresh.1 (writeData_sim hstep) item
    obtain rfl := Option.some.inj (hu.symm.trans hstep)
    exact ⟨iff_of_true (hhands.fresh hfresh) trivial, fun _ => hhands.inv⟩

end Run

/-- A disconnect breaks nothing in a run if and only if every call of the simulator is in time. -/
theorem fresh_iff_inTime (undef : UInt8 → ℕ → BitVec 32) {width : ℕ} (hwidth : 8 ≤ width) {es : List Event} {s : System}
    (hrun : runFrom (step undef) (start width) es = some s) :
    Passes (step undef) Fresh (start width) es ↔ Takes (step undef) InTime (start width) es :=
  passes_iff_takes Inv (fun _ _ _ h hfresh hstep hfresh' => (step_spec h hfresh hstep).2 hfresh')
    (fun _ _ _ h hfresh hstep => (step_spec h hfresh hstep).1) (inv_start hwidth)
    ⟨rfl, fun _ hp => absurd hp List.not_mem_nil⟩ hrun

/-- A client connects and sends a byte, which arrives at `readData`. -/
def arrive : List Event :=
  [.server .done, .server .done, .server .done, .server (.error .again), .server (.read [7]), .server .done, .server .done,
    .negedge, .negedge, .negedge]

/-- The logic takes the byte, and the client closes the connection. -/
theorem byte_fresh : Passes (step shiftLow) Fresh (start 8) (arrive ++ [.negedge, .readAck true, .writeData none,
    .server .done, .server (.error .again), .server .done, .server (.read []), .server .done, .server .done]) := by
  obtain ⟨s, hs⟩ : ∃ s, runFrom (step shiftLow) (start 8) (arrive ++ [.negedge, .readAck true, .writeData none,
      .server .done, .server (.error .again), .server .done, .server (.read []), .server .done, .server .done]) = some s :=
    Option.isSome_iff_exists.mp (by decide)
  exact (fresh_iff_inTime shiftLow (by decide) hs).mpr (by decide)

/-- The client closes the connection, and the thread calls `reset` before the simulator calls `readData`. -/
theorem disconnect_breaks : ¬ Passes (step shiftLow) Fresh (start 8) (arrive ++ [.server .done, .server (.error .again),
    .server .done, .server (.read []), .server .done, .server .done, .negedge]) := by
  decide

end GlipOsd.Tcp.Disconnect
