import GlipOsd.Foundations.Runs
import GlipOsd.Tcp.Model

/-! # The simulator's cycle

`glip_tcp_toplevel` while a client is connected. At the negative edge of the clock it calls `next_cycle`, then
`control_msg` and `readData` if the mask says so; at the positive edge `readAck` if the logic takes the word
and `writeData` if it offers one. Between the cycles the server thread pushes the bytes that have arrived and
takes bytes from `mDataOut`. The state records what has gone through each interface.
-/

namespace GlipOsd.Tcp
open Runs Bytes
set_option autoImplicit false

structure Sim where
  tcp : GlipTcp
  received : List UInt8
  acked : List (BitVec 64)
  written : List (BitVec 64)
  sent : List UInt8
  receivedControl : List UInt8
  messages : List (BitVec 32)

/-- The bytes that arrive before the cycle, the number of bytes that the server thread takes, `fifo_in.ready`
and the word on `fifo_out`, if it is valid. -/
structure Cycle where
  data : List UInt8
  control : List UInt8
  room : ℕ
  ready : Bool
  item : Option (BitVec 64)

/-- Right after a client has connected. -/
def start (width : ℕ) : Sim := ⟨{ reset (initial width) with connected := true }, [], [], [], [], [], []⟩

/-- What the server thread does. -/
def serve (s : Sim) (i : Cycle) : Sim :=
  { s with
    tcp := { s.tcp with
      dataIn := s.tcp.dataIn ++ i.data
      control := s.tcp.control ++ i.control
      dataOut := s.tcp.dataOut.drop i.room }
    received := s.received ++ i.data
    receivedControl := s.receivedControl ++ i.control
    sent := s.sent ++ s.tcp.dataOut.take i.room }

/-- The control message, if there is one. -/
def control (mask : Mask) (s : Sim) : Sim :=
  if mask.controlAvailable then
    let (data, tcp) := controlMsg s.tcp
    { s with tcp, messages := s.messages ++ [data] }
  else s

/-- The word of the cycle, and the acknowledgement if the logic takes it. -/
def incoming (mask : Mask) (ready : Bool) (s : Sim) : Option Sim :=
  if mask.incomingAvailable then
    (readData s.tcp).map fun data =>
      if ready then { s with tcp := readAck s.tcp, acked := s.acked ++ [data] } else s
  else some s

def outgoing (mask : Mask) (item : Option (BitVec 64)) (s : Sim) : Option Sim :=
  if mask.outgoingReady then
    match item with
    | some data => (writeData s.tcp data).map fun tcp => { s with tcp, written := s.written ++ [data] }
    | none => some s
  else some s

section Step
variable (undef : UInt8 → ℕ → BitVec 32)

/-- One cycle; `none` if an assertion fails. -/
def cycle (s : Sim) (i : Cycle) : Option Sim := do
  let s := serve s i
  let (mask, tcp) ← nextCycle undef s.tcp
  let s ← incoming mask i.ready (control mask { s with tcp })
  outgoing mask i.item s

end Step

/-! ## Assembling an item -/

section Assemble
variable {undef : UInt8 → ℕ → BitVec 32}

/-- The bytes `xs` have been moved from the queue into the item; it is complete or the queue is empty. -/
structure Moved (n : ℕ) (item : TempStorage) (queue xs : List UInt8) (r : TempStorage × List UInt8) : Prop where
  queue_eq : queue = xs ++ r.2
  part_eq : r.1.part = item.part + xs.length
  part_le : r.1.part ≤ n
  valid_eq : r.1.valid = item.valid
  complete : r.1.part = n ∨ r.2 = []

variable (undef) in
/-- What inserting a byte keeps, with the bytes inserted so far, holds of the assembled item. -/
theorem assemble_spec {n : ℕ} (P : TempStorage → List UInt8 → Prop)
    (hinsert : ∀ item pending data, P item pending → item.part < n →
      P (item.insert undef data ((n - item.part - 1) * 8)) (pending ++ [data]))
    {item : TempStorage} {pending : List UInt8} (h : P item pending) (hle : item.part ≤ n) (queue : List UInt8) :
    ∃ xs, Moved n item queue xs (assemble undef n item queue) ∧
      P (assemble undef n item queue).1 (pending ++ xs) := by
  induction queue generalizing item pending with
  | nil =>
    rw [assemble]
    exact ⟨[], ⟨rfl, rfl, hle, rfl, .inr rfl⟩, by rwa [List.append_nil]⟩
  | cons data queue ih =>
    rw [assemble]
    by_cases hlt : item.part < n
    · rw [if_pos hlt]
      obtain ⟨xs, hmoved, hP⟩ := ih (hinsert item pending data h hlt) hlt
      refine ⟨data :: xs, ⟨?_, ?_, hmoved.part_le, hmoved.valid_eq, hmoved.complete⟩, ?_⟩
      · rw [List.cons_append, ← hmoved.queue_eq]
      · have hpart : (item.insert undef data ((n - item.part - 1) * 8)).part = item.part + 1 := rfl
        rw [hmoved.part_eq, hpart, List.length_cons]
        omega
      · rwa [List.append_assoc] at hP
    · rw [if_neg hlt]
      exact ⟨[], ⟨rfl, rfl, hle, rfl, .inl (Nat.le_antisymm hle (Nat.le_of_not_lt hlt))⟩,
        by rwa [List.append_nil]⟩

end Assemble

/-! ## What a cycle does -/

/-- What a cycle does to the three interfaces. -/
structure Stepped (undef : UInt8 → ℕ → BitVec 32) (s : Sim) (i : Cycle) (s' : Sim) : Prop where
  numBytes : s'.tcp.numBytes = s.tcp.numBytes
  connected : s'.tcp.connected = true
  received : s'.received = s.received ++ i.data
  dataIn : s'.tcp.dataIn = (nextRead undef (serve s i).tcp).2.2
  acked : (nextRead undef (serve s i).tcp).1 = true → i.ready = true →
    s'.acked = s.acked ++ [(nextRead undef (serve s i).tcp).2.1.value] ∧ s'.tcp.readItem = .empty
  notAcked : (nextRead undef (serve s i).tcp).1 = false ∨ i.ready = false →
    s'.acked = s.acked ∧ s'.tcp.readItem = (nextRead undef (serve s i).tcp).2.1
  sent : s'.sent = s.sent ++ s.tcp.dataOut.take i.room
  dataOut : s'.tcp.dataOut = (nextWrite (serve s i).tcp).2.2
  written : (nextWrite (serve s i).tcp).1 = true → ∀ data, i.item = some data →
    s'.written = s.written ++ [data] ∧ s'.tcp.writeItem = ⟨true, 0, data⟩
  notWritten : (nextWrite (serve s i).tcp).1 = false ∨ i.item = none →
    s'.written = s.written ∧ s'.tcp.writeItem = (nextWrite (serve s i).tcp).2.1
  receivedControl : s'.receivedControl = s.receivedControl ++ i.control
  control : s'.tcp.control = (nextControl undef (serve s i).tcp).2.2
  message : (nextControl undef (serve s i).tcp).1 = true →
    s'.messages = s.messages ++ [(nextControl undef (serve s i).tcp).2.1.value.setWidth 32] ∧
      s'.tcp.controlItem = ⟨false, 0, (nextControl undef (serve s i).tcp).2.1.value⟩
  noMessage : (nextControl undef (serve s i).tcp).1 = false →
    s'.messages = s.messages ∧ s'.tcp.controlItem = (nextControl undef (serve s i).tcp).2.1

section Spec
variable {undef : UInt8 → ℕ → BitVec 32}

theorem nextRead_valid {t : GlipTcp} (h : (nextRead undef t).1 = true) : (nextRead undef t).2.1.valid = true := by
  unfold nextRead at h ⊢
  split_ifs at h ⊢ with hvalid
  · exact hvalid
  · simp only at h ⊢
    split_ifs at h ⊢
    rfl

theorem nextWrite_valid {t : GlipTcp} (h : (nextWrite t).1 = true) : (nextWrite t).2.1.valid = false := by
  unfold nextWrite at h ⊢
  split_ifs at h ⊢ with hvalid
  · exact (Bool.not_eq_true' _).mp hvalid
  · simp only at h ⊢
    split_ifs at h ⊢
    rfl

theorem control_eq (mask : Mask) (s : Sim) : control mask s = { s with
    tcp := { s.tcp with controlItem := if mask.controlAvailable then ⟨false, 0, s.tcp.controlItem.value⟩ else s.tcp.controlItem }
    messages := if mask.controlAvailable then s.messages ++ [s.tcp.controlItem.value.setWidth 32] else s.messages } := by
  rw [control]
  split_ifs <;> rfl

theorem incoming_eq {mask : Mask} {s : Sim} (h : mask.incomingAvailable = true → s.tcp.readItem.valid = true) (ready : Bool) :
    incoming mask ready s = some { s with
      tcp := { s.tcp with readItem := if mask.incomingAvailable && ready then .empty else s.tcp.readItem }
      acked := if mask.incomingAvailable && ready then s.acked ++ [s.tcp.readItem.value] else s.acked } := by
  rw [incoming]
  cases hmask : mask.incomingAvailable with
  | false => rfl
  | true =>
    rw [if_pos rfl, readData, if_pos (h hmask)]
    cases ready <;> rfl

theorem outgoing_eq {mask : Mask} {s : Sim} (h : mask.outgoingReady = true → s.tcp.writeItem.valid = false)
    (item : Option (BitVec 64)) : outgoing mask item s = some { s with
      tcp := { s.tcp with writeItem := if mask.outgoingReady then item.elim s.tcp.writeItem fun data => ⟨true, 0, data⟩ else s.tcp.writeItem }
      written := if mask.outgoingReady then s.written ++ item.toList else s.written } := by
  unfold outgoing
  cases hmask : mask.outgoingReady with
  | false => rfl
  | true =>
    rw [if_pos rfl]
    cases item with
    | none => simp
    | some data =>
      simp only [writeData, h hmask, Bool.false_eq_true, if_false, Option.map_some]
      rfl

theorem cycle_spec (s : Sim) (i : Cycle) (hconn : s.tcp.connected = true) (hctrl : s.tcp.controlItem.valid = false) :
    ∃ s', cycle undef s i = some s' ∧ Stepped undef s i s' := by
  have hconn' : (serve s i).tcp.connected = true := hconn
  have hctrl' : (serve s i).tcp.controlItem.valid = false := hctrl
  have hread (h : (nextRead undef (serve s i).tcp).1 = true) := nextRead_valid h
  have hwrite := nextWrite_valid (t := (serve s i).tcp)
  simp only [cycle, nextCycle, hconn', hctrl', Bool.not_true, Bool.false_eq_true, if_false,
    Option.bind_eq_bind, Option.bind_some, control_eq]
  rw [incoming_eq hread, Option.bind_some, outgoing_eq hwrite]
  refine ⟨_, rfl, ?_⟩
  constructor
  case acked =>
    intro hr hready
    rw [hr, hready]
    exact ⟨rfl, rfl⟩
  case notAcked =>
    intro hno
    have hfalse : ((nextRead undef (serve s i).tcp).1 && i.ready) = false := by
      obtain hr | hready := hno
      · rw [hr, Bool.false_and]
      · rw [hready, Bool.and_false]
    simp only [hfalse]
    exact ⟨rfl, rfl⟩
  case written =>
    intro hw data hitem
    simp only [hw, hitem]
    exact ⟨rfl, rfl⟩
  case notWritten =>
    rintro (hw | hitem)
    · simp only [hw]
      exact ⟨rfl, rfl⟩
    · simp [hitem, serve]
  case message => exact fun hc => ⟨if_pos hc, if_pos hc⟩
  case noMessage => exact fun hc => ⟨if_neg (by simp [hc]), if_neg (by simp [hc])⟩
  all_goals rfl

end Spec

end GlipOsd.Tcp
