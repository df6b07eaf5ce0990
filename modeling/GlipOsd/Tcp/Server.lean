import GlipOsd.Tcp.Cycle

/-! # The server thread

`GlipTcp::thread` as a step function: what the system call at the current place answers decides where the
thread goes on. The connection loop takes up to 2048 bytes from `mDataOut` before it calls `write`, and
asserts that a write that does not fail takes them all.

The second half of the module is about one connection, in which the simulator fills `mDataOut` in any way.
-/

namespace GlipOsd.Tcp
open Runs
set_option autoImplicit false

inductive Errno
  | again
  | badFd
  | invalid
  | other
  deriving DecidableEq

/-- The connection is given up on these. -/
def Errno.fatal (e : Errno) : Bool := e = .badFd || e = .invalid

/-- What a system call answers; `done` where there is none. The data of `read` is empty when the client has
closed the connection. -/
inductive Answer
  | done
  | read (data : List UInt8)
  | written (rv : ℕ)
  | error (errno : Errno)
  deriving DecidableEq

/-- The bytes that have been read and not been pushed yet, or that are about to be written, are in `data`. -/
inductive ServerPc
  | accept
  | reset
  | connect
  | readControl
  | pushControl (data : List UInt8)
  | readData
  | pushData (data : List UInt8)
  | pop
  | write (data : List UInt8)
  | sleep
  | disconnect
  | resetAgain
  | failed
  deriving DecidableEq

/-- The size of the buffer on the stack. -/
def bufferSize : ℕ := 2048

/-- The next step of the thread. A push into a full queue is tried again. -/
def threadStep (t : GlipTcp) : ServerPc → Answer → Option (GlipTcp × ServerPc)
  | .accept, .done => some (t, .reset)
  | .reset, .done => some (Tcp.reset t, .connect)
  | .connect, .done => some ({ t with connected := true }, .readControl)
  | .readControl, .read data =>
    if data.length ≤ bufferSize then some (t, if data = [] then .disconnect else .pushControl data) else none
  | .readControl, .error e => some (t, if e.fatal then .disconnect else .readData)
  | .pushControl [], .done => some (t, .readData)
  | .pushControl (b :: data), .done =>
    if t.control.length < controlSize then some ({ t with control := t.control ++ [b] }, .pushControl data)
    else some (t, .pushControl (b :: data))
  | .readData, .read data =>
    if data.length ≤ bufferSize then some (t, if data = [] then .disconnect else .pushData data) else none
  | .readData, .error e => some (t, if e.fatal then .disconnect else .pop)
  | .pushData [], .done => some (t, .pop)
  | .pushData (b :: data), .done =>
    if t.dataIn.length < dataSize then some ({ t with dataIn := t.dataIn ++ [b] }, .pushData data)
    else some (t, .pushData (b :: data))
  | .pop, .done => some ({ t with dataOut := t.dataOut.drop bufferSize }, .write (t.dataOut.take bufferSize))
  | .write data, .written rv =>
    if rv ≤ data.length then some (t, if rv = data.length then .sleep else .failed) else none
  | .write _, .error e => some (t, if e.fatal then .disconnect else .sleep)
  | .sleep, .done => some (t, .readControl)
  | .disconnect, .done => some ({ t with connected := false }, .resetAgain)
  | .resetAgain, .done => some (Tcp.reset t, .accept)
  | _, _ => none

/-- The places of the connection loop. -/
def ServerPc.inLoop : ServerPc → Bool
  | .readControl | .pushControl _ | .readData | .pushData _ | .pop | .write _ | .sleep => true
  | _ => false

/-- The bytes that are about to be written. -/
def ServerPc.writing : ServerPc → List UInt8
  | .write data => data
  | _ => []

/-! ## One connection -/

/-- `pushed` are the bytes that the simulator has pushed to `mDataOut`, `accepted` those the socket has taken. -/
structure Connection where
  tcp : GlipTcp
  pc : ServerPc
  pushed : List UInt8
  accepted : List UInt8

inductive Event
  | push (data : UInt8)
  | popControl
  | popData
  | server (answer : Answer)
  deriving DecidableEq

/-- When the connection loop begins. -/
def begin (width : ℕ) : Connection := ⟨{ reset (initial width) with connected := true }, .readControl, [], []⟩

/-- The socket takes what it is given, a part of it or nothing. -/
def ServerPc.answers : ServerPc → Answer → Bool
  | .write _, .error e => e = .again
  | _, _ => true

/-- The bytes the socket takes with the answer. -/
def ServerPc.taken : ServerPc → Answer → List UInt8
  | .write data, .written rv => data.take rv
  | _, _ => []

def Connection.step (s : Connection) : Event → Option Connection
  | .push data =>
    if s.tcp.dataOut.length < dataSize then
      some { s with tcp := { s.tcp with dataOut := s.tcp.dataOut ++ [data] }, pushed := s.pushed ++ [data] }
    else none
  | .popControl => some { s with tcp := { s.tcp with control := s.tcp.control.drop 1 } }
  | .popData => some { s with tcp := { s.tcp with dataIn := s.tcp.dataIn.drop 1 } }
  | .server answer =>
    if s.pc.inLoop && s.pc.answers answer then
      (threadStep s.tcp s.pc answer).map fun (tcp, pc) =>
        { s with tcp, pc, accepted := s.accepted ++ s.pc.taken answer }
    else none

/-- The bytes that were pushed and not accepted are still there, and the assertion has not failed. -/
def Lossless (s : Connection) : Prop :=
  s.pc ≠ .failed ∧ s.pushed = s.accepted ++ (s.pc.writing ++ s.tcp.dataOut)

/-- Every write of at least one byte takes all bytes it is given. -/
def Whole (s : Connection) : Event → Prop
  | .server (.written rv) => rv = s.pc.writing.length
  | .server (.error .again) => s.pc.writing = []
  | _ => True

instance : DecidablePred Lossless := fun _ => inferInstanceAs (Decidable (_ ∧ _))

instance : ∀ s e, Decidable (Whole s e)
  | s, .server (.written rv) => inferInstanceAs (Decidable (rv = s.pc.writing.length))
  | s, .server (.error .again) => inferInstanceAs (Decidable (s.pc.writing = []))
  | _, .server (.error .badFd) | _, .server (.error .invalid) | _, .server (.error .other) => isTrue trivial
  | _, .server .done | _, .server (.read _) | _, .push _ | _, .popControl | _, .popData => isTrue trivial

section Step
variable {s s' : Connection} {t t' : GlipTcp} {pc pc' : ServerPc} {answer : Answer}

/-- Outside `write` the thread moves bytes only from the queue to the buffer. -/
theorem threadStep_out (h : threadStep t pc answer = some (t', pc')) (hloop : pc.inLoop = true)
    (hwrite : ∀ data, pc ≠ .write data) :
    pc' ≠ .failed ∧ pc'.writing ++ t'.dataOut = pc.writing ++ t.dataOut ∧ pc.taken answer = [] := by
  unfold threadStep at h
  split at h
  case h_12 =>
    obtain ⟨rfl, rfl⟩ := Prod.mk.inj (Option.some.inj h)
    exact ⟨by simp, List.take_append_drop _ _, rfl⟩
  case h_13 => exact absurd rfl (hwrite _)
  case h_14 => exact absurd rfl (hwrite _)
  all_goals first
    | exact absurd hloop Bool.false_ne_true
    | cases h <;> exact ⟨by simp, rfl, rfl⟩
    | split_ifs at h <;> cases h <;> exact ⟨by simp, rfl, rfl⟩

theorem writing_eq_nil (hwrite : ∀ data, pc ≠ .write data) : pc.writing = [] := by
  unfold ServerPc.writing
  split
  · exact absurd rfl (hwrite _)
  · rfl

theorem threadStep_written {rv : ℕ} (hwrite : ∀ data, pc ≠ .write data) : threadStep t pc (.written rv) = none := by
  unfold threadStep
  split <;> simp_all

theorem Lossless.write_iff {data : List UInt8} (h : Lossless s) (hdata : s.pc = .write data)
    (hstep : s.step (.server answer) = some s') : Lossless s' ↔ Whole s (.server answer) := by
  obtain ⟨t, pc, pushed, accepted⟩ := s
  obtain rfl : pc = .write data := hdata
  have hpushed : pushed = accepted ++ (data ++ t.dataOut) := h.2
  cases answer with
  | done => cases hstep
  | read data => cases hstep
  | written rv =>
    simp only [Connection.step, threadStep, ServerPc.inLoop, ServerPc.answers, Bool.and_true, if_true] at hstep
    split_ifs at hstep with hle hrv
    · cases hstep
      refine iff_of_true ⟨by simp, ?_⟩ hrv
      show pushed = accepted ++ data.take rv ++ ([] ++ t.dataOut)
      rw [hpushed, hrv, List.take_length, List.append_assoc, List.nil_append]
    · cases hstep
      exact iff_of_false (fun h' => h'.1 rfl) hrv
    · cases hstep
  | error e =>
    cases e with
    | again =>
      cases hstep
      show (_ ∧ pushed = accepted ++ [] ++ ([] ++ t.dataOut)) ↔ data = []
      simp [hpushed, Errno.fatal]
    | _ => cases hstep

/-- The other events and the other places of the loop keep the bytes, whatever the calls answer. -/
theorem Lossless.step_iff {e : Event} (h : Lossless s) (hstep : s.step e = some s') : Lossless s' ↔ Whole s e := by
  obtain ⟨hpc, hpushed⟩ := h
  cases e with
  | push data =>
    rw [Connection.step] at hstep
    split_ifs at hstep
    cases hstep
    refine iff_of_true ⟨hpc, ?_⟩ trivial
    rw [hpushed, List.append_assoc, List.append_assoc]
  | popControl =>
    cases hstep
    exact iff_of_true ⟨hpc, hpushed⟩ trivial
  | popData =>
    cases hstep
    exact iff_of_true ⟨hpc, hpushed⟩ trivial
  | server answer =>
    by_cases hwrite : ∃ data, s.pc = .write data
    · obtain ⟨data, hdata⟩ := hwrite
      exact Lossless.write_iff ⟨hpc, hpushed⟩ hdata hstep
    · have hwrite' (data : List UInt8) : s.pc ≠ .write data := fun heq => hwrite ⟨data, heq⟩
      rw [Connection.step] at hstep
      split_ifs at hstep with hcond
      obtain ⟨hloop, -⟩ := (Bool.and_eq_true _ _).mp hcond
      obtain ⟨⟨tcp, pc⟩, hthread, rfl⟩ := Option.map_eq_some_iff.mp hstep
      obtain ⟨hpc', hdata, htaken⟩ := threadStep_out hthread hloop hwrite'
      refine iff_of_true ⟨hpc', ?_⟩ ?_
      · show s.pushed = s.accepted ++ s.pc.taken answer ++ (pc.writing ++ tcp.dataOut)
        rw [hpushed, htaken, List.append_nil, hdata]
      · unfold Whole
        split
        case h_1 rv heq =>
          cases heq
          rw [threadStep_written hwrite'] at hthread
          cases hthread
        case h_2 => exact writing_eq_nil hwrite'
        case h_3 => trivial

end Step

/-- Nothing is lost in a run if and only if every write in it takes all bytes it is given. -/
theorem lossless_iff_whole {width : ℕ} {es : List Event} {s : Connection}
    (hrun : runFrom Connection.step (begin width) es = some s) :
    Passes Connection.step Lossless (begin width) es ↔ Takes Connection.step Whole (begin width) es :=
  passes_iff_takes (fun _ => True) (fun _ _ _ _ _ _ _ => trivial) (fun _ _ _ _ h hstep => h.step_iff hstep) trivial
    ⟨ServerPc.noConfusion, rfl⟩ hrun

theorem two_bytes_lossless : Passes Connection.step Lossless (begin 16) [.push 1, .push 2, .server (.error .again),
    .server (.error .again), .server .done, .server (.written 2)] := by
  refine (lossless_iff_whole (s := ⟨{ reset (initial 16) with connected := true }, .sleep, [1, 2], [1, 2]⟩) rfl).mpr ?_
  decide

/-- The socket is full: the byte that was taken from `mDataOut` is gone. -/
theorem refused_byte_lost : ¬ Passes Connection.step Lossless (begin 16) [.push 1, .server (.error .again),
    .server (.error .again), .server .done, .server (.error .again)] := by
  decide

end GlipOsd.Tcp
