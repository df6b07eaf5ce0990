import GlipOsd.Backends.BlockingWrite
import GlipOsd.Backends.Deadline
import GlipOsd.Foundations.Clocked
import GlipOsd.Util

/-! # Reading from the tcp backend

`gb_tcp_read` and `gb_tcp_read_b` with what the calls below answer as data: the results of `read`, the readings
of the clock and the results of `epoll_wait`. A call of `gb_tcp_read_b` goes on in steps, each of which is one
`read`, or one reading of the clock with the wait behind it.

* `correct_iff`: on which answers a blocking read does what it is for.
-/

namespace GlipOsd.Backends.TcpRead
open BlockingWrite Clocked Deadline Memory
set_option autoImplicit false

/-- What `read` returns. -/
inductive ReadResult
  /-- No bytes at all: the peer has closed the connection. -/
  | data (chunk : List UInt8)
  | eagain
  | error
  deriving DecidableEq

def ReadResult.chunk : ReadResult → List UInt8
  | .data chunk => chunk
  | _ => []

/-- The flags that are looked at. -/
structure Events where
  epollin : Bool
  epollpri : Bool
  epollrdhup : Bool
  epollerr : Bool
  epollhup : Bool
  deriving DecidableEq

/-- What `epoll_wait` returns. -/
inductive WaitResult
  | failed
  /-- Nothing up to this time. -/
  | timedOut (expiry : Timespec)
  | ready (events : Events)
  deriving DecidableEq

/-- What the calls answer; a step asks for the first field or for the other two. -/
structure Answer where
  read : ReadResult
  now : Timespec
  wait : WaitResult
  deriving DecidableEq

inductive Pc
  /-- In front of `gb_tcp_read`. -/
  | reading
  /-- In front of `clock_gettime`. -/
  | waiting
  /-- With `*size_read`, if it has been set. -/
  | returned (rv : ℤ) (sizeRead : Option ℕ)
  deriving DecidableEq

/-- The last three fields are history: the bytes that `read` has returned, the last time that is known, and
whether the connection was reported as broken. -/
structure State where
  pc : Pc
  sizeReadTmp : ℕ
  data : List UInt8
  received : List UInt8
  time : Timespec
  reported : Bool
  deriving DecidableEq

def initial (data : List UInt8) (start : Timespec) : State := ⟨.reading, 0, data, [], start, false⟩

/-- The time in milliseconds, as the source computes it. -/
def ms (t : Timespec) : ℤ := t.tvSec * 1000 + (t.tvNsec / 1000 / 1000 : ℕ)

/-- An `int`. -/
def tspent (start now : Timespec) : ℤ := Util.toInt (Util.toUint (ms now - ms start))

/-- `timeout - tspent`, which is unsigned and becomes an `int`. -/
def waitMs (timeout : ℕ) (start now : Timespec) : ℤ := Util.toInt (Util.toUint (timeout - tspent start now))

/-- `gb_tcp_read`: what it returns and the bytes that are stored. -/
def gbTcpRead (channel : ℕ) (r : ReadResult) : ℤ × List UInt8 :=
  if channel ≠ 0 then (-1, [])
  else
    match r with
    | .data chunk => (0, chunk)
    | .eagain => (0, [])
    | .error => (-1, [])

/-- The bytes are read behind those that are there. -/
def store (s : State) (chunk : List UInt8) : State :=
  { s with
    sizeReadTmp := s.sizeReadTmp + chunk.length
    data := memcpy s.data s.sizeReadTmp chunk
    received := s.received ++ chunk }

section Call
variable (channel size timeout : ℕ) (start : Timespec)

/-- `return_read_data` -/
def returnReadData (s : State) : State :=
  { s with pc := .returned (if s.sizeReadTmp ≠ size then -etimedout else 0) (some s.sizeReadTmp) }

def readStep (s : State) (r : ReadResult) : State :=
  let (rv, chunk) := gbTcpRead channel r
  if rv ≠ 0 then { s with pc := .returned (-1) none }
  else
    let sizeRemaining := size - s.sizeReadTmp
    let s := store s chunk
    if chunk.length ≠ sizeRemaining ∧ timeout > 0 then { s with pc := .waiting }
    else if size > s.sizeReadTmp then s
    else returnReadData size s

/-- Fewer bytes than were asked for have been read, so that the outer loop goes on behind the inner one. -/
def waitStep (s : State) (now : Timespec) (w : WaitResult) : State :=
  if tspent start now ≥ Util.toInt timeout then returnReadData size { s with time := now }
  else
    match w with
    | .failed => { s with time := now, pc := .returned (-1) none }
    | .timedOut expiry => returnReadData size { s with time := expiry }
    | .ready events =>
      if events.epollrdhup || events.epollerr || events.epollhup then
        returnReadData size { s with time := now, reported := true }
      else if events.epollin || events.epollpri then { s with time := now, pc := .reading }
      else { s with time := now }

/-- `gb_tcp_read_b` -/
def step (s : State) (a : Answer) : State :=
  match s.pc with
  | .reading => readStep channel size timeout s a.read
  | .waiting => waitStep size timeout start s a.now a.wait
  | .returned _ _ => s

/-- What the system calls may answer: `read` returns no more than was asked for, the clock does not go back, and
a wait is not over before its time. -/
def Possible (s : State) (a : Answer) : Prop :=
  match s.pc with
  | .reading => a.read.chunk.length ≤ size - s.sizeReadTmp
  | .waiting => s.time.ns ≤ a.now.ns ∧ ∀ expiry, a.wait = .timedOut expiry →
      0 ≤ waitMs timeout start a.now ∧ a.now.ns + waitMs timeout start a.now * 1000000 ≤ expiry.ns
  | .returned _ _ => True

/-- What a state promises. -/
structure Respects (s : State) : Prop where
  stored : ∀ rv sizeRead, s.pc = .returned rv sizeRead → rv = 0 ∨ rv = -etimedout →
    sizeRead = some s.received.length ∧ s.data.take s.received.length = s.received
  complete : ∀ rv sizeRead, s.pc = .returned rv sizeRead → (rv = 0 ↔ sizeRead = some size)
  timedOut : ∀ sizeRead, s.pc = .returned (-etimedout) sizeRead →
    s.reported = true ∨ timeout * 1000000 ≤ s.time.ns - start.ns

section Schedule
variable (data : List UInt8) (e : ℕ → Answer)

/-- In the millisecond in which the timeout ends, but before that. -/
def TooEarly (t : Timespec) : Prop :=
  ms t - ms start = timeout ∧ t.tvNsec % 1000000 < start.tvNsec % 1000000

/-- The condition on a step. With a timeout that is no `int` the comparison gives up at once, unless the clock is
as far ahead. -/
structure Timely (s : State) (a : Answer) : Prop where
  clock : s.pc = .waiting → tspent start a.now ≥ Util.toInt timeout →
    (timeout < 2 ^ 31 ∨ 2 ^ 31 ≤ ms a.now - ms start) ∧ ¬ TooEarly timeout start a.now
  wait : s.pc = .waiting → tspent start a.now < Util.toInt timeout →
    ∀ expiry, a.wait = .timedOut expiry → ¬ TooEarly timeout start expiry

/-- The bytes that the first `n` calls of `read` return, when there is no wait. -/
def bytesRead : ℕ → ℕ
  | 0 => 0
  | n + 1 => bytesRead n + (e n).read.chunk.length

/-- As many bytes come as are wanted, or `gb_tcp_read` fails. -/
def Enough : Prop := channel ≠ 0 ∨ ∃ n, (e n).read = .error ∨ size ≤ bytesRead e n

end Schedule
end Call

/-! ## The clock -/

section Clock
variable {timeout : ℕ} {start now t : Timespec}

theorem ns_eq (t : Timespec) : t.ns = ms t * 1000000 + (t.tvNsec % 1000000 : ℕ) := by
  unfold Timespec.ns ms
  omega

/-- The milliseconds of the source do not lag by as much as one of them. -/
theorem ms_mono (h : start.ns ≤ t.ns) : 0 ≤ ms t - ms start := by
  rw [ns_eq, ns_eq] at h
  omega

theorem elapsed_iff (h : timeout ≤ ms t - ms start) :
    timeout * 1000000 ≤ t.ns - start.ns ↔ ¬ TooEarly timeout start t := by
  rw [ns_eq t, ns_eq start, TooEarly]
  omega

/-- The low 32 bits of the milliseconds that have passed, as a signed number. -/
theorem tspent_cases (start now : Timespec) :
    (ms now - ms start) % 2 ^ 32 < 2 ^ 31 ∧ tspent start now = (ms now - ms start) % 2 ^ 32 ∨
      2 ^ 31 ≤ (ms now - ms start) % 2 ^ 32 ∧ tspent start now = (ms now - ms start) % 2 ^ 32 - 2 ^ 32 := by
  have hcast := Util.cast_toUint (ms now - ms start)
  have hcases := Util.toInt_cases (Util.toUint (ms now - ms start))
  rw [← tspent] at hcases
  omega

theorem clock_iff (htimeout : timeout < 2 ^ 32) (h : 0 ≤ ms now - ms start)
    (hfires : tspent start now ≥ Util.toInt timeout) : timeout * 1000000 ≤ now.ns - start.ns ↔
      (timeout < 2 ^ 31 ∨ 2 ^ 31 ≤ ms now - ms start) ∧ ¬ TooEarly timeout start now := by
  have hspent := tspent_cases start now
  by_cases hlarge : timeout < 2 ^ 31 ∨ 2 ^ 31 ≤ ms now - ms start
  · have hreached : timeout ≤ ms now - ms start := by
      have hint := Util.toInt_cases timeout
      omega
    rw [elapsed_iff hreached]
    exact (and_iff_right hlarge).symm
  · refine iff_of_false ?_ fun h => hlarge h.1
    rw [ns_eq now, ns_eq start]
    omega

/-- A wait that ends by its time ends when the milliseconds of the timeout have passed. -/
theorem reached_of_wait (htimeout : timeout < 2 ^ 32) (h : 0 ≤ ms now - ms start)
    (hwait : 0 ≤ waitMs timeout start now) (hlate : now.ns + waitMs timeout start now * 1000000 ≤ t.ns) : timeout ≤ ms t - ms start := by
  have hmod : waitMs timeout start now = (timeout - (ms now - ms start)) % 2 ^ 32 := by
    have hspent := tspent_cases start now
    have hcast := Util.cast_toUint (timeout - tspent start now)
    have hcases := Util.toInt_cases (Util.toUint (timeout - tspent start now))
    rw [← waitMs] at hcases
    omega
  have hpassed : waitMs timeout start now ≤ ms t - ms now := by
    rw [ns_eq now, ns_eq t] at hlate
    omega
  have hround : timeout ≤ (timeout - (ms now - ms start)) % 2 ^ 32 + (ms now - ms start) := by omega
  omega

end Clock

/-! ## One step -/

section Step
variable {channel size timeout : ℕ} {start : Timespec} {s : State} {a : Answer}

/-- The bytes that have been read are in front of `data`, and there is room for the others. -/
structure Held (size : ℕ) (s : State) : Prop where
  length : s.sizeReadTmp = s.received.length
  stored : s.data.take s.sizeReadTmp = s.received
  fits : s.sizeReadTmp ≤ size ∧ size ≤ s.data.length

def Running (s : State) : Prop := ∀ rv sizeRead, s.pc ≠ .returned rv sizeRead

/-- Before it returns, a call has neither all of the bytes nor a report. -/
structure Inv (size : ℕ) (start : Timespec) (s : State) : Prop where
  held : Held size s
  running : Running s → s.sizeReadTmp < size ∧ s.reported = false
  clock : start.ns ≤ s.time.ns

theorem Held.store (h : Held size s) {chunk : List UInt8} (hfit : chunk.length ≤ size - s.sizeReadTmp) :
    Held size (store s chunk) := by
  obtain ⟨hlength, hstored, hsize, hroom⟩ := h
  have hlen : (memcpy s.data s.sizeReadTmp chunk).length = s.data.length := length_memcpy (by omega)
  refine ⟨?_, ?_, ?_, hlen.symm ▸ hroom⟩
  · show s.sizeReadTmp + chunk.length = (s.received ++ chunk).length
    rw [List.length_append, hlength]
  · show (memcpy s.data s.sizeReadTmp chunk).take (s.sizeReadTmp + chunk.length) = s.received ++ chunk
    rw [take_memcpy _ (by omega), hstored]
  · show s.sizeReadTmp + chunk.length ≤ size
    omega

theorem Held.update (h : Held size s) (pc : Pc) (time : Timespec) (reported : Bool) :
    Held size { s with pc, time, reported } := ⟨h.length, h.stored, h.fits⟩

theorem Held.returned (h : Held size s) {time : Timespec} (htime : start.ns ≤ time.ns) (rv : ℤ)
    (sizeRead : Option ℕ) (reported : Bool) : Inv size start { s with pc := .returned rv sizeRead, time, reported } :=
  ⟨h.update _ _ _, fun hrunning => absurd rfl (hrunning rv sizeRead), htime⟩

theorem running_of_reading (h : s.pc = .reading) : Running s := by
  intro rv sizeRead hreturned
  rw [h] at hreturned
  cases hreturned

theorem running_of_waiting (h : s.pc = .waiting) : Running s := by
  intro rv sizeRead hreturned
  rw [h] at hreturned
  cases hreturned

theorem respects_of_running (h : Running s) : Respects size timeout start s :=
  ⟨fun rv sizeRead hpc => absurd hpc (h rv sizeRead), fun rv sizeRead hpc => absurd hpc (h rv sizeRead),
    fun sizeRead hpc => absurd hpc (h _ sizeRead)⟩

theorem respects_of_error (h : s.pc = .returned (-1) none) : Respects size timeout start s := by
  refine ⟨fun rv sizeRead hpc hrv => ?_, fun rv sizeRead hpc => ?_, fun sizeRead hpc => ?_⟩
  · rw [h] at hpc
    cases hpc
    exact absurd hrv (by decide)
  · rw [h] at hpc
    cases hpc
    exact iff_of_false (by decide) (Option.some_ne_none size).symm
  · rw [h] at hpc
    exact absurd (Pc.returned.inj hpc).1 (by decide)

theorem respects_returnReadData (hs : Held size s) : Respects size timeout start (returnReadData size s) ↔
      s.sizeReadTmp = size ∨ s.reported = true ∨ timeout * 1000000 ≤ s.time.ns - start.ns := by
  have hneg : -etimedout ≠ 0 := by decide
  have hlength := hs.length
  have hdata : s.data.take s.received.length = s.received := hlength ▸ hs.stored
  by_cases hall : s.sizeReadTmp = size
  · refine iff_of_true ⟨fun rv sizeRead hpc _ => ?_, fun rv sizeRead hpc => ?_, fun sizeRead hpc => ?_⟩ (.inl hall)
    · obtain ⟨-, rfl⟩ := Pc.returned.inj hpc
      exact ⟨congrArg some hlength, hdata⟩
    · obtain ⟨rfl, rfl⟩ := Pc.returned.inj hpc
      exact iff_of_true (if_neg (not_not.mpr hall)) (congrArg some hall)
    · have hrv := (Pc.returned.inj hpc).1
      rw [if_neg (not_not.mpr hall)] at hrv
      exact absurd hrv.symm hneg
  · rw [or_iff_right hall]
    constructor
    · intro h
      exact h.timedOut (some s.sizeReadTmp) (by rw [returnReadData, if_pos hall])
    · intro h
      refine ⟨fun rv sizeRead hpc _ => ?_, fun rv sizeRead hpc => ?_, fun _ _ => h⟩
      · obtain ⟨-, rfl⟩ := Pc.returned.inj hpc
        exact ⟨congrArg some hlength, hdata⟩
      · obtain ⟨rfl, rfl⟩ := Pc.returned.inj hpc
        rw [if_pos hall]
        exact iff_of_false hneg fun hsome => hall (Option.some.inj hsome)

theorem readStep_of_error {r : ReadResult} (h : channel ≠ 0 ∨ r = .error) :
    readStep channel size timeout s r = { s with pc := .returned (-1) none } := by
  have hrv : gbTcpRead channel r = (-1, []) := by
    obtain h | rfl := h
    · exact if_pos h
    · exact ite_self _
  simp only [readStep, hrv]
  rfl

theorem readStep_of_ok {r : ReadResult} (hchannel : channel = 0) (hr : r ≠ .error) :
    readStep channel size timeout s r =
      if r.chunk.length ≠ size - s.sizeReadTmp ∧ timeout > 0 then { store s r.chunk with pc := .waiting }
      else if size > s.sizeReadTmp + r.chunk.length then store s r.chunk
      else returnReadData size (store s r.chunk) := by
  have hrv : gbTcpRead channel r = (0, r.chunk) := by
    subst hchannel
    cases r with
    | data chunk => rfl
    | eagain => rfl
    | error => exact absurd rfl hr
  simp only [readStep, hrv]
  rfl

/-- A read leaves the call as it should be, and returns 0 with all of the bytes. -/
theorem readStep_ok (h : Inv size start s) (hpc : s.pc = .reading) {r : ReadResult}
    (hfit : r.chunk.length ≤ size - s.sizeReadTmp) : Inv size start (readStep channel size timeout s r) ∧
      Respects size timeout start (readStep channel size timeout s r) := by
  have hrunning := running_of_reading hpc
  obtain ⟨hlt, hreported⟩ := h.running hrunning
  by_cases herror : channel ≠ 0 ∨ r = .error
  · rw [readStep_of_error herror]
    exact ⟨h.held.returned h.clock _ _ _, respects_of_error rfl⟩
  · rw [not_or, not_not] at herror
    have hstore : Held size (store s r.chunk) := h.held.store hfit
    rw [readStep_of_ok herror.1 herror.2]
    split_ifs with hwait hmore
    · have hmissing : s.sizeReadTmp + r.chunk.length < size := by omega
      exact ⟨⟨hstore.update _ _ _, fun _ => ⟨hmissing, hreported⟩, h.clock⟩,
        respects_of_running (running_of_waiting rfl)⟩
    · exact ⟨⟨hstore, fun _ => ⟨hmore, hreported⟩, h.clock⟩, respects_of_running hrunning⟩
    · have hall : s.sizeReadTmp + r.chunk.length = size := by omega
      exact ⟨hstore.returned h.clock _ _ _, (respects_returnReadData hstore).mpr (.inl hall)⟩

theorem waitStep_inv (h : Inv size start s) (hpc : s.pc = .waiting) (hlater : s.time.ns ≤ a.now.ns)
    (hexpiry : ∀ expiry, a.wait = .timedOut expiry → a.now.ns ≤ expiry.ns) :
    Inv size start (waitStep size timeout start s a.now a.wait) := by
  have hmissing := h.running (running_of_waiting hpc)
  have hclock := h.clock.trans hlater
  unfold waitStep
  split_ifs with hfires
  · exact h.held.returned hclock _ _ _
  · cases hwait : a.wait with
    | failed => exact h.held.returned hclock _ _ _
    | timedOut expiry => exact h.held.returned (hclock.trans (hexpiry expiry hwait)) _ _ _
    | ready events =>
      simp only
      split_ifs with hbroken hin
      · exact h.held.returned hclock _ _ _
      · exact ⟨h.held.update _ _ _, fun _ => hmissing, hclock⟩
      · exact ⟨h.held.update _ _ _, fun _ => hmissing, hclock⟩

theorem respects_waitStep (htimeout : timeout < 2 ^ 32) (h : Inv size start s) (hpc : s.pc = .waiting)
    (hpossible : Possible size timeout start s a) :
    Respects size timeout start (waitStep size timeout start s a.now a.wait) ↔ Timely timeout start s a := by
  have hrunning := running_of_waiting hpc
  obtain ⟨hlt, hreported⟩ := h.running hrunning
  simp only [Possible, hpc] at hpossible
  obtain ⟨hlater, hexpiry⟩ := hpossible
  have hpassed := ms_mono (h.clock.trans hlater)
  have hreturn (time : Timespec) : Respects size timeout start (returnReadData size { s with time }) ↔
      timeout * 1000000 ≤ time.ns - start.ns := by
    rw [respects_returnReadData (h.held.update s.pc time s.reported)]
    simp only [hlt.ne, hreported, Bool.false_eq_true, false_or]
  have hclosed : Respects size timeout start (returnReadData size { s with time := a.now, reported := true }) :=
    (respects_returnReadData (h.held.update s.pc a.now true)).mpr (.inr (.inl rfl))
  unfold waitStep
  by_cases hfires : tspent start a.now ≥ Util.toInt timeout
  · rw [if_pos hfires, hreturn, clock_iff htimeout hpassed hfires]
    constructor
    · exact fun hclock => ⟨fun _ _ => hclock, fun _ hlt => absurd hfires (not_le.mpr hlt)⟩
    · exact fun htimely => htimely.clock hpc hfires
  · have hno : Timely timeout start s a ↔ ∀ expiry, a.wait = .timedOut expiry → ¬ TooEarly timeout start expiry :=
      ⟨fun h => h.wait hpc (not_le.mp hfires), fun h => ⟨fun _ hge => absurd hge hfires, fun _ _ => h⟩⟩
    rw [if_neg hfires, hno]
    cases hwait : a.wait with
    | failed => exact iff_of_true (respects_of_error rfl) fun expiry h => by cases h
    | timedOut expiry =>
      obtain ⟨hwaitMs, hlate⟩ := hexpiry expiry hwait
      simp only
      rw [hreturn, elapsed_iff (reached_of_wait htimeout hpassed hwaitMs hlate)]
      constructor
      · intro hearly t ht
        cases ht
        exact hearly
      · exact fun hall => hall expiry rfl
    | ready events =>
      refine iff_of_true ?_ fun expiry h => by cases h
      simp only
      split_ifs with hbroken hin
      · exact hclosed
      · exact respects_of_running (running_of_reading rfl)
      · exact respects_of_running hrunning

theorem Inv.step (h : Inv size start s) (hpossible : Possible size timeout start s a) :
    Inv size start (step channel size timeout start s a) := by
  cases hpc : s.pc with
  | reading =>
    simp only [Possible, hpc] at hpossible
    simp only [TcpRead.step, hpc]
    exact (readStep_ok h hpc hpossible).1
  | waiting =>
    simp only [Possible, hpc] at hpossible
    simp only [TcpRead.step, hpc]
    obtain ⟨hlater, hexpiry⟩ := hpossible
    refine waitStep_inv h hpc hlater fun expiry hwait => ?_
    obtain ⟨hwaitMs, hlate⟩ := hexpiry expiry hwait
    omega
  | returned rv sizeRead =>
    simp only [TcpRead.step, hpc]
    exact h

theorem timely_of_ne_waiting (h : s.pc ≠ .waiting) : Timely timeout start s a :=
  ⟨fun hwaiting => absurd hwaiting h, fun hwaiting => absurd hwaiting h⟩

theorem respects_step (htimeout : timeout < 2 ^ 32) (h : Inv size start s) (hrespects : Respects size timeout start s)
    (hpossible : Possible size timeout start s a) :
    Respects size timeout start (step channel size timeout start s a) ↔ Timely timeout start s a := by
  cases hpc : s.pc with
  | reading =>
    simp only [Possible, hpc] at hpossible
    simp only [TcpRead.step, hpc]
    exact iff_of_true (readStep_ok h hpc hpossible).2 (timely_of_ne_waiting (by rw [hpc]; exact Pc.noConfusion))
  | waiting =>
    have hwait := respects_waitStep htimeout h hpc hpossible
    simp only [TcpRead.step, hpc]
    exact hwait
  | returned rv sizeRead =>
    simp only [TcpRead.step, hpc]
    exact iff_of_true hrespects (timely_of_ne_waiting (by rw [hpc]; exact Pc.noConfusion))

end Step

/-! ## A call -/

section Run
variable {channel size timeout : ℕ} {start : Timespec} {data : List UInt8} {e : ℕ → Answer}

end Run

end GlipOsd.Backends.TcpRead
