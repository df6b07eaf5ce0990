import GlipOsd.CircularBuffer.Model
import GlipOsd.Foundations.Runs

/-! # Blocking reads and the level condition variable

The loop of the blocking reads with timeout 0 (`gb_uart_read_b`, `gb_jtag_read_b` and
`gb_cypressfx2_read_b` contain it with their own buffer),

    while (cbuf_fill_level(buf) < size) cbuf_wait_for_level_change(buf);

next to a communication thread that publishes bytes. The fill level is tested without
`level_mutex`; `cbuf_wait_for_level_change` locks it and sleeps without testing again. A write
that is published and broadcast in between is therefore not noticed. The steps are the
accesses to the mutex, the condition variable and the two pointers.
-/

namespace GlipOsd.CircularBuffer.Wakeup
open Runs
set_option autoImplicit false

inductive Thread
  | reader
  | writer
  deriving DecidableEq, Repr

/-- Where the user thread is; `size` is the amount it was asked to read. -/
inductive ReaderPc
  | idle
  /-- about to evaluate the loop condition -/
  | test (size : ℕ)
  /-- in `cbuf_wait_for_level_change`, about to lock -/
  | lock (size : ℕ)
  /-- holds the mutex, about to call `pthread_cond_wait` -/
  | wait (size : ℕ)
  | asleep (size : ℕ)
  /-- woken by a broadcast, about to take the mutex again -/
  | woken (size : ℕ)
  | unlock (size : ℕ)
  /-- behind the loop, about to copy what is available -/
  | read (size : ℕ)
  /-- in `cbuf_read`, about to lock, store `rd_ptr`, broadcast and unlock -/
  | release (n : ℕ)
  | store (n : ℕ)
  | broadcast
  | done
  deriving DecidableEq, Repr

/-- Where the communication thread is in `cbuf_write` or `cbuf_commit` of `n` bytes. -/
inductive WriterPc
  | idle
  | lock (n : ℕ)
  | store (n : ℕ)
  | broadcast
  | unlock
  deriving DecidableEq, Repr

structure State where
  buf : Cbuf
  mutex : Option Thread
  reader : ReaderPc
  writer : WriterPc
  deriving DecidableEq

def initial (k : ℕ) : State := ⟨cbufInit (2 ^ k), none, .idle, .idle⟩

/-- A call of the user, a write of the communication thread, or the next step of either. -/
inductive Label
  | call (size : ℕ)
  | write (n : ℕ)
  | step (t : Thread)
  deriving DecidableEq, Repr

/-- `pthread_cond_broadcast`: a sleeping reader becomes runnable. -/
def wake : ReaderPc → ReaderPc
  | .asleep size => .woken size
  | pc => pc

def lockMutex (s : State) (t : Thread) : Option State :=
  if s.mutex = none then some { s with mutex := some t } else none

def readerStep (s : State) : Option State :=
  match s.reader with
  | .idle => none
  | .test size =>
    some { s with reader := if cbufFillLevel s.buf < size then .lock size else .read size }
  | .lock size => (lockMutex s .reader).map fun s => { s with reader := .wait size }
  | .wait size => some { s with mutex := none, reader := .asleep size }
  | .asleep _ => none
  | .woken size => (lockMutex s .reader).map fun s => { s with reader := .unlock size }
  | .unlock size => some { s with mutex := none, reader := .test size }
  | .read size =>
    let n := min (cbufFillLevel s.buf) size
    some { s with reader := if n = 0 then .idle else .release n }
  | .release n => (lockMutex s .reader).map fun s => { s with reader := .store n }
  | .store n => some { s with buf := advanceRdPtr s.buf n, reader := .broadcast }
  | .broadcast => some { s with reader := .done }
  | .done => some { s with mutex := none, reader := .idle }

def writerStep (s : State) : Option State :=
  match s.writer with
  | .idle => none
  | .lock n => (lockMutex s .writer).map fun s => { s with writer := .store n }
  | .store n => some { s with buf := advanceWrPtr s.buf n, writer := .broadcast }
  | .broadcast => some { s with reader := wake s.reader, writer := .unlock }
  | .unlock => some { s with mutex := none, writer := .idle }

/-- A call asks for at most the size of the buffer; a write passes its level check. -/
def step (s : State) : Label → Option State
  | .call size =>
    if s.reader = .idle ∧ size ≤ s.buf.size then some { s with reader := .test size } else none
  | .write n =>
    if s.writer = .idle ∧ n ≤ cbufFreeLevel s.buf then some { s with writer := .lock n } else none
  | .step .reader => readerStep s
  | .step .writer => writerStep s

/-! ## The mutex -/

def ReaderPc.locked : ReaderPc → Bool
  | .wait _ | .unlock _ | .store _ | .broadcast | .done => true
  | _ => false

def WriterPc.locked : WriterPc → Bool
  | .store _ | .broadcast | .unlock => true
  | _ => false

/-- The mutex is held by the thread that is inside a critical section. -/
structure Exclusive (s : State) : Prop where
  reader : s.reader.locked = true ↔ s.mutex = some .reader
  writer : s.writer.locked = true ↔ s.mutex = some .writer

theorem wake_locked (pc : ReaderPc) : (wake pc).locked = pc.locked := by cases pc <;> rfl

theorem exclusive_initial (k : ℕ) : Exclusive (initial k) := by
  constructor <;> simp [initial, ReaderPc.locked, WriterPc.locked]

theorem lockMutex_eq_some {s s' : State} {t : Thread} :
    lockMutex s t = some s' ↔ s.mutex = none ∧ s' = { s with mutex := some t } := by
  unfold lockMutex
  split_ifs with h <;> simp [h, eq_comm]

theorem exclusive_reader {s s' : State} (h : Exclusive s) (hstep : readerStep s = some s') :
    Exclusive s' := by
  obtain ⟨hr, hw⟩ := h
  unfold readerStep at hstep
  split at hstep <;> rename_i hpc <;> rw [hpc] at hr
  case h_1 | h_5 => cases hstep
  case h_3 | h_6 | h_9 =>
    simp only [Option.map_eq_some_iff, lockMutex_eq_some] at hstep
    obtain ⟨_, ⟨hfree, rfl⟩, rfl⟩ := hstep
    constructor <;> simp_all [ReaderPc.locked]
  all_goals
    simp only [Option.some.injEq] at hstep
    subst hstep
    constructor <;> simp_all [ReaderPc.locked] <;> split_ifs <;> rfl

theorem exclusive_writer {s s' : State} (h : Exclusive s) (hstep : writerStep s = some s') :
    Exclusive s' := by
  obtain ⟨hr, hw⟩ := h
  unfold writerStep at hstep
  split at hstep <;> rename_i hpc <;> rw [hpc] at hw
  case h_1 => cases hstep
  case h_2 =>
    simp only [Option.map_eq_some_iff, lockMutex_eq_some] at hstep
    obtain ⟨_, ⟨hfree, rfl⟩, rfl⟩ := hstep
    constructor <;> simp_all [WriterPc.locked]
  all_goals
    simp only [Option.some.injEq] at hstep
    subst hstep
    constructor <;> simp_all [WriterPc.locked, wake_locked]

theorem exclusive_step : Stable step Exclusive := by
  intro s l s' h hstep
  match l, hstep with
  | .call size, hstep =>
    simp only [step] at hstep
    split_ifs at hstep with hidle
    obtain rfl := Option.some.inj hstep
    exact ⟨by simpa [ReaderPc.locked, hidle.1] using h.reader, h.writer⟩
  | .write n, hstep =>
    simp only [step] at hstep
    split_ifs at hstep with hidle
    obtain rfl := Option.some.inj hstep
    exact ⟨h.reader, by simpa [WriterPc.locked, hidle.1] using h.writer⟩
  | .step .reader, hstep => exact exclusive_reader h hstep
  | .step .writer, hstep => exact exclusive_writer h hstep

/-! ## Lost wake-ups -/

/-- The reader sleeps although enough bytes are stored, and no broadcast is on its way. -/
def LostWakeup (s : State) : Prop :=
  ∃ size, s.reader = .asleep size ∧ size ≤ cbufFillLevel s.buf ∧ s.writer ≠ .broadcast

/-- `pthread_cond_wait` is entered only while fewer bytes than asked for are stored. -/
def WaitsBelow (s : State) (l : Label) : Prop :=
  l = .step .reader → ∀ size, s.reader = .wait size → cbufFillLevel s.buf < size

def ReaderPc.below (level : ℕ) : ReaderPc → Bool
  | .wait size => level < size
  | _ => true

theorem waitsBelow_iff {s : State} {l : Label} :
    WaitsBelow s l ↔ (l = .step .reader → s.reader.below (cbufFillLevel s.buf) = true) := by
  unfold WaitsBelow
  cases s.reader <;> simp [ReaderPc.below]

instance (s : State) (l : Label) : Decidable (WaitsBelow s l) := decidable_of_iff' _ waitsBelow_iff

theorem lostWakeup_reader {s s' : State} (h : Exclusive s) (hstep : readerStep s = some s') :
    ¬ LostWakeup s' ↔ WaitsBelow s (.step .reader) := by
  unfold readerStep at hstep
  split at hstep <;> rename_i hpc
  case h_1 | h_5 => cases hstep
  case h_4 =>
    -- falling asleep: the writer is outside its critical section, so it is not about to broadcast
    obtain rfl := Option.some.inj hstep
    have hheld := h.reader.mp (by rw [hpc]; rfl)
    have hout : s.writer ≠ .broadcast := by
      intro hb
      have hother := h.writer.mp (by rw [hb]; rfl)
      rw [hheld] at hother
      cases hother
    simp [LostWakeup, WaitsBelow, hpc, hout]
  case h_3 | h_6 | h_9 =>
    simp only [Option.map_eq_some_iff, lockMutex_eq_some] at hstep
    obtain ⟨_, ⟨-, rfl⟩, rfl⟩ := hstep
    simp [LostWakeup, WaitsBelow, hpc]
  case h_2 | h_8 =>
    obtain rfl := Option.some.inj hstep
    simp only [LostWakeup, WaitsBelow, hpc]
    split_ifs <;> simp
  all_goals
    obtain rfl := Option.some.inj hstep
    simp [LostWakeup, WaitsBelow, hpc]

theorem lostWakeup_writer {s s' : State} (hgood : ¬ LostWakeup s) (hstep : writerStep s = some s') :
    ¬ LostWakeup s' := by
  unfold writerStep at hstep
  split at hstep <;> rename_i hpc
  case h_1 => cases hstep
  case h_2 =>
    simp only [Option.map_eq_some_iff, lockMutex_eq_some] at hstep
    obtain ⟨_, ⟨-, rfl⟩, rfl⟩ := hstep
    simp_all [LostWakeup]
  case h_4 =>
    -- the broadcast: whoever slept is awake now
    obtain rfl := Option.some.inj hstep
    rintro ⟨size, hasleep, -, -⟩
    revert hasleep
    simp only
    cases s.reader <;> simp [wake]
  all_goals
    obtain rfl := Option.some.inj hstep
    simp_all [LostWakeup]

/-- **When blocking reads lose no wake-up.** Along every run, for every buffer size, all requested
sizes and all writes, no state has a lost wake-up exactly when every `pthread_cond_wait` of the
run is entered with fewer bytes stored than asked for. -/
theorem no_lost_wakeup_iff (k : ℕ) (ls : List Label) (s : State)
    (hrun : runFrom step (initial k) ls = some s) :
    Passes step (fun s => ¬ LostWakeup s) (initial k) ls ↔ Takes step WaitsBelow (initial k) ls := by
  refine passes_iff_takes _ (fun s l s' h _ hstep _ => exclusive_step s l s' h hstep) ?_
    (exclusive_initial k) ?_ hrun
  · intro s l s' hex hgood hstep
    match l, hstep with
    | .call size, hstep =>
      simp only [step] at hstep
      split_ifs at hstep with hidle
      obtain rfl := Option.some.inj hstep
      simp [LostWakeup, WaitsBelow]
    | .write n, hstep =>
      simp only [step] at hstep
      split_ifs at hstep with hidle
      obtain rfl := Option.some.inj hstep
      simp_all [LostWakeup, WaitsBelow]
    | .step .reader, hstep => exact lostWakeup_reader hex hstep
    | .step .writer, hstep =>
      exact iff_of_true (lostWakeup_writer hgood hstep) (by simp [WaitsBelow])
  · simp [LostWakeup, initial]

/-- The schedule that loses the wake-up: the byte is published between the test and the lock. -/
def lostSchedule : List Label :=
  [.call 1, .step .reader, .write 1, .step .writer, .step .writer, .step .writer, .step .writer,
    .step .reader, .step .reader]

/-- A reader that asked for one byte sleeps while one byte is stored and the writer is idle. -/
theorem lost_wakeup_reachable :
    ∃ s, runFrom step (initial 2) lostSchedule = some s ∧ LostWakeup s ∧ s.writer = .idle :=
  ⟨_, rfl, ⟨1, rfl, by decide, by decide⟩, rfl⟩

/-- The same calls with the write after the reader fell asleep: the broadcast wakes it, it tests the level again, and
reads the byte. -/
def wokenSchedule : List Label :=
  [.call 1, .step .reader, .step .reader, .step .reader, .write 1] ++ List.replicate 4 (.step .writer) ++
    List.replicate 8 (.step .reader)

theorem no_lost_wakeup_after_sleep :
    (∃ s, runFrom step (initial 2) (wokenSchedule.take 4) = some s ∧ s.reader = .asleep 1) ∧
    ∃ s, runFrom step (initial 2) wokenSchedule = some s ∧ s.reader = .idle ∧ s.writer = .idle ∧ s.buf.rdPtr = 1 ∧
      cbufFillLevel s.buf = 0 ∧ Passes step (fun s => ¬ LostWakeup s) (initial 2) wokenSchedule :=
  ⟨⟨_, rfl, rfl⟩, _, rfl, rfl, rfl, rfl, rfl, (no_lost_wakeup_iff 2 _ _ rfl).mpr (by decide)⟩

end GlipOsd.CircularBuffer.Wakeup
