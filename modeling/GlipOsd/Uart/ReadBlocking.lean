import GlipOsd.Backends.BlockingWrite
import GlipOsd.Foundations.Runs
import GlipOsd.Util

/-! # Blocking reads from the terminal

`read_blocking`, with which the detection of the speed reads the first two bytes, and `check_timeout`. The
results of `read` and the readings of the clock are given with the passes of the loop.
-/

namespace GlipOsd.Uart.ReadBlocking
open Backends.BlockingWrite Memory Runs
set_option autoImplicit false

/-- `struct timeval` -/
structure Timeval where
  tvSec : ℤ
  tvUsec : ℤ
  nonneg : 0 ≤ tvUsec
  lt : tvUsec < 1000000
  deriving DecidableEq

/-- The time in microseconds. -/
def Timeval.us (t : Timeval) : ℤ := t.tvSec * 1000000 + t.tvUsec

/-- `check_timeout`. The product is an `int`, in which 2147483 ms are the most that fits. -/
def checkTimeout (start current : Timeval) (ms : ℕ) : ℤ :=
  let sec := current.tvSec - start.tvSec
  let usec := current.tvUsec - start.tvUsec
  let diff := if current.tvUsec < start.tvUsec then (sec + 1, usec + 1000000) else (sec, usec)
  if diff.1 * 1000000 + diff.2 > Util.toInt ms * 1000 then -etimedout else 0

/-- What a pass of the loop gets: the result of `read`, and the reading of the clock behind it. -/
inductive Label
  | data (chunk : List UInt8) (now : Timeval)
  /-- `EAGAIN` -/
  | again (now : Timeval)
  /-- Another error. -/
  | failed
  deriving DecidableEq

/-- `received` is what the calls of `read` have returned so far. -/
structure State where
  buffer : List UInt8
  sizeRead : ℕ
  received : List UInt8
  now : Timeval
  failed : Bool
  returned : Option ℤ
  deriving DecidableEq

def initial (buffer : List UInt8) (start : Timeval) : State := ⟨buffer, 0, [], start, false, none⟩

/-- No `read` transfers more. -/
def maxRead : ℕ := 0x7ffff000

/-- The bytes are read behind those that are there. -/
def store (s : State) (chunk : List UInt8) : State :=
  { s with
    buffer := memcpy s.buffer s.sizeRead chunk
    sizeRead := s.sizeRead + chunk.length
    received := s.received ++ chunk }

/-- What has been read is in front of the buffer. -/
def Stored (s : State) : Prop := s.sizeRead = s.received.length ∧ s.buffer.take s.sizeRead = s.received

section Loop
variable (size timeout : ℕ) (start : Timeval)

/-- The end of a pass. -/
def endPass (s : State) (now : Timeval) : State :=
  if timeout > 0 ∧ checkTimeout start now timeout ≠ 0 then { s with now, returned := some (-etimedout) }
  else if s.sizeRead ≠ size then { s with now }
  else { s with now, returned := some 0 }

def step (s : State) : Label → Option State
  | .data chunk now =>
    if s.returned = none ∧ chunk.length ≤ size - s.sizeRead ∧ chunk.length ≤ maxRead ∧ s.now.us ≤ now.us then
      some (endPass size timeout start (store s chunk) now)
    else none
  | .again now =>
    if s.returned = none ∧ s.now.us ≤ now.us then some (endPass size timeout start s now) else none
  | .failed => if s.returned = none then some { s with failed := true, returned := some (-1) } else none

/-- What the function is for. -/
structure Respects (s : State) : Prop where
  stored : Stored s
  complete : ∀ rv, s.returned = some rv → (rv = 0 ↔ s.sizeRead = size)
  timedOut : s.returned = some (-etimedout) → s.sizeRead < size ∧ timeout * 1000 < s.now.us - start.us
  error : s.returned = some (-1) → s.failed = true

/-- The seconds that the wrong borrow adds to the time that has passed. -/
def lag (now : Timeval) : ℤ := if now.tvUsec < start.tvUsec then 2000000 else 0

/-- At the end of a pass with `sizeRead` bytes: the timeout is not reached even with the added seconds, or it is
reached without them and bytes are still missing. -/
def Timely (sizeRead : ℕ) (now : Timeval) : Prop :=
  now.us - start.us + lag start now ≤ timeout * 1000 ∨ sizeRead < size ∧ timeout * 1000 < now.us - start.us

/-- An error comes only while bytes are missing. -/
def Good (s : State) : Label → Prop
  | .data chunk now => Timely size timeout start (s.sizeRead + chunk.length) now
  | .again now => Timely size timeout start s.sizeRead now
  | .failed => s.sizeRead < size

end Loop

/-! ## One pass -/

section Pass
variable {size timeout : ℕ} {start : Timeval} {s : State}

theorem checkTimeout_eq (now : Timeval) {ms : ℕ} (h : ms < 2 ^ 31) : checkTimeout start now ms =
    if ms * 1000 < now.us - start.us + lag start now then -etimedout else 0 := by
  simp only [checkTimeout, lag, Timeval.us, Util.toInt_of_lt h, gt_iff_lt]
  by_cases hborrow : now.tvUsec < start.tvUsec
  · have hdiff : (now.tvSec - start.tvSec + 1) * 1000000 + (now.tvUsec - start.tvUsec + 1000000) =
        now.tvSec * 1000000 + now.tvUsec - (start.tvSec * 1000000 + start.tvUsec) + 2000000 := by ring
    simp only [if_pos hborrow, hdiff]
  · have hdiff : (now.tvSec - start.tvSec) * 1000000 + (now.tvUsec - start.tvUsec) =
        now.tvSec * 1000000 + now.tvUsec - (start.tvSec * 1000000 + start.tvUsec) + 0 := by ring
    simp only [if_neg hborrow, hdiff]

theorem Stored.store (h : Stored s) {chunk : List UInt8} (hroom : s.sizeRead + chunk.length ≤ s.buffer.length) :
    Stored (store s chunk) := by
  constructor
  · show s.sizeRead + chunk.length = (s.received ++ chunk).length
    rw [List.length_append, h.1]
  · show (memcpy s.buffer s.sizeRead chunk).take (s.sizeRead + chunk.length) = s.received ++ chunk
    rw [take_memcpy _ (by omega), h.2]

theorem respects_of_running (hs : Stored s) (hrunning : s.returned = none) : Respects size timeout start s := by
  have hnone (rv : ℤ) : s.returned ≠ some rv := by
    rw [hrunning]
    exact (Option.some_ne_none rv).symm
  exact ⟨hs, fun rv hrv => absurd hrv (hnone rv), fun hrv => absurd hrv (hnone _), fun hrv => absurd hrv (hnone _)⟩

/-- The timeout is tested before the number of bytes. -/
theorem respects_endPass (hs : Stored s) (hrunning : s.returned = none) (hpos : 1 ≤ timeout)
    (htimeout : timeout < 2 ^ 31) (now : Timeval) :
    Respects size timeout start (endPass size timeout start s now) ↔ Timely size timeout start s.sizeRead now := by
  have hneg : -etimedout ≠ 0 := by decide
  have hneg1 : -etimedout ≠ -1 := by decide
  rw [endPass, checkTimeout_eq now htimeout, Timely]
  by_cases hfires : timeout * 1000 < now.us - start.us + lag start now
  · rw [if_pos ⟨hpos, by rwa [if_pos hfires]⟩]
    constructor
    · intro h
      exact .inr (h.timedOut rfl)
    · rintro (hle | ⟨hlt, htime⟩)
      · omega
      · refine ⟨hs, fun rv hrv => ?_, fun _ => ⟨hlt, htime⟩, fun hrv => absurd (Option.some.inj hrv) hneg1⟩
        obtain rfl := Option.some.inj hrv
        exact iff_of_false hneg hlt.ne
  · rw [if_neg fun h => h.2 (if_neg hfires)]
    refine iff_of_true ?_ (.inl (not_lt.mp hfires))
    by_cases hmissing : s.sizeRead ≠ size
    · rw [if_pos hmissing]
      exact respects_of_running hs hrunning
    · rw [if_neg hmissing]
      refine ⟨hs, fun rv hrv => ?_, fun hrv => absurd (Option.some.inj hrv).symm hneg, fun hrv => ?_⟩
      · obtain rfl := Option.some.inj hrv
        exact iff_of_true rfl (not_not.mp hmissing)
      · exact absurd (Option.some.inj hrv) (by decide)

theorem respects_failed (hs : Stored s) (hsize : s.sizeRead ≤ size) :
    Respects size timeout start { s with failed := true, returned := some (-1) } ↔ s.sizeRead < size := by
  have hneg1 : -etimedout ≠ -1 := by decide
  constructor
  · intro h
    have hne := (h.complete (-1) rfl).not.mp (by decide)
    exact lt_of_le_of_ne hsize hne
  · intro hlt
    refine ⟨hs, fun rv hrv => ?_, fun hrv => absurd (Option.some.inj hrv).symm hneg1, fun _ => rfl⟩
    obtain rfl := Option.some.inj hrv
    exact iff_of_false (by decide) hlt.ne

end Pass

/-! ## The loop -/

section Run
variable {size timeout : ℕ} {start : Timeval}

/-- The bytes that are read have room. -/
def Fits (size : ℕ) (s : State) : Prop := s.sizeRead ≤ size ∧ size ≤ s.buffer.length

theorem Fits.endPass {s : State} (h : Fits size s) (now : Timeval) : Fits size (endPass size timeout start s now) := by
  unfold ReadBlocking.endPass
  split_ifs <;> exact h

theorem Fits.store {s : State} (h : Fits size s) {chunk : List UInt8} (hchunk : chunk.length ≤ size - s.sizeRead) :
    Fits size (store s chunk) := by
  obtain ⟨hsize, hroom⟩ := h
  have hlen : (memcpy s.buffer s.sizeRead chunk).length = s.buffer.length := length_memcpy (by omega)
  refine ⟨?_, hlen.symm ▸ hroom⟩
  show s.sizeRead + chunk.length ≤ size
  omega

theorem step_data {s s' : State} {chunk : List UInt8} {now : Timeval}
    (h : step size timeout start s (.data chunk now) = some s') :
    s.returned = none ∧ chunk.length ≤ size - s.sizeRead ∧ s' = endPass size timeout start (store s chunk) now := by
  rw [step] at h
  split_ifs at h with hlegal
  exact ⟨hlegal.1, hlegal.2.1, (Option.some.inj h).symm⟩

theorem step_again {s s' : State} {now : Timeval} (h : step size timeout start s (.again now) = some s') :
    s.returned = none ∧ s' = endPass size timeout start s now := by
  rw [step] at h
  split_ifs at h with hlegal
  exact ⟨hlegal.1, (Option.some.inj h).symm⟩

theorem step_failed {s s' : State} (h : step size timeout start s .failed = some s') :
    s' = { s with failed := true, returned := some (-1) } := by
  rw [step] at h
  split_ifs at h
  exact (Option.some.inj h).symm

theorem Fits.step {s s' : State} {l : Label} (h : Fits size s) (hstep : step size timeout start s l = some s') :
    Fits size s' := by
  cases l with
  | data chunk now =>
    obtain ⟨-, hchunk, rfl⟩ := step_data hstep
    exact (h.store hchunk).endPass now
  | again now =>
    obtain ⟨-, rfl⟩ := step_again hstep
    exact h.endPass now
  | failed =>
    obtain rfl := step_failed hstep
    exact h

/-- Which passes keep the promise. -/
theorem respects_step {s s' : State} {l : Label} (hpos : 1 ≤ timeout) (htimeout : timeout < 2 ^ 31)
    (hfits : Fits size s) (h : Respects size timeout start s) (hstep : step size timeout start s l = some s') :
    Respects size timeout start s' ↔ Good size timeout start s l := by
  cases l with
  | data chunk now =>
    obtain ⟨hrunning, hchunk, rfl⟩ := step_data hstep
    obtain ⟨hsize, hroom⟩ := hfits
    exact respects_endPass (h.stored.store (by omega)) hrunning hpos htimeout now
  | again now =>
    obtain ⟨hrunning, rfl⟩ := step_again hstep
    exact respects_endPass h.stored hrunning hpos htimeout now
  | failed =>
    obtain rfl := step_failed hstep
    exact respects_failed h.stored hfits.1

/-- **Blocking reads.** Every state of a call is as it should be exactly if every pass is timely, and an error
comes only while bytes are missing. -/
theorem readBlocking_iff (hpos : 1 ≤ timeout) (hmax : timeout ≤ 2000000) {buffer : List UInt8}
    (hroom : size ≤ buffer.length) {ls : List Label} {t : State}
    (hrun : runFrom (step size timeout start) (initial buffer start) ls = some t) :
    Passes (step size timeout start) (Respects size timeout start) (initial buffer start) ls ↔
      Takes (step size timeout start) (Good size timeout start) (initial buffer start) ls := by
  refine passes_iff_takes (Fits size) (fun s l s' hfits _ hstep _ => hfits.step hstep)
    (fun s l s' hfits h hstep => respects_step hpos (by omega) hfits h hstep) ⟨Nat.zero_le _, hroom⟩ ?_ hrun
  exact respects_of_running ⟨rfl, rfl⟩ rfl

end Run

instance (size timeout : ℕ) (start : Timeval) (s : State) (l : Label) : Decidable (Good size timeout start s l) :=
  match l with
  | .data _ _ => inferInstanceAs (Decidable (_ ∨ _))
  | .again _ => inferInstanceAs (Decidable (_ ∨ _))
  | .failed => inferInstanceAs (Decidable (_ < _))

/-- The two bytes of the credit come within a second of the clock. -/
def creditRead : List Label :=
  [.again ⟨7, 500, by decide, by decide⟩, .data [0xfe] ⟨7, 600, by decide, by decide⟩,
    .data [0x01] ⟨7, 999999, by decide, by decide⟩]

theorem credit_respected : Passes (step 2 1000 ⟨7, 0, by decide, by decide⟩)
    (Respects 2 1000 ⟨7, 0, by decide, by decide⟩) (initial [0, 0] ⟨7, 0, by decide, by decide⟩) creditRead :=
  (readBlocking_iff (by decide) (by decide) (by decide) rfl).mpr (by decide)

/-- 200 ms behind the start, in the clock's next second, a timeout of one second is said to be over. -/
theorem next_second_not_respected :
    (runFrom (step 2 1000 ⟨7, 900000, by decide, by decide⟩) (initial [0, 0] ⟨7, 900000, by decide, by decide⟩)
        [.again ⟨8, 100000, by decide, by decide⟩]).map (·.returned) = some (some (-etimedout)) ∧
      ¬ Passes (step 2 1000 ⟨7, 900000, by decide, by decide⟩) (Respects 2 1000 ⟨7, 900000, by decide, by decide⟩)
        (initial [0, 0] ⟨7, 900000, by decide, by decide⟩) [.again ⟨8, 100000, by decide, by decide⟩] := by
  refine ⟨by decide, fun h => ?_⟩
  have hrun := (h.last rfl).timedOut (by decide)
  exact absurd hrun.2 (by decide)

end GlipOsd.Uart.ReadBlocking
