import GlipOsd.CircularBuffer.Queue

/-! # Blocking writes

`gb_uart_write_b`, `gb_jtag_write_b` and `gb_cypressfx2_write_b` against a consumer that takes bytes from the
buffer at any time between two of their calls. The loops are the same; only the first two functions look at
the channel before their loop. A schedule says, pass by pass, how many bytes the consumer takes at each point
and whether the wait ends with `ETIMEDOUT`. The semaphore that the third function posts concerns the
consumer only.

* `afterPasses`: the call after a number of passes of its loop.
* `room`: the number of bytes for which there was room when a pass looked at the level first.
* `honours_iff`: when a call honours its timeout and its arguments.
-/

namespace GlipOsd.Backends.BlockingWrite
open CircularBuffer
set_option autoImplicit false

def etimedout : ℤ := 110

/-- The buffer, and what the consumer has taken from it. -/
structure Shared where
  buf : Cbuf
  taken : List UInt8

/-- One pass of the loop: the bytes that the consumer takes before the level is read, then until they are
copied, then until the level is read again, and then until the next pass; whether the wait has timed out. -/
structure Pass where
  early : ℕ
  copying : ℕ
  late : ℕ
  waiting : ℕ
  timedOut : Bool

/-- The consumer takes `n` bytes; `none` if there are not so many. -/
def take (s : Shared) (n : ℕ) : Option Shared :=
  match cbufRead s.buf n with
  | (.ok bytes, buf) => some ⟨buf, s.taken ++ bytes⟩
  | (.error _, _) => none

/-- `gb_uart_write`, `gb_jtag_write` and `gb_cypressfx2_write`: the result, and `*size_written` if it is set. -/
def write (s : Shared) (channel : ℕ) (data : List UInt8) (copying : ℕ) : Option ((ℤ × Option ℕ) × Shared) :=
  if channel ≠ 0 then (take s copying).map fun s => ((-1, none), s)
  else
    let bufSizeFree := cbufFreeLevel s.buf % 2 ^ 32
    let sizeWritten := if data.length > bufSizeFree then bufSizeFree else data.length
    (take s copying).map fun s =>
      ((0, some sizeWritten), { s with buf := (cbufWrite s.buf (data.take sizeWritten)).2 })

/-- A call: in its loop with `size_done`, or returned with `*size_written`, if it is set. -/
inductive Call
  | running (sizeDone : ℕ) (s : Shared)
  | returned (rv : ℤ) (sizeWritten : Option ℕ) (s : Shared)

/-- The result of the wait. -/
def Pass.waitResult (p : Pass) (timeout : ℕ) : ℤ := if timeout ≠ 0 ∧ p.timedOut then etimedout else 0

/-- One pass of the loop. -/
def pass (channel : ℕ) (data : List UInt8) (p : Pass) (sizeDone : ℕ) (s : Shared) : Option Call := do
  let s ← take s p.early
  let (r, s) ← write s channel (data.drop sizeDone) p.copying
  let sizeDone := sizeDone + r.2.getD 0
  if sizeDone = data.length then
    some (.returned (if data.length ≠ sizeDone then -etimedout else 0) (some sizeDone) s)
  else
    -- the wait is called if the buffer is full here, and its result is dropped
    let s ← take s p.late
    let s ← take s p.waiting
    some (.running sizeDone s)

/-- The call after `n` passes; `none` if the schedule is not possible. -/
def afterPasses (checks : Bool) (channel : ℕ) (data : List UInt8) (s : Shared) (e : ℕ → Pass) : ℕ → Option Call
  | 0 => if checks ∧ channel ≠ 0 then some (.returned (-1) none s) else some (.running 0 s)
  | n + 1 =>
    match afterPasses checks channel data s e n with
    | some (.running sizeDone s) => pass channel data (e n) sizeDone s
    | c => c

def gbUartWriteB := afterPasses true

def gbJtagWriteB := afterPasses true

/-- The channel is left to `gb_cypressfx2_write`, whose result is dropped. -/
def gbCypressfx2WriteB := afterPasses false

inductive Backend
  | uart
  | jtag
  | cypressfx2
  deriving DecidableEq

namespace Backend

def writeB : Backend → ℕ → List UInt8 → Shared → (ℕ → Pass) → ℕ → Option Call
  | uart => gbUartWriteB
  | jtag => gbJtagWriteB
  | cypressfx2 => gbCypressfx2WriteB

/-- The buffers have 32 KiB and 64 KiB. -/
def log2Size : Backend → ℕ
  | uart => 15
  | jtag => 16
  | cypressfx2 => 16

def checks : Backend → Bool
  | uart => true
  | jtag => true
  | cypressfx2 => false

theorem writeB_eq (b : Backend) : b.writeB = afterPasses b.checks := by cases b <;> rfl

theorem log2Size_le (b : Backend) : b.log2Size ≤ 16 := by cases b <;> decide

end Backend

/-! ## The contract -/

/-- The consumer and the buffer together have the bytes `xs`. -/
def Holds (k : ℕ) (s : Shared) (xs : List UInt8) : Prop := ∃ q, Rep k s.buf q ∧ s.taken ++ q = xs

section Contract
variable (b : Backend) (channel timeout : ℕ) (data : List UInt8) (s : Shared) (e : ℕ → Pass)

/-- In the pass `n` the wait reports `ETIMEDOUT`, and the buffer is still full. -/
def TimesOut (n : ℕ) : Prop :=
  (e n).waitResult timeout = etimedout ∧
    ∃ sizeDone s', b.writeB channel data s e (n + 1) = some (.running sizeDone s') ∧ cbufFreeLevel s'.buf = 0

/-- What the function is for, for a buffer that stores `q` at the call. -/
structure Honours (q : List UInt8) : Prop where
  otherChannel : channel ≠ 0 →
    ∃ n rv w s', b.writeB channel data s e n = some (.returned rv w s') ∧ rv ≠ 0 ∧ Holds b.log2Size s' q
  returns : channel = 0 → (∃ n, TimesOut b channel timeout data s e n) →
    ∃ n rv w s', b.writeB channel data s e n = some (.returned rv w s')
  result : channel = 0 → ∀ n rv w s', b.writeB channel data s e n = some (.returned rv w s') →
    ∃ m ≤ data.length, w = some m ∧ Holds b.log2Size s' (q ++ data.take m) ∧
      rv = if m = data.length then 0 else -etimedout

end Contract

/-! ## What the parts do -/

/-- `Holds`, with the number of bytes that the consumer has taken. -/
def At (k : ℕ) (s : Shared) (xs : List UInt8) (m : ℕ) : Prop :=
  ∃ q, Rep k s.buf q ∧ s.taken ++ q = xs ∧ s.taken.length = m

section Parts
variable {k m n : ℕ} {s s' : Shared} {xs data : List UInt8}

theorem At.holds (h : At k s xs m) : Holds k s xs := by
  obtain ⟨q, hrep, hxs, -⟩ := h
  exact ⟨q, hrep, hxs⟩

theorem At.length_le (h : At k s xs m) : xs.length ≤ 2 ^ k + m := by
  obtain ⟨q, hrep, rfl, rfl⟩ := h
  have hfits := hrep.fits
  rw [hrep.size_eq] at hfits
  rw [List.length_append]
  omega

theorem At.freeLevel (h : At k s xs m) : cbufFreeLevel s.buf = 2 ^ k + m - xs.length := by
  obtain ⟨q, hrep, rfl, rfl⟩ := h
  have hfits := hrep.fits
  rw [hrep.freeLevel_eq, List.length_append, hrep.size_eq]
  omega

theorem At.take (h : At k s xs m) (hk : k ≤ 16) (htake : take s n = some s') : At k s' xs (m + n) := by
  obtain ⟨q, hrep, rfl, rfl⟩ := h
  by_cases hn : n ≤ q.length
  · obtain ⟨hok, hrep'⟩ := cbufRead_ok hrep (by omega) hn
    obtain ⟨r, buf, hread⟩ : ∃ r buf, cbufRead s.buf n = (r, buf) := ⟨_, _, rfl⟩
    rw [hread] at hok hrep'
    obtain rfl : r = .ok (q.take n) := hok
    rw [BlockingWrite.take, hread] at htake
    obtain rfl := Option.some.inj htake
    refine ⟨q.drop n, hrep', ?_, ?_⟩
    · rw [List.append_assoc, List.take_append_drop]
    · rw [List.length_append, List.length_take_of_le hn]
  · rw [BlockingWrite.take, cbufRead_refused hrep (Nat.lt_of_not_le hn)] at htake
    cases htake

theorem At.append (h : At k s xs m) (hroom : xs.length + data.length ≤ 2 ^ k + m) :
    At k { s with buf := (cbufWrite s.buf data).2 } (xs ++ data) m := by
  obtain ⟨q, hrep, rfl, rfl⟩ := h
  rw [List.length_append] at hroom
  have hrep' := (cbufWrite_ok hrep data (by rw [hrep.size_eq]; omega)).2
  exact ⟨q ++ data, hrep', (List.append_assoc _ _ _).symm, rfl⟩

theorem write_otherChannel {channel copying : ℕ} (hchannel : channel ≠ 0) {r : ℤ × Option ℕ}
    (h : write s channel data copying = some (r, s')) : r = (-1, none) ∧ BlockingWrite.take s copying = some s' := by
  rw [write, if_pos hchannel, Option.map_eq_some_iff] at h
  obtain ⟨t, ht, heq⟩ := h
  obtain ⟨rfl, rfl⟩ := Prod.mk.inj heq
  exact ⟨rfl, ht⟩

theorem At.write (h : At k s xs m) (hk : k ≤ 16) {copying : ℕ} {r : ℤ × Option ℕ}
    (hwrite : write s 0 data copying = some (r, s')) :
    r = (0, some (min data.length (2 ^ k + m - xs.length))) ∧
      At k s' (xs ++ data.take (min data.length (2 ^ k + m - xs.length))) (m + copying) := by
  have hsize : 2 ^ k ≤ 2 ^ 16 := Nat.pow_le_pow_right (by norm_num) hk
  have hfree : cbufFreeLevel s.buf % 2 ^ 32 = 2 ^ k + m - xs.length := by
    obtain ⟨q, hrep, -⟩ := id h
    rw [Nat.mod_eq_of_lt, h.freeLevel]
    rw [hrep.freeLevel_eq, hrep.size_eq]
    omega
  have hle := h.length_le
  have hmin : (if data.length > 2 ^ k + m - xs.length then 2 ^ k + m - xs.length else data.length) =
      min data.length (2 ^ k + m - xs.length) := by
    split_ifs with hlt
    · rw [Nat.min_eq_right hlt.le]
    · rw [Nat.min_eq_left (Nat.le_of_not_lt hlt)]
  simp only [BlockingWrite.write, ne_eq, not_true_eq_false, if_false, hfree, hmin, Option.map_eq_some_iff] at hwrite
  obtain ⟨t, ht, heq⟩ := hwrite
  obtain ⟨rfl, rfl⟩ := Prod.mk.inj heq
  refine ⟨rfl, (h.take hk ht).append ?_⟩
  rw [List.length_take, Nat.min_eq_left (Nat.min_le_left _ _)]
  omega

end Parts

/-! ## The loop -/

/-- The number of bytes that the consumer takes in one pass. -/
def Pass.total (p : Pass) : ℕ := p.early + p.copying + p.late + p.waiting

/-- The bytes that the consumer takes in the first `n` passes. -/
def takenIn (e : ℕ → Pass) : ℕ → ℕ
  | 0 => 0
  | n + 1 => takenIn e n + (e n).total

/-- The bytes for which there has been room until the pass `n` reads the level, with `free` bytes at the
call. -/
def room (free : ℕ) (e : ℕ → Pass) (n : ℕ) : ℕ := free + takenIn e n + (e n).early

section Loop
variable {k m d : ℕ} {s : Shared} {q data : List UInt8} {p : Pass} {c : Call}

/-- After a pass everything is written for which there was room; the consumer has taken its bytes. -/
theorem pass_spec (hk : k ≤ 16) (hq : q.length ≤ 2 ^ k) (h : At k s (q ++ data.take d) m)
    (hd : d ≤ data.length) (hpass : pass 0 data p d s = some c) :
    (data.length ≤ 2 ^ k - q.length + m + p.early ∧ ∃ s', c = .returned 0 (some data.length) s' ∧ Holds k s' (q ++ data)) ∨
      (2 ^ k - q.length + m + p.early < data.length ∧
        ∃ s', c = .running (2 ^ k - q.length + m + p.early) s' ∧
          At k s' (q ++ data.take (2 ^ k - q.length + m + p.early)) (m + p.total)) := by
  simp only [pass, Option.bind_eq_bind, Option.bind_eq_some_iff] at hpass
  obtain ⟨s₁, hearly, ⟨r, s₂⟩, hwrite, hrest⟩ := hpass
  have h₁ := h.take hk hearly
  have hle := h₁.length_le
  rw [List.length_append, List.length_take_of_le hd] at hle
  obtain ⟨rfl, h₂⟩ := h₁.write hk hwrite
  -- what is written now follows what was written before
  have hxs (n : ℕ) : q ++ data.take d ++ (data.drop d).take n = q ++ data.take (d + n) := by
    rw [List.append_assoc, ← List.take_add]
  rw [hxs, List.length_append, List.length_take_of_le hd, List.length_drop] at h₂
  rw [List.length_append, List.length_take_of_le hd, List.length_drop] at hrest
  simp only [Option.getD_some] at hrest
  by_cases hall : data.length ≤ 2 ^ k - q.length + m + p.early
  · have hdone : d + min (data.length - d) (2 ^ k + (m + p.early) - (q.length + d)) = data.length := by omega
    rw [hdone, List.take_length] at h₂
    simp only [hdone, if_true, ne_eq, not_true_eq_false, if_false] at hrest
    exact .inl ⟨hall, s₂, (Option.some.inj hrest).symm, h₂.holds⟩
  · have hdone : d + min (data.length - d) (2 ^ k + (m + p.early) - (q.length + d)) =
        2 ^ k - q.length + m + p.early := by omega
    have hne : 2 ^ k - q.length + m + p.early ≠ data.length := by omega
    rw [hdone] at h₂
    simp only [hdone, if_neg hne, Option.bind_eq_some_iff] at hrest
    obtain ⟨s₃, hlate, s₄, hwaiting, hrest⟩ := hrest
    have h₄ := (h₂.take hk hlate).take hk hwaiting
    refine .inr ⟨Nat.lt_of_not_le hall, s₄, (Option.some.inj hrest).symm, ?_⟩
    rwa [Pass.total, ← Nat.add_assoc, ← Nat.add_assoc, ← Nat.add_assoc]

end Loop

section Run
variable {k n : ℕ} {checks : Bool} {buf : Cbuf} {q data : List UInt8} {e : ℕ → Pass} {c : Call}

theorem afterPasses_succ_running {d : ℕ} {s : Shared} {channel : ℕ} {s₀ : Shared}
    (h : afterPasses checks channel data s₀ e n = some (.running d s)) :
    afterPasses checks channel data s₀ e (n + 1) = pass channel data (e n) d s := by
  rw [afterPasses, h]

/-- A call that has not found room for all its data is in its loop, and has written what there was room
for. -/
theorem running_spec (hk : k ≤ 16) (hrep : Rep k buf q)
    (hlegal : ∀ n, afterPasses checks 0 data ⟨buf, []⟩ e n ≠ none)
    (hroom : ∀ i < n, room (2 ^ k - q.length) e i < data.length) :
    ∃ d s, afterPasses checks 0 data ⟨buf, []⟩ e n = some (.running d s) ∧ d ≤ data.length ∧
      At k s (q ++ data.take d) (takenIn e n) ∧
      (0 < n → d = room (2 ^ k - q.length) e (n - 1)) := by
  have hq : q.length ≤ 2 ^ k := hrep.size_eq ▸ hrep.fits
  induction n with
  | zero =>
    refine ⟨0, ⟨buf, []⟩, ?_, Nat.zero_le _, ⟨q, hrep, ?_, rfl⟩, fun h => absurd h (lt_irrefl 0)⟩
    · rw [afterPasses, if_neg (by simp)]
    · rw [List.take_zero, List.append_nil]
      rfl
  | succ n ih =>
    obtain ⟨d, s, hrun, hd, hat, -⟩ := ih fun i hi => hroom i (hi.trans (Nat.lt_succ_self n))
    have hsucc := afterPasses_succ_running hrun
    obtain ⟨c, hc⟩ := Option.ne_none_iff_exists'.mp (hlegal (n + 1))
    rw [hsucc] at hc
    have hlast := hroom n (Nat.lt_succ_self n)
    rw [room] at hlast
    obtain ⟨hall, -⟩ | ⟨-, s', rfl, hat'⟩ := pass_spec hk hq hat hd hc
    · exact absurd hall (Nat.not_le_of_lt hlast)
    · exact ⟨_, s', hsucc.trans hc, hlast.le, hat', fun _ => rfl⟩

/-- The pass that finds room for all the data is the last one. -/
theorem returned_spec (hk : k ≤ 16) (hrep : Rep k buf q)
    (hlegal : ∀ n, afterPasses checks 0 data ⟨buf, []⟩ e n ≠ none)
    (hroom : ∀ i < n, room (2 ^ k - q.length) e i < data.length)
    (hn : data.length ≤ room (2 ^ k - q.length) e n) :
    ∃ s, afterPasses checks 0 data ⟨buf, []⟩ e (n + 1) = some (.returned 0 (some data.length) s) ∧
      Holds k s (q ++ data) := by
  have hq : q.length ≤ 2 ^ k := hrep.size_eq ▸ hrep.fits
  obtain ⟨d, s, hrun, hd, hat, -⟩ := running_spec hk hrep hlegal hroom
  have hsucc := afterPasses_succ_running hrun
  obtain ⟨c, hc⟩ := Option.ne_none_iff_exists'.mp (hlegal (n + 1))
  rw [hsucc] at hc
  rw [room] at hn
  obtain ⟨-, s', rfl, hholds⟩ | ⟨hlt, -⟩ := pass_spec hk hq hat hd hc
  · exact ⟨s', hsucc.trans hc, hholds⟩
  · exact absurd hn (Nat.not_le_of_lt hlt)

theorem afterPasses_returned {channel m : ℕ} {s₀ s : Shared} {rv : ℤ} {w : Option ℕ}
    (h : afterPasses checks channel data s₀ e n = some (.returned rv w s)) :
    afterPasses checks channel data s₀ e (n + m) = some (.returned rv w s) := by
  induction m with
  | zero => exact h
  | succ m ih => rw [← Nat.add_assoc, afterPasses, ih]

/-- A call returns if and only if there is room for all its data at some time, and then with all of it
written. -/
theorem returned_iff (hk : k ≤ 16) (hrep : Rep k buf q)
    (hlegal : ∀ n, afterPasses checks 0 data ⟨buf, []⟩ e n ≠ none) {rv : ℤ} {w : Option ℕ} {s : Shared}
    (h : afterPasses checks 0 data ⟨buf, []⟩ e n = some (.returned rv w s)) :
    (∃ i, data.length ≤ room (2 ^ k - q.length) e i) ∧ rv = 0 ∧ w = some data.length ∧ Holds k s (q ++ data) := by
  have hroom : ∃ i, data.length ≤ room (2 ^ k - q.length) e i := by
    by_contra hno
    push Not at hno
    obtain ⟨d, t, hrun, -⟩ := running_spec hk hrep hlegal (fun i (_ : i < n) => hno i)
    rw [hrun] at h
    cases h
  obtain ⟨t, hreturn, hholds⟩ := returned_spec hk hrep hlegal
    (fun i hi => Nat.lt_of_not_le (Nat.find_min hroom hi)) (Nat.find_spec hroom)
  have hsame := (afterPasses_returned h).symm.trans
    ((congrArg _ (Nat.add_comm n (Nat.find hroom + 1))).trans (afterPasses_returned hreturn))
  simp only [Option.some.injEq, Call.returned.injEq] at hsame
  obtain ⟨rfl, rfl, rfl⟩ := hsame
  exact ⟨hroom, rfl, rfl, hholds⟩

end Run

/-! ## When the contract holds -/

/-- Whenever the wait times out, the consumer has taken bytes since the level was read. -/
def Prompt (e : ℕ → Pass) : Prop :=
  ∀ n, (e n).timedOut = true → 0 < (e n).copying + (e n).late + (e n).waiting

section Contract
variable {b : Backend} {channel timeout : ℕ} {buf : Cbuf} {q data : List UInt8} {e : ℕ → Pass}

theorem waitResult_eq (htimeout : 0 < timeout) {p : Pass} :
    p.waitResult timeout = etimedout ↔ p.timedOut = true := by
  have hne : timeout ≠ 0 := htimeout.ne'
  have hzero : (0 : ℤ) ≠ etimedout := by decide
  cases hp : p.timedOut <;> simp [Pass.waitResult, hne, hp, hzero]

/-- Without room for all the data, the wait times out on a full buffer whenever it times out and the consumer
is idle. -/
theorem timesOut_iff (hrep : Rep b.log2Size buf q) (htimeout : 0 < timeout)
    (hlegal : ∀ n, b.writeB 0 data ⟨buf, []⟩ e n ≠ none)
    (hroom : ∀ n, room (2 ^ b.log2Size - q.length) e n < data.length) (n : ℕ) :
    TimesOut b 0 timeout data ⟨buf, []⟩ e n ↔
      (e n).timedOut = true ∧ (e n).copying + (e n).late + (e n).waiting = 0 := by
  rw [b.writeB_eq] at hlegal
  obtain ⟨d, s, hrun, hd, hat, hroom'⟩ := running_spec b.log2Size_le hrep hlegal
    (fun i (_ : i < n + 1) => hroom i)
  have hfits := hrep.fits
  rw [hrep.size_eq] at hfits
  have hfree : cbufFreeLevel s.buf = (e n).copying + (e n).late + (e n).waiting := by
    have hdone : d = 2 ^ b.log2Size - q.length + takenIn e n + (e n).early := hroom' (Nat.succ_pos n)
    rw [hat.freeLevel, List.length_append, List.length_take_of_le hd, takenIn, Pass.total]
    omega
  rw [TimesOut, waitResult_eq htimeout, b.writeB_eq, hrun, ← hfree]
  constructor
  · rintro ⟨hout, d', s', heq, hfull⟩
    obtain ⟨rfl, rfl⟩ := Call.running.inj (Option.some.inj heq)
    exact ⟨hout, hfull⟩
  · rintro ⟨hout, hfull⟩
    exact ⟨hout, d, s, rfl, hfull⟩

/-- Without a check of the channel the loop goes on, or returns 0 if there was nothing to write. -/
theorem unchecked_spec {n : ℕ} {s : Shared} (hchannel : channel ≠ 0) {c : Call}
    (h : afterPasses false channel data s e n = some c) :
    (∃ s', c = .running 0 s') ∨ ∃ w s', c = .returned 0 w s' := by
  induction n generalizing c with
  | zero =>
    rw [afterPasses, if_neg (by simp)] at h
    exact .inl ⟨s, (Option.some.inj h).symm⟩
  | succ n ih =>
    obtain ⟨c', hc'⟩ : ∃ c', afterPasses false channel data s e n = some c' := by
      rw [← Option.ne_none_iff_exists']
      intro hnone
      rw [afterPasses, hnone] at h
      cases h
    obtain ⟨s', rfl⟩ | ⟨w, s', rfl⟩ := ih hc'
    · rw [afterPasses_succ_running hc'] at h
      simp only [pass, Option.bind_eq_bind, Option.bind_eq_some_iff, List.drop_zero] at h
      obtain ⟨s₁, -, ⟨r, s₂⟩, hwrite, hrest⟩ := h
      obtain ⟨rfl, -⟩ := write_otherChannel hchannel hwrite
      simp only [Option.getD_none, Nat.add_zero] at hrest
      split_ifs at hrest with hempty hne
      · exact absurd hempty.symm hne
      · exact .inr ⟨_, s₂, (Option.some.inj hrest).symm⟩
      · simp only [Option.bind_eq_some_iff] at hrest
        obtain ⟨s₃, -, s₄, -, hrest⟩ := hrest
        exact .inl ⟨s₄, (Option.some.inj hrest).symm⟩
    · have hstay := afterPasses_returned (m := 1) hc'
      rw [hstay] at h
      exact .inr ⟨w, s', (Option.some.inj h).symm⟩

/-- **Blocking writes.** For every schedule that is possible, a call honours its timeout and its arguments if
and only if the function looks at the channel or it is 0, and, for channel 0, the consumer makes room for all
the data at some time or takes bytes whenever the wait times out. -/
theorem honours_iff (hrep : Rep b.log2Size buf q) (htimeout : 0 < timeout)
    (hlegal : ∀ n, b.writeB channel data ⟨buf, []⟩ e n ≠ none) :
    Honours b channel timeout data ⟨buf, []⟩ e q ↔
      (b = .cypressfx2 → channel = 0) ∧
        (channel = 0 → (∃ n, data.length ≤ room (2 ^ b.log2Size - q.length) e n) ∨ Prompt e) := by
  have hb := b.writeB_eq
  by_cases hchannel : channel = 0
  · subst hchannel
    have hlegal' : ∀ n, afterPasses b.checks 0 data ⟨buf, []⟩ e n ≠ none := by rwa [hb] at hlegal
    simp only [implies_true, true_and, forall_const]
    constructor
    · intro h
      by_contra hno
      push Not at hno
      obtain ⟨hroom, hprompt⟩ := hno
      obtain ⟨n, hout, hidle⟩ : ∃ n, (e n).timedOut = true ∧ (e n).copying + (e n).late + (e n).waiting = 0 := by
        simpa [Prompt] using hprompt
      have htimes := (timesOut_iff hrep htimeout hlegal hroom n).mpr ⟨hout, hidle⟩
      obtain ⟨m, rv, w, s', hreturn⟩ := h.returns rfl ⟨n, htimes⟩
      rw [hb] at hreturn
      obtain ⟨⟨i, hi⟩, -⟩ := returned_iff b.log2Size_le hrep hlegal' hreturn
      exact absurd hi (Nat.not_le_of_lt (hroom i))
    · intro h
      refine ⟨fun hne => absurd rfl hne, fun _ ⟨n, htimes⟩ => ?_, fun _ n rv w s' hreturn => ?_⟩
      · by_cases hroom : ∃ n, data.length ≤ room (2 ^ b.log2Size - q.length) e n
        · obtain ⟨s', hreturn, -⟩ := returned_spec b.log2Size_le hrep hlegal'
            (fun i hi => Nat.lt_of_not_le (Nat.find_min hroom hi)) (Nat.find_spec hroom)
          exact ⟨_, _, _, s', by rw [hb]; exact hreturn⟩
        · have hprompt := h.resolve_left hroom
          push Not at hroom
          obtain ⟨hout, hidle⟩ := (timesOut_iff hrep htimeout hlegal hroom n).mp htimes
          exact absurd hidle (hprompt n hout).ne'
      · rw [hb] at hreturn
        obtain ⟨-, rfl, rfl, hholds⟩ := returned_iff b.log2Size_le hrep hlegal' hreturn
        exact ⟨data.length, le_rfl, rfl, by rwa [List.take_length], (if_pos rfl).symm⟩
  · simp only [hchannel, imp_false, false_imp_iff, and_true]
    constructor
    · rintro h rfl
      obtain ⟨n, rv, w, s', hreturn, hrv, -⟩ := h.otherChannel hchannel
      rw [hb] at hreturn
      obtain ⟨s'', heq⟩ | ⟨w', s'', heq⟩ := unchecked_spec hchannel hreturn
      · cases heq
      · exact hrv (Call.returned.inj heq).1
    · intro hne
      have hchecks : b.checks = true := by cases b <;> first | rfl | exact absurd rfl hne
      refine ⟨fun _ => ⟨0, -1, none, ⟨buf, []⟩, ?_, by decide, q, hrep, rfl⟩, ?_, ?_⟩
      · rw [hb, afterPasses, if_pos ⟨hchecks, hchannel⟩]
      · exact fun h => absurd h hchannel
      · exact fun h => absurd h hchannel

end Contract

/-! ## A consumer that takes bytes only while the call waits -/

theorem take_zero (s : Shared) : take s 0 = some s := by
  rw [take, cbufRead, if_pos rfl]
  simp

section Waiting
variable {k m n d : ℕ} {s : Shared} {xs q data : List UInt8} {buf : Cbuf} {e : ℕ → Pass} {p : Pass} {checks : Bool}

theorem At.exists_take (h : At k s xs m) (hk : k ≤ 16) (hn : m + n ≤ xs.length) :
    ∃ s', BlockingWrite.take s n = some s' := by
  obtain ⟨q, hrep, rfl, rfl⟩ := h
  rw [List.length_append] at hn
  obtain ⟨hok, -⟩ := cbufRead_ok hrep (by omega) (Nat.le_of_add_le_add_left hn)
  obtain ⟨r, buf, hread⟩ : ∃ r buf, cbufRead s.buf n = (r, buf) := ⟨_, _, rfl⟩
  rw [hread] at hok
  obtain rfl : r = .ok (q.take n) := hok
  exact ⟨_, by rw [BlockingWrite.take, hread]⟩

/-- What is taken in the wait is there. -/
theorem exists_pass (hk : k ≤ 16) (h : At k s (q ++ data.take d) m) (hearly : p.early = 0) (hcopying : p.copying = 0)
    (hlate : p.late = 0) (hwaiting : m + p.waiting ≤ q.length) :
    ∃ c, pass 0 data p d s = some c := by
  obtain ⟨r, s', hwrite⟩ : ∃ r s', write s 0 (data.drop d) 0 = some (r, s') := by
    simp only [write, take_zero, Option.map_some]
    exact ⟨_, _, rfl⟩
  obtain ⟨-, h'⟩ := h.write hk hwrite
  obtain ⟨s'', htake⟩ := h'.exists_take (n := p.waiting) hk (by
    rw [List.length_append, List.length_append]
    omega)
  simp only [pass, hearly, hcopying, hlate, take_zero, hwrite, htake, Option.bind_eq_bind, Option.bind_some]
  split_ifs <;> exact ⟨_, rfl⟩

/-- Such a schedule is possible as long as the consumer takes no more bytes than are stored at the call. -/
theorem waiting_legal (hk : k ≤ 16) (hrep : Rep k buf q) (hearly : ∀ n, (e n).early = 0)
    (hcopying : ∀ n, (e n).copying = 0) (hlate : ∀ n, (e n).late = 0) (htaken : ∀ n, takenIn e n ≤ q.length) (n : ℕ) :
    afterPasses checks 0 data ⟨buf, []⟩ e n ≠ none := by
  have hq : q.length ≤ 2 ^ k := hrep.size_eq ▸ hrep.fits
  have hcall : (∃ d s, afterPasses checks 0 data ⟨buf, []⟩ e n = some (.running d s) ∧ d ≤ data.length ∧
      At k s (q ++ data.take d) (takenIn e n)) ∨
        ∃ rv w s, afterPasses checks 0 data ⟨buf, []⟩ e n = some (.returned rv w s) := by
    induction n with
    | zero =>
      refine .inl ⟨0, ⟨buf, []⟩, ?_, Nat.zero_le _, q, hrep, ?_, rfl⟩
      · rw [afterPasses, if_neg (by simp)]
      · rw [List.take_zero, List.append_nil]
        rfl
    | succ n ih =>
      obtain ⟨d, s, hrun, hd, hat⟩ | ⟨rv, w, s, hreturn⟩ := ih
      · have hmore := htaken (n + 1)
        rw [takenIn, Pass.total] at hmore
        obtain ⟨c, hc⟩ := exists_pass hk hat (hearly n) (hcopying n) (hlate n) (by omega)
        have hsucc := (afterPasses_succ_running hrun).trans hc
        obtain ⟨-, s', rfl, -⟩ | ⟨hlt, s', rfl, hat'⟩ := pass_spec hk hq hat hd hc
        · exact .inr ⟨_, _, s', hsucc⟩
        · rw [hearly n] at hlt hsucc hat'
          exact .inl ⟨_, s', hsucc, hlt.le, hat'⟩
      · exact .inr ⟨rv, w, s, afterPasses_returned (m := 1) hreturn⟩
  intro hnone
  obtain ⟨d, s, hrun, -⟩ | ⟨rv, w, s, hreturn⟩ := hcall
  · rw [hnone] at hrun
    cases hrun
  · rw [hnone] at hreturn
    cases hreturn

end Waiting

/-- The buffer at the call. -/
def filled (b : Backend) (q : List UInt8) : Cbuf := (cbufWrite (cbufInit (2 ^ b.log2Size)) q).2

theorem rep_filled {b : Backend} {q : List UInt8} (h : q.length ≤ 2 ^ b.log2Size) : Rep b.log2Size (filled b q) q :=
  (cbufWrite_ok (rep_cbufInit _) q (by simpa [cbufInit] using h)).2

/-- A buffer without room for a byte. -/
theorem rep_full : Rep Backend.uart.log2Size (filled .uart (List.replicate (2 ^ 15) 0)) (List.replicate (2 ^ 15) 0) :=
  rep_filled (by rw [List.length_replicate]; rfl)

/-- The consumer takes a byte in each of the first two waits, and nothing more. -/
def oneByOne : ℕ → Pass
  | 0 | 1 => ⟨0, 0, 0, 1, false⟩
  | _ => ⟨0, 0, 0, 0, true⟩

theorem takenIn_oneByOne (n : ℕ) : takenIn oneByOne n = min n 2 := by
  induction n with
  | zero => rfl
  | succ n ih =>
    rw [takenIn, ih]
    match n with
    | 0 | 1 => rfl
    | n + 2 =>
      rw [Nat.min_eq_right (Nat.le_add_left 2 n), Nat.min_eq_right (by omega)]
      rfl

/-- Two bytes for a full buffer: the call waits twice, and returns with both of them written. -/
theorem two_waits_honour :
    Rep 15 (filled .uart (List.replicate (2 ^ 15) 0)) (List.replicate (2 ^ 15) 0) ∧
      (∃ s, Backend.uart.writeB 0 [7, 8] ⟨filled .uart (List.replicate (2 ^ 15) 0), []⟩ oneByOne 2 =
        some (.running 1 s)) ∧
      (∃ s, Backend.uart.writeB 0 [7, 8] ⟨filled .uart (List.replicate (2 ^ 15) 0), []⟩ oneByOne 3 =
        some (.returned 0 (some 2) s)) ∧
      Honours .uart 0 1 [7, 8] ⟨filled .uart (List.replicate (2 ^ 15) 0), []⟩ oneByOne (List.replicate (2 ^ 15) 0) := by
  have hrep := rep_full
  have hcases : ∀ n, (oneByOne n).early = 0 ∧ (oneByOne n).copying = 0 ∧ (oneByOne n).late = 0
    | 0 | 1 | _ + 2 => ⟨rfl, rfl, rfl⟩
  have hlegal (n : ℕ) :
      Backend.uart.writeB 0 [7, 8] ⟨filled .uart (List.replicate (2 ^ 15) 0), []⟩ oneByOne n ≠ none :=
    waiting_legal Backend.uart.log2Size_le hrep (fun n => (hcases n).1) (fun n => (hcases n).2.1)
      (fun n => (hcases n).2.2) (fun n => by
        rw [takenIn_oneByOne, List.length_replicate]
        omega) n
  have hroom (n : ℕ) : room (2 ^ Backend.uart.log2Size - (List.replicate (2 ^ 15) (0 : UInt8)).length) oneByOne n =
      min n 2 := by
    rw [room, takenIn_oneByOne, (hcases n).1, List.length_replicate]
    show 2 ^ 15 - 2 ^ 15 + min n 2 + 0 = min n 2
    omega
  obtain ⟨d, s, hrun, -, -, hd⟩ := running_spec (n := 2) Backend.uart.log2Size_le hrep hlegal (fun i hi => by
    rw [hroom, Nat.min_eq_left hi.le]
    exact hi)
  obtain ⟨s', hreturn, -⟩ := returned_spec (n := 2) Backend.uart.log2Size_le hrep hlegal (fun i hi => by
    rw [hroom, Nat.min_eq_left hi.le]
    exact hi) (by rw [hroom]; rfl)
  have hone : d = 1 := (hd Nat.two_pos).trans (hroom 1)
  refine ⟨hrep, ⟨s, hone ▸ hrun⟩, ⟨s', hreturn⟩, (honours_iff hrep Nat.one_pos hlegal).mpr ⟨nofun, fun _ => .inl ⟨2, ?_⟩⟩⟩
  rw [hroom]
  rfl

/-- Every wait times out. -/
def idle : ℕ → Pass := fun _ => ⟨0, 0, 0, 0, true⟩

theorem takenIn_idle (n : ℕ) : takenIn idle n = 0 := by
  induction n with
  | zero => rfl
  | succ n ih => rw [takenIn, ih]; rfl

theorem full_not_honours :
    Rep 15 (filled .uart (List.replicate (2 ^ 15) 0)) (List.replicate (2 ^ 15) 0) ∧
      ¬ Honours .uart 0 1 [7] ⟨filled .uart (List.replicate (2 ^ 15) 0), []⟩ idle (List.replicate (2 ^ 15) 0) := by
  have hrep := rep_full
  have hroom (n : ℕ) : room (2 ^ Backend.uart.log2Size - (List.replicate (2 ^ 15) (0 : UInt8)).length) idle n < 1 := by
    rw [room, takenIn_idle, List.length_replicate]
    show 2 ^ 15 - 2 ^ 15 + 0 + 0 < 1
    norm_num
  refine ⟨hrep, fun h => ?_⟩
  have hlegal (n : ℕ) : Backend.uart.writeB 0 [7] ⟨filled .uart (List.replicate (2 ^ 15) 0), []⟩ idle n ≠ none :=
    waiting_legal Backend.uart.log2Size_le hrep (fun _ => rfl) (fun _ => rfl) (fun _ => rfl)
      (fun n => takenIn_idle n ▸ Nat.zero_le _) n
  have htimes := (timesOut_iff hrep Nat.one_pos hlegal hroom 0).mpr ⟨rfl, rfl⟩
  obtain ⟨n, rv, w, s, hreturn⟩ := h.returns rfl ⟨0, htimes⟩
  rw [Backend.writeB_eq] at hreturn hlegal
  obtain ⟨⟨i, hi⟩, -⟩ := returned_iff Backend.uart.log2Size_le hrep hlegal hreturn
  exact absurd hi (Nat.not_le_of_lt (hroom i))

end GlipOsd.Backends.BlockingWrite
