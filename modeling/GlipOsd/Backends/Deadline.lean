import Mathlib.Tactic

/-! # Deadlines

The blocking functions of the uart, jtag and cypressfx2 backends turn a timeout into the time at which a wait
is to end. The nanoseconds of the timeout are computed in 32 bits, and added by `timespec_add_ns`, which divides
in a loop.

* `iterDivU64Rem_eq`: the loop ends, with the quotient and the remainder.
* `exact_iff`: which timeouts give the right deadline.
-/

namespace GlipOsd.Backends.Deadline
set_option autoImplicit false

structure Timespec where
  tvSec : ℤ
  tvNsec : ℕ
  deriving DecidableEq

/-- The time in nanoseconds. -/
def Timespec.ns (a : Timespec) : ℤ := a.tvSec * 1000000000 + a.tvNsec

def nsecPerSec : ℕ := 1000000000

/-- `__iter_div_u64_rem`, the result and the remainder; `none` if the loop has not ended after `fuel` tests. -/
def iterDivU64Rem (divisor : ℕ) : ℕ → ℕ → ℕ → Option (ℕ × ℕ)
  | 0, _, _ => none
  | fuel + 1, dividend, ret =>
    if dividend ≥ divisor then iterDivU64Rem divisor fuel (dividend - divisor) ((ret + 1) % 2 ^ 32)
    else some (ret, dividend)

def timespecAddNs (fuel : ℕ) (a : Timespec) (ns : ℕ) : Option Timespec :=
  (iterDivU64Rem nsecPerSec fuel ((a.tvNsec + ns) % 2 ^ 64) 0).map fun r => ⟨a.tvSec + r.1, r.2⟩

/-- `timeout * 1000 * 1000`, in `unsigned int`. -/
def timeoutNs (timeout : ℕ) : ℕ := timeout * 1000 % 2 ^ 32 * 1000 % 2 ^ 32

/-- How a wait is to end. -/
inductive Wait
  | never
  | at (ts : Timespec)
  deriving DecidableEq

/-- The time is read once. -/
def once (fuel : ℕ) (clock : ℕ → Timespec) (timeout : ℕ) : Option Wait :=
  if timeout ≠ 0 then (timespecAddNs fuel (clock 0) (timeoutNs timeout)).map .at else some .never

/-- The time is read twice, and the second deadline replaces the first one. -/
def twice (fuel : ℕ) (clock : ℕ → Timespec) (timeout : ℕ) : Option Wait :=
  if timeout ≠ 0 then
    (timespecAddNs fuel (clock 0) (timeoutNs timeout)).bind fun _ =>
      (timespecAddNs fuel (clock 1) (timeoutNs timeout)).map .at
  else some .never

def gbUartReadB := twice

def gbUartWriteB := once

def gbJtagReadB := twice

def gbJtagWriteB := once

def gbCypressfx2ReadB := once

def gbCypressfx2WriteB := once

inductive Function
  | uartReadB
  | uartWriteB
  | jtagReadB
  | jtagWriteB
  | cypressfx2ReadB
  | cypressfx2WriteB
  deriving DecidableEq

namespace Function

def wait : Function → ℕ → (ℕ → Timespec) → ℕ → Option Wait
  | uartReadB => gbUartReadB
  | uartWriteB => gbUartWriteB
  | jtagReadB => gbJtagReadB
  | jtagWriteB => gbJtagWriteB
  | cypressfx2ReadB => gbCypressfx2ReadB
  | cypressfx2WriteB => gbCypressfx2WriteB

/-- The reading of the clock that the deadline is computed from. -/
def reading : Function → ℕ
  | uartReadB => 1
  | jtagReadB => 1
  | _ => 0

theorem wait_eq (f : Function) : f.wait = once ∧ f.reading = 0 ∨ f.wait = twice ∧ f.reading = 1 := by
  cases f
  · exact .inr ⟨rfl, rfl⟩
  · exact .inl ⟨rfl, rfl⟩
  · exact .inr ⟨rfl, rfl⟩
  · exact .inl ⟨rfl, rfl⟩
  · exact .inl ⟨rfl, rfl⟩
  · exact .inl ⟨rfl, rfl⟩

end Function

/-- The deadline is normalised and `timeout` milliseconds away, and the loop divides. -/
structure Exact (f : Function) (clock : ℕ → Timespec) (timeout : ℕ) : Prop where
  deadline : timeout ≠ 0 → ∃ ts, (∃ n, ∀ fuel ≥ n, f.wait fuel clock timeout = some (.at ts)) ∧
    ts.tvNsec < nsecPerSec ∧ ts.ns = (clock f.reading).ns + timeout * 1000000
  loop : ∃ n, ∀ fuel ≥ n, iterDivU64Rem nsecPerSec fuel ((clock f.reading).tvNsec + timeoutNs timeout) 0 =
    some (((clock f.reading).tvNsec + timeoutNs timeout) / nsecPerSec,
      ((clock f.reading).tvNsec + timeoutNs timeout) % nsecPerSec)

/-! ## The loop -/

/-- By induction on the number of tests that are left. -/
theorem iterDivU64Rem_eq {divisor : ℕ} (hpos : 0 < divisor) {fuel dividend ret : ℕ}
    (hfuel : dividend / divisor < fuel) (hret : ret + dividend / divisor < 2 ^ 32) :
    iterDivU64Rem divisor fuel dividend ret = some (ret + dividend / divisor, dividend % divisor) := by
  induction fuel generalizing dividend ret with
  | zero => exact absurd hfuel (Nat.not_lt_zero _)
  | succ fuel ih =>
    rw [iterDivU64Rem]
    by_cases hge : divisor ≤ dividend
    · have hdiv : dividend / divisor = (dividend - divisor) / divisor + 1 := Nat.div_eq_sub_div hpos hge
      have hmod : dividend % divisor = (dividend - divisor) % divisor := Nat.mod_eq_sub_mod hge
      rw [hdiv] at hfuel hret
      have hwrap : (ret + 1) % 2 ^ 32 = ret + 1 :=
        Nat.mod_eq_of_lt ((Nat.add_le_add_left (Nat.le_add_left 1 _) ret).trans_lt hret)
      have hsum : ret + 1 + (dividend - divisor) / divisor = ret + dividend / divisor := by
        rw [hdiv, Nat.add_assoc, Nat.add_comm 1]
      have hlt : ret + 1 + (dividend - divisor) / divisor < 2 ^ 32 := by rwa [hsum, hdiv]
      rw [if_pos hge, hwrap, ih (Nat.lt_of_succ_lt_succ hfuel) hlt, hsum, hmod]
    · rw [not_le] at hge
      rw [if_neg (not_le.mpr hge), Nat.div_eq_of_lt hge, Nat.mod_eq_of_lt hge, Nat.add_zero]

section Sums
variable {a : Timespec} {ns timeout fuel : ℕ}

theorem timespecAddNs_eq (ha : a.tvNsec < nsecPerSec) (hns : ns < 2 ^ 32) (hfuel : 2 ^ 32 ≤ fuel) :
    timespecAddNs fuel a ns =
      some ⟨a.tvSec + ((a.tvNsec + ns) / nsecPerSec : ℕ), (a.tvNsec + ns) % nsecPerSec⟩ := by
  rw [nsecPerSec] at ha
  have hmod : (a.tvNsec + ns) % 2 ^ 64 = a.tvNsec + ns := Nat.mod_eq_of_lt (by omega)
  have hdiv : (a.tvNsec + ns) / nsecPerSec < 2 ^ 32 := by
    rw [nsecPerSec]
    omega
  rw [timespecAddNs, hmod, iterDivU64Rem_eq (by decide) (hdiv.trans_le hfuel) (by omega), Option.map_some,
    Nat.zero_add]

theorem ns_add (a : Timespec) (ns : ℕ) : Timespec.ns
    ⟨a.tvSec + ((a.tvNsec + ns) / nsecPerSec : ℕ), (a.tvNsec + ns) % nsecPerSec⟩ = a.ns + ns := by
  simp only [Timespec.ns, nsecPerSec]
  omega

theorem timeoutNs_eq (timeout : ℕ) : timeoutNs timeout = timeout * 1000000 % 2 ^ 32 := by
  rw [timeoutNs]
  omega

theorem timeoutNs_lt (timeout : ℕ) : timeoutNs timeout < 2 ^ 32 := Nat.mod_lt _ (by norm_num)

/-- Up to 4294 ms the product does not wrap around. -/
theorem timeoutNs_exact_iff : timeoutNs timeout = timeout * 1000000 ↔ timeout ≤ 4294 := by
  rw [timeoutNs_eq]
  omega

end Sums

/-! ## The functions -/

section Functions
variable {f : Function} {clock : ℕ → Timespec} {timeout : ℕ}

/-- The time that the wait ends at. -/
def ends (f : Function) (clock : ℕ → Timespec) (timeout : ℕ) : Timespec where
  tvSec := (clock f.reading).tvSec + (((clock f.reading).tvNsec + timeoutNs timeout) / nsecPerSec : ℕ)
  tvNsec := ((clock f.reading).tvNsec + timeoutNs timeout) % nsecPerSec

theorem wait_spec (f : Function) (hclock : ∀ i, (clock i).tvNsec < nsecPerSec) (htimeout : timeout ≠ 0) {fuel : ℕ}
    (hfuel : 2 ^ 32 ≤ fuel) : f.wait fuel clock timeout = some (.at (ends f clock timeout)) := by
  have hadd (i : ℕ) := timespecAddNs_eq (hclock i) (timeoutNs_lt timeout) hfuel
  obtain ⟨hwait, hreading⟩ | ⟨hwait, hreading⟩ := f.wait_eq
  · rw [hwait, once, if_pos htimeout, hadd, Option.map_some, ends, hreading]
  · rw [hwait, twice, if_pos htimeout, hadd, Option.bind_some, hadd, Option.map_some, ends, hreading]

theorem loop_spec (hclock : ∀ i, (clock i).tvNsec < nsecPerSec) (i timeout : ℕ) {fuel : ℕ} (hfuel : 2 ^ 32 ≤ fuel) :
    iterDivU64Rem nsecPerSec fuel ((clock i).tvNsec + timeoutNs timeout) 0 =
      some (((clock i).tvNsec + timeoutNs timeout) / nsecPerSec, ((clock i).tvNsec + timeoutNs timeout) % nsecPerSec) := by
  have hlt := timeoutNs_lt timeout
  have hns := hclock i
  have hdiv : ((clock i).tvNsec + timeoutNs timeout) / nsecPerSec < 2 ^ 32 := by
    rw [nsecPerSec] at hns ⊢
    omega
  rw [iterDivU64Rem_eq (by decide) (hdiv.trans_le hfuel) (by omega), Nat.zero_add]

/-- **Deadlines.** For every function, every time and every timeout: the deadline is exact if and only if the timeout
is at most 4294 ms. -/
theorem exact_iff (f : Function) (hclock : ∀ i, (clock i).tvNsec < nsecPerSec) :
    Exact f clock timeout ↔ timeout ≤ 4294 := by
  rw [← timeoutNs_exact_iff]
  constructor
  · intro h
    by_cases hzero : timeout = 0
    · rw [hzero]
      rfl
    · obtain ⟨ts, ⟨n, hwait⟩, -, hns⟩ := h.deadline hzero
      have hends := hwait (max n (2 ^ 32)) (le_max_left _ _)
      rw [wait_spec f hclock hzero (le_max_right _ _), Option.some.injEq, Wait.at.injEq] at hends
      rw [← hends, ends, ns_add] at hns
      omega
  · intro h
    refine ⟨fun hzero => ⟨ends f clock timeout, ⟨2 ^ 32, fun fuel => wait_spec f hclock hzero⟩, ?_, ?_⟩,
      2 ^ 32, fun fuel => loop_spec hclock _ timeout⟩
    · exact Nat.mod_lt _ (by decide)
    · rw [ends, ns_add, h]
      norm_num

theorem one_second_exact : (∀ i, ((fun _ => ⟨0, 999999999⟩ : ℕ → Timespec) i).tvNsec < nsecPerSec) ∧
    Exact .jtagWriteB (fun _ => ⟨0, 999999999⟩) 1000 := by
  have hclock : ∀ i, ((fun _ => ⟨0, 999999999⟩ : ℕ → Timespec) i).tvNsec < nsecPerSec :=
    fun _ => (by decide : 999999999 < nsecPerSec)
  exact ⟨hclock, (exact_iff .jtagWriteB hclock).mpr (by decide)⟩

/-- Five seconds: the deadline is 705 ms away. -/
theorem five_seconds_not_exact : ¬ Exact .jtagWriteB (fun _ => ⟨0, 0⟩) 5000 := by
  intro h
  obtain ⟨ts, ⟨n, hwait⟩, -, hns⟩ := h.deadline (by decide)
  have hends := hwait (max n (2 ^ 32)) (le_max_left _ _)
  rw [wait_spec .jtagWriteB (fun _ => (by decide : 0 < nsecPerSec)) (by decide) (le_max_right _ _), Option.some.injEq,
    Wait.at.injEq] at hends
  rw [← hends, ends, ns_add] at hns
  revert hns
  decide

end Functions

end GlipOsd.Backends.Deadline
