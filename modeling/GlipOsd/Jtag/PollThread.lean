import GlipOsd.Jtag.Discovery
import GlipOsd.Jtag.DrscanWrite
import GlipOsd.Jtag.Headers

/-! # The polling thread and the configuration of the target

`poll_thread` begins with the discovery of the target and does not look at its result. In every iteration
it divides by the width of a word and shifts by it. A division by zero and a shift of a 1 by more than 30
bits have no defined value. What the buffers hold and how the transfer goes is given with an iteration.
-/

namespace GlipOsd.Jtag.PollThread
open Bytes Memory Runs Discovery
set_option autoImplicit false

/-- How the exchange for the discovery ends. -/
inductive Exchange
  /-- `jtag_drscan_write` returns an error. -/
  | writeFailed
  /-- The socket is closed, or there is an error while reading. -/
  | readFailed
  | response (r0 r1 r2 : BitVec 16)
  deriving DecidableEq, Repr

/-- What `jtag_drscan` returns, and the bytes of `resp`. -/
def Exchange.jtagDrscan : Exchange → ℤ × List UInt8
  | .writeFailed => (eoverflow, [])
  | .readFailed => (-1, [])
  | .response r0 r1 r2 => (0, leBytes 2 r0.toNat ++ (leBytes 2 r1.toNat ++ leBytes 2 r2.toNat))

inductive Thread
  /-- In front of an iteration of the loop. -/
  | polling (conf : Targetconf) (wantedWords : ℕ)
  | ended
  /-- An assertion has failed. -/
  | aborted
  /-- A division or a shift had no defined value. -/
  | undefined
  deriving DecidableEq, Repr

/-- `poll_thread` up to the loop. The context still has the values from `gb_jtag_new` when the exchange has
failed. -/
def discover (e : Exchange) : Thread :=
  match discoverTargetconf (fun _ => 0) fun _ => e.jtagDrscan with
  | none => .aborted
  | some (_, none) => .polling ⟨0, 0⟩ 0
  | some (_, some conf) =>
    if leValue (slice e.jtagDrscan.2 4 2) < 31 then .polling conf conf.targetBufferSize else .undefined

/-- `to_words` -/
def toWords (conf : Targetconf) (bytes : ℕ) : Option ℕ :=
  if conf.targetWordWidth = 0 then none else some (bytes / conf.targetWordWidth % 2 ^ 32)

/-- How a transfer goes. -/
inductive Transfer
  /-- The request is not built, or `jtag_drscan` fails. -/
  | failed
  | aborted
  | answered (ackedWords readWords : ℕ)
  deriving DecidableEq, Repr

/-- The levels of the two buffers, and the transfer. -/
structure Iteration where
  fillLevel : ℕ
  freeLevel : ℕ
  transfer : Transfer

def iterate (conf : Targetconf) (wantedWords : ℕ) (it : Iteration) : Thread :=
  match toWords conf it.fillLevel, toWords conf it.freeLevel with
  | some availWr, some availRd =>
    let words := calcPayloadLen wantedWords availWr availRd
    match it.transfer with
    | .failed => .ended
    | .aborted => .aborted
    | .answered ackedWords readWords =>
      if conf.targetWordWidth * 8 < 31 then
        .polling conf (Headers.nextWanted (fun _ => 0) conf.targetWordWidth conf.targetBufferSize wantedWords
          words.1 words.2 ackedWords readWords)
      else .undefined
  | _, _ => .undefined

def step : Thread → Iteration → Option Thread
  | .polling conf wantedWords, it => some (iterate conf wantedWords it)
  | _, _ => none

/-- The thread is over, or in its loop with what the exchange `e` has found out. -/
def Informed (e : Exchange) : Thread → Prop
  | .polling conf _ => 1 ≤ conf.targetWordWidth ∧
      ∃ r0 r1 r2, e = .response r0 r1 r2 ∧ conf.targetBufferSize = 2 ^ r2.toNat
  | .undefined => False
  | _ => True

/-- In every run nothing undefined is done, and nothing is transferred to a target that is not known. -/
def AlwaysInformed (e : Exchange) : Prop := ∀ its, Passes step (Informed e) (discover e) its

/-- There is a response; with it an assertion fails, or the words have at most three bytes and the number of
words in the target's buffer is an `int`. -/
def Discoverable : Exchange → Prop
  | .response _ r1 r2 => (r1.toNat = 0 ∨ r1.toNat % 8 ≠ 0) ∨ r1.toNat < 32 ∧ r2.toNat < 31
  | _ => False

/-! ## What is discovered -/

theorem leValue_resp (e : BitVec 16) : leValue (leBytes 2 e.toNat) = e.toNat :=
  leValue_leBytes_of_lt (e.isLt.trans_le (by norm_num))

theorem discover_response (r0 r1 r2 : BitVec 16) : discover (.response r0 r1 r2) =
    if r1.toNat = 0 ∨ r1.toNat % 8 ≠ 0 then .aborted
    else if r2.toNat < 31 then .polling ⟨r1.toNat / 8, 2 ^ r2.toNat⟩ (2 ^ r2.toNat)
    else .undefined := by
  obtain ⟨resp, hresp⟩ : ∃ resp, leBytes 2 r0.toNat ++ (leBytes 2 r1.toNat ++ leBytes 2 r2.toNat) = resp :=
    ⟨_, rfl⟩
  have hwidth : leValue (slice resp (2 * 1) 2) = r1.toNat := by
    rw [← hresp]
    exact leValue_resp r1
  have hsize : leValue (slice resp 4 2) = r2.toNat := by
    rw [← hresp]
    exact leValue_resp r2
  have hshift (h : r2.toNat < 31) : Util.toUint (Util.shiftOne (fun _ => 0) r2.toNat) = 2 ^ r2.toNat := by
    have hpow : 2 ^ r2.toNat < 2 ^ 31 := Nat.pow_lt_pow_right (by norm_num) h
    rw [Util.shiftOne, if_pos h, ← Nat.cast_ofNat, ← Nat.cast_pow, Util.toUint_natCast (by omega)]
  unfold discover discoverTargetconf Exchange.jtagDrscan
  simp only [hresp, hwidth, hsize, Nat.reduceMul, ne_eq, not_true_eq_false, if_false]
  by_cases hassert : r1.toNat = 0 ∨ ¬ r1.toNat % 8 = 0
  · rw [if_pos hassert, if_pos hassert]
  · rw [if_neg hassert, if_neg hassert]
    by_cases hr2 : r2.toNat < 31
    · simp only [if_pos hr2, hshift hr2]
    · simp only [if_neg hr2]

/-! ## An iteration -/

theorem toWords_of_pos {conf : Targetconf} (h : 1 ≤ conf.targetWordWidth) (bytes : ℕ) :
    toWords conf bytes = some (bytes / conf.targetWordWidth % 2 ^ 32) := if_neg (by omega)

/-- An iteration keeps the configuration, and divides and shifts by numbers for which this is defined. -/
theorem iterate_of_narrow {conf : Targetconf} (hpos : 1 ≤ conf.targetWordWidth) (hlt : conf.targetWordWidth < 4)
    (wantedWords : ℕ) (it : Iteration) :
    iterate conf wantedWords it = .ended ∨ iterate conf wantedWords it = .aborted ∨
      ∃ wantedWords', iterate conf wantedWords it = .polling conf wantedWords' := by
  simp only [iterate, toWords_of_pos hpos]
  cases it.transfer with
  | failed => exact .inl rfl
  | aborted => exact .inr (.inl rfl)
  | answered ackedWords readWords =>
    simp only
    rw [if_pos (by omega)]
    exact .inr (.inr ⟨_, rfl⟩)

theorem iterate_of_wide {conf : Targetconf} (hge : 4 ≤ conf.targetWordWidth) (wantedWords fillLevel freeLevel : ℕ)
    (ackedWords readWords : ℕ) :
    iterate conf wantedWords ⟨fillLevel, freeLevel, .answered ackedWords readWords⟩ = .undefined := by
  simp only [iterate, toWords_of_pos (by omega : 1 ≤ conf.targetWordWidth)]
  rw [if_neg (by omega)]

/-- A narrow configuration that is informed stays so. -/
theorem informed_step (e : Exchange) (s : Thread) (it : Iteration) (s' : Thread)
    (h : Informed e s ∧ ∀ conf wantedWords, s = .polling conf wantedWords → conf.targetWordWidth < 4)
    (hstep : step s it = some s') :
    Informed e s' ∧ ∀ conf wantedWords, s' = .polling conf wantedWords → conf.targetWordWidth < 4 := by
  obtain ⟨hinformed, hnarrow⟩ := h
  cases s with
  | polling conf wantedWords =>
    obtain rfl := Option.some.inj hstep
    have hlt := hnarrow conf wantedWords rfl
    obtain hend | habort | ⟨wantedWords', hpolling⟩ := iterate_of_narrow hinformed.1 hlt wantedWords it
    · rw [hend]
      exact ⟨trivial, fun _ _ h => by cases h⟩
    · rw [habort]
      exact ⟨trivial, fun _ _ h => by cases h⟩
    · rw [hpolling]
      refine ⟨hinformed, fun conf' wanted' h => ?_⟩
      cases h
      exact hlt
  | ended => cases hstep
  | aborted => cases hstep
  | undefined => cases hstep

/-! ## The exact condition -/

theorem alwaysInformed_of_narrow {e : Exchange} (h : Informed e (discover e))
    (hnarrow : ∀ conf wantedWords, discover e = .polling conf wantedWords → conf.targetWordWidth < 4) :
    AlwaysInformed e := by
  intro its
  have hpasses : Passes step (fun s => Informed e s ∧
      ∀ conf wantedWords, s = .polling conf wantedWords → conf.targetWordWidth < 4) (discover e) its :=
    passes_of_labels (Q := fun _ => True) (fun s it s' hs _ hstep => informed_step e s it s' hs hstep)
      ⟨h, hnarrow⟩ fun _ _ => trivial
  exact hpasses.mono fun s hs => hs.1

/-- **An undiscovered target.** The thread is always informed about the target exactly if there is a response
that fails an assertion or describes a target with words of at most three bytes and a buffer of at most `2 ^ 30`
words. -/
theorem alwaysInformed_iff (e : Exchange) : AlwaysInformed e ↔ Discoverable e := by
  constructor
  · intro h
    have hstart : Informed e (discover e) := (h []).head
    cases e with
    | writeFailed => exact absurd hstart.1 (by decide)
    | readFailed => exact absurd hstart.1 (by decide)
    | response r0 r1 r2 =>
      by_contra hnot
      rw [Discoverable, not_or] at hnot
      obtain ⟨hassert, hrange⟩ := hnot
      obtain hr2 | hr2 := Nat.lt_or_ge r2.toNat 31
      · -- the shift behind the first transfer
        have hdiscover : discover (.response r0 r1 r2) =
            .polling ⟨r1.toNat / 8, 2 ^ r2.toNat⟩ (2 ^ r2.toNat) := by
          rw [discover_response, if_neg hassert, if_pos hr2]
        have hrun := (h [⟨0, 0, .answered 0 0⟩]).2 .undefined (by
          rw [hdiscover]
          exact congrArg some (iterate_of_wide (by simp only; omega) _ _ _ _ _))
        exact hrun
      · rw [discover_response, if_neg hassert, if_neg (by omega)] at hstart
        exact hstart
  · intro h
    cases e with
    | writeFailed => exact h.elim
    | readFailed => exact h.elim
    | response r0 r1 r2 =>
      apply alwaysInformed_of_narrow
      · rw [discover_response]
        split_ifs with hassert hr2
        · trivial
        · exact ⟨by simp only; omega, r0, r1, r2, rfl, rfl⟩
        · obtain h | ⟨-, hlt⟩ := h
          · exact hassert h
          · exact hr2 hlt
      · intro conf wantedWords hconf
        rw [discover_response] at hconf
        split_ifs at hconf with hassert hr2
        cases hconf
        obtain h | ⟨hlt, -⟩ := h
        · exact absurd h hassert
        · simp only
          omega

/-- The socket is closed during the exchange: the first iteration divides by zero. -/
theorem closed_socket_not_informed :
    runFrom step (discover .readFailed) [⟨0, 2 ^ 16, .answered 0 0⟩] = some .undefined ∧
      ¬ AlwaysInformed .readFailed := by
  refine ⟨by decide, fun h => ?_⟩
  have hrun := (h [⟨0, 2 ^ 16, .answered 0 0⟩]).2 .undefined (by decide)
  exact hrun

end GlipOsd.Jtag.PollThread
