import GlipOsd.Foundations.Clocked
import GlipOsd.Uart.Line

/-! # Transmission over the serial line

A frame is described by the number of cycles since the transmitter began the start bit. With `T` cycles a bit in
the transmitter and `D` in the receiver, bit `v` is on the line in the cycles from `v * T` on, and the receiver
takes the sample of cycle `v * D + mid D`. The two divisors may differ by two per cent: then all nine samples
fall into their bits, and the receiver is idle again when the next frame can begin.
-/

namespace GlipOsd.Uart
open Runs
set_option autoImplicit false

/-! ## The timing -/

/-- The divisors of the two sides differ by two per cent at most. -/
structure Close (D T : ℕ) : Prop where
  two_le : 2 ≤ D
  lower : 49 * D ≤ 50 * T
  upper : 50 * T ≤ 51 * D

/-- The middle of a bit in the receiver. -/
def mid (D : ℕ) : ℕ := D - D / 2

/-- The cycle of the frame in which the receiver reports the byte. -/
def reportAt (D : ℕ) : ℕ := 9 * D + mid D + 1

section Timing
variable {D T : ℕ}

theorem Close.pos (h : Close D T) : 0 < T := by
  obtain ⟨h2, hlo, -⟩ := h
  omega

theorem mid_pos (h : 2 ≤ D) : 0 < mid D := by rw [mid]; omega

theorem mid_lt (h : 2 ≤ D) : mid D < D := by rw [mid]; omega

theorem Close.sample_div (h : Close D T) {v : ℕ} (hv : 1 ≤ v) (hv' : v ≤ 9) : (v * D + mid D) / T = v := by
  obtain ⟨h2, hlo, hup⟩ := h
  apply Nat.div_eq_of_lt_le
  · rw [mid]
    interval_cases v <;> omega
  · rw [mid]
    interval_cases v <;> omega

theorem Close.reportAt_le (h : Close D T) : reportAt D ≤ 10 * T := by
  obtain ⟨h2, hlo, hup⟩ := h
  rw [reportAt, mid]
  omega

/-- A cycle later the position is one further, or it is the first one of the next bit. -/
theorem succ_div_mod (hT : 0 < T) (e : ℕ) :
    e % T + 1 < T ∧ (e + 1) / T = e / T ∧ (e + 1) % T = e % T + 1 ∨
      e % T + 1 = T ∧ (e + 1) / T = e / T + 1 ∧ (e + 1) % T = 0 := by
  have hmod : e % T < T := Nat.mod_lt e hT
  have hsplit := Nat.div_add_mod e T
  obtain hlt | heq : e % T + 1 < T ∨ e % T + 1 = T := by omega
  · refine .inl ⟨hlt, ?_, ?_⟩
    · conv_lhs => rw [← hsplit, Nat.add_assoc, Nat.mul_add_div hT, Nat.div_eq_of_lt hlt, Nat.add_zero]
    · conv_lhs => rw [← hsplit, Nat.add_assoc, Nat.mul_add_mod, Nat.mod_eq_of_lt hlt]
  · refine .inr ⟨heq, ?_, ?_⟩
    · conv_lhs => rw [← hsplit, Nat.add_assoc, heq, Nat.mul_add_div hT, Nat.div_self hT]
    · conv_lhs => rw [← hsplit, Nat.add_assoc, heq, Nat.mul_add_mod, Nat.mod_self]

theorem nextDivcounter_toNat {divisor : BitVec 32} (divcounter : BitVec 32) (h : 0 < divisor.toNat) :
    (nextDivcounter divisor divcounter).toNat = if divcounter.toNat = 0 then divisor.toNat - 1 else divcounter.toNat - 1 := by
  have hone {x : BitVec 32} (hx : 0 < x.toNat) : (x - 1).toNat = x.toNat - 1 := by
    have hlt := x.isLt
    rw [BitVec.toNat_sub, show (1 : BitVec 32).toNat = 1 from rfl]
    omega
  rw [nextDivcounter]
  split_ifs with hzero hzero' hzero'
  · exact hone h
  · exact absurd (by rw [hzero]; rfl) hzero'
  · exact absurd (BitVec.eq_of_toNat_eq hzero') hzero
  · exact hone (Nat.pos_of_ne_zero hzero')

end Timing

/-! ## The transmitter -/

/-- The state in which the transmitter sends bit `q` of the frame. -/
def frameState : ℕ → LineState
  | 0 => .start
  | q + 1 => if q < 8 then .bits else .stop

/-- Bit `q` of the frame. -/
def frameBit (b : BitVec 8) : ℕ → Bool
  | 0 => false
  | q + 1 => if q < 8 then b.getLsbD q else true

/-- The transmitter in cycle `e` of a frame. -/
structure Transmit.At (T e : ℕ) (s : Transmit) : Prop where
  state : s.state = frameState (e / T)
  divcounter : s.divcounter.toNat + e % T + 1 = T
  bitpos : ∀ q, e / T = q + 1 → q < 8 → s.bitpos.toNat = q

section Transmitter
variable {T e : ℕ} {s : Transmit} {divisor : BitVec 32}

theorem Transmit.At.tx (h : s.At T e) (b : BitVec 8) : s.tx b = frameBit b (e / T) := by
  rw [Transmit.tx, h.state]
  cases hq : e / T with
  | zero => rfl
  | succ q =>
    rw [frameState, frameBit]
    split_ifs with hlt
    · show b.getLsbD s.bitpos.toNat = b.getLsbD q
      rw [h.bitpos q hq hlt]
    · rfl

theorem Transmit.At.nextedge_iff (h : s.At T e) : s.nextedge = true ↔ e % T + 1 = T := by
  have hdiv := h.divcounter
  rw [Transmit.nextedge, decide_eq_true_iff, ← BitVec.toNat_inj, show (0 : BitVec 32).toNat = 0 from rfl]
  omega

theorem transmit_start (hdiv : divisor.toNat = T) (hT : 0 < T) (h : s.state = .idle) :
    (s.next divisor false true).At T 0 := by
  have hnext : s.next divisor false true = { s with state := .start, divcounter := divisor - 1 } := by
    rw [Transmit.next, h]
    rfl
  have hlt := divisor.isLt
  rw [hnext]
  refine ⟨by rw [Nat.zero_div]; rfl, ?_, fun q hq => ?_⟩
  · show (divisor - 1).toNat + 0 % T + 1 = T
    rw [BitVec.toNat_sub, show (1 : BitVec 32).toNat = 1 from rfl, Nat.zero_mod]
    omega
  · rw [Nat.zero_div] at hq
    exact absurd hq (Nat.succ_ne_zero q).symm

theorem transmit_idle (h : s.state = .idle) : (s.next divisor false false).state = .idle ∧ s.done = false := by
  rw [Transmit.next, Transmit.done, h]
  exact ⟨rfl, rfl⟩

theorem transmit_count (h : s.state ≠ .idle) (hedge : s.nextedge = false) (enable : Bool) :
    s.next divisor false enable = { s with divcounter := nextDivcounter divisor s.divcounter } := by
  cases hs : s.state <;> simp_all [Transmit.next]

theorem frameState_ne_idle (q : ℕ) : frameState q ≠ .idle := by
  cases q with
  | zero => exact LineState.noConfusion
  | succ q =>
    rw [frameState]
    split_ifs <;> exact LineState.noConfusion

variable (divisor) in
/-- In the last cycle of the stop bit the byte is acknowledged. -/
theorem Transmit.At.finish (h : s.At T e) (he : e + 1 = 10 * T) (enable : Bool) :
    (s.next divisor false enable).state = .idle ∧ s.done = true := by
  have hq : e / T = 9 := Nat.div_eq_of_lt_le (by omega) (by omega)
  have hmod := Nat.div_add_mod e T
  rw [hq] at hmod
  have hedge : s.nextedge = true := h.nextedge_iff.mpr (by omega)
  have hstate : s.state = .stop := h.state.trans (by rw [hq]; rfl)
  rw [Transmit.next, Transmit.done, hstate, hedge]
  exact ⟨rfl, rfl⟩

theorem Transmit.At.step (hdiv : divisor.toNat = T) (hT : 0 < T) (h : s.At T e) (he : e + 1 < 10 * T) (enable : Bool) :
    (s.next divisor false enable).At T (e + 1) ∧ s.done = false := by
  have hcount := nextDivcounter_toNat s.divcounter (hdiv.symm ▸ hT)
  have hdivc := h.divcounter
  rw [hdiv] at hcount
  have hq : (e + 1) / T < 10 := Nat.div_lt_of_lt_mul (by omega)
  have hidle : s.state ≠ .idle := h.state ▸ frameState_ne_idle (e / T)
  obtain ⟨hlt, hdivs, hmods⟩ | ⟨heq, hdivs, hmods⟩ := succ_div_mod hT e
  · have hedge : s.nextedge = false := by
      rw [← Bool.not_eq_true, h.nextedge_iff]
      omega
    refine ⟨?_, by rw [Transmit.done, hedge, Bool.and_false]⟩
    rw [transmit_count hidle hedge]
    refine ⟨by rw [hdivs]; exact h.state, ?_, by rw [hdivs]; exact h.bitpos⟩
    show (nextDivcounter divisor s.divcounter).toNat + (e + 1) % T + 1 = T
    rw [hcount, hmods]
    split_ifs <;> omega
  · have hedge : s.nextedge = true := h.nextedge_iff.mpr heq
    have hzero : (nextDivcounter divisor s.divcounter).toNat + (e + 1) % T + 1 = T := by
      rw [hcount, hmods]
      split_ifs <;> omega
    have hstate := h.state
    rw [hdivs] at hq
    cases hq0 : e / T with
    | zero =>
      rw [hq0] at hstate
      have hnext : s.next divisor false enable = ⟨.bits, nextDivcounter divisor s.divcounter, 0⟩ := by
        rw [Transmit.next, hstate, hedge]
        rfl
      rw [hnext, Transmit.done, hstate]
      refine ⟨⟨by rw [hdivs, hq0]; rfl, hzero, fun q hq' _ => ?_⟩, rfl⟩
      rw [hdivs, hq0] at hq'
      obtain rfl : q = 0 := by omega
      rfl
    | succ q =>
      have hq8 : q < 8 := by omega
      rw [hq0, frameState, if_pos hq8] at hstate
      have hbitpos := h.bitpos q hq0 hq8
      have hseven : s.bitpos = 7 ↔ q = 7 := by
        rw [← BitVec.toNat_inj, hbitpos]
        rfl
      have hnext : s.next divisor false enable =
          ⟨if s.bitpos = 7 then .stop else .bits, nextDivcounter divisor s.divcounter, s.bitpos + 1⟩ := by
        rw [Transmit.next, hstate, hedge]
        rfl
      rw [hnext, Transmit.done, hstate]
      refine ⟨⟨?_, hzero, fun q' hq' hlt' => ?_⟩, rfl⟩
      · rw [hdivs, hq0]
        simp only [hseven, frameState]
        split_ifs <;> first | rfl | omega
      · rw [hdivs, hq0] at hq'
        obtain rfl : q' = q + 1 := by omega
        show (s.bitpos + 1).toNat = q + 1
        rw [BitVec.toNat_add, hbitpos]
        exact Nat.mod_eq_of_lt hlt'

end Transmitter

/-! ## The receiver -/

/-- The number of bits that have been sampled when the counter has run for `u` cycles. -/
def sampled (D u : ℕ) : ℕ := if u % D < mid D then u / D - 1 else u / D

/-- The receiver when the counter has run for `u` cycles since the edge of the start bit of the byte `b`. -/
structure Receive.At (D : ℕ) (b : BitVec 8) (u : ℕ) (s : Receive) : Prop where
  state : s.state = if u / D = 0 then .start else if sampled D u < 8 then .bits else .stop
  divcounter : s.divcounter.toNat + u % D + 1 = D
  bitpos : 0 < u / D → sampled D u < 8 → s.bitpos.toNat = sampled D u
  data : ∀ p, p < sampled D u → p < 8 → s.data.getLsbD p = b.getLsbD p

section Receiver
variable {D u : ℕ} {b : BitVec 8} {s : Receive} {divisor : BitVec 32}

theorem getLsbD_setBit (data : BitVec 8) (bitpos : BitVec 3) (bit : Bool) {p : ℕ} (hp : p < 8) :
    (setBit data bitpos bit).getLsbD p = if p = bitpos.toNat then bit else data.getLsbD p :=
  Clocked.getLsbD_writeBit data bit hp

theorem Receive.At.bitend_iff (h : s.At D b u) : s.bitend = true ↔ u % D + 1 = D := by
  have hdiv := h.divcounter
  rw [Receive.bitend, decide_eq_true_iff, ← BitVec.toNat_inj, show (0 : BitVec 32).toNat = 0 from rfl]
  omega

theorem Receive.At.bitmid_iff (hdiv : divisor.toNat = D) (h : s.At D b u) :
    s.bitmid divisor = true ↔ u % D + 1 = mid D := by
  have hdivc := h.divcounter
  rw [Receive.bitmid, decide_eq_true_iff, ← BitVec.toNat_inj, BitVec.toNat_ushiftRight, hdiv,
    Nat.shiftRight_eq_div_pow, mid]
  omega

theorem receive_start (hdiv : divisor.toNat = D) (hD : 2 ≤ D) (h : s.state = .idle) (hreg : s.rxReg = (true, false)) (rx : Bool) :
    (s.next divisor false rx).At D b 0 := by
  have hnext : s.next divisor false rx = { s with state := .start, divcounter := divisor - 1, rxReg := (s.rxReg.2, rx) } := by
    rw [Receive.next, h, Receive.rxnegedge, hreg]
    rfl
  have hlt := divisor.isLt
  rw [hnext]
  have hsampled : sampled D 0 = 0 := by
    rw [sampled, Nat.zero_div]
    split_ifs <;> rfl
  refine ⟨by rw [Nat.zero_div]; rfl, ?_, fun hpos => ?_, fun p hp => ?_⟩
  · show (divisor - 1).toNat + 0 % D + 1 = D
    rw [BitVec.toNat_sub, show (1 : BitVec 32).toNat = 1 from rfl, Nat.zero_mod]
    omega
  · rw [Nat.zero_div] at hpos
    exact absurd hpos (lt_irrefl 0)
  · rw [hsampled] at hp
    exact absurd hp (Nat.not_lt_zero p)

variable (divisor) in
theorem receive_idle (h : s.state = .idle) (hreg : s.rxReg.2 = true) (rx : Bool) :
    (s.next divisor false rx).state = .idle ∧ (s.next divisor false rx).rxReg = (true, rx) ∧
      s.enable divisor = false ∧ s.error divisor = false := by
  rw [Receive.next, Receive.enable, Receive.error, h, Receive.rxnegedge, hreg]
  simp

theorem receive_rxReg (rx : Bool) : (s.next divisor false rx).rxReg = (s.rxReg.2, rx) := by
  unfold Receive.next
  cases s.state <;> simp only [Bool.false_eq_true, if_false] <;> split_ifs <;> rfl

/-- Where nothing is sampled and no bit ends, only the counter and the samples change. -/
theorem receive_count (hstart : s.state = .start → s.bitend = false)
    (hmid : s.state = .bits ∨ s.state = .stop → s.bitmid divisor = false) (hidle : s.state ≠ .idle) (rx : Bool) :
    s.next divisor false rx = { s with divcounter := nextDivcounter divisor s.divcounter, rxReg := (s.rxReg.2, rx) } := by
  cases hs : s.state <;> simp_all [Receive.next]

theorem receive_quiet (h : s.state = .stop → s.bitmid divisor = false) : s.enable divisor = false ∧ s.error divisor = false := by
  rw [Receive.enable, Receive.error]
  cases hs : s.state with
  | stop => rw [h hs]; exact ⟨rfl, rfl⟩
  | _ => exact ⟨rfl, rfl⟩

theorem sampled_succ (hD : 2 ≤ D) (hpos : 0 < u / D) :
    u % D + 1 = mid D ∧ sampled D u = u / D - 1 ∧ sampled D (u + 1) = u / D ∧ (u + 1) / D = u / D ∨
      u % D + 1 ≠ mid D ∧ sampled D (u + 1) = sampled D u := by
  have hmid := mid_lt hD
  have hmid' := mid_pos hD
  obtain ⟨hlt, hdivs, hmods⟩ | ⟨heq, hdivs, hmods⟩ := succ_div_mod (by omega : 0 < D) u
  · by_cases h : u % D + 1 = mid D
    · refine .inl ⟨h, ?_, ?_, hdivs⟩
      · rw [sampled, if_pos (by omega)]
      · rw [sampled, hdivs, hmods, if_neg (by omega)]
    · refine .inr ⟨h, ?_⟩
      rw [sampled, sampled, hdivs, hmods]
      split_ifs <;> omega
  · refine .inr ⟨by omega, ?_⟩
    rw [sampled, sampled, hdivs, hmods, if_pos hmid', if_neg (by omega), Nat.add_sub_cancel]

/-- Up to the middle of the stop bit the receiver takes the bits from the line. -/
theorem Receive.At.step (hdiv : divisor.toNat = D) (hD : 2 ≤ D) (h : s.At D b u) (hu : u + 1 < 9 * D + mid D)
    (hbit : ∀ q, q < 8 → u + 1 = (q + 1) * D + mid D → s.rxReg.2 = b.getLsbD q) (rx : Bool) :
    (s.next divisor false rx).At D b (u + 1) ∧ s.enable divisor = false ∧ s.error divisor = false := by
  have hmid := mid_lt hD
  have hmid' := mid_pos hD
  have hcount := nextDivcounter_toNat s.divcounter (hdiv.symm ▸ (by omega : 0 < D))
  have hdivc := h.divcounter
  rw [hdiv] at hcount
  have hstate := h.state
  have hsplit := Nat.div_add_mod u D
  have hdivc' : (nextDivcounter divisor s.divcounter).toNat + (u + 1) % D + 1 = D := by
    rw [hcount]
    obtain ⟨hlt, -, hmods⟩ | ⟨heq, -, hmods⟩ := succ_div_mod (by omega : 0 < D) u
    · rw [hmods]
      split_ifs <;> omega
    · rw [hmods]
      split_ifs <;> omega
  by_cases hzero : u / D = 0
  · -- the start bit
    rw [if_pos hzero] at hstate
    have hnone : sampled D (u + 1) = 0 := by
      obtain ⟨-, hdivs, -⟩ | ⟨-, hdivs, hmods⟩ := succ_div_mod (by omega : 0 < D) u
      · rw [sampled, hdivs, hzero]
        split_ifs <;> rfl
      · rw [sampled, hmods, hdivs, hzero, if_pos hmid']
    refine ⟨?_, receive_quiet fun heq => by rw [hstate] at heq; cases heq⟩
    obtain ⟨hlt, hdivs, -⟩ | ⟨heq, hdivs, -⟩ := succ_div_mod (by omega : 0 < D) u
    · have hnoend : s.bitend = false := by
        rw [← Bool.not_eq_true, h.bitend_iff]
        omega
      rw [receive_count (fun _ => hnoend) (by simp [hstate]) (by simp [hstate])]
      refine ⟨?_, hdivc', fun hpos => ?_, fun p hp => ?_⟩
      · rw [hdivs, if_pos hzero]
        exact hstate
      · rw [hdivs, hzero] at hpos
        exact absurd hpos (lt_irrefl 0)
      · rw [hnone] at hp
        exact absurd hp (Nat.not_lt_zero p)
    · have hend : s.bitend = true := h.bitend_iff.mpr heq
      have hnext : s.next divisor false rx = { s with
          state := .bits, divcounter := nextDivcounter divisor s.divcounter, bitpos := 0, rxReg := (s.rxReg.2, rx) } := by
        rw [Receive.next, hstate, hend]
        rfl
      rw [hnext]
      refine ⟨?_, hdivc', fun _ _ => ?_, fun p hp => ?_⟩
      · rw [hdivs, hzero, if_neg (Nat.succ_ne_zero 0), hnone]
        rfl
      · rw [hnone]
        rfl
      · rw [hnone] at hp
        exact absurd hp (Nat.not_lt_zero p)
  · rw [if_neg hzero] at hstate
    have hpos : 0 < u / D := Nat.pos_of_ne_zero hzero
    have hpos' : 0 < (u + 1) / D := hpos.trans_le (Nat.div_le_div_right (Nat.le_succ u))
    obtain ⟨heq, hold, hnew, hdivs⟩ | ⟨hne, hsame⟩ := sampled_succ hD hpos
    · -- the middle of a bit, which is not the stop bit yet
      obtain ⟨q, hq⟩ := Nat.exists_eq_succ_of_ne_zero hzero
      have hq8 : q < 8 := by
        by_contra hge
        have hle : 9 * D ≤ D * (u / D) := by
          rw [hq, Nat.mul_comm 9 D]
          exact Nat.mul_le_mul_left D (by omega)
        omega
      have hold' : sampled D u = q := by rw [hold, hq]; rfl
      have hnew' : sampled D (u + 1) = q + 1 := hnew.trans hq
      rw [hold', if_pos hq8] at hstate
      have hbitpos : s.bitpos.toNat = q := (h.bitpos hpos (by rw [hold']; exact hq8)).trans hold'
      have hseven : s.bitpos = 7 ↔ q = 7 := by
        rw [← BitVec.toNat_inj, hbitpos]
        rfl
      have hmidnow : s.bitmid divisor = true := (h.bitmid_iff hdiv).mpr heq
      have hvalue : s.rxReg.2 = b.getLsbD q := by
        refine hbit q hq8 ?_
        rw [← heq, ← Nat.succ_eq_add_one q, ← hq, Nat.mul_comm]
        omega
      have hnext : s.next divisor false rx = ⟨if s.bitpos = 7 then .stop else .bits, nextDivcounter divisor s.divcounter,
          s.bitpos + 1, (s.rxReg.2, rx), setBit s.data s.bitpos s.rxReg.2⟩ := by
        rw [Receive.next, hstate, hmidnow]
        rfl
      rw [hnext]
      refine ⟨⟨?_, hdivc', fun _ hlt => ?_, fun p hp hp8 => ?_⟩, receive_quiet fun heq => by rw [hstate] at heq; cases heq⟩
      · rw [if_neg hpos'.ne', hnew']
        simp only [hseven]
        split_ifs <;> first | rfl | omega
      · rw [hnew'] at hlt ⊢
        show (s.bitpos + 1).toNat = q + 1
        rw [BitVec.toNat_add, hbitpos]
        exact Nat.mod_eq_of_lt hlt
      · rw [hnew'] at hp
        rw [getLsbD_setBit _ _ _ hp8, hbitpos, hvalue]
        split_ifs with hpq
        · rw [hpq]
        · exact h.data p (by omega) hp8
    · have hnomid : s.bitmid divisor = false := by
        rw [← Bool.not_eq_true, h.bitmid_iff hdiv]
        exact hne
      have hnot : s.state ≠ .start ∧ s.state ≠ .idle := by
        rw [hstate]
        split_ifs <;> exact ⟨LineState.noConfusion, LineState.noConfusion⟩
      rw [receive_count (fun heq => absurd heq hnot.1) (fun _ => hnomid) hnot.2]
      refine ⟨⟨?_, hdivc', fun _ hlt => ?_, fun p hp => ?_⟩, receive_quiet fun _ => hnomid⟩
      · rw [if_neg hpos'.ne', hsame]
        exact hstate
      · rw [hsame] at hlt ⊢
        exact h.bitpos hpos hlt
      · rw [hsame] at hp
        exact h.data p hp

/-- In the middle of the stop bit the receiver reports the byte. -/
theorem Receive.At.report (hdiv : divisor.toNat = D) (hD : 2 ≤ D) (h : s.At D b u) (hu : u + 1 = 9 * D + mid D)
    (hbit : s.rxReg.2 = true) (rx : Bool) :
    (s.next divisor false rx).state = .idle ∧ s.enable divisor = true ∧ s.error divisor = false ∧ s.data = b := by
  have hmid := mid_lt hD
  have hmid' := mid_pos hD
  have hv : u / D = 9 := Nat.div_eq_of_lt_le (by omega) (by omega)
  have hmod := Nat.div_add_mod u D
  rw [hv] at hmod
  have hsampled : sampled D u = 8 := by rw [sampled, if_pos (by omega), hv]
  have hstate : s.state = .stop := by
    rw [h.state, hv, hsampled]
    rfl
  have hmidnow : s.bitmid divisor = true := (h.bitmid_iff hdiv).mpr (by omega)
  refine ⟨?_, ?_, ?_, ?_⟩
  · rw [Receive.next, hstate, hmidnow]
    rfl
  · rw [Receive.enable, hstate, hmidnow, hbit]
    rfl
  · rw [Receive.error, hstate, hmidnow, hbit]
    rfl
  · apply BitVec.eq_of_getLsbD_eq
    intro p hp
    exact h.data p (by rwa [hsampled]) hp

end Receiver

/-! ## Frames -/

/-- The newest sample of the receiver in cycle `e` of a frame. -/
def seen (T : ℕ) (b : BitVec 8) (e : ℕ) : Bool := if e = 0 then true else frameBit b ((e - 1) / T)

/-- Nothing is on the line, and every byte has been reported. -/
structure Quiet (s : Link) : Prop where
  tx : s.tx.state = .idle
  rx : s.rx.state = .idle
  rxReg : s.rx.rxReg = (true, true)
  pending : s.pending = none
  handed : s.handed = s.reported

/-- Cycle `e` of the frame of the byte `b`, which the receiver has not reported yet. -/
structure Frame (D T e : ℕ) (b : BitVec 8) (s : Link) : Prop where
  le : e ≤ reportAt D
  sending : e < 10 * T → s.tx.At T e ∧ s.pending = some b
  sent : e = 10 * T → s.tx.state = .idle ∧ s.pending = none
  waiting : e < 2 → s.rx.state = .idle
  receiving : ∀ u, e = u + 2 → s.rx.At D b u
  rxReg : s.rx.rxReg = (seen T b (e - 1), seen T b e)
  handed : s.handed = s.reported ++ [b]

/-- The rest of the stop bit, behind the report. -/
structure Rest (D T e : ℕ) (b : BitVec 8) (s : Link) : Prop where
  lt : reportAt D < e
  sending : e < 10 * T ∧ s.tx.At T e ∧ s.pending = some b
  rx : s.rx.state = .idle
  rxReg : s.rx.rxReg = (true, true)
  handed : s.handed = s.reported

def LinkInv (D T : ℕ) (s : Link) : Prop :=
  s.errors = 0 ∧ (Quiet s ∨ (∃ e b, Frame D T e b s) ∨ ∃ e b, Rest D T e b s)

section Frames
variable {D T e : ℕ} {b : BitVec 8} {s s' : Link} {divisorTx divisorRx : BitVec 32} {i : LinkIn}

theorem link_step_eq (h : Link.step divisorTx divisorRx s i = some s') :
    (∀ data, s.pending = some data → i.enable = true ∧ i.data = data) ∧ s' = {
      tx := s.tx.next divisorTx false i.enable
      rx := s.rx.next divisorRx false (s.tx.tx i.data)
      pending := if i.enable && !s.tx.done then some i.data else none
      handed := if i.enable && s.pending.isNone then s.handed ++ [i.data] else s.handed
      reported := if s.rx.enable divisorRx then s.reported ++ [s.rx.data] else s.reported
      errors := if s.rx.error divisorRx then s.errors + 1 else s.errors } := by
  obtain ⟨hguard, heq⟩ := Option.ite_none_right_eq_some.mp h
  refine ⟨fun data hdata => ?_, (Option.some.inj heq).symm⟩
  rw [hdata] at hguard
  simpa using hguard

theorem Quiet.step (hT : divisorTx.toNat = T) (hclose : Close D T) (h : Quiet s)
    (hstep : Link.step divisorTx divisorRx s i = some s') :
    s'.errors = s.errors ∧ s'.reported = s.reported ∧ (Quiet s' ∨ ∃ b, Frame D T 0 b s') := by
  obtain ⟨-, rfl⟩ := link_step_eq hstep
  have hreg : s.rx.rxReg.2 = true := by rw [h.rxReg]
  have htx : s.tx.tx i.data = true := by rw [Transmit.tx, h.tx]
  obtain ⟨hrx, hreg', henable, herror⟩ := receive_idle divisorRx h.rx hreg (s.tx.tx i.data)
  have hdone : s.tx.done = false := by rw [Transmit.done, h.tx]; rfl
  simp only [henable, herror, h.pending, hdone, Bool.false_eq_true, if_false, Option.isNone_none, Bool.not_false, Bool.and_true]
  refine ⟨trivial, trivial, ?_⟩
  cases hen : i.enable with
  | false =>
    rw [htx] at hreg'
    refine .inl ⟨(transmit_idle h.tx).1, ?_, ?_, by simp, by simpa using h.handed⟩
    · simpa [htx] using hrx
    · simpa [htx] using hreg'
  | true =>
    refine .inr ⟨i.data, ?_⟩
    rw [htx] at hreg'
    have hpos := hclose.pos
    refine ⟨Nat.zero_le _, fun _ => ⟨transmit_start hT hpos h.tx, by simp⟩, fun heq => by omega, fun _ => ?_,
      fun u hu => by omega, ?_, ?_⟩
    · simpa [htx] using hrx
    · simpa [htx, seen] using hreg'
    · simp [h.handed]

theorem Close.line_high (h : Close D T) (he : reportAt D ≤ e + 1) (b : BitVec 8) : frameBit b (e / T) = true := by
  obtain ⟨q, hq⟩ : ∃ q, e / T = q + 9 := by
    refine Nat.exists_eq_add_of_le' ((Nat.le_div_iff_mul_le h.pos).mpr ?_)
    obtain ⟨h2, hlo, hup⟩ := h
    rw [reportAt, mid] at he
    omega
  rw [hq, frameBit, if_neg (by omega)]

theorem Frame.line (h : Frame D T e b s) (hclose : Close D T)
    (hguard : ∀ data, s.pending = some data → i.enable = true ∧ i.data = data) : s.tx.tx i.data = frameBit b (e / T) := by
  have hle := h.le.trans hclose.reportAt_le
  obtain hlt | heq := hle.lt_or_eq
  · obtain ⟨hat, hpending⟩ := h.sending hlt
    rw [(hguard b hpending).2, hat.tx]
  · have hten : e / T = 10 := by rw [heq, Nat.mul_div_cancel _ hclose.pos]
    rw [Transmit.tx, (h.sent heq).1, hten]
    rfl

theorem Frame.step (hT : divisorTx.toNat = T) (hD : divisorRx.toNat = D) (hclose : Close D T) (h : Frame D T e b s)
    (he : e < reportAt D) (hstep : Link.step divisorTx divisorRx s i = some s') :
    s'.errors = s.errors ∧ s'.reported = s.reported ∧ Frame D T (e + 1) b s' := by
  obtain ⟨hguard, rfl⟩ := link_step_eq hstep
  have hline := h.line hclose hguard
  have hlt : e < 10 * T := he.trans_le hclose.reportAt_le
  obtain ⟨hat, hpending⟩ := h.sending hlt
  obtain ⟨henable, hdata⟩ := hguard b hpending
  have hrx : s.rx.enable divisorRx = false ∧ s.rx.error divisorRx = false ∧
      (e + 1 < 2 → (s.rx.next divisorRx false (s.tx.tx i.data)).state = .idle) ∧
      ∀ u, e + 1 = u + 2 → (s.rx.next divisorRx false (s.tx.tx i.data)).At D b u := by
    match e, h, he with
    | 0, h, _ =>
      have hreg : s.rx.rxReg.2 = true := by rw [h.rxReg]; rfl
      obtain ⟨hidle, -, hen, herr⟩ := receive_idle divisorRx (h.waiting Nat.zero_lt_two) hreg (s.tx.tx i.data)
      exact ⟨hen, herr, fun _ => hidle, fun u hu => by omega⟩
    | 1, h, _ =>
      have hidle := h.waiting Nat.one_lt_two
      have hreg : s.rx.rxReg = (true, false) := by
        rw [h.rxReg, seen, seen, if_pos rfl, if_neg Nat.one_ne_zero, Nat.sub_self, Nat.zero_div]
        rfl
      refine ⟨by rw [Receive.enable, hidle]; rfl, by rw [Receive.error, hidle]; rfl, fun hno => by omega, fun u hu => ?_⟩
      obtain rfl : u = 0 := by omega
      exact receive_start hD hclose.two_le hidle hreg _
    | u + 2, h, he =>
      have hbit (q : ℕ) (hq : q < 8) (hu : u + 1 = (q + 1) * D + mid D) : s.rx.rxReg.2 = b.getLsbD q := by
        rw [h.rxReg]
        show seen T b (u + 2) = b.getLsbD q
        rw [seen, if_neg (Nat.succ_ne_zero (u + 1)), show u + 2 - 1 = (q + 1) * D + mid D from hu,
          hclose.sample_div (by omega) (by omega), frameBit, if_pos hq]
      have hbefore : u + 1 < 9 * D + mid D := by
        rw [reportAt] at he
        omega
      obtain ⟨hnext, hen, herr⟩ := (h.receiving u rfl).step hD hclose.two_le hbefore hbit (s.tx.tx i.data)
      refine ⟨hen, herr, fun hno => by omega, fun u' hu' => ?_⟩
      obtain rfl : u' = u + 1 := by omega
      exact hnext
  obtain ⟨hen, herr, hwaiting, hreceiving⟩ := hrx
  simp only [hen, herr, hpending, Bool.false_eq_true, if_false, Option.isNone_some, Bool.and_false]
  refine ⟨trivial, trivial, he, fun hlt' => ?_, fun heq => ?_, hwaiting, hreceiving, ?_, h.handed⟩
  · obtain ⟨hat', hdone⟩ := hat.step hT hclose.pos hlt' i.enable
    refine ⟨hat', ?_⟩
    simp [henable, hdone, hdata]
  · obtain ⟨hidle, hdone⟩ := hat.finish divisorTx heq i.enable
    refine ⟨hidle, ?_⟩
    simp [hdone]
  · show (s.rx.next divisorRx false (s.tx.tx i.data)).rxReg = (seen T b e, seen T b (e + 1))
    rw [receive_rxReg, h.rxReg, hline]
    rfl

/-- The byte is reported; the transmitter is in the rest of the stop bit, or it is idle and may begin the next byte. -/
theorem Frame.report (hT : divisorTx.toNat = T) (hD : divisorRx.toNat = D) (hclose : Close D T)
    (h : Frame D T (reportAt D) b s) (hstep : Link.step divisorTx divisorRx s i = some s') :
    s'.errors = s.errors ∧ s'.reported = s.reported ++ [b] ∧
      (Quiet s' ∨ (∃ b', Frame D T 0 b' s') ∨ Rest D T (reportAt D + 1) b s') := by
  obtain ⟨hguard, rfl⟩ := link_step_eq hstep
  have hline := h.line hclose hguard
  rw [hclose.line_high (Nat.le_succ _)] at hline
  have hseen : s.rx.rxReg.2 = true := by
    rw [h.rxReg]
    show seen T b (reportAt D) = true
    rw [seen, reportAt, if_neg (Nat.succ_ne_zero _), Nat.add_sub_cancel]
    exact hclose.line_high le_rfl b
  have hmid := mid_pos hclose.two_le
  obtain ⟨u, hu⟩ : ∃ u, reportAt D = u + 2 := ⟨9 * D + mid D - 1, by rw [reportAt]; omega⟩
  have hbefore : u + 1 = 9 * D + mid D := by
    rw [reportAt] at hu
    omega
  obtain ⟨hidle, hen, herr, hdata⟩ := (h.receiving u hu).report hD hclose.two_le hbefore hseen (s.tx.tx i.data)
  have hreg : (s.rx.next divisorRx false (s.tx.tx i.data)).rxReg = (true, true) := by rw [receive_rxReg, hseen, hline]
  simp only [hen, herr, if_true, Bool.false_eq_true, if_false, hdata]
  refine ⟨trivial, trivial, ?_⟩
  obtain hlt | heq := hclose.reportAt_le.lt_or_eq
  · obtain ⟨hat, hpending⟩ := h.sending hlt
    obtain ⟨henable, hbyte⟩ := hguard b hpending
    obtain hlt' | heq' : reportAt D + 1 < 10 * T ∨ reportAt D + 1 = 10 * T := by omega
    · obtain ⟨hat', hdone⟩ := hat.step hT hclose.pos hlt' i.enable
      refine .inr (.inr ⟨Nat.lt_succ_self _, ⟨hlt', hat', ?_⟩, hidle, hreg, ?_⟩)
      · simp [henable, hdone, hbyte]
      · simp [hpending, h.handed]
    · obtain ⟨htx, hdone⟩ := hat.finish divisorTx heq' i.enable
      refine .inl ⟨htx, hidle, hreg, ?_, ?_⟩
      · simp [hdone]
      · simp [hpending, h.handed]
  · obtain ⟨htx, hpending⟩ := h.sent heq
    have hdone : s.tx.done = false := by rw [Transmit.done, htx]; rfl
    have hpos := hclose.pos
    cases henable : i.enable with
    | false =>
      refine .inl ⟨(transmit_idle htx).1, hidle, hreg, ?_, ?_⟩
      · simp
      · simp [h.handed]
    | true =>
      refine .inr (.inl ⟨i.data, Nat.zero_le _, fun _ => ⟨transmit_start hT hpos htx, ?_⟩, fun heq => by omega,
        fun _ => hidle, fun u hu => by omega, hreg, ?_⟩)
      · simp [hdone]
      · simp [hpending, h.handed]

theorem Rest.step (hT : divisorTx.toNat = T) (hclose : Close D T) (h : Rest D T e b s)
    (hstep : Link.step divisorTx divisorRx s i = some s') :
    s'.errors = s.errors ∧ s'.reported = s.reported ∧ (Quiet s' ∨ Rest D T (e + 1) b s') := by
  obtain ⟨hguard, rfl⟩ := link_step_eq hstep
  obtain ⟨hlt, hat, hpending⟩ := h.sending
  obtain ⟨henable, hdata⟩ := hguard b hpending
  have hline : s.tx.tx i.data = true := by
    rw [hdata, hat.tx, hclose.line_high (h.lt.le.trans (Nat.le_succ e))]
  have hreg : s.rx.rxReg.2 = true := by rw [h.rxReg]
  obtain ⟨hidle, hreg', hen, herr⟩ := receive_idle divisorRx h.rx hreg (s.tx.tx i.data)
  rw [hline] at hidle hreg'
  simp only [hen, herr, hpending, hline, Bool.false_eq_true, if_false, Option.isNone_some, Bool.and_false]
  refine ⟨trivial, trivial, ?_⟩
  obtain hlt' | heq : e + 1 < 10 * T ∨ e + 1 = 10 * T := by omega
  · obtain ⟨hat', hdone⟩ := hat.step hT hclose.pos hlt' i.enable
    exact .inr ⟨h.lt.trans (Nat.lt_succ_self e), ⟨hlt', hat', by simp [henable, hdone, hdata]⟩, hidle, hreg', h.handed⟩
  · obtain ⟨htx, hdone⟩ := hat.finish divisorTx heq i.enable
    exact .inl ⟨htx, hidle, hreg', by simp [hdone], h.handed⟩

/-- One cycle keeps the invariant, and nothing that was reported changes. -/
theorem LinkInv.step (hT : divisorTx.toNat = T) (hD : divisorRx.toNat = D) (hclose : Close D T) (h : LinkInv D T s)
    (hstep : Link.step divisorTx divisorRx s i = some s') : LinkInv D T s' ∧ s.reported <+: s'.reported := by
  obtain ⟨herrors, hquiet | ⟨e, b, hframe⟩ | ⟨e, b, hrest⟩⟩ := h
  · obtain ⟨herr, hreported, hnext⟩ := hquiet.step hT hclose hstep
    refine ⟨⟨herr.trans herrors, ?_⟩, hreported ▸ List.prefix_refl _⟩
    exact hnext.imp_right fun ⟨b, hb⟩ => .inl ⟨0, b, hb⟩
  · obtain hlt | rfl := hframe.le.lt_or_eq
    · obtain ⟨herr, hreported, hnext⟩ := hframe.step hT hD hclose hlt hstep
      exact ⟨⟨herr.trans herrors, .inr (.inl ⟨e + 1, b, hnext⟩)⟩, hreported ▸ List.prefix_refl _⟩
    · obtain ⟨herr, hreported, hnext⟩ := hframe.report hT hD hclose hstep
      refine ⟨⟨herr.trans herrors, ?_⟩, hreported ▸ List.prefix_append _ _⟩
      obtain hq | ⟨b', hb'⟩ | hr := hnext
      · exact .inl hq
      · exact .inr (.inl ⟨0, b', hb'⟩)
      · exact .inr (.inr ⟨_, b, hr⟩)
  · obtain ⟨herr, hreported, hnext⟩ := hrest.step hT hclose hstep
    refine ⟨⟨herr.trans herrors, ?_⟩, hreported ▸ List.prefix_refl _⟩
    exact hnext.imp_right fun hr => .inr ⟨e + 1, b, hr⟩

theorem LinkInv.reported (h : LinkInv D T s) : s.reported <+: s.handed := by
  obtain ⟨-, hquiet | ⟨e, b, hframe⟩ | ⟨e, b, hrest⟩⟩ := h
  · rw [hquiet.handed]
  · rw [hframe.handed]
    exact List.prefix_append _ _
  · rw [hrest.handed]

/-- The bytes `bytes` have been reported, or the last of them is in a frame and is reported within `k` cycles. -/
def Due (D T k : ℕ) (bytes : List (BitVec 8)) (s : Link) : Prop :=
  bytes <+: s.reported ∨ ∃ e b, Frame D T e b s ∧ bytes = s.reported ++ [b] ∧ reportAt D < e + k

theorem LinkInv.due (hclose : Close D T) (h : LinkInv D T s) : Due D T (10 * T + 1) s.handed s := by
  obtain ⟨-, hquiet | ⟨e, b, hframe⟩ | ⟨e, b, hrest⟩⟩ := h
  · exact .inl (by rw [hquiet.handed])
  · have hle := hclose.reportAt_le
    exact .inr ⟨e, b, hframe, hframe.handed, by omega⟩
  · exact .inl (by rw [hrest.handed])

theorem Due.step (hT : divisorTx.toNat = T) (hD : divisorRx.toNat = D) (hclose : Close D T) {k : ℕ} {bytes : List (BitVec 8)}
    (hinv : LinkInv D T s) (h : Due D T (k + 1) bytes s) (hstep : Link.step divisorTx divisorRx s i = some s') :
    Due D T k bytes s' := by
  obtain hdone | ⟨e, b, hframe, rfl, hk⟩ := h
  · exact .inl (hdone.trans (hinv.step hT hD hclose hstep).2)
  · obtain hlt | rfl := hframe.le.lt_or_eq
    · obtain ⟨-, hreported, hnext⟩ := hframe.step hT hD hclose hlt hstep
      exact .inr ⟨e + 1, b, hnext, by rw [hreported], by omega⟩
    · obtain ⟨-, hreported, -⟩ := hframe.report hT hD hclose hstep
      exact .inl (by rw [hreported])

theorem Due.run (hT : divisorTx.toNat = T) (hD : divisorRx.toNat = D) (hclose : Close D T) {k : ℕ} {bytes : List (BitVec 8)}
    {is : List LinkIn} (hinv : LinkInv D T s) (h : Due D T k bytes s) (hk : k ≤ is.length)
    (hrun : runFrom (Link.step divisorTx divisorRx) s is = some s') : bytes <+: s'.reported := by
  induction is generalizing s k with
  | nil =>
    obtain rfl := Option.some.inj hrun
    obtain hdone | ⟨e, b, hframe, -, hlt⟩ := h
    · exact hdone
    · have hle := hframe.le
      rw [List.length_nil] at hk
      omega
  | cons i is ih =>
    obtain ⟨u, hstep, hrest⟩ := (runFrom_cons_eq_some _).mp hrun
    have hinv' := (hinv.step hT hD hclose hstep).1
    cases k with
    | zero =>
      obtain hdone | ⟨e, b, hframe, -, hlt⟩ := h
      · exact ih hinv' (.inl (hdone.trans (hinv.step hT hD hclose hstep).2)) (Nat.zero_le _) hrest
      · have hle := hframe.le
        omega
    | succ k => exact ih hinv' (h.step hT hD hclose hinv hstep) (Nat.le_of_succ_le_succ hk) hrest

theorem linkInv_reset (divisorTx divisorRx : BitVec 32) (tx : Transmit) (enable : Bool) (rx : Receive) :
    LinkInv D T (Link.reset divisorTx divisorRx tx enable rx) :=
  ⟨rfl, .inl ⟨rfl, rfl, rfl, rfl, rfl⟩⟩

end Frames

/-- With divisors that differ by two per cent at most, there is never an error, the bytes that are reported are
those handed to the transmitter, and each is reported at the latest 10 bits and a cycle after it was handed over. -/
theorem line_coding {divisorTx divisorRx : BitVec 32} (hD : 2 ≤ divisorRx.toNat)
    (hT : 50 * |(divisorTx.toNat : ℤ) - divisorRx.toNat| ≤ divisorRx.toNat) (tx : Transmit) (enable : Bool) (rx : Receive)
    {is : List LinkIn} {s : Link}
    (hrun : runFrom (Link.step divisorTx divisorRx) (Link.reset divisorTx divisorRx tx enable rx) is = some s) :
    s.errors = 0 ∧ s.reported <+: s.handed ∧ ∀ js s', runFrom (Link.step divisorTx divisorRx) s js = some s' →
      10 * divisorTx.toNat < js.length → s.handed <+: s'.reported := by
  have hclose : Close divisorRx.toNat divisorTx.toNat := by
    have hlo := neg_abs_le ((divisorTx.toNat : ℤ) - divisorRx.toNat)
    have hup := le_abs_self ((divisorTx.toNat : ℤ) - divisorRx.toNat)
    exact ⟨hD, by omega, by omega⟩
  have hinv : LinkInv divisorRx.toNat divisorTx.toNat s := by
    have hstable : Stable (Link.step divisorTx divisorRx) (LinkInv divisorRx.toNat divisorTx.toNat) :=
      fun s i s' h hstep => (h.step rfl rfl hclose hstep).1
    exact hstable.run (linkInv_reset divisorTx divisorRx tx enable rx) hrun
  exact ⟨hinv.1, hinv.reported, fun js s' hjs hlen => (hinv.due hclose).run rfl rfl hclose hinv hlen hjs⟩

/-- Registers with any value. -/
def transmit0 : Transmit := ⟨.bits, 5, 3⟩

def receive0 : Receive := ⟨.stop, 7, 1, (false, true), 0⟩

/-- With 51 cycles a bit at the transmitter and 50 at the receiver, the limit of the tolerance: one byte, and the first
cycle of another one. -/
def handedOver : List LinkIn := List.replicate 511 ⟨true, 0xa5⟩ ++ [⟨true, 0x3c⟩]

def heldAndDone : List LinkIn := List.replicate 510 ⟨true, 0x3c⟩ ++ [⟨false, 0⟩]

theorem two_bytes_coding : ∃ s s', runFrom (Link.step 51 50) (Link.reset 51 50 transmit0 false receive0) handedOver = some s ∧
    runFrom (Link.step 51 50) s heldAndDone = some s' ∧ s.handed = [0xa5, 0x3c] ∧ s'.errors = 0 ∧
    s.handed <+: s'.reported ∧ s'.reported <+: s'.handed := by
  obtain ⟨s, hs, hhanded⟩ : ∃ s ∈ runFrom (Link.step 51 50) (Link.reset 51 50 transmit0 false receive0) handedOver,
      s.handed = [0xa5, 0x3c] := by
    decide +kernel
  obtain ⟨s', hboth⟩ : ∃ s', runFrom (Link.step 51 50) (Link.reset 51 50 transmit0 false receive0)
      (handedOver ++ heldAndDone) = some s' :=
    Option.isSome_iff_exists.mp (by decide +kernel)
  have hs' : runFrom (Link.step 51 50) s heldAndDone = some s' := by
    obtain ⟨t, ht, hrest⟩ := runFrom_append_eq_some.mp hboth
    obtain rfl : t = s := Option.some.inj (ht.symm.trans hs)
    exact hrest
  have hD : 2 ≤ (50#32).toNat := by decide
  have hT : 50 * |((51#32).toNat : ℤ) - (50#32).toNat| ≤ (50#32).toNat := by decide
  obtain ⟨-, -, hdue⟩ := line_coding hD hT transmit0 false receive0 hs
  obtain ⟨herrors, hreported, -⟩ := line_coding hD hT transmit0 false receive0 hboth
  have hlength : heldAndDone.length = 511 := by
    rw [heldAndDone, List.length_append, List.length_replicate]
    rfl
  exact ⟨s, s', hs, hs', hhanded, herrors, hdue _ s' hs' (hlength ▸ by decide), hreported⟩

end GlipOsd.Uart
