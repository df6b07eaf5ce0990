import Mathlib.Data.Nat.Digits.Lemmas
import Mathlib.Tactic

/-! # The throughput display

`glip_measure` counts triggers in a row of `bcdcounter`s, whose carries are registers: a carry reaches the next digit a
cycle later. When a period is over the upper digits are sampled and the counters start again. The lowest of the digits
that are to be sampled is not connected.
-/

namespace GlipOsd.Measure
set_option autoImplicit false

/-! ## A digit -/

structure Bcdcounter where
  count : BitVec 4
  carryOut : Bool
  deriving DecidableEq

def Bcdcounter.next (c : Bcdcounter) (rst : Bool) (carryIn : BitVec 4) : Bcdcounter :=
  let sum : BitVec 5 := c.count.setWidth 5 + carryIn.setWidth 5
  if rst then ⟨0, false⟩
  else if 9 < sum then ⟨(sum - 10).setWidth 4, true⟩
  else ⟨sum.setWidth 4, false⟩

theorem Bcdcounter.next_spec {c : Bcdcounter} (hc : c.count.toNat ≤ 9) {carryIn : BitVec 4} (hin : carryIn.toNat ≤ 10) :
    (c.next false carryIn).count.toNat ≤ 9 ∧
      (c.next false carryIn).count.toNat + 10 * (c.next false carryIn).carryOut.toNat = c.count.toNat + carryIn.toNat := by
  have hsum : (c.count.setWidth 5 + carryIn.setWidth 5).toNat = c.count.toNat + carryIn.toNat := by
    rw [BitVec.toNat_add, BitVec.toNat_setWidth, BitVec.toNat_setWidth]
    omega
  unfold next
  dsimp only
  generalize c.count.setWidth 5 + carryIn.setWidth 5 = sum at hsum
  have hten : (10 : BitVec 5).toNat = 10 := rfl
  have hlt : 9 < sum ↔ 9 < c.count.toNat + carryIn.toNat := by
    rw [BitVec.lt_def, hsum]
    exact Iff.rfl
  rw [if_neg Bool.false_ne_true]
  split_ifs with h
  · rw [hlt] at h
    simp only [BitVec.toNat_setWidth, BitVec.toNat_sub, hsum, hten, Bool.toNat_true]
    omega
  · rw [hlt] at h
    simp only [BitVec.toNat_setWidth, hsum, Bool.toNat_false]
    omega

/-! ## The row of counters -/

/-- The counters of the lower digits first. Each gets the carry register of the one before. -/
def nextCounters (rst : Bool) (carryIn : BitVec 4) : List Bcdcounter → List Bcdcounter
  | [] => []
  | c :: cs => c.next rst carryIn :: nextCounters rst (0#3 ++ BitVec.ofBool c.carryOut) cs

@[simp] theorem length_nextCounters (rst : Bool) (carryIn : BitVec 4) (cs : List Bcdcounter) :
    (nextCounters rst carryIn cs).length = cs.length := by
  induction cs generalizing carryIn with
  | nil => rfl
  | cons c cs ih => rw [nextCounters, List.length_cons, ih, List.length_cons]

/-- What the counters stand for, together with the carries that are under way. -/
def number : List Bcdcounter → ℕ
  | [] => 0
  | c :: cs => c.count.toNat + 10 * (c.carryOut.toNat + number cs)

/-- The counters hold digits, and stand for `n` up to what has left the last one. -/
structure Counts (cs : List Bcdcounter) (n : ℕ) : Prop where
  digit : ∀ c ∈ cs, c.count.toNat ≤ 9
  number : number cs ≡ n [MOD 10 ^ cs.length]

theorem toNat_carry (b : Bool) : (0#3 ++ BitVec.ofBool b).toNat = b.toNat := by cases b <;> rfl

theorem counts_reset (carryIn : BitVec 4) (cs : List Bcdcounter) : Counts (nextCounters true carryIn cs) 0 := by
  induction cs generalizing carryIn with
  | nil => exact ⟨fun c hc => absurd hc List.not_mem_nil, rfl⟩
  | cons c cs ih =>
    have hrest := ih (0#3 ++ BitVec.ofBool c.carryOut)
    have hhead : c.next true carryIn = ⟨0, false⟩ := rfl
    have htail := hrest.number.mul_left' 10
    refine ⟨List.forall_mem_cons.mpr ⟨Nat.zero_le 9, hrest.digit⟩, ?_⟩
    rw [nextCounters, hhead, GlipOsd.Measure.number, List.length_cons, pow_succ']
    simpa using htail

/-- What enters is added, whatever digit the carries are at. -/
theorem nextCounters_spec {cs : List Bcdcounter} (hdigit : ∀ c ∈ cs, c.count.toNat ≤ 9) {carryIn : BitVec 4}
    (hin : carryIn.toNat ≤ 10) :
    (∀ c ∈ nextCounters false carryIn cs, c.count.toNat ≤ 9) ∧
      number (nextCounters false carryIn cs) ≡ number cs + carryIn.toNat [MOD 10 ^ cs.length] := by
  induction cs generalizing carryIn with
  | nil => exact ⟨fun c hc => absurd hc List.not_mem_nil, Nat.modEq_one⟩
  | cons c cs ih =>
    rw [List.forall_mem_cons] at hdigit
    obtain ⟨hle, hsum⟩ := Bcdcounter.next_spec hdigit.1 hin
    have hcarry : (0#3 ++ BitVec.ofBool c.carryOut).toNat ≤ 10 := by
      rw [toNat_carry]
      exact (Bool.toNat_le _).trans (by norm_num)
    obtain ⟨hrest, hnumber⟩ := ih hdigit.2 hcarry
    rw [toNat_carry] at hnumber
    have htail := hnumber.mul_left' 10
    refine ⟨List.forall_mem_cons.mpr ⟨hle, hrest⟩, ?_⟩
    rw [nextCounters, number, number, List.length_cons, pow_succ']
    -- the new carry of the first digit is still under way, the old one has got to the second
    calc (c.next false carryIn).count.toNat + 10 * ((c.next false carryIn).carryOut.toNat +
            number (nextCounters false (0#3 ++ BitVec.ofBool c.carryOut) cs))
        = c.count.toNat + carryIn.toNat + 10 * number (nextCounters false (0#3 ++ BitVec.ofBool c.carryOut) cs) := by
          omega
      _ ≡ c.count.toNat + carryIn.toNat + 10 * (number cs + c.carryOut.toNat) [MOD 10 * 10 ^ cs.length] :=
          htail.add_left _
      _ = c.count.toNat + 10 * (c.carryOut.toNat + number cs) + carryIn.toNat := by ring

theorem Counts.next {cs : List Bcdcounter} {n : ℕ} (h : Counts cs n) {carryIn : BitVec 4} (hin : carryIn.toNat ≤ 10) :
    Counts (nextCounters false carryIn cs) (n + carryIn.toNat) := by
  obtain ⟨hdigit, hnumber⟩ := nextCounters_spec h.digit hin
  refine ⟨hdigit, ?_⟩
  rw [length_nextCounters]
  exact hnumber.trans (h.number.add_right _)

/-- No carry is on its way to another digit. -/
def Settled (cs : List Bcdcounter) : Prop := ∀ c ∈ cs.dropLast, c.carryOut = false

instance (cs : List Bcdcounter) : Decidable (Settled cs) := inferInstanceAs (Decidable (∀ c ∈ cs.dropLast, _))

theorem number_of_settled {cs : List Bcdcounter} (h : Settled cs) :
    number cs ≡ Nat.ofDigits 10 (cs.map fun c => c.count.toNat) [MOD 10 ^ cs.length] := by
  induction cs with
  | nil => rfl
  | cons c cs ih =>
    rw [number, List.map_cons, Nat.ofDigits_cons, List.length_cons, pow_succ']
    cases cs with
    | nil =>
      refine Nat.ModEq.add_left _ ?_
      rw [List.length_nil, pow_zero, mul_one, List.map_nil, Nat.ofDigits_nil]
      exact Nat.modEq_zero_iff_dvd.mpr (dvd_mul_right 10 _)
    | cons d ds =>
      have hsplit : ∀ e ∈ c :: (d :: ds).dropLast, e.carryOut = false := h
      rw [List.forall_mem_cons] at hsplit
      have htail := (ih hsplit.2).mul_left' 10
      rw [hsplit.1, Bool.toNat_false, zero_add]
      exact htail.add_left _

theorem ofDigits_digit {ds : List ℕ} (hds : ∀ d ∈ ds, d < 10) {k : ℕ} (hk : k < ds.length) :
    Nat.ofDigits 10 ds / 10 ^ k % 10 = ds[k] := by
  induction ds generalizing k with
  | nil => exact absurd hk (Nat.not_lt_zero k)
  | cons d ds ih =>
    rw [List.forall_mem_cons] at hds
    rw [Nat.ofDigits_cons]
    cases k with
    | zero =>
      rw [pow_zero, Nat.div_one, List.getElem_cons_zero]
      omega
    | succ k =>
      have hrest : (d + 10 * Nat.ofDigits 10 ds) / 10 = Nat.ofDigits 10 ds := by omega
      rw [pow_succ', ← Nat.div_div_eq_div_mul, hrest, List.getElem_cons_succ]
      exact ih hds.2 (Nat.lt_of_succ_lt_succ hk)

/-- Once the carries are settled, the counters hold the digits of the number. -/
theorem Counts.digit_eq {cs : List Bcdcounter} {n : ℕ} (h : Counts cs n) (hs : Settled cs) {k : ℕ}
    (hk : k < cs.length) : cs[k].count.toNat = n % 10 ^ cs.length / 10 ^ k % 10 := by
  have hdigits : ∀ d ∈ cs.map fun c => c.count.toNat, d < 10 := by
    intro d hd
    obtain ⟨c, hc, rfl⟩ := List.mem_map.mp hd
    exact Nat.lt_succ_of_le (h.digit c hc)
  have hlt := Nat.ofDigits_lt_base_pow_length (by norm_num) hdigits
  rw [List.length_map] at hlt
  have heq : Nat.ofDigits 10 (cs.map fun c => c.count.toNat) = n % 10 ^ cs.length := by
    rw [← Nat.mod_eq_of_lt hlt]
    exact (number_of_settled hs).symm.trans h.number
  rw [← heq, ofDigits_digit hdigits (by rwa [List.length_map]), List.getElem_map]

/-! ## The module -/

structure Params where
  freq : BitVec 32
  digits : ℕ
  offset : ℕ
  step : BitVec 4

namespace Params
variable (p : Params)

/-- Total number of digits. -/
def total : ℕ := p.digits + p.offset

end Params

/-- The registers. A digit is `none` while its bits have no value. -/
structure GlipMeasure (p : Params) where
  digits : List (Option (BitVec 4))
  overflow : Bool
  count : BitVec 32
  counters : List Bcdcounter
  length_counters : counters.length = p.total

/-- `undriven` is what bits of a net without a driver are read as; `none` for high impedance. -/
structure Input where
  rst : Bool
  trigger : Bool
  undriven : Option (BitVec 4)

namespace GlipMeasure
variable {p : Params} (s : GlipMeasure p)

/-- Sample on reset or whenever we counted down. -/
def sample (rst : Bool) : Bool := rst || s.count == 0

/-- In the generate block, digit `i - OFFSET` is assigned for every `i > OFFSET`. -/
def sampleDigits (undriven : Option (BitVec 4)) : List (Option (BitVec 4)) :=
  (List.range p.digits).map fun k =>
    if p.offset < p.offset + k then s.counters[p.offset + k]?.map (·.count) else undriven

/-- `carry[TOTAL-1]`. -/
def lastCarry : Bool := (s.counters.getD (p.total - 1) ⟨0, false⟩).carryOut

def next (i : Input) : GlipMeasure p where
  digits := if s.sample i.rst then s.sampleDigits i.undriven else s.digits
  overflow := if s.sample i.rst then s.lastCarry else s.overflow
  count := if i.rst then p.freq else if s.count == 0 then p.freq else s.count - 1
  counters := nextCounters (s.sample i.rst) (if i.trigger then p.step else 0) s.counters
  length_counters := by rw [length_nextCounters, s.length_counters]

theorem next_counters (i : Input) : (s.next i).counters =
    nextCounters (s.sample i.rst) (if i.trigger then p.step else 0) s.counters := rfl

theorem next_count (i : Input) : (s.next i).count =
    if i.rst then p.freq else if s.count == 0 then p.freq else s.count - 1 := rfl

theorem next_digits (i : Input) : (s.next i).digits =
    if s.sample i.rst then s.sampleDigits i.undriven else s.digits := rfl

end GlipMeasure

/-! ## A period -/

/-- `Period ts s`: since the last sampling there have been cycles with the triggers `ts`, and now the registers are `s`.
In a cycle that samples the counters are reset, and its trigger is in no period. -/
inductive Period {p : Params} : List Bool → GlipMeasure p → Prop
  | sampled {s : GlipMeasure p} {i : Input} (h : s.sample i.rst = true) : Period [] (s.next i)
  | cycle {ts : List Bool} {s : GlipMeasure p} {i : Input} (h : Period ts s) (hi : s.sample i.rst = false) :
      Period (ts ++ [i.trigger]) (s.next i)

/-- STEP for each trigger. -/
def counted (p : Params) (ts : List Bool) : ℕ := p.step.toNat * ts.count true

/-- Decimal digit number `k` of the count, which is taken modulo the range of the counters. -/
def decimalDigit (p : Params) (ts : List Bool) (k : ℕ) : ℕ := counted p ts % 10 ^ p.total / 10 ^ k % 10

/-- The display shows the digits from number OFFSET on, which are all in 0..9. -/
def Shows {p : Params} (s : GlipMeasure p) (ts : List Bool) : Prop :=
  ∀ k < p.digits, ∃ d : BitVec 4, s.digits[k]? = some (some d) ∧ d.toNat ≤ 9 ∧
    d.toNat = decimalDigit p ts (p.offset + k)

section Period
variable {p : Params} {ts : List Bool} {s : GlipMeasure p} {i : Input}

theorem Period.counts (hstep : p.step.toNat ≤ 10) (h : Period ts s) : Counts s.counters (counted p ts) := by
  induction h with
  | @sampled s i h =>
    rw [s.next_counters, h]
    exact counts_reset _ _
  | @cycle ts s i h hi ih =>
    have hin : (if i.trigger then p.step else 0).toNat ≤ 10 := by
      split_ifs
      · exact hstep
      · exact Nat.zero_le 10
    have hcount : counted p (ts ++ [i.trigger]) = counted p ts + (if i.trigger then p.step else 0).toNat := by
      unfold counted
      cases i.trigger <;> simp [mul_add]
    rw [s.next_counters, hi, hcount]
    exact ih.next hin

/-- Without a reset a period has FREQ cycles, and one that samples. -/
theorem Period.length_eq (h : Period ts s) : ts.length + s.count.toNat = p.freq.toNat := by
  induction h with
  | @sampled s i h =>
    have hcount : (s.next i).count = p.freq := by
      rw [GlipMeasure.sample, Bool.or_eq_true] at h
      rw [s.next_count]
      rcases h with h | h
      · rw [if_pos h]
      · rw [if_pos h, ite_self]
    rw [hcount, List.length_nil, zero_add]
  | @cycle ts s i h hi ih =>
    obtain ⟨hrst, hne⟩ := Bool.or_eq_false_iff.mp hi
    have hcount : (s.next i).count = s.count - 1 := by
      rw [s.next_count, hrst, hne]
      rfl
    have hpos : s.count.toNat ≠ 0 := fun hc => by
      rw [beq_eq_false_iff_ne] at hne
      exact hne (BitVec.eq_of_toNat_eq hc)
    rw [hcount, List.length_append, List.length_singleton, BitVec.toNat_sub_of_le]
    · have hone : (1 : BitVec 32).toNat = 1 := rfl
      omega
    · rw [BitVec.le_def]
      exact Nat.one_le_iff_ne_zero.mpr hpos

/-- The triggers of a period may be any. -/
theorem Period.cycles (h : Period ts s) (is : List Input) (hrst : ∀ i ∈ is, i.rst = false)
    (hle : ts.length + is.length ≤ p.freq.toNat) :
    Period (ts ++ is.map Input.trigger) (is.foldl GlipMeasure.next s) := by
  induction is generalizing ts s with
  | nil => rwa [List.map_nil, List.append_nil]
  | cons i is ih =>
    rw [List.forall_mem_cons] at hrst
    rw [List.length_cons] at hle
    have hlen := h.length_eq
    have hne : s.count ≠ 0 := fun hc => by
      have hzero : s.count.toNat = 0 := congrArg BitVec.toNat hc
      omega
    have hi : s.sample i.rst = false := by
      rw [GlipMeasure.sample, hrst.1, Bool.false_or, beq_eq_false_iff_ne]
      exact hne
    have hrest := ih (h.cycle hi) hrst.2 (by rw [List.length_append, List.length_singleton]; omega)
    rw [List.map_cons, List.foldl_cons]
    rwa [List.append_assoc] at hrest

theorem GlipMeasure.sampled_digit (hi : s.sample i.rst = true) {k : ℕ} (hk : k < p.digits) :
    (s.next i).digits[k]? =
      some (if k = 0 then i.undriven else s.counters[p.offset + k]?.map (·.count)) := by
  rw [s.next_digits, if_pos hi, sampleDigits, List.getElem?_map, List.getElem?_range hk, Option.map_some]
  congr 1
  by_cases hzero : k = 0
  · rw [if_pos hzero, if_neg (by omega)]
  · rw [if_neg hzero, if_pos (by omega)]

/-- The digits above the lowest one are right. -/
theorem Period.digit_shown (hstep : p.step.toNat ≤ 10) (h : Period ts s) (hs : Settled s.counters)
    (hi : s.sample i.rst = true) {k : ℕ} (hk : k < p.digits) (hpos : k ≠ 0) :
    ∃ d : BitVec 4, (s.next i).digits[k]? = some (some d) ∧ d.toNat = decimalDigit p ts (p.offset + k) := by
  have hlen : p.offset + k < s.counters.length := by
    rw [s.length_counters, Params.total]
    omega
  refine ⟨s.counters[p.offset + k].count, ?_, ?_⟩
  · rw [s.sampled_digit hi hk, if_neg hpos, List.getElem?_eq_getElem hlen, Option.map_some]
  · rw [(h.counts hstep).digit_eq hs hlen, s.length_counters, decimalDigit]

/-- **The lowest digit is not connected.** When a period without carries under way is over, the display shows the
decimal count exactly if the bits of its lowest digit, which nothing drives, happen to be read as that digit. -/
theorem shows_iff_undriven (hdigits : 1 ≤ p.digits) (hstep : 1 ≤ p.step.toNat ∧ p.step.toNat ≤ 10)
    (h : Period ts s) (hs : Settled s.counters) (hi : s.sample i.rst = true) :
    Shows (s.next i) ts ↔ ∃ d : BitVec 4, i.undriven = some d ∧ d.toNat = decimalDigit p ts p.offset := by
  have hfirst : (s.next i).digits[0]? = some i.undriven := s.sampled_digit hi hdigits
  constructor
  · intro hshows
    obtain ⟨d, hd, -, hdigit⟩ := hshows 0 hdigits
    rw [hfirst, Option.some.injEq] at hd
    exact ⟨d, hd, hdigit⟩
  · rintro ⟨d, hd, hdigit⟩ k hk
    have hle (j : ℕ) : decimalDigit p ts j ≤ 9 := Nat.lt_succ_iff.mp (Nat.mod_lt _ (by norm_num))
    by_cases hzero : k = 0
    · subst hzero
      exact ⟨d, hd ▸ hfirst, hdigit ▸ hle _, hdigit⟩
    · obtain ⟨e, he, hdigit'⟩ := h.digit_shown hstep.2 hs hi hk hzero
      exact ⟨e, he, hdigit' ▸ hle _, hdigit'⟩

end Period

/-- Registers in which the next cycle samples. -/
def overdue (p : Params) : GlipMeasure p where
  digits := List.replicate p.digits none
  overflow := false
  count := 0
  counters := List.replicate p.total ⟨0, false⟩
  length_counters := List.length_replicate

/-- The registers behind a sampling and cycles with the triggers `ts`. -/
def behind (p : Params) (ts : List Bool) : GlipMeasure p :=
  (ts.map fun t => Input.mk false t none).foldl GlipMeasure.next ((overdue p).next ⟨false, false, none⟩)

theorem period_behind {p : Params} {ts : List Bool} (hle : ts.length ≤ p.freq.toNat) : Period ts (behind p ts) := by
  have hstart : Period [] ((overdue p).next ⟨false, false, none⟩) := .sampled rfl
  have hrst : ∀ i ∈ ts.map fun t => Input.mk false t none, i.rst = false := by
    intro i hi
    obtain ⟨t, -, rfl⟩ := List.mem_map.mp hi
    rfl
  have hcycles := hstart.cycles _ hrst (by rwa [List.length_nil, List.length_map, zero_add])
  have hts : [] ++ (ts.map fun t => Input.mk false t none).map Input.trigger = ts := by
    rw [List.nil_append, List.map_map]
    exact List.map_id ts
  rwa [hts] at hcycles

/-- Three triggers of 5 are shown as 01 behind the digit that is skipped, if the bits of the 1 are read as 1. -/
theorem fifteen_shown : Shows ((behind ⟨5, 2, 1, 5⟩ [true, true, true, false, false]).next ⟨false, true, some 1⟩)
      [true, true, true, false, false] :=
  (shows_iff_undriven (by decide) (by decide) (period_behind (by decide)) (by decide) rfl).mpr ⟨1, rfl, by decide⟩

/-- A display of one digit with STEP 1, without a skipped digit: one trigger is not shown. -/
theorem one_not_shown :
    Period [true, false] (behind ⟨2, 1, 0, 1⟩ [true, false]) ∧ Settled (behind ⟨2, 1, 0, 1⟩ [true, false]).counters ∧
      (behind ⟨2, 1, 0, 1⟩ [true, false]).sample false = true ∧
      ¬ Shows ((behind ⟨2, 1, 0, 1⟩ [true, false]).next ⟨false, false, none⟩) [true, false] := by
  refine ⟨period_behind (by decide), by decide, rfl, fun h => ?_⟩
  obtain ⟨d, hd, -⟩ := h 0 (by decide)
  have hnone : ((behind ⟨2, 1, 0, 1⟩ [true, false]).next ⟨false, false, none⟩).digits[0]? = some none := rfl
  rw [hnone] at hd
  cases hd

end GlipOsd.Measure
