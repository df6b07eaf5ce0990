import GlipOsd.Foundations.Bits
import GlipOsd.Jtag.InputFsm
import GlipOsd.Util

/-! # Discovery of the target's configuration

The finite state machine `glip_jtag_config_discovery_fsm`, which answers a first word of ones, and
`discover_targetconf`, which asks for that answer before it knows how long a word is. `confFsm` is the
combinational block, `step` the clocked one. `WORD_WIDTH` is `W`, and `NUM_WORDS` is `n`.
-/

namespace GlipOsd.Jtag.Discovery
open Bytes Memory OutputFsm Clocked
set_option autoImplicit false

inductive ConfigState
  | idle
  | sendWordWidth
  | sendBufferSize
  | waitForUpdate
  deriving DecidableEq, Repr

structure State (W : ℕ) where
  dataTransfer : Bool
  configDiscovery : Bool
  ctrlLogicRst : Bool
  configState : ConfigState
  bitCnt : BitVec W
  inReg : BitVec W
  deriving DecidableEq, Repr

/-- The inputs of one clock cycle; `rst` is not used by the source. -/
structure In where
  tdi : Bool
  shift : Bool
  update : Bool
  deriving DecidableEq, Repr

/-- The next registers and `config_discovery_tdo`. -/
def confFsm {W : ℕ} (n : ℕ) (s : State W) (i : In) : State W × Bool :=
  let s' := { s with ctrlLogicRst := false }
  match s.configState with
  | .idle =>
    (if i.shift then
      let inReg := setBit s.inReg s.bitCnt.toNat i.tdi
      if s.bitCnt.toNat = W - 1 then
        if concatTop i.tdi s.inReg = BitVec.allOnes W then
          { s' with bitCnt := 0, inReg, configState := .sendWordWidth, configDiscovery := true,
                    dataTransfer := false }
        else
          { s' with bitCnt := 0, inReg, configState := .waitForUpdate, configDiscovery := false,
                    dataTransfer := true }
      else { s' with bitCnt := s.bitCnt + 1#W, inReg, configDiscovery := false, dataTransfer := false }
    else s', false)
  | .sendWordWidth =>
    -- bit 0 of the side channel resets the logic
    let s' := { s' with
      configDiscovery := true, dataTransfer := false, ctrlLogicRst := decide (s.bitCnt = 0) && i.tdi }
    (if s.bitCnt.toNat = W - 1 then { s' with bitCnt := 0, configState := .sendBufferSize }
    else { s' with bitCnt := s.bitCnt + 1#W }, (BitVec.ofNat W W).getLsbD s.bitCnt.toNat)
  | .sendBufferSize =>
    let s' := { s' with configDiscovery := true, dataTransfer := false }
    (if s.bitCnt.toNat = W - 1 then { s' with bitCnt := 0, inReg := 0, configState := .waitForUpdate }
    else { s' with bitCnt := s.bitCnt + 1#W }, (BitVec.ofNat W n).getLsbD s.bitCnt.toNat)
  | .waitForUpdate => ({ s' with configState := if i.update then .idle else .waitForUpdate }, false)

/-- The registers after an `update`. -/
def reset (W : ℕ) : State W := ⟨false, false, false, .idle, 0, 0⟩

def step {W : ℕ} (n : ℕ) (s : State W) (i : In) : State W := if i.update then reset W else (confFsm n s i).1

def tdo {W : ℕ} (n : ℕ) (s : State W) (i : In) : Bool := (confFsm n s i).2

/-! ## The host -/

structure Targetconf where
  targetWordWidth : ℕ
  targetBufferSize : ℕ
  deriving DecidableEq, Repr

/-- The request of three words of 16 bits for the discovery and, with `sc`, for the side channel. -/
def ctrlReq (sc : ℕ) : List UInt8 := leBytes 2 0xFFFF ++ leBytes 2 sc ++ leBytes 2 0

/-- `discover_targetconf` with what `jtag_drscan` returns for a request: the value returned and the values
stored, or `none` if an assertion fails. -/
def discoverTargetconf (undef : ℕ → ℤ) (jtagDrscan : List UInt8 → ℤ × List UInt8) :
    Option (ℤ × Option Targetconf) :=
  let (rv, bytes) := jtagDrscan (ctrlReq 0)
  let resp (i : ℕ) := leValue (slice bytes (2 * i) 2)
  if rv ≠ 0 then some (rv, none)
  else if resp 1 = 0 ∨ resp 1 % 8 ≠ 0 then none
  else some (0, some ⟨resp 1 / 8, Util.toUint (Util.shiftOne undef (resp 2))⟩)

/-- The bits are shifted without a pause. -/
def scanIn (bs : List Bool) (t : ℕ) : In := ⟨bs.getD t false, true, false⟩

/-- A scan in which the state machine alone answers. -/
def drscan (W n : ℕ) (req : List UInt8) : ℤ × List UInt8 :=
  (0, bitsBytes (trace (step n) (tdo n) (reset W) (scanIn (bytesBits req)) 0 (8 * req.length)))

/-! ## A scan -/

section Scan
variable {W n t : ℕ} {x : BitVec W} {st : State W} {i : In}

/-- Behind `t` bits of a scan with the first word `x`. -/
inductive Phase (x : BitVec W) (st : State W) : ℕ → Prop
  | reading {k : ℕ} (hk : k < W) (state : st.configState = .idle) (cnt : st.bitCnt = BitVec.ofNat W k)
      (bits : ∀ j < k, st.inReg.getLsbD j = x.getLsbD j) : Phase x st k
  | wordWidth {k : ℕ} (hk : k < W) (state : st.configState = .sendWordWidth)
      (cnt : st.bitCnt = BitVec.ofNat W k) (ones : x = BitVec.allOnes W) : Phase x st (W + k)
  | bufferSize {k : ℕ} (hk : k < W) (state : st.configState = .sendBufferSize)
      (cnt : st.bitCnt = BitVec.ofNat W k) (ones : x = BitVec.allOnes W) : Phase x st (2 * W + k)
  | done {k : ℕ} (hk : W ≤ k) (state : st.configState = .waitForUpdate)
      (ones : x = BitVec.allOnes W → 3 * W ≤ k) : Phase x st k

theorem phase_reset (hW : 0 < W) : Phase x (reset W) 0 :=
  .reading hW rfl rfl fun j hj => absurd hj (Nat.not_lt_zero j)

theorem Phase.next (h : Phase x st t) (hupdate : i.update = false)
    (hbit : t < W → i.shift = true ∧ i.tdi = x.getLsbD t) : Phase x (step n st i) (t + 1) := by
  have hstep : step n st i = (confFsm n st i).1 := by
    rw [step, hupdate]
    rfl
  rw [hstep]
  cases h with
  | reading hk hstate hcnt hbits =>
    obtain ⟨hshift, htdi⟩ := hbit hk
    have hnat : st.bitCnt.toNat = t := by rw [hcnt, toNat_ofNat_of_lt hk]
    simp only [confFsm, hstate, hshift, if_true, hnat]
    split_ifs with hlast hones
    · -- the first word is complete
      have hx : concatTop i.tdi st.inReg = x := by
        rw [htdi, hlast]
        exact concatTop_eq (by omega) fun j hj => hbits j (by omega)
      have ht : t + 1 = W + 0 := by omega
      rw [ht]
      exact .wordWidth (by omega) rfl rfl (hx.symm.trans hones)
    · have hx : concatTop i.tdi st.inReg = x := by
        rw [htdi, hlast]
        exact concatTop_eq (by omega) fun j hj => hbits j (by omega)
      exact .done (by omega) rfl fun heq => absurd (hx.trans heq) hones
    · refine .reading (by omega) rfl ?_ ?_
      · show st.bitCnt + 1#W = _
        rw [hcnt, ofNat_succ]
      · show ∀ j < t + 1, (setBit st.inReg t i.tdi).getLsbD j = x.getLsbD j
        rw [htdi]
        exact getLsbD_setBit_of_agree hk hbits
  | @wordWidth k hk hstate hcnt hones =>
    have hnat : st.bitCnt.toNat = k := by rw [hcnt, toNat_ofNat_of_lt hk]
    simp only [confFsm, hstate, hnat]
    split_ifs with hlast
    · have ht : W + k + 1 = 2 * W + 0 := by omega
      rw [ht]
      exact .bufferSize (by omega) rfl rfl hones
    · rw [Nat.add_assoc]
      refine .wordWidth (by omega) rfl ?_ hones
      show st.bitCnt + 1#W = _
      rw [hcnt, ofNat_succ]
  | @bufferSize k hk hstate hcnt hones =>
    have hnat : st.bitCnt.toNat = k := by rw [hcnt, toNat_ofNat_of_lt hk]
    simp only [confFsm, hstate, hnat]
    split_ifs with hlast
    · exact .done (by omega) rfl fun _ => by omega
    · rw [Nat.add_assoc]
      refine .bufferSize (by omega) rfl ?_ hones
      show st.bitCnt + 1#W = _
      rw [hcnt, ofNat_succ]
  | done hk hstate hones =>
    simp only [confFsm, hstate, hupdate]
    exact .done (by omega) rfl fun heq => (hones heq).trans (Nat.le_succ t)

/-- The bits of the answer: nothing while the first word is read, then the two parameters. -/
def answer (n : ℕ) (x : BitVec W) : ℕ := if x = BitVec.allOnes W then 2 ^ W * (W + 2 ^ W * n) else 0

theorem Phase.tdo_eq (h : Phase x st t) (hn : n < 2 ^ W) : tdo n st i = (answer n x).testBit t := by
  have hW : W < 2 ^ W := Nat.lt_two_pow_self
  cases h with
  | reading hk hstate hcnt hbits =>
    have hlow : (2 ^ W * (W + 2 ^ W * n)).testBit t = false := by
      rw [Nat.testBit_two_pow_mul, decide_eq_false (by omega), Bool.false_and]
    simp only [tdo, confFsm, hstate, answer]
    split_ifs
    · exact hlow.symm
    · exact (Nat.zero_testBit t).symm
  | @wordWidth k hk hstate hcnt hones =>
    have hnat : st.bitCnt.toNat = k := by rw [hcnt, toNat_ofNat_of_lt hk]
    simp only [tdo, confFsm, hstate, hnat, answer, if_pos hones]
    rw [Nat.testBit_two_pow_mul, decide_eq_true (Nat.le_add_right W k), Bool.true_and, Nat.add_sub_cancel_left,
      Nat.add_comm, Nat.testBit_two_pow_mul_add _ hW, if_pos hk, BitVec.getLsbD_ofNat, decide_eq_true hk,
      Bool.true_and]
  | @bufferSize k hk hstate hcnt hones =>
    have hnat : st.bitCnt.toNat = k := by rw [hcnt, toNat_ofNat_of_lt hk]
    have hsub : 2 * W + k - W = W + k := by omega
    simp only [tdo, confFsm, hstate, hnat, answer, if_pos hones]
    rw [Nat.testBit_two_pow_mul, decide_eq_true (by omega), Bool.true_and, hsub, Nat.add_comm W (2 ^ W * n),
      Nat.testBit_two_pow_mul_add _ hW, if_neg (by omega), Nat.add_sub_cancel_left, BitVec.getLsbD_ofNat,
      decide_eq_true hk, Bool.true_and]
  | done hk hstate hones =>
    simp only [tdo, confFsm, hstate, answer]
    split_ifs with hx
    · have hsmall : n < 2 ^ (t - W - W) := hn.trans_le (Nat.pow_le_pow_right (by norm_num) (by
        have := hones hx
        omega))
      rw [Nat.testBit_two_pow_mul, decide_eq_true hk, Bool.true_and, Nat.add_comm W (2 ^ W * n),
        Nat.testBit_two_pow_mul_add _ hW, if_neg (by have := hones hx; omega), Nat.testBit_lt_two_pow hsmall]
    · exact (Nat.zero_testBit t).symm

/-- The reset of the logic is the first bit behind a word of ones. -/
theorem Phase.ctrlLogicRst_eq (h : Phase x st t) (hW : 0 < W) (hupdate : i.update = false) :
    (step n st i).ctrlLogicRst = (decide (x = BitVec.allOnes W ∧ t = W) && i.tdi) := by
  have hstep : step n st i = (confFsm n st i).1 := by
    rw [step, hupdate]
    rfl
  rw [hstep]
  cases h with
  | reading hk hstate hcnt hbits =>
    rw [decide_eq_false fun h => absurd h.2 hk.ne, Bool.false_and]
    simp only [confFsm, hstate]
    split_ifs <;> rfl
  | @wordWidth k hk hstate hcnt hones =>
    have hzero : st.bitCnt = 0 ↔ W + k = W := by
      rw [hcnt, ← BitVec.toNat_inj, toNat_ofNat_of_lt hk]
      simp
    have hdec : decide (st.bitCnt = 0) = decide (x = BitVec.allOnes W ∧ W + k = W) := by
      rw [decide_eq_decide, hzero]
      exact (and_iff_right hones).symm
    simp only [confFsm, hstate, hdec]
    split_ifs <;> rfl
  | @bufferSize k hk hstate hcnt hones =>
    rw [decide_eq_false (by omega), Bool.false_and]
    simp only [confFsm, hstate]
    split_ifs <;> rfl
  | done hk hstate hones =>
    have hne : ¬ (x = BitVec.allOnes W ∧ t = W) := by
      rintro ⟨hx, ht⟩
      have := hones hx
      omega
    rw [decide_eq_false hne, Bool.false_and]
    simp only [confFsm, hstate]

end Scan

theorem phase_scan {W n : ℕ} (hW : 0 < W) (bs : List Bool) (t : ℕ) :
    Phase (BitVec.ofNat W (bitValue bs)) (stateAt (step n) (reset W) (scanIn bs) t) t := by
  induction t with
  | zero => exact phase_reset hW
  | succ t ih =>
    rw [stateAt_succ (step n)]
    refine ih.next rfl fun ht => ⟨rfl, ?_⟩
    rw [BitVec.getLsbD_ofNat, decide_eq_true ht, Bool.true_and, testBit_bitValue]
    rfl

/-! ## What is discovered -/

theorem drscan_eq {W n : ℕ} (hW : 0 < W) (hn : n < 2 ^ W) (req : List UInt8) :
    drscan W n req = (0, leBytes req.length (answer n (BitVec.ofNat W (leValue req)))) := by
  have htrace : trace (step n) (tdo n) (reset W) (scanIn (bytesBits req)) 0 (8 * req.length) =
      bits (8 * req.length) (answer n (BitVec.ofNat W (leValue req))) := by
    apply trace_eq_map
    intro t _
    have hphase := phase_scan (n := n) hW (bytesBits req) (0 + t)
    rw [bitValue_bytesBits] at hphase
    rw [hphase.tdo_eq hn, Nat.zero_add]
  rw [drscan, htrace, bitsBytes_bits]

theorem leValue_ctrlReq {sc : ℕ} (hsc : sc < 2 ^ 16) : leValue (ctrlReq sc) = 0xFFFF + 2 ^ 16 * sc := by
  simp only [ctrlReq, leValue_append, leValue_leBytes, List.length_append, length_leBytes]
  omega

/-- All of the first word is ones as long as it is not longer than the host believes. -/
theorem first_word_ones {W sc : ℕ} (hW : 0 < W) (h : W ≤ 16) (hsc : sc < 2 ^ 16) :
    BitVec.ofNat W (leValue (ctrlReq sc)) = BitVec.allOnes W := by
  apply BitVec.eq_of_getLsbD_eq
  intro j hj
  rw [leValue_ctrlReq hsc, BitVec.getLsbD_ofNat, BitVec.getLsbD_allOnes, decide_eq_true hj, Bool.true_and,
    Nat.add_comm, Nat.testBit_two_pow_mul_add _ (by norm_num), if_pos (by omega)]
  show (2 ^ 16 - 1).testBit j = true
  rw [Nat.testBit_two_pow_sub_one, decide_eq_true (by omega)]

theorem first_word_not_ones {W : ℕ} (h : 16 < W) :
    BitVec.ofNat W (leValue (ctrlReq 0)) ≠ BitVec.allOnes W := by
  intro heq
  have hbit : (BitVec.ofNat W (leValue (ctrlReq 0))).getLsbD 16 = true := by
    rw [heq, BitVec.getLsbD_allOnes, decide_eq_true h]
  rw [leValue_ctrlReq (by norm_num), BitVec.getLsbD_ofNat, decide_eq_true h, Bool.true_and] at hbit
  exact absurd hbit (by decide)

theorem length_ctrlReq (sc : ℕ) : (ctrlReq sc).length = 6 := by
  simp only [ctrlReq, List.length_append, length_leBytes]

theorem discoverTargetconf_drscan (undef : ℕ → ℤ) {W n : ℕ} (hW : 0 < W) (hn : n < 2 ^ W) :
    discoverTargetconf undef (drscan W n) =
      let v := answer n (BitVec.ofNat W (leValue (ctrlReq 0)))
      if v / 2 ^ 16 % 2 ^ 16 = 0 ∨ v / 2 ^ 16 % 2 ^ 16 % 8 ≠ 0 then none
      else some (0, some ⟨v / 2 ^ 16 % 2 ^ 16 / 8, Util.toUint (Util.shiftOne undef (v / 2 ^ 32 % 2 ^ 16))⟩) := by
  have hword (i : ℕ) (hi : i ≤ 2) (v : ℕ) : leValue (slice (leBytes 6 v) (2 * i) 2) = v / 256 ^ (2 * i) % 256 ^ 2 := by
    rw [slice_leBytes _ (by omega), leValue_leBytes]
  simp only [discoverTargetconf, drscan_eq hW hn, length_ctrlReq, hword 1 (by omega), hword 2 le_rfl]
  norm_num

/-- The configuration is discovered, and the logic is not reset on the way. -/
def Discovers (undef : ℕ → ℤ) (W n : ℕ) : Prop :=
  discoverTargetconf undef (drscan W n) = some (0, some ⟨W / 8, 2 ^ n⟩) ∧
    ∀ t ≤ 48, (stateAt (step n) (reset W) (scanIn (bytesBits (ctrlReq 0))) t).ctrlLogicRst = false

theorem discovers_sixteen (undef : ℕ → ℤ) {n : ℕ} (hn : n < 31) : Discovers undef 16 n := by
  have hn16 : n < 2 ^ 16 := hn.trans (by norm_num)
  have hones := first_word_ones (by norm_num : 0 < 16) le_rfl (by norm_num : 0 < 2 ^ 16)
  constructor
  · have hvalue : answer n (BitVec.ofNat 16 (leValue (ctrlReq 0))) = 2 ^ 16 * (16 + 2 ^ 16 * n) := if_pos hones
    have hwidth : 2 ^ 16 * (16 + 2 ^ 16 * n) / 2 ^ 16 % 2 ^ 16 = 16 := by omega
    have hsize : 2 ^ 16 * (16 + 2 ^ 16 * n) / 2 ^ 32 % 2 ^ 16 = n := by omega
    have hshift : Util.toUint (Util.shiftOne undef n) = 2 ^ n := by
      have hpow : 2 ^ n < 2 ^ 31 := Nat.pow_lt_pow_right (by norm_num) hn
      rw [Util.shiftOne, if_pos hn, ← Nat.cast_ofNat, ← Nat.cast_pow, Util.toUint_natCast (by omega)]
    simp only [discoverTargetconf_drscan undef (by norm_num : 0 < 16) hn16, hvalue, hwidth, hsize, hshift]
    rfl
  · rintro (_ | t) ht
    · rfl
    · -- the word for the side channel is zero
      have hphase := phase_scan (n := n) (by norm_num : 0 < 16) (bytesBits (ctrlReq 0)) t
      rw [stateAt_succ (step n), hphase.ctrlLogicRst_eq (by norm_num) rfl, Bool.and_eq_false_imp]
      intro hfirst
      obtain ⟨-, rfl⟩ := of_decide_eq_true hfirst
      rfl

/-- **Discovery.** The configuration of a target is discovered exactly if its words have 16 bits. -/
theorem discovers_iff (undef : ℕ → ℤ) {W n : ℕ} (hW : 0 < W) (hbytes : 8 ∣ W) (hn : n < 31) :
    Discovers undef W n ↔ W = 16 := by
  refine ⟨?_, fun h => h ▸ discovers_sixteen undef hn⟩
  rintro ⟨hconf, -⟩
  have hnW : n < 2 ^ W := by
    have hpow : 2 ^ 8 ≤ 2 ^ W := Nat.pow_le_pow_right (by norm_num) (Nat.le_of_dvd hW hbytes)
    omega
  rw [discoverTargetconf_drscan undef hW hnW] at hconf
  by_contra hne
  obtain hshort | hlong : W = 8 ∨ 16 < W := by omega
  · -- the two parameters are where the host expects the first of them
    subst hshort
    have hvalue : answer n (BitVec.ofNat 8 (leValue (ctrlReq 0))) = 2 ^ 8 * (8 + 2 ^ 8 * n) :=
      if_pos (first_word_ones hW (by norm_num) (by norm_num))
    have hwidth : 2 ^ 8 * (8 + 2 ^ 8 * n) / 2 ^ 16 % 2 ^ 16 = n := by omega
    have hsize : 2 ^ 8 * (8 + 2 ^ 8 * n) / 2 ^ 32 % 2 ^ 16 = 0 := by omega
    simp only [hvalue, hwidth, hsize] at hconf
    have hone : Util.toUint (Util.shiftOne undef 0) = 1 := rfl
    split_ifs at hconf with hfail
    simp only [hone, Option.some.injEq, Prod.mk.injEq, Targetconf.mk.injEq, true_and] at hconf
    obtain ⟨hwords, hpow⟩ := hconf
    have hlarge : 2 ^ 8 ≤ 2 ^ n := Nat.pow_le_pow_right (by norm_num) (by omega)
    omega
  · have hvalue : answer n (BitVec.ofNat W (leValue (ctrlReq 0))) = 0 := if_neg (first_word_not_ones hlong)
    simp only [hvalue] at hconf
    rw [if_pos (.inl rfl)] at hconf
    cases hconf

theorem discovers_default : Discovers (fun _ => 0) 16 3 :=
  (discovers_iff (fun _ => 0) (by norm_num) (by norm_num) (by norm_num)).mpr rfl

/-- For a word of 32 bits nothing is answered, and the assertion on the width of a word fails. -/
theorem not_discovers_wide : discoverTargetconf (fun _ => 0) (drscan 32 3) = none ∧ ¬ Discovers (fun _ => 0) 32 3 := by
  have hnone : discoverTargetconf (fun _ => 0) (drscan 32 3) = none := by
    decide +kernel
  exact ⟨hnone, fun h => by rw [Discovers, hnone] at h; cases h.1⟩

end GlipOsd.Jtag.Discovery
