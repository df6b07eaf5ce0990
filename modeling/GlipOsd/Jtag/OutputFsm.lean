import GlipOsd.Foundations.Clocked
import Mathlib.Tactic.Linarith

/-! # The output path of the JTAG backend

The finite state machine `glip_jtag_output_fsm`: it listens to the two header words of a request and
shifts the response out bit by bit, taking data words from the outgoing FIFO as it goes. `outputFsm`
is its combinational block, `step` the clocked one. The parameter `WORD_WIDTH` is `W`.
-/

namespace GlipOsd.Jtag.OutputFsm
open Clocked
set_option autoImplicit false

inductive OutputState
  | idle
  | writeLength
  | readLength
  | noData
  | sendData
  | sendCountWrite
  | sendCountRead
  | configDisc
  deriving DecidableEq, Repr

structure State (W : ℕ) where
  outputState : OutputState
  outReg : BitVec W
  wordCnt : BitVec W
  packetCount : BitVec W
  free : BitVec W
  bitCnt : BitVec W
  inRegCnt : BitVec W
  writeLengthReg : BitVec W
  readLengthReg : BitVec W
  deriving DecidableEq, Repr

/-- The inputs of one clock cycle; `rst` is not used by the source. -/
structure In (W : ℕ) where
  tdi : Bool
  shift : Bool
  update : Bool
  inError : Bool
  inWritten : BitVec W
  fifoData : BitVec W
  fifoValid : Bool
  deriving DecidableEq, Repr

structure Out where
  tdo : Bool
  fifoReady : Bool := false
  deriving DecidableEq, Repr

/-- `x[k] = b`; a position beyond the word is not written. -/
def setBit {W : ℕ} (x : BitVec W) (k : ℕ) (b : Bool) : BitVec W :=
  if b then x ||| 1#W <<< k else x &&& ~~~(1#W <<< k)

/-- `{b, x[WORD_WIDTH-2:0]}` -/
def concatTop {W : ℕ} (b : Bool) (x : BitVec W) : BitVec W :=
  (BitVec.ofBool b ++ x.extractLsb' 0 (W - 1)).setWidth W

/-- `cnt == len - 1`. The literal makes it a comparison of at least 32 bits: it fails for `len = 0`
as long as the counter is narrower. -/
def isLast {W : ℕ} (cnt len : BitVec W) : Bool :=
  cnt.setWidth (max W 32) == len.setWidth (max W 32) - 1#(max W 32)

def outputFsm {W : ℕ} (s : State W) (i : In W) : State W × Out :=
  match s.outputState with
  | .idle =>
    let idle := { s with wordCnt := 0, packetCount := 0, inRegCnt := 0, free := 0,
                         writeLengthReg := 0, readLengthReg := 0 }
    (if i.shift then
      { idle with outputState := .writeLength, bitCnt := s.bitCnt + 1#W,
                  inRegCnt := setBit 0 s.bitCnt.toNat i.tdi }
    else idle, { tdo := i.fifoData.getLsbD 0 })
  | .writeLength =>
    let inRegCnt := setBit s.inRegCnt s.bitCnt.toNat i.tdi
    (if s.bitCnt.toNat < W - 1 then { s with inRegCnt, bitCnt := s.bitCnt + 1#W }
    else if concatTop i.tdi inRegCnt = BitVec.allOnes W then
      { s with inRegCnt, bitCnt := 0, outputState := .configDisc }
    else
      { s with inRegCnt, bitCnt := 0, outputState := .readLength,
               writeLengthReg := concatTop i.tdi inRegCnt },
      { tdo := i.fifoData.getLsbD 0 })
  | .readLength =>
    let inRegCnt := setBit s.inRegCnt s.bitCnt.toNat i.tdi
    if s.bitCnt.toNat < W - 1 then
      ({ s with inRegCnt, bitCnt := s.bitCnt + 1#W }, { tdo := i.fifoData.getLsbD 0 })
    else
      let length := concatTop i.tdi inRegCnt
      let s' := { s with outReg := i.fifoData, bitCnt := 0, readLengthReg := length, inRegCnt }
      if length ≠ 0 then
        ({ s' with
            outputState := if i.fifoValid then .sendData else .noData
            inRegCnt := if length < s.writeLengthReg then s.writeLengthReg else inRegCnt },
          { tdo := i.fifoData.getLsbD 0, fifoReady := i.fifoValid })
      else if 0 < s.writeLengthReg then
        ({ s' with outputState := .noData, inRegCnt := s.writeLengthReg },
          { tdo := i.fifoData.getLsbD 0 })
      else ({ s' with outputState := .sendCountWrite }, { tdo := i.fifoData.getLsbD 0 })
  | .sendData =>
    let tdo := s.outReg.getLsbD s.bitCnt.toNat
    if i.shift then
      if s.bitCnt.toNat = W - 1 then
        if isLast s.wordCnt s.inRegCnt then
          ({ s with bitCnt := 0, outputState := .sendCountWrite, packetCount := s.wordCnt + 1#W },
            { tdo })
        else if isLast s.wordCnt s.readLengthReg then
          -- the counter of the words sent is not advanced on this way out
          ({ s with bitCnt := 0, outputState := .noData, packetCount := s.wordCnt + 1#W }, { tdo })
        else if i.fifoValid then
          ({ s with bitCnt := 0, wordCnt := s.wordCnt + 1#W, outReg := i.fifoData },
            { tdo, fifoReady := true })
        else
          ({ s with bitCnt := 0, wordCnt := s.wordCnt + 1#W, packetCount := s.wordCnt + 1#W,
                    outputState := .noData }, { tdo })
      else ({ s with bitCnt := s.bitCnt + 1#W }, { tdo })
    else (s, { tdo })
  | .noData =>
    (if i.shift then
      if s.bitCnt.toNat = W - 1 then
        if isLast s.wordCnt s.inRegCnt then { s with bitCnt := 0, outputState := .sendCountWrite }
        else { s with bitCnt := 0, wordCnt := s.wordCnt + 1#W }
      else { s with bitCnt := s.bitCnt + 1#W }
    else s, { tdo := false })
  | .sendCountWrite =>
    let free := if !i.inError && s.bitCnt = 0 then i.inWritten else s.free
    (if s.bitCnt.toNat = W - 1 then { s with free, bitCnt := 0, outputState := .sendCountRead }
    else { s with free, bitCnt := s.bitCnt + 1#W },
      { tdo := if i.inError then true else free.getLsbD s.bitCnt.toNat })
  | .sendCountRead =>
    (if s.bitCnt.toNat < W - 1 then { s with bitCnt := s.bitCnt + 1#W }
    else { s with bitCnt := 0, outputState := .idle },
      { tdo := s.packetCount.getLsbD s.bitCnt.toNat })
  | .configDisc =>
    ({ s with bitCnt := 0, outputState := if i.update then .idle else .configDisc }, { tdo := false })

/-- The registers after an `update`. -/
def reset (W : ℕ) : State W := ⟨.idle, 0, 0, 0, 0, 0, 0, 0, 0⟩

def step {W : ℕ} (s : State W) (i : In W) : State W :=
  if i.update then reset W else (outputFsm s i).1

def tdo {W : ℕ} (s : State W) (i : In W) : Bool := (outputFsm s i).2.tdo

/-- The word taken out of the FIFO in this cycle. -/
def popped {W : ℕ} (s : State W) (i : In W) : Option (BitVec W) :=
  if (outputFsm s i).2.fifoReady && i.fifoValid then some i.fifoData else none

/-- The bits of a word in the order they are shifted. -/
def wordBits {W : ℕ} (x : BitVec W) : List Bool := (List.range W).map x.getLsbD

/-! ## Bits and counters -/

theorem getLsbD_setBit {W : ℕ} (x : BitVec W) {k : ℕ} (b : Bool) {j : ℕ} (hj : j < W) :
    (setBit x k b).getLsbD j = if j = k then b else x.getLsbD j := getLsbD_writeBit x b hj

/-- A word that agrees with `x` below bit `i` is given bit `i` of it, too. -/
theorem getLsbD_setBit_of_agree {W : ℕ} {x y : BitVec W} {i : ℕ} (hi : i < W)
    (hbits : ∀ j < i, y.getLsbD j = x.getLsbD j) :
    ∀ j < i + 1, (setBit y i (x.getLsbD i)).getLsbD j = x.getLsbD j := by
  intro j hj
  rw [getLsbD_setBit _ _ (by omega)]
  split_ifs with heq
  · rw [heq]
  · exact hbits j (by omega)

theorem concatTop_eq {W : ℕ} (hW : 0 < W) {x y : BitVec W}
    (h : ∀ j < W - 1, x.getLsbD j = y.getLsbD j) : concatTop (y.getLsbD (W - 1)) x = y := by
  apply BitVec.eq_of_getLsbD_eq
  intro j hj
  simp only [concatTop, BitVec.getLsbD_setWidth, hj, decide_true, Bool.true_and,
    BitVec.getLsbD_append, BitVec.getLsbD_extractLsb', Nat.zero_add]
  split_ifs with hlow
  · simp [hlow, h j hlow]
  · have hlast : j = W - 1 := by omega
    simp [hlast]

theorem isLast_iff {W : ℕ} (cnt : BitVec W) {len : BitVec W} (hlen : len ≠ 0) :
    isLast cnt len = true ↔ cnt.toNat + 1 = len.toNat := by
  have hpos : 0 < len.toNat := Nat.pos_of_ne_zero fun h => hlen (BitVec.eq_of_toNat_eq (by simpa using h))
  have hwide : 2 ^ W ≤ 2 ^ max W 32 := Nat.pow_le_pow_right (by omega) (le_max_left _ _)
  have hcnt := cnt.isLt
  have hlt := len.isLt
  have hone : (1#(max W 32)).toNat = 1 := BitVec.toNat_one (by omega)
  rw [isLast, beq_iff_eq, ← BitVec.toNat_inj, BitVec.toNat_sub, BitVec.toNat_setWidth,
    BitVec.toNat_setWidth, hone, Nat.mod_eq_of_lt (by omega : cnt.toNat < 2 ^ max W 32),
    Nat.mod_eq_of_lt (by omega : len.toNat < 2 ^ max W 32),
    (by omega : 2 ^ max W 32 - 1 + len.toNat = len.toNat - 1 + 2 ^ max W 32), Nat.add_mod_right,
    Nat.mod_eq_of_lt (by omega)]
  omega

theorem ofNat_succ {W : ℕ} (k : ℕ) : BitVec.ofNat W k + 1#W = BitVec.ofNat W (k + 1) := by
  rw [BitVec.ofNat_add_ofNat]

theorem toNat_ofNat_of_lt {W k : ℕ} (h : k < W) : (BitVec.ofNat W k).toNat = k := by
  rw [BitVec.toNat_ofNat, Nat.mod_eq_of_lt (h.trans W.lt_two_pow_self)]

theorem ofNat_ne_zero {W k : ℕ} (h : k < W) (hk : 0 < k) : BitVec.ofNat W k ≠ 0 := by
  intro h0
  have hval := congrArg BitVec.toNat h0
  rw [toNat_ofNat_of_lt h] at hval
  simp at hval
  omega

/-- In `IDLE` the bit counter is at rest, so that a request starts with bit 0. -/
theorem idle_bitCnt {W : ℕ} (e : ℕ → In W) (t : ℕ)
    (hidle : (stateAt step (reset W) e t).outputState = .idle) :
    (stateAt step (reset W) e t).bitCnt = 0 := by
  have hinv : ∀ (s : State W) (i : In W), (s.outputState = .idle → s.bitCnt = 0) →
      (step s i).outputState = .idle → (step s i).bitCnt = 0 := by
    intro s i hs
    by_cases hupdate : i.update = true
    · simp only [step, hupdate, if_true]
      exact fun _ => rfl
    simp only [step, hupdate, outputFsm]
    cases hstate : s.outputState <;> simp only <;> split_ifs <;> intro hidle <;>
      first | rfl | exact hs hstate | cases hidle | cases hstate.symm.trans hidle
  exact stateAt_invariant (fun s : State W => s.outputState = .idle → s.bitCnt = 0) hinv
    (fun _ => rfl) t hidle

end GlipOsd.Jtag.OutputFsm
