import GlipOsd.Jtag.OutputFsm
import Mathlib.Data.List.ReduceOption

/-! # The response frame

The response to a request of `w` words to write and `r` words wanted, when all bits are shifted
without a pause. Time is counted in cycles from the first bit of the request, so that word `m` of
the frame takes the cycles `m * W ..< (m + 1) * W` and the word `j` of the payload is loaded, if the
FIFO is valid, in cycle `(j + 2) * W - 1`.

`response_frame_iff` says for which requests the frame is the one that the host expects.
-/

namespace GlipOsd.Jtag.OutputFsm
open Clocked
set_option autoImplicit false

/-! ## The frame as the protocol describes it -/

/-- A request and all the state machine sees during its frame. -/
structure Exchange (W : ℕ) where
  wrReqSize : BitVec W
  rdReqSize : BitVec W
  rest : ℕ → Bool
  fifoValid : ℕ → Bool
  fifoData : ℕ → BitVec W
  inWritten : ℕ → BitVec W
  inError : Bool

namespace Exchange
variable {W : ℕ} (q : Exchange W)

def input (t : ℕ) : In W where
  tdi := if t < W then q.wrReqSize.getLsbD t
    else if t < 2 * W then q.rdReqSize.getLsbD (t - W) else q.rest t
  shift := true
  update := false
  inError := q.inError
  inWritten := q.inWritten t
  fifoData := q.fifoData t
  fifoValid := q.fifoValid t

/-- `n` -/
def payloadLen : ℕ := max q.wrReqSize.toNat q.rdReqSize.toNat

def frameLen : ℕ := (q.payloadLen + 4) * W

def taken (s : State W) : List (BitVec W) :=
  (trace step popped s q.input 0 q.frameLen).reduceOption

/-- The status word of the input side when its first bit is due in cycle `t`. -/
def status (t : ℕ) : BitVec W := if q.inError then BitVec.allOnes W else q.inWritten t

/-- The words behind the header of the response, when `taken` are the words read. -/
def response (taken : List (BitVec W)) : List (BitVec W) :=
  taken ++ List.replicate (q.payloadLen - taken.length) 0 ++
    [q.status ((q.payloadLen + 2) * W), BitVec.ofNat W taken.length]

/-- At most as many words are taken as were wanted, and the response is the one described. -/
def FrameOk (s : State W) : Prop :=
  (q.taken s).length ≤ q.rdReqSize.toNat ∧
    (trace step tdo s q.input 0 q.frameLen).drop (2 * W) =
      (q.response (q.taken s)).flatMap wordBits

instance (s : State W) : Decidable (q.FrameOk s) := inferInstanceAs (Decidable (_ ∧ _))

/-- The FIFO is valid when word `j` is to be loaded. -/
def available (j : ℕ) : Bool := q.fifoValid ((j + 2) * W - 1)

/-- The words wanted are fewer than those written, and the FIFO has all of them. -/
def Overrun : Prop :=
  0 < q.rdReqSize.toNat ∧ q.rdReqSize.toNat < q.wrReqSize.toNat ∧
    ∀ j < q.rdReqSize.toNat, q.available j = true

end Exchange

/-! ## Words on the wire -/

/-- From cycle `a` on the words `xs` are shifted out, and `ps` are taken meanwhile. -/
structure Sends {W : ℕ} (s : State W) (e : ℕ → In W) (a : ℕ) (xs ps : List (BitVec W)) : Prop where
  bits : trace step tdo s e a (xs.length * W) = xs.flatMap wordBits
  pops : (trace step popped s e a (xs.length * W)).reduceOption = ps

section Words
variable {W : ℕ} {s st : State W} {e : ℕ → In W} {a : ℕ}

theorem length_wordBits (x : BitVec W) : (wordBits x).length = W := by
  rw [wordBits, List.length_map, List.length_range]

theorem wordBits_injective {x y : BitVec W} (h : wordBits x = wordBits y) : x = y := by
  apply BitVec.eq_of_getLsbD_eq
  intro j hj
  exact List.map_inj_left.mp h j (List.mem_range.mpr hj)

theorem Sends.nil : Sends s e a [] [] := by
  refine ⟨?_, ?_⟩ <;> simp [trace]

theorem Sends.append {xs ys ps qs : List (BitVec W)} (hx : Sends s e a xs ps)
    (hy : Sends s e (a + xs.length * W) ys qs) : Sends s e a (xs ++ ys) (ps ++ qs) := by
  constructor
  · rw [List.length_append, Nat.add_mul, trace_add, hx.bits, hy.bits, List.flatMap_append]
  · rw [List.length_append, Nat.add_mul, trace_add, List.reduceOption_append, hx.pops, hy.pops]

theorem Sends.cons {x : BitVec W} {ys ps qs : List (BitVec W)} (hx : Sends s e a [x] ps)
    (hy : Sends s e (a + W) ys qs) : Sends s e a (x :: ys) (ps ++ qs) :=
  hx.append (by rwa [List.length_singleton, Nat.one_mul])

theorem reduceOption_quiet {n : ℕ}
    (h : ∀ i < n, popped (stateAt step s e (a + i)) (e (a + i)) = none) :
    (trace step popped s e a n).reduceOption = [] := by
  rw [trace_eq_map h]
  induction n with
  | zero => rfl
  | succ n ih =>
    rw [List.range_succ, List.map_append, List.reduceOption_append,
      ih fun i hi => h i (Nat.lt_succ_of_lt hi)]
    rfl

/-- One word: its bits in turn, and at most its last cycle takes a word from the FIFO. -/
theorem Sends.word (hW : 0 < W) {x : BitVec W}
    (hbits : ∀ i < W, tdo (stateAt step s e (a + i)) (e (a + i)) = x.getLsbD i)
    (hquiet : ∀ i < W - 1, popped (stateAt step s e (a + i)) (e (a + i)) = none) :
    Sends s e a [x] (popped (stateAt step s e (a + (W - 1))) (e (a + (W - 1)))).toList := by
  constructor
  · rw [List.length_singleton, Nat.one_mul, trace_eq_map hbits, List.flatMap_singleton]
    rfl
  · obtain ⟨m, rfl⟩ := Nat.exists_eq_add_of_lt hW
    simp only [List.length_singleton, Nat.one_mul, Nat.zero_add, Nat.add_sub_cancel] at hquiet ⊢
    rw [trace_succ, List.reduceOption_append, reduceOption_quiet hquiet, List.nil_append]
    cases popped (stateAt step s e (a + m)) (e (a + m)) <;> rfl

/-- The word a state shifts out, once its first cycle is over. -/
def shifted (st : State W) (inError : Bool) : BitVec W :=
  match st.outputState with
  | .sendData => st.outReg
  | .sendCountWrite => if inError then BitVec.allOnes W else st.free
  | .sendCountRead => st.packetCount
  | _ => 0

/-- The states that shift a word without looking at the other inputs before its last cycle. -/
def Shifting (st : State W) (i : ℕ) : Prop :=
  st.outputState = .sendData ∨ st.outputState = .noData ∨ st.outputState = .sendCountRead ∨
    st.outputState = .sendCountWrite ∧ 0 < i

theorem tdo_shifting (inp : In W) {i : ℕ} (hst : Shifting st i) (hi : i < W)
    (hshift : inp.shift = true) :
    tdo { st with bitCnt := BitVec.ofNat W i } inp = (shifted st inp.inError).getLsbD i := by
  have hcnt := toNat_ofNat_of_lt hi
  obtain h | h | h | ⟨h, hpos⟩ := hst
  · simp only [tdo, outputFsm, shifted, h, hshift, hcnt, if_true]
    split_ifs <;> rfl
  · simp only [tdo, outputFsm, shifted, h]
    simp
  · simp only [tdo, outputFsm, shifted, h, hcnt]
  · have hne := ofNat_ne_zero hi hpos
    simp only [tdo, outputFsm, shifted, h, hcnt, hne, decide_false, Bool.and_false, Bool.false_eq_true,
      if_false]
    split_ifs with herr
    · simp [hi]
    · rfl

theorem outputFsm_shifting (inp : In W) {i : ℕ} (hst : Shifting st i) (hi : i < W - 1)
    (hshift : inp.shift = true) :
    (outputFsm { st with bitCnt := BitVec.ofNat W i } inp).1 =
      { st with bitCnt := BitVec.ofNat W (i + 1) } ∧
    (outputFsm { st with bitCnt := BitVec.ofNat W i } inp).2.fifoReady = false := by
  have hcnt := toNat_ofNat_of_lt (W := W) (k := i) (by omega)
  have hlast : i ≠ W - 1 := by omega
  obtain h | h | h | ⟨h, hpos⟩ := hst
  · simp only [outputFsm, h, hshift, hcnt, if_true, if_neg hlast, ofNat_succ, and_self]
  · simp only [outputFsm, h, hshift, hcnt, if_true, if_neg hlast, ofNat_succ, and_self]
  · simp only [outputFsm, h, hcnt, if_pos hi, ofNat_succ, and_self]
  · have hne := ofNat_ne_zero (by omega : i < W) hpos
    simp only [outputFsm, h, hcnt, hne, if_neg hlast, ofNat_succ, decide_false, Bool.and_false,
      Bool.false_eq_true, if_false, and_self]

end Words

/-! ## A word in each state -/

section States
variable {W : ℕ} {q : Exchange W} {s st : State W} {a : ℕ}

theorem Shifting.mono {i j : ℕ} (h : Shifting st i) (hij : i ≤ j) : Shifting st j := by
  obtain h | h | h | ⟨h, hpos⟩ := h
  · exact .inl h
  · exact .inr (.inl h)
  · exact .inr (.inr (.inl h))
  · exact .inr (.inr (.inr ⟨h, hpos.trans_le hij⟩))

theorem not_popped {inp : In W} (h : (outputFsm st inp).2.fifoReady = false) :
    popped st inp = none := by
  rw [popped, h, Bool.false_and]
  rfl

theorem counts (hnext : stateAt step s q.input (a + 1) = { st with bitCnt := BitVec.ofNat W 1 })
    (hst : Shifting st 1) {i : ℕ} (hi : 1 ≤ i) (hiW : i ≤ W - 1) :
    stateAt step s q.input (a + i) = { st with bitCnt := BitVec.ofNat W i } := by
  induction i, hi using Nat.le_induction with
  | base => exact hnext
  | succ i hi ih =>
    have hstep := (outputFsm_shifting (q.input (a + i)) (hst.mono hi) (by omega) rfl).1
    rw [← Nat.add_assoc, stateAt_succ, ih (by omega)]
    exact hstep

/-- A word whose first cycle is known: the other bits follow, and its last cycle decides. -/
theorem word_run (hW : 2 ≤ W)
    (hfirst : tdo (stateAt step s q.input a) (q.input a) = (shifted st q.inError).getLsbD 0)
    (hquiet : popped (stateAt step s q.input a) (q.input a) = none)
    (hnext : stateAt step s q.input (a + 1) = { st with bitCnt := BitVec.ofNat W 1 })
    (hst : Shifting st 1) :
    Sends s q.input a [shifted st q.inError]
      (popped { st with bitCnt := BitVec.ofNat W (W - 1) } (q.input (a + (W - 1)))).toList ∧
    stateAt step s q.input (a + W) =
      (outputFsm { st with bitCnt := BitVec.ofNat W (W - 1) } (q.input (a + (W - 1)))).1 := by
  have hlast := counts hnext hst (by omega : 1 ≤ W - 1) le_rfl
  constructor
  · rw [← hlast]
    apply Sends.word (by omega)
    · intro i hi
      obtain rfl | hpos := Nat.eq_zero_or_pos i
      · exact hfirst
      · rw [counts hnext hst hpos (by omega)]
        exact tdo_shifting _ (hst.mono hpos) hi rfl
    · intro i hi
      obtain rfl | hpos := Nat.eq_zero_or_pos i
      · exact hquiet
      · rw [counts hnext hst hpos (by omega)]
        exact not_popped (outputFsm_shifting _ (hst.mono hpos) hi rfl).2
  · have hW1 : a + W = a + (W - 1) + 1 := by omega
    rw [hW1, stateAt_succ, hlast]
    rfl

theorem shift_word (hW : 2 ≤ W) (hat : stateAt step s q.input a = st) (hbit : st.bitCnt = 0)
    (hst : Shifting st 0) :
    Sends s q.input a [shifted st q.inError]
      (popped { st with bitCnt := BitVec.ofNat W (W - 1) } (q.input (a + (W - 1)))).toList ∧
    stateAt step s q.input (a + W) =
      (outputFsm { st with bitCnt := BitVec.ofNat W (W - 1) } (q.input (a + (W - 1)))).1 := by
  have heq : { st with bitCnt := BitVec.ofNat W 0 } = st := by
    obtain ⟨⟩ := st
    exact congrArg (State.mk _ _ _ _ _ · _ _ _) hbit.symm
  have hshift := outputFsm_shifting (q.input a) hst (by omega : 0 < W - 1) rfl
  rw [heq] at hshift
  apply word_run hW
  · have htdo := tdo_shifting (q.input a) hst (by omega : 0 < W) rfl
    rw [heq] at htdo
    rw [hat]
    exact htdo
  · rw [hat]
    exact not_popped hshift.2
  · rw [stateAt_succ, hat]
    exact hshift.1
  · exact hst.mono (Nat.zero_le 1)

/-- The counter of the input side is read in the first cycle of its word. -/
theorem sendCountWrite_word (hW : 2 ≤ W) (hat : stateAt step s q.input a = st) (hbit : st.bitCnt = 0)
    (hstate : st.outputState = .sendCountWrite) :
    Sends s q.input a [q.status a] [] ∧
      ∃ free, stateAt step s q.input (a + W) =
        { st with free, bitCnt := 0, outputState := .sendCountRead } := by
  have hone : (0 : BitVec W) + 1#W = BitVec.ofNat W 1 := BitVec.zero_add _
  have hlast := toNat_ofNat_of_lt (by omega : W - 1 < W)
  let st' : State W := { st with free := if q.inError then st.free else q.inWritten a }
  have hstatus : shifted st' q.inError = q.status a := by
    simp only [st', shifted, hstate, Exchange.status]
    split_ifs <;> rfl
  have hzero : ((0 : BitVec W).toNat = W - 1) = False := by
    simp
    omega
  have hfirst : tdo (stateAt step s q.input a) (q.input a) = (shifted st' q.inError).getLsbD 0 := by
    rw [hat, hstatus]
    simp only [tdo, outputFsm, hstate, hbit, Exchange.status, Exchange.input]
    cases q.inError <;> simp
    omega
  have hquiet : ∀ st'' : State W, st''.outputState = .sendCountWrite → ∀ t,
      popped st'' (q.input t) = none := by
    intro st'' h t
    apply not_popped
    simp only [outputFsm, h]
  have hnext : stateAt step s q.input (a + 1) = { st' with bitCnt := BitVec.ofNat W 1 } := by
    rw [stateAt_succ, hat]
    simp only [step, outputFsm, hstate, hbit, hzero, if_false, hone, st', Exchange.input]
    cases q.inError <;> simp
  obtain ⟨hsends, hend⟩ := word_run hW hfirst (hat ▸ hquiet st hstate a) hnext
    (.inr (.inr (.inr ⟨hstate, Nat.one_pos⟩)))
  rw [hstatus, hquiet { st' with bitCnt := _ } hstate] at hsends
  refine ⟨hsends, st'.free, hend.trans ?_⟩
  have hne := ofNat_ne_zero (by omega : W - 1 < W) (by omega)
  simp only [st', outputFsm, hstate, hlast, hne, if_true, decide_false, Bool.and_false,
    Bool.false_eq_true, if_false]

theorem sendCountRead_word (hW : 2 ≤ W) (hat : stateAt step s q.input a = st) (hbit : st.bitCnt = 0)
    (hstate : st.outputState = .sendCountRead) : Sends s q.input a [st.packetCount] [] := by
  have hsends := (shift_word hW hat hbit (.inr (.inr (.inl hstate)))).1
  have hquiet : popped { st with bitCnt := BitVec.ofNat W (W - 1) } (q.input (a + (W - 1))) = none := by
    apply not_popped
    simp only [outputFsm, hstate]
  rw [hquiet] at hsends
  simpa only [shifted, hstate, Option.toList_none] using hsends

theorem noData_word (hW : 2 ≤ W) (hat : stateAt step s q.input a = st) (hbit : st.bitCnt = 0)
    (hstate : st.outputState = .noData) :
    Sends s q.input a [0] [] ∧ stateAt step s q.input (a + W) =
      if isLast st.wordCnt st.inRegCnt then { st with bitCnt := 0, outputState := .sendCountWrite }
      else { st with bitCnt := 0, wordCnt := st.wordCnt + 1#W } := by
  obtain ⟨hsends, hend⟩ := shift_word hW hat hbit (.inr (.inl hstate))
  have hlast := toNat_ofNat_of_lt (by omega : W - 1 < W)
  have hquiet : popped { st with bitCnt := BitVec.ofNat W (W - 1) } (q.input (a + (W - 1))) = none := by
    apply not_popped
    simp only [outputFsm, hstate]
  rw [hquiet] at hsends
  constructor
  · simpa only [shifted, hstate, Option.toList_none] using hsends
  · rw [hend]
    simp only [outputFsm, hstate, hlast, Exchange.input, if_true]

theorem toNat_succ {x y : BitVec W} {m : ℕ} (hm : 0 < m) (h : x.toNat + m = y.toNat) :
    (x + 1#W).toNat = x.toNat + 1 := by
  have hy := y.isLt
  have hW : 0 < W := Nat.pos_of_ne_zero fun h0 => by
    subst h0
    omega
  rw [BitVec.toNat_add, BitVec.toNat_one hW]
  exact Nat.mod_eq_of_lt (by omega)

theorem ne_zero_of_toNat {x y : BitVec W} {m : ℕ} (hm : 0 < m) (h : x.toNat + m = y.toNat) : y ≠ 0 := by
  rintro rfl
  simp at h
  omega

/-- Zero words are sent until the last word of the payload has been counted. -/
theorem noData_words (hW : 2 ≤ W) {m : ℕ} (hat : stateAt step s q.input a = st) (hbit : st.bitCnt = 0)
    (hstate : st.outputState = .noData) (hm : 0 < m)
    (hcnt : st.wordCnt.toNat + m = st.inRegCnt.toNat) :
    Sends s q.input a (List.replicate m 0) [] ∧
      ∃ wordCnt, stateAt step s q.input (a + m * W) =
        { st with wordCnt, bitCnt := 0, outputState := .sendCountWrite } := by
  induction m, hm using Nat.le_induction generalizing a st with
  | base =>
    obtain ⟨hword, hend⟩ := noData_word hW hat hbit hstate
    rw [if_pos ((isLast_iff _ (ne_zero_of_toNat Nat.one_pos hcnt)).mpr hcnt)] at hend
    rw [Nat.one_mul]
    exact ⟨hword, st.wordCnt, hend⟩
  | succ m hm ih =>
    obtain ⟨hword, hend⟩ := noData_word hW hat hbit hstate
    rw [if_neg (by rw [isLast_iff _ (ne_zero_of_toNat (by omega) hcnt)]; omega)] at hend
    have hnext : (st.wordCnt + 1#W).toNat + m = st.inRegCnt.toNat := by
      rw [toNat_succ (by omega) hcnt]
      omega
    obtain ⟨hsends, wordCnt, htotal⟩ := ih hend rfl hstate hnext
    refine ⟨?_, wordCnt, ?_⟩
    · rw [List.replicate_succ]
      exact hword.cons hsends
    · rw [Nat.succ_mul, Nat.add_comm (m * W), ← Nat.add_assoc, htotal]

theorem sendData_last (hW : 2 ≤ W) (hstate : st.outputState = .sendData) (t : ℕ) :
    outputFsm { st with bitCnt := BitVec.ofNat W (W - 1) } (q.input t) =
      (if isLast st.wordCnt st.inRegCnt then
        { st with bitCnt := 0, outputState := .sendCountWrite, packetCount := st.wordCnt + 1#W }
      else if isLast st.wordCnt st.readLengthReg then
        { st with bitCnt := 0, outputState := .noData, packetCount := st.wordCnt + 1#W }
      else if q.fifoValid t then
        { st with bitCnt := 0, wordCnt := st.wordCnt + 1#W, outReg := q.fifoData t }
      else
        { st with bitCnt := 0, wordCnt := st.wordCnt + 1#W, packetCount := st.wordCnt + 1#W,
                  outputState := .noData },
      { tdo := st.outReg.getLsbD (W - 1),
        fifoReady := !isLast st.wordCnt st.inRegCnt && !isLast st.wordCnt st.readLengthReg &&
          q.fifoValid t }) := by
  have hlast := toNat_ofNat_of_lt (by omega : W - 1 < W)
  simp only [outputFsm, hstate, hlast, Exchange.input, if_true]
  split_ifs <;> simp_all

theorem sendData_popped (hW : 2 ≤ W) (hstate : st.outputState = .sendData) (t : ℕ) :
    popped { st with bitCnt := BitVec.ofNat W (W - 1) } (q.input t) =
      if ¬ isLast st.wordCnt st.inRegCnt ∧ ¬ isLast st.wordCnt st.readLengthReg ∧ q.fifoValid t then
        some (q.fifoData t) else none := by
  rw [popped, sendData_last hW hstate]
  simp only [Exchange.input, Bool.and_assoc, Bool.and_self, Bool.and_eq_true, Bool.not_eq_true']
  simp

end States

/-! ## The payload -/

section Payload
variable {W : ℕ} {q : Exchange W} {s st : State W}

def Exchange.loaded {W : ℕ} (q : Exchange W) (j : ℕ) : BitVec W := q.fifoData ((j + 2) * W - 1)

/-- The zero words behind `k` data words: one too many when the host wants no more than these. -/
def Exchange.zeros {W : ℕ} (q : Exchange W) (k : ℕ) : ℕ :=
  q.payloadLen - k + if k = q.rdReqSize.toNat ∧ 0 < k ∧ k < q.payloadLen then 1 else 0

/-- The state machine is about to send the status words, and has counted `k` data words. -/
structure Counted {W : ℕ} (st : State W) (k : ℕ) : Prop where
  state : st.outputState = .sendCountWrite
  bit : st.bitCnt = 0
  count : st.packetCount = BitVec.ofNat W k

/-- The state machine is about to send the data word `j`. -/
structure AtWord {W : ℕ} (q : Exchange W) (st : State W) (j : ℕ) : Prop where
  wanted : j < q.rdReqSize.toNat
  state : st.outputState = .sendData
  bit : st.bitCnt = 0
  out : st.outReg = q.loaded j
  cnt : st.wordCnt = BitVec.ofNat W j
  inReg : st.inRegCnt.toNat = q.payloadLen
  read : st.readLengthReg = q.rdReqSize

theorem AtWord.dataWord (hW : 2 ≤ W) {j : ℕ} (h : AtWord q st j)
    (hat : stateAt step s q.input ((j + 2) * W) = st) :
    Sends s q.input ((j + 2) * W) [q.loaded j]
      (if j + 1 ≠ q.payloadLen ∧ j + 1 ≠ q.rdReqSize.toNat ∧ q.available (j + 1) then
        [q.loaded (j + 1)] else []) ∧
    stateAt step s q.input ((j + 1 + 2) * W) =
      (if j + 1 = q.payloadLen then
        { st with bitCnt := 0, outputState := .sendCountWrite, packetCount := BitVec.ofNat W (j + 1) }
      else if j + 1 = q.rdReqSize.toNat then
        { st with bitCnt := 0, outputState := .noData, packetCount := BitVec.ofNat W (j + 1) }
      else if q.available (j + 1) then
        { st with bitCnt := 0, wordCnt := BitVec.ofNat W (j + 1), outReg := q.loaded (j + 1) }
      else
        { st with bitCnt := 0, wordCnt := BitVec.ofNat W (j + 1),
                  packetCount := BitVec.ofNat W (j + 1), outputState := .noData }) := by
  have hr := q.rdReqSize.isLt
  have hle : q.rdReqSize.toNat ≤ q.payloadLen := le_max_right _ _
  have hwanted := h.wanted
  have hj : (BitVec.ofNat W j).toNat = j := by
    rw [BitVec.toNat_ofNat, Nat.mod_eq_of_lt (by omega)]
  have hlast : isLast st.wordCnt st.inRegCnt = true ↔ j + 1 = q.payloadLen := by
    have hne : st.inRegCnt ≠ 0 := fun h0 => by
      have := h.inReg
      simp only [h0, BitVec.ofNat_eq_ofNat, BitVec.toNat_ofNat, Nat.zero_mod] at this
      omega
    rw [isLast_iff _ hne, h.cnt, hj, h.inReg]
  have hlastRead : isLast st.wordCnt st.readLengthReg = true ↔ j + 1 = q.rdReqSize.toNat := by
    have hne : q.rdReqSize ≠ 0 := fun h0 => by
      simp only [h0, BitVec.ofNat_eq_ofNat, BitVec.toNat_ofNat, Nat.zero_mod] at hwanted
      omega
    rw [h.read, isLast_iff _ hne, h.cnt, hj]
  have hcycle : (j + 2) * W + (W - 1) = (j + 1 + 2) * W - 1 := by
    rw [Nat.succ_mul (j + 1 + 1), Nat.add_sub_assoc (by omega)]
  have hnext : (j + 2) * W + W = (j + 1 + 2) * W := (Nat.succ_mul (j + 2) W).symm
  have hsucc : st.wordCnt + 1#W = BitVec.ofNat W (j + 1) := by
    rw [h.cnt, ofNat_succ]
  obtain ⟨hsends, hend⟩ := shift_word hW hat h.bit (.inl h.state)
  rw [hcycle] at hsends hend
  constructor
  · rw [sendData_popped hW h.state] at hsends
    simp only [hlast, hlastRead, shifted, h.state, h.out, apply_ite Option.toList] at hsends
    exact hsends
  · rw [← hnext, hend, sendData_last hW h.state]
    simp only [hlast, hlastRead, hsucc]
    rfl

/-- Without another word from the FIFO zero words complete the payload. -/
theorem Counted.of_noData (hW : 2 ≤ W) {k c m : ℕ} (hat : stateAt step s q.input ((c + 2) * W) = st)
    (hbit : st.bitCnt = 0) (hstate : st.outputState = .noData)
    (hcount : st.packetCount = BitVec.ofNat W k) (hm : 0 < m)
    (hcnt : st.wordCnt.toNat + m = st.inRegCnt.toNat) :
    Sends s q.input ((c + 2) * W) (List.replicate m 0) [] ∧
      Counted (stateAt step s q.input ((c + m + 2) * W)) k := by
  obtain ⟨hsends, wordCnt, hend⟩ := noData_words hW hat hbit hstate hm hcnt
  have hcycle : (c + 2) * W + m * W = (c + m + 2) * W := by
    rw [← Nat.add_mul, Nat.add_right_comm]
  rw [← hcycle, hend]
  exact ⟨hsends, rfl, rfl, hcount⟩

/-- The last data word: the payload is complete, or no more is wanted, or the FIFO is empty. -/
theorem AtWord.last (hW : 2 ≤ W) {j : ℕ} (h : AtWord q st j)
    (hstop : j + 1 < q.rdReqSize.toNat → q.available (j + 1) = false)
    (hat : stateAt step s q.input ((j + 2) * W) = st) :
    Sends s q.input ((j + 2) * W) (q.loaded j :: List.replicate (q.zeros (j + 1)) 0) [] ∧
      Counted (stateAt step s q.input ((j + 1 + q.zeros (j + 1) + 2) * W)) (j + 1) := by
  have hle : q.rdReqSize.toNat ≤ q.payloadLen := le_max_right _ _
  have hr := q.rdReqSize.isLt
  have hwanted := h.wanted
  obtain ⟨hword, hend⟩ := h.dataWord hW hat
  have hcycle : (j + 2) * W + [q.loaded j].length * W = (j + 1 + 2) * W := by
    rw [List.length_singleton, ← Nat.add_mul, Nat.add_right_comm]
  have htoNat : ∀ i ≤ q.rdReqSize.toNat, (BitVec.ofNat W i).toNat = i := by
    intro i hi
    rw [BitVec.toNat_ofNat, Nat.mod_eq_of_lt (by omega)]
  by_cases h1 : j + 1 = q.payloadLen
  · have hzeros : q.zeros (j + 1) = 0 := by
      rw [Exchange.zeros, if_neg (by omega)]
      omega
    rw [if_pos h1] at hend
    rw [if_neg (fun hp => hp.1 h1)] at hword
    rw [hzeros, Nat.add_zero, hend]
    exact ⟨hword, rfl, rfl, rfl⟩
  rw [if_neg h1] at hend
  by_cases h2 : j + 1 = q.rdReqSize.toNat
  · -- the word counter stays behind, so that one zero word too many is sent
    have hzeros : q.zeros (j + 1) = q.payloadLen - j := by
      rw [Exchange.zeros, if_pos ⟨h2, by omega, by omega⟩]
      omega
    rw [if_pos h2] at hend
    rw [if_neg (fun hp => hp.2.1 h2)] at hword
    obtain ⟨hsends, hcounted⟩ := Counted.of_noData hW hend rfl rfl rfl
      (by omega : 0 < q.payloadLen - j) (by
        rw [h.cnt, htoNat j hwanted.le, h.inReg]
        omega)
    rw [hzeros]
    exact ⟨hword.append (hcycle ▸ hsends), hcounted⟩
  · have h3 := hstop (by omega)
    have hzeros : q.zeros (j + 1) = q.payloadLen - (j + 1) := by
      rw [Exchange.zeros, if_neg (by omega), Nat.add_zero]
    rw [if_neg h2, if_neg (by simp [h3])] at hend
    rw [if_neg (by simp [h3])] at hword
    obtain ⟨hsends, hcounted⟩ := Counted.of_noData hW hend rfl rfl rfl
      (by omega : 0 < q.payloadLen - (j + 1)) (by
        rw [htoNat (j + 1) hwanted, h.inReg]
        omega)
    rw [hzeros]
    exact ⟨hword.append (hcycle ▸ hsends), hcounted⟩

/-- Data words are sent from word `j` on up to the last one taken; zero words follow. The induction
is on the number of words that are still to be loaded. -/
theorem AtWord.dataWords (hW : 2 ≤ W) {d j k : ℕ} (h : AtWord q st j) (hk : k = j + d + 1)
    (hkr : k ≤ q.rdReqSize.toNat) (havail : ∀ i < k, q.available i = true)
    (hstop : k < q.rdReqSize.toNat → q.available k = false)
    (hat : stateAt step s q.input ((j + 2) * W) = st) :
    Sends s q.input ((j + 2) * W)
      ((List.range' j (d + 1)).map q.loaded ++ List.replicate (q.zeros k) 0)
      ((List.range' (j + 1) d).map q.loaded) ∧
    Counted (stateAt step s q.input ((k + q.zeros k + 2) * W)) k := by
  induction d generalizing j st with
  | zero =>
    subst hk
    exact h.last hW hstop hat
  | succ d ih =>
    have hle : q.rdReqSize.toNat ≤ q.payloadLen := le_max_right _ _
    obtain ⟨hword, hend⟩ := h.dataWord hW hat
    have hmore := havail (j + 1) (by omega)
    have hn : j + 1 ≠ q.payloadLen := by omega
    have hr : j + 1 ≠ q.rdReqSize.toNat := by omega
    rw [if_neg hn, if_neg hr, if_pos hmore] at hend
    rw [if_pos ⟨hn, hr, hmore⟩] at hword
    have hcycle : (j + 2) * W + [q.loaded j].length * W = (j + 1 + 2) * W := by
      rw [List.length_singleton, ← Nat.add_mul, Nat.add_right_comm]
    have hnext : AtWord q { st with
        bitCnt := 0, wordCnt := BitVec.ofNat W (j + 1), outReg := q.loaded (j + 1) } (j + 1) :=
      ⟨by omega, h.state, rfl, rfl, rfl, h.inReg, h.read⟩
    obtain ⟨hsends, hcounted⟩ := ih hnext (by omega) hend
    refine ⟨?_, hcounted⟩
    rw [List.range'_succ, List.range'_succ, List.map_cons, List.map_cons]
    exact hword.append (hcycle ▸ hsends)

end Payload

/-! ## The header -/

section Header
variable {W : ℕ} {q : Exchange W} {s st : State W}

/-- The first `i` bits of the header word `x` have been received. -/
structure Receiving {W : ℕ} (st : State W) (mode : OutputState) (x : BitVec W) (i : ℕ)
    (writeLength : BitVec W) : Prop where
  state : st.outputState = mode
  bit : st.bitCnt = BitVec.ofNat W i
  low : ∀ j < i, st.inRegCnt.getLsbD j = x.getLsbD j
  words : st.wordCnt = 0
  count : st.packetCount = 0
  length : st.writeLengthReg = writeLength

variable {mode : OutputState} {x writeLength : BitVec W} {i : ℕ}

theorem Receiving.low_setBit (h : Receiving st mode x i writeLength) (hi : i < W) :
    ∀ j < i + 1, (setBit st.inRegCnt i (x.getLsbD i)).getLsbD j = x.getLsbD j := by
  intro j hj
  rw [getLsbD_setBit _ _ (by omega)]
  split_ifs with hij
  · rw [hij]
  · exact h.low j (by omega)

theorem Receiving.complete (hW : 2 ≤ W) (h : Receiving st mode x (W - 1) writeLength) :
    setBit st.inRegCnt (W - 1) (x.getLsbD (W - 1)) = x ∧ concatTop (x.getLsbD (W - 1)) x = x := by
  constructor
  · apply BitVec.eq_of_getLsbD_eq
    intro j hj
    exact h.low_setBit (by omega) j (by omega)
  · exact concatTop_eq (by omega) fun _ _ => rfl

theorem Receiving.shift (hmode : mode = .writeLength ∨ mode = .readLength)
    (h : Receiving st mode x i writeLength) (hi : i < W - 1) {inp : In W} (hupdate : inp.update = false)
    (htdi : inp.tdi = x.getLsbD i) :
    Receiving (step st inp) mode x (i + 1) writeLength ∧ popped st inp = none := by
  have hcnt := toNat_ofNat_of_lt (by omega : i < W)
  have hlow := h.low_setBit (by omega)
  obtain rfl | rfl := hmode
  · constructor
    · simp only [step, hupdate, outputFsm, h.state, h.bit, hcnt, htdi, if_pos hi, ofNat_succ,
        Bool.false_eq_true, if_false]
      exact ⟨rfl, rfl, hlow, h.words, h.count, h.length⟩
    · apply not_popped
      simp only [outputFsm, h.state]
  · constructor
    · simp only [step, hupdate, outputFsm, h.state, h.bit, hcnt, htdi, if_pos hi, ofNat_succ,
        Bool.false_eq_true, if_false]
      exact ⟨rfl, rfl, hlow, h.words, h.count, h.length⟩
    · apply not_popped
      simp only [outputFsm, h.state, h.bit, hcnt, if_pos hi]

theorem receives_wrReqSize (hW : 2 ≤ W) (hstate : s.outputState = .idle) (hbit : s.bitCnt = 0)
    (hi : i ≤ W - 2) :
    Receiving (stateAt step s q.input (i + 1)) .writeLength q.wrReqSize (i + 1) 0 ∧
      popped (stateAt step s q.input i) (q.input i) = none := by
  have htdi : ∀ i < W, (q.input i).tdi = q.wrReqSize.getLsbD i := fun i hi => if_pos hi
  induction i with
  | zero =>
    have hbit0 : ((0 : BitVec W)).toNat = 0 := by simp
    have hnext : stateAt step s q.input 1 = { s with
        wordCnt := 0, packetCount := 0, free := 0, writeLengthReg := 0, readLengthReg := 0,
        outputState := .writeLength, bitCnt := 0 + 1#W,
        inRegCnt := setBit 0 0 (q.wrReqSize.getLsbD 0) } := by
      rw [stateAt_succ]
      simp only [stateAt, step, outputFsm, hstate, hbit, hbit0, htdi 0 (by omega)]
      rfl
    constructor
    · rw [hnext]
      refine ⟨rfl, BitVec.zero_add _, ?_, rfl, rfl, rfl⟩
      intro j hj
      obtain rfl : j = 0 := by omega
      rw [getLsbD_setBit _ _ (by omega), if_pos rfl]
    · apply not_popped
      simp only [stateAt, outputFsm, hstate]
  | succ i ih =>
    exact (ih (by omega)).1.shift (.inl rfl) (by omega) rfl (htdi (i + 1) (by omega))

theorem rdReqSize_bit (hi : i < W) : (q.input (W + i)).tdi = q.rdReqSize.getLsbD i := by
  have h1 : ¬ W + i < W := by omega
  have h2 : W + i < 2 * W := by omega
  simp only [Exchange.input, if_neg h1, if_pos h2, Nat.add_sub_cancel_left]

/-- The second header word is received behind the first one, unless that is the reserved value. -/
theorem receives_rdReqSize (hW : 2 ≤ W) (hstate : s.outputState = .idle) (hbit : s.bitCnt = 0)
    (hwr : q.wrReqSize ≠ BitVec.allOnes W) (hi : i ≤ W - 1) :
    Receiving (stateAt step s q.input (W + i)) .readLength q.rdReqSize i q.wrReqSize := by
  induction i with
  | zero =>
    have hlast := toNat_ofNat_of_lt (by omega : W - 1 < W)
    have hW1 : W + 0 = W - 1 + 1 := by omega
    have hW2 : W - 1 = W - 2 + 1 := by omega
    have hrec := (receives_wrReqSize (q := q) hW hstate hbit le_rfl).1
    rw [← hW2] at hrec
    obtain ⟨hset, hconcat⟩ := hrec.complete hW
    have htdi0 : (q.input (W - 1)).tdi = q.wrReqSize.getLsbD (W - 1) := if_pos (by omega)
    rw [hW1, stateAt_succ]
    simp only [step, outputFsm, hrec.state, hrec.bit, hlast, htdi0, hset, hconcat, if_neg hwr,
      lt_irrefl, if_false]
    exact ⟨rfl, rfl, fun j hj => absurd hj (Nat.not_lt_zero j), hrec.words, hrec.count, rfl⟩
  | succ i ih =>
    exact ((ih (by omega)).shift (.inr rfl) (by omega) rfl (rdReqSize_bit (by omega))).1

theorem header_quiet (hW : 2 ≤ W) (hstate : s.outputState = .idle) (hbit : s.bitCnt = 0)
    (hwr : q.wrReqSize ≠ BitVec.allOnes W) (hi : i < 2 * W - 1) :
    popped (stateAt step s q.input (0 + i)) (q.input (0 + i)) = none := by
  rw [Nat.zero_add]
  by_cases hfirst : i ≤ W - 2
  · exact (receives_wrReqSize hW hstate hbit hfirst).2
  by_cases hlast : i = W - 1
  · have hW2 : W - 1 = W - 2 + 1 := by omega
    have hrec := (receives_wrReqSize (q := q) hW hstate hbit le_rfl).1
    rw [hlast, hW2]
    apply not_popped
    simp only [outputFsm, hrec.state]
  · obtain ⟨j, rfl⟩ : ∃ j, i = W + j := ⟨i - W, by omega⟩
    have hrec := receives_rdReqSize (q := q) hW hstate hbit hwr (by omega : j ≤ W - 1)
    exact (hrec.shift (.inr rfl) (by omega) rfl (rdReqSize_bit (by omega))).2

def Exchange.start {W : ℕ} (q : Exchange W) : OutputState :=
  if 0 < q.rdReqSize.toNat then if q.available 0 then .sendData else .noData
  else if 0 < q.payloadLen then .noData else .sendCountWrite

theorem toNat_pos {x : BitVec W} : 0 < x.toNat ↔ x ≠ 0 := by
  constructor
  · rintro h rfl
    simp at h
  · intro h
    exact Nat.pos_of_ne_zero fun h0 => h (BitVec.eq_of_toNat_eq (by simpa using h0))

theorem header_last (hW : 2 ≤ W) (hrec : Receiving st .readLength q.rdReqSize (W - 1) q.wrReqSize) :
    popped st (q.input (2 * W - 1)) =
      (if 0 < q.rdReqSize.toNat ∧ q.available 0 then some (q.loaded 0) else none) ∧
    ∃ inRegCnt : BitVec W, inRegCnt.toNat = q.payloadLen ∧ step st (q.input (2 * W - 1)) =
      { st with outputState := q.start, outReg := q.loaded 0, bitCnt := 0, inRegCnt,
                readLengthReg := q.rdReqSize } := by
  have hcnt := toNat_ofNat_of_lt (by omega : W - 1 < W)
  obtain ⟨hset, hconcat⟩ := hrec.complete hW
  have htdi : (q.input (2 * W - 1)).tdi = q.rdReqSize.getLsbD (W - 1) := by
    rw [(by omega : 2 * W - 1 = W + (W - 1))]
    exact rdReqSize_bit (by omega)
  have hfifo : q.loaded 0 = q.fifoData (2 * W - 1) ∧ q.available 0 = q.fifoValid (2 * W - 1) := by
    simp only [Exchange.loaded, Exchange.available, Nat.zero_add, and_self]
  by_cases hr : 0 < q.rdReqSize.toNat
  · have hstep : outputFsm st (q.input (2 * W - 1)) =
        ({ st with
            outReg := q.loaded 0, bitCnt := 0, readLengthReg := q.rdReqSize,
            outputState := if q.available 0 then .sendData else .noData,
            inRegCnt := if q.rdReqSize < q.wrReqSize then q.wrReqSize else q.rdReqSize },
          { tdo := (q.loaded 0).getLsbD 0, fifoReady := q.available 0 }) := by
      simp only [outputFsm, hrec.state, hrec.bit, hcnt, htdi, hset, hconcat, hrec.length, lt_irrefl,
        if_false, hfifo.1, hfifo.2, ne_eq, toNat_pos.mp hr, not_false_eq_true, if_true]
      rfl
    constructor
    · simp only [popped, hstep, hr, true_and]
      rw [hfifo.1, hfifo.2]
      simp only [Exchange.input, Bool.and_self]
    · refine ⟨if q.rdReqSize < q.wrReqSize then q.wrReqSize else q.rdReqSize, ?_, ?_⟩
      · simp only [Exchange.payloadLen, BitVec.lt_def]
        split_ifs <;> omega
      · simp only [step, hstep, Exchange.start, if_pos hr]
        rfl
  · have hzero : q.rdReqSize = 0 := by
      by_contra h0
      exact hr (toNat_pos.mpr h0)
    have hnot : ¬ q.rdReqSize ≠ 0 := not_not.mpr hzero
    have hlen : q.payloadLen = q.wrReqSize.toNat := by
      simp only [Exchange.payloadLen]
      omega
    have hstep : outputFsm st (q.input (2 * W - 1)) =
        ({ st with
            outReg := q.loaded 0, bitCnt := 0, readLengthReg := q.rdReqSize,
            outputState := q.start, inRegCnt := q.wrReqSize },
          { tdo := (q.loaded 0).getLsbD 0, fifoReady := false }) := by
      simp only [outputFsm, hrec.state, hrec.bit, hcnt, htdi, hset, hconcat, hrec.length, lt_irrefl,
        if_false, hfifo.1, Exchange.start, if_neg hr, hlen, if_neg hnot]
      by_cases hw : 0 < q.wrReqSize.toNat
      · have hlt : 0 < q.wrReqSize := by simpa [BitVec.lt_def] using hw
        simp only [if_pos hlt, if_pos hw]
        rfl
      · have hnlt : ¬ 0 < q.wrReqSize := by simpa [BitVec.lt_def] using hw
        have heq : q.wrReqSize = q.rdReqSize := by
          apply BitVec.eq_of_toNat_eq
          omega
        simp only [if_neg hnlt, if_neg hw]
        rw [heq]
        rfl
    constructor
    · simp only [popped, hstep, hr, false_and, if_false, Bool.false_and, Bool.false_eq_true]
    · refine ⟨q.wrReqSize, hlen.symm, ?_⟩
      simp only [step, hstep]
      rfl

end Header

/-! ## The frame -/

section Frame
variable {W : ℕ} {q : Exchange W} {s : State W}

/-- Some number of words is there in time, one after the other, and then one is not. -/
theorem exists_taken (q : Exchange W) (r : ℕ) :
    ∃ k ≤ r, (∀ i < k, q.available i = true) ∧ (k < r → q.available k = false) := by
  induction r with
  | zero => exact ⟨0, le_rfl, by simp, by simp⟩
  | succ r ih =>
    obtain ⟨k, hk, hall, hstop⟩ := ih
    by_cases hlast : k = r ∧ q.available r = true
    · refine ⟨r + 1, le_rfl, ?_, fun h => absurd h (lt_irrefl _)⟩
      intro i hi
      obtain hlt | rfl := Nat.lt_succ_iff_lt_or_eq.mp hi
      · exact hall i (hlast.1 ▸ hlt)
      · exact hlast.2
    · refine ⟨k, by omega, hall, fun _ => ?_⟩
      obtain hlt | hge := Nat.lt_or_ge k r
      · exact hstop hlt
      · obtain rfl : k = r := by omega
        simpa using hlast

/-- The payload of the response when `k` words are taken: the data words, then zero words. -/
theorem payload (hW : 2 ≤ W) (hstate : s.outputState = .idle) (hbit : s.bitCnt = 0)
    (hwr : q.wrReqSize ≠ BitVec.allOnes W) {k : ℕ} (hkr : k ≤ q.rdReqSize.toNat)
    (havail : ∀ i < k, q.available i = true)
    (hstop : k < q.rdReqSize.toNat → q.available k = false) :
    ∃ first rest, first ++ rest = (List.range k).map q.loaded ∧
      (trace step popped s q.input 0 (2 * W)).reduceOption = first ∧
      Sends s q.input ((0 + 2) * W)
        ((List.range k).map q.loaded ++ List.replicate (q.zeros k) 0) rest ∧
      Counted (stateAt step s q.input ((k + q.zeros k + 2) * W)) k := by
  have hrec := receives_rdReqSize (q := q) hW hstate hbit hwr le_rfl
  obtain ⟨hpop, inRegCnt, hlen, hend⟩ := header_last hW hrec
  have hcycle : 2 * W - 1 = W + (W - 1) := by omega
  have hfirst : (trace step popped s q.input 0 (2 * W)).reduceOption =
      (if 0 < q.rdReqSize.toNat ∧ q.available 0 then some (q.loaded 0) else none).toList := by
    rw [← Nat.sub_add_cancel (by omega : 1 ≤ 2 * W), trace_succ, List.reduceOption_append,
      reduceOption_quiet fun i hi => header_quiet hW hstate hbit hwr hi, Nat.zero_add, ← hpop, hcycle,
      List.nil_append]
    cases popped (stateAt step s q.input (W + (W - 1))) (q.input (W + (W - 1))) <;> rfl
  rw [← hcycle] at hrec hend
  rw [← stateAt_succ step, (by omega : 2 * W - 1 + 1 = (0 + 2) * W)] at hend
  have hle : q.rdReqSize.toNat ≤ q.payloadLen := le_max_right _ _
  cases k with
  | zero =>
    -- no data word is taken
    have hnone : ¬ (0 < q.rdReqSize.toNat ∧ q.available 0 = true) := by
      rintro ⟨hpos, h0⟩
      rw [hstop hpos] at h0
      cases h0
    have hzeros : q.zeros 0 = q.payloadLen := by
      rw [Exchange.zeros, if_neg (by omega)]
      rfl
    rw [if_neg hnone] at hfirst
    refine ⟨[], [], rfl, hfirst, ?_⟩
    rw [hzeros, List.range_zero, List.map_nil, List.nil_append]
    obtain hempty | hpos := Nat.eq_zero_or_pos q.payloadLen
    · have hstart : q.start = .sendCountWrite := by
        rw [Exchange.start, if_neg (by omega), if_neg (by omega)]
      rw [hempty, hend, hstart]
      exact ⟨Sends.nil, rfl, rfl, hrec.count⟩
    · have hstart : q.start = .noData := by
        rw [Exchange.start, if_pos hpos]
        split_ifs with h1 h2
        · exact absurd ⟨h1, h2⟩ hnone
        · rfl
        · rfl
      refine Counted.of_noData hW hend rfl hstart hrec.count hpos ?_
      simp [hrec.words, hlen]
  | succ d =>
    have h0 := havail 0 (Nat.succ_pos d)
    have hr : 0 < q.rdReqSize.toNat := by omega
    have hstart : q.start = .sendData := by
      rw [Exchange.start, if_pos hr, if_pos h0]
    rw [if_pos ⟨hr, h0⟩] at hfirst
    have hword : AtWord q (stateAt step s q.input ((0 + 2) * W)) 0 := by
      rw [hend]
      exact ⟨hr, hstart, rfl, rfl, hrec.words, hlen, rfl⟩
    obtain ⟨hsends, hcounted⟩ := hword.dataWords hW (by omega : d + 1 = 0 + d + 1) hkr havail hstop rfl
    rw [List.range_eq_range']
    exact ⟨[q.loaded 0], _, rfl, hfirst, hsends, hcounted⟩

theorem Counted.status (hW : 2 ≤ W) {a k : ℕ} (h : Counted (stateAt step s q.input a) k) :
    Sends s q.input a [q.status a] [] ∧ Sends s q.input (a + W) [BitVec.ofNat W k] [] := by
  obtain ⟨hstatus, free, hend⟩ := sendCountWrite_word hW rfl h.bit h.state
  have hcount := sendCountRead_word hW hend rfl rfl
  rw [h.count] at hcount
  exact ⟨hstatus, hcount⟩

theorem taken_eq {xs first rest : List (BitVec W)} (hlen : xs.length = q.payloadLen + 2)
    (hfirst : (trace step popped s q.input 0 (2 * W)).reduceOption = first)
    (hsends : Sends s q.input (2 * W) xs rest) : q.taken s = first ++ rest := by
  have hframe : q.frameLen = 2 * W + xs.length * W := by
    rw [Exchange.frameLen, hlen, ← Nat.add_mul, Nat.add_comm 2]
  rw [Exchange.taken, hframe, trace_add, List.reduceOption_append, hfirst, Nat.zero_add, hsends.pops]

/-- What the frame contains decides whether it is the frame described. -/
theorem frameOk_iff {xs first rest : List (BitVec W)} (hlen : xs.length = q.payloadLen + 2)
    (hfirst : (trace step popped s q.input 0 (2 * W)).reduceOption = first)
    (hsends : Sends s q.input (2 * W) xs rest) :
    q.FrameOk s ↔ (first ++ rest).length ≤ q.rdReqSize.toNat ∧
      xs.flatMap wordBits = (q.response (first ++ rest)).flatMap wordBits := by
  have hframe : q.frameLen = 2 * W + xs.length * W := by
    rw [Exchange.frameLen, hlen, ← Nat.add_mul, Nat.add_comm 2]
  rw [Exchange.FrameOk, taken_eq hlen hfirst hsends, hframe, trace_add, List.drop_left' length_trace,
    Nat.zero_add, hsends.bits]

theorem response_range (q : Exchange W) (k : ℕ) : q.response ((List.range k).map q.loaded) =
    (List.range k).map q.loaded ++ List.replicate (q.payloadLen - k) 0 ++
      [q.status ((q.payloadLen + 2) * W), BitVec.ofNat W k] := by
  simp [Exchange.response]

/-- Unless all the words wanted are there in time and more words are written, the words that are there
are taken, and the frame is the one described. -/
theorem frame_of_not_overrun (hW : 2 ≤ W) (hidle : s.outputState = .idle) (hbit : s.bitCnt = 0)
    (hwr : q.wrReqSize ≠ BitVec.allOnes W) (hover : ¬ q.Overrun) {k : ℕ} (hkr : k ≤ q.rdReqSize.toNat)
    (havail : ∀ i < k, q.available i = true) (hstop : k < q.rdReqSize.toNat → q.available k = false) :
    q.taken s = (List.range k).map q.loaded ∧ q.FrameOk s := by
  obtain ⟨first, rest, hdata, hfirst, hsends, hcounted⟩ := payload hW hidle hbit hwr hkr havail hstop
  have hkn : k ≤ q.payloadLen := hkr.trans (le_max_right _ _)
  obtain ⟨hstatus, hcount⟩ := hcounted.status hW
  rw [Nat.zero_add] at hsends
  have hlen : ((List.range k).map q.loaded ++ List.replicate (q.zeros k) 0).length = k + q.zeros k := by
    simp
  have hcycle : (k + q.zeros k + 2) * W = 2 * W +
      ((List.range k).map q.loaded ++ List.replicate (q.zeros k) 0).length * W := by
    rw [hlen, ← Nat.add_mul, Nat.add_comm 2]
  have hzeros : q.zeros k = q.payloadLen - k := by
    rw [Exchange.zeros, if_neg, Nat.add_zero]
    rintro ⟨hk, hpos, hlt⟩
    refine hover ⟨hk ▸ hpos, ?_, hk ▸ havail⟩
    simp only [Exchange.payloadLen] at hlt
    omega
  have hn : k + q.zeros k + 2 = q.payloadLen + 2 := by omega
  have hframe := hsends.append (by rw [← hcycle]; exact hstatus.cons hcount)
  have htotal : ((List.range k).map q.loaded ++ List.replicate (q.zeros k) 0 ++
      [q.status ((k + q.zeros k + 2) * W), BitVec.ofNat W k]).length = q.payloadLen + 2 := by
    rw [List.length_append, hlen]
    exact hn
  have htaken := taken_eq htotal hfirst hframe
  rw [List.append_nil, List.append_nil, hdata] at htaken
  refine ⟨htaken, (frameOk_iff htotal hfirst hframe).mpr ?_⟩
  rw [List.append_nil, List.append_nil, hdata, response_range, hn, hzeros, List.length_map, List.length_range]
  exact ⟨hkr, rfl⟩

theorem append_pair_iff {as : List (BitVec W)} {x y x' y' : BitVec W} :
    (as ++ [x, y]).flatMap wordBits = (as ++ [x', y']).flatMap wordBits ↔ x = x' ∧ y = y' := by
  simp only [List.flatMap_append, List.append_cancel_left_eq, List.flatMap_cons, List.flatMap_nil,
    List.append_nil]
  constructor
  · intro h
    obtain ⟨hx, hy⟩ := List.append_inj h (by rw [length_wordBits, length_wordBits])
    exact ⟨wordBits_injective hx, wordBits_injective hy⟩
  · rintro ⟨rfl, rfl⟩
    rfl

/-- **The response frame.** From `IDLE`, for every request and whatever the FIFO and the input side
do meanwhile, the frame is the one described, unless all the words wanted are there in time and more
words are written than wanted. Then one zero word too many moves the status words, and only status
words that look the same when moved keep the frame right. -/
theorem response_frame_iff {W : ℕ} (hW : 2 ≤ W) (past : ℕ → In W) (t : ℕ)
    (hidle : (stateAt step (reset W) past t).outputState = .idle) (q : Exchange W)
    (hwr : q.wrReqSize ≠ BitVec.allOnes W) :
    q.FrameOk (stateAt step (reset W) past t) ↔
      (q.Overrun → q.status ((q.payloadLen + 2) * W) = 0 ∧
        q.status ((q.payloadLen + 3) * W) = q.rdReqSize) := by
  have hbit := idle_bitCnt past t hidle
  generalize stateAt step (reset W) past t = s at hidle hbit
  obtain ⟨k, hkr, havail, hstop⟩ := exists_taken q q.rdReqSize.toNat
  by_cases hover : q.Overrun
  · obtain ⟨first, rest, hdata, hfirst, hsends, hcounted⟩ := payload hW hidle hbit hwr hkr havail hstop
    obtain ⟨hstatus, -⟩ := hcounted.status hW
    rw [Nat.zero_add] at hsends
    have hlen : ((List.range k).map q.loaded ++ List.replicate (q.zeros k) 0).length = k + q.zeros k := by
      simp
    have hcycle : (k + q.zeros k + 2) * W = 2 * W +
        ((List.range k).map q.loaded ++ List.replicate (q.zeros k) 0).length * W := by
      rw [hlen, ← Nat.add_mul, Nat.add_comm 2]
    obtain ⟨hpos, hlt, hall⟩ := id hover
    have hk : k = q.rdReqSize.toNat := by
      by_contra hne
      have hmore := hall k (by omega)
      rw [hstop (by omega)] at hmore
      cases hmore
    have hkn' : k < q.payloadLen := hk ▸ hlt.trans_le (le_max_left _ _)
    have hzeros : q.zeros k = q.payloadLen - k + 1 := by
      rw [Exchange.zeros, if_pos ⟨hk, by omega, hkn'⟩]
    have hn : k + q.zeros k + 2 = q.payloadLen + 3 := by omega
    -- the frame ends behind the first status word
    have hframe := hsends.append (by rwa [← hcycle])
    rw [frameOk_iff (by rw [List.length_append, hlen, hzeros, List.length_singleton]; omega) hfirst
      hframe, List.append_nil, hdata, response_range, hn, hzeros, List.replicate_succ', List.append_assoc,
      List.append_assoc, List.singleton_append, ← List.append_assoc, append_pair_iff, List.length_map,
      List.length_range, hk, BitVec.ofNat_toNat, BitVec.setWidth_eq]
    simp only [le_refl, true_and, hover, true_imp_iff, eq_comm]
  · have hframe := (frame_of_not_overrun hW hidle hbit hwr hover hkr havail hstop).2
    exact ⟨fun _ h => absurd h hover, fun _ => hframe⟩

/-- A request to write `w` words and to read `r`, against a FIFO that is never empty. -/
def steadyExchange (w r : BitVec 16) : Exchange 16 where
  wrReqSize := w
  rdReqSize := r
  rest := fun _ => false
  fifoValid := fun _ => true
  fifoData := fun t => BitVec.ofNat 16 t
  inWritten := fun _ => w
  inError := false

theorem steady_read_frameOk :
    (steadyExchange 1 2).FrameOk (stateAt step (reset 16) (steadyExchange 0 0).input 0) :=
  (response_frame_iff (by decide) (steadyExchange 0 0).input 0 rfl (steadyExchange 1 2) (by decide)).mpr
    fun h => absurd h.2.1 (by decide)

theorem steady_write_not_frameOk :
    ¬ (steadyExchange 2 1).FrameOk (stateAt step (reset 16) (steadyExchange 0 0).input 0) := by
  decide +kernel

end Frame

end GlipOsd.Jtag.OutputFsm
