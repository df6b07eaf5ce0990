import GlipOsd.Jtag.InputFsm
import GlipOsd.Jtag.ResponseFrame

/-! # The words that a request delivers

A request that is shifted without a pause after `capture`: cycle 0 is the one of `capture`, and word `m`
of the request takes the cycles `1 + m * W ..< 1 + (m + 1) * W`.
-/

namespace GlipOsd.Jtag.InputFsm
open OutputFsm Clocked
set_option autoImplicit false

variable {W L : ℕ}

/-- The words `xs` are shifted from cycle `a` on. -/
def Shifts (e : ℕ → In) (a : ℕ) (xs : List (BitVec W)) : Prop :=
  ∀ m (hm : m < xs.length), ∀ i < W,
    (e (a + (m * W + i))).shift = true ∧ (e (a + (m * W + i))).tdi = xs[m].getLsbD i

/-- Nothing but shifting happens. -/
def Quiet (i : In) : Prop := i.rst = false ∧ i.update = false ∧ i.capture = false

/-- The words that enter the FIFO in the `n` cycles from cycle `a` on. -/
def pushes (s : State W L) (e : ℕ → In) (a n : ℕ) : List (BitVec W) :=
  (trace step pushed s e a n).reduceOption

variable {s : State W L} {e : ℕ → In} {a n : ℕ} {x : BitVec W} {xs : List (BitVec W)}

theorem Shifts.head (h : Shifts e a (x :: xs)) :
    ∀ i < W, (e (a + i)).shift = true ∧ (e (a + i)).tdi = x.getLsbD i := by
  intro i hi
  have hbit := h 0 (Nat.succ_pos _) i hi
  rwa [Nat.zero_mul, Nat.zero_add] at hbit

theorem Shifts.tail (h : Shifts e a (x :: xs)) : Shifts e (a + W) xs := by
  intro m hm i hi
  have hbit := h (m + 1) (Nat.succ_lt_succ hm) i hi
  have hcycle : a + ((m + 1) * W + i) = a + W + (m * W + i) := by
    rw [Nat.succ_mul]
    omega
  rw [hcycle] at hbit
  exact hbit

theorem pushes_add (m : ℕ) : pushes s e a (n + m) = pushes s e a n ++ pushes s e (a + n) m := by
  rw [pushes, trace_add, List.reduceOption_append]
  rfl

theorem pushes_one : pushes s e a 1 = (pushed (stateAt step s e a) (e a)).toList := by
  rw [pushes, trace_succ]
  cases pushed (stateAt step s e a) (e a) <;> simp [trace]

theorem step_regs (st : State W L) {i : In} (hi : Quiet i) :
    (step st i).regs = (inputFsm st.regs st.fifo.inReady i).1 := by
  rw [step, hi.1, hi.2.1]
  rfl

/-! ## The rest of a request -/

/-- The registers once the words are dropped. -/
def Dropping (st : State W L) (acc : ℕ) : Prop :=
  st.regs.inputState = .dropPacket ∧ st.regs.accCnt = BitVec.ofNat W acc

theorem Dropping.next {st : State W L} {acc : ℕ} {i : In} (h : Dropping st acc) (hi : Quiet i) :
    Dropping (step st i) acc ∧ pushed st i = none := by
  obtain ⟨hstate, hacc⟩ := h
  have hfsm : inputFsm st.regs st.fifo.inReady i =
      ({ st.regs with bitCnt := 0, jtagReset := false }, none) := by
    simp [inputFsm, hstate, hi.2.1, hi.2.2]
  refine ⟨?_, pushed_of_none (by rw [hfsm])⟩
  rw [Dropping, step_regs st hi, hfsm]
  exact ⟨hstate, hacc⟩

theorem Dropping.run {acc : ℕ} (h : Dropping (stateAt step s e a) acc)
    (hquiet : ∀ j < n, Quiet (e (a + j))) :
    Dropping (stateAt step s e (a + n)) acc ∧ pushes s e a n = [] := by
  induction n with
  | zero => exact ⟨h, rfl⟩
  | succ n ih =>
    obtain ⟨hdrop, hpushes⟩ := ih fun j hj => hquiet j (Nat.lt_succ_of_lt hj)
    obtain ⟨hnext, hpushed⟩ := hdrop.next (hquiet n (Nat.lt_succ_self n))
    refine ⟨hnext, ?_⟩
    rw [pushes_add, hpushes, pushes_one, hpushed]
    rfl

/-! ## A word for the FIFO -/

/-- The first `i` bits of a word have been read, `c` words are to come, and `acc` have been accepted. -/
structure Reading (st : State W L) (i : ℕ) (x c : BitVec W) (acc : ℕ) : Prop where
  inputState : st.regs.inputState = .readPacket
  bitCnt : st.regs.bitCnt = BitVec.ofNat W i
  inRegCnt : st.regs.inRegCnt = c
  accCnt : st.regs.accCnt = BitVec.ofNat W acc
  bits : ∀ j < i, st.regs.inRegData.getLsbD j = x.getLsbD j

theorem Reading.next {st : State W L} {i : ℕ} {c : BitVec W} {acc : ℕ} {inp : In} (h : Reading st i x c acc)
    (hi : i < W - 1) (hinp : Quiet inp) (htdi : inp.tdi = x.getLsbD i) :
    Reading (step st inp) (i + 1) x c acc ∧ pushed st inp = none := by
  have hcnt : st.regs.bitCnt.toNat = i := by rw [h.bitCnt, toNat_ofNat_of_lt (by omega)]
  have hfsm : inputFsm st.regs st.fifo.inReady inp =
      ({ st.regs with
          error := false
          bitCnt := st.regs.bitCnt + 1#W
          inRegData := setBit st.regs.inRegData i inp.tdi }, none) := by
    simp only [inputFsm, h.inputState, hcnt, if_pos hi]
  refine ⟨?_, pushed_of_none (by rw [hfsm])⟩
  have hregs := step_regs st hinp
  rw [hfsm] at hregs
  constructor
  · rw [hregs]
    exact h.inputState
  · rw [hregs, ← ofNat_succ i, ← h.bitCnt]
  · rw [hregs]
    exact h.inRegCnt
  · rw [hregs]
    exact h.accCnt
  · rw [hregs, htdi]
    exact getLsbD_setBit_of_agree (by omega) h.bits

theorem Reading.run {c : BitVec W} {acc : ℕ} (h : Reading (stateAt step s e a) 0 x c acc)
    (hx : ∀ i < W, (e (a + i)).tdi = x.getLsbD i) (hn : n ≤ W - 1) (hquiet : ∀ j < n, Quiet (e (a + j))) :
    Reading (stateAt step s e (a + n)) n x c acc ∧ pushes s e a n = [] := by
  induction n with
  | zero => exact ⟨h, rfl⟩
  | succ n ih =>
    obtain ⟨hread, hpushes⟩ := ih (by omega) fun j hj => hquiet j (Nat.lt_succ_of_lt hj)
    obtain ⟨hnext, hpushed⟩ := hread.next (by omega) (hquiet n (Nat.lt_succ_self n)) (hx n (by omega))
    refine ⟨hnext, ?_⟩
    rw [pushes_add, hpushes, pushes_one, hpushed]
    rfl

/-- The last bit of a word, which enters the FIFO if there is room. -/
theorem Reading.last (hW : 2 ≤ W) {st : State W L} {c : BitVec W} {acc : ℕ} {inp : In}
    (h : Reading st (W - 1) x c acc) (hinp : Quiet inp) (htdi : inp.tdi = x.getLsbD (W - 1)) :
    if st.fifo.inReady then
      pushed st inp = some x ∧
        if c - 1#W = 0 then Dropping (step st inp) (acc + 1)
        else ∀ y, Reading (step st inp) 0 y (c - 1#W) (acc + 1)
    else pushed st inp = none ∧ Dropping (step st inp) acc := by
  have hcnt : st.regs.bitCnt.toNat = W - 1 := by rw [h.bitCnt, toNat_ofNat_of_lt (by omega)]
  have hregs := step_regs st hinp
  have hword : concatTop inp.tdi (setBit st.regs.inRegData (W - 1) inp.tdi) = x := by
    rw [htdi]
    apply concatTop_eq (by omega)
    intro j hj
    exact getLsbD_setBit_of_agree (by omega) h.bits j (by omega)
  cases hready : st.fifo.inReady with
  | true =>
    have hfsm : inputFsm st.regs st.fifo.inReady inp =
        ({ st.regs with
            error := false
            inRegData := setBit st.regs.inRegData (W - 1) inp.tdi
            bitCnt := 0
            accCnt := st.regs.accCnt + 1#W
            inRegCnt := c - 1#W
            inputState := if c - 1#W = 0 then .dropPacket else .readPacket }, some x) := by
      simp only [inputFsm, h.inputState, hcnt, lt_irrefl, if_false, if_true, hready, h.inRegCnt, hword]
    rw [hfsm] at hregs
    have hacc : (step st inp).regs.accCnt = BitVec.ofNat W (acc + 1) := by
      rw [hregs, ← ofNat_succ acc, ← h.accCnt]
    rw [if_pos rfl]
    refine ⟨by rw [pushed, if_pos hready, hfsm], ?_⟩
    split_ifs with hzero
    · exact ⟨by rw [hregs]; exact if_pos hzero, hacc⟩
    · refine fun y => ⟨by rw [hregs]; exact if_neg hzero, ?_, ?_, hacc, fun j hj => absurd hj (Nat.not_lt_zero j)⟩
      · rw [hregs]
        rfl
      · rw [hregs]
  | false =>
    have hfsm : inputFsm st.regs st.fifo.inReady inp =
        ({ st.regs with
            error := false
            inRegData := setBit st.regs.inRegData (W - 1) inp.tdi
            bitCnt := 0
            inputState := .dropPacket }, none) := by
      simp only [inputFsm, h.inputState, hcnt, lt_irrefl, if_false, if_true, hready, Bool.false_eq_true]
    rw [hfsm] at hregs
    rw [if_neg Bool.false_ne_true]
    refine ⟨pushed_of_none (by rw [hfsm]), by rw [hregs], ?_⟩
    rw [hregs]
    exact h.accCnt

/-- The FIFO has room when word `k` of those from cycle `a` on is complete. -/
def room (s : State W L) (e : ℕ → In) (a k : ℕ) : Bool :=
  (stateAt step s e (a + (k * W + (W - 1)))).fifo.inReady

theorem room_succ (k : ℕ) : room s e a (k + 1) = room s e (a + W) k := by
  have hcycle : a + ((k + 1) * W + (W - 1)) = a + W + (k * W + (W - 1)) := by
    rw [Nat.succ_mul]
    omega
  rw [room, room, hcycle]

theorem Reading.word (hW : 2 ≤ W) {c : BitVec W} {acc : ℕ} (h : Reading (stateAt step s e a) 0 x c acc)
    (hx : ∀ i < W, (e (a + i)).tdi = x.getLsbD i) (hquiet : ∀ j < W, Quiet (e (a + j))) :
    if room s e a 0 then
      pushes s e a W = [x] ∧
        if c - 1#W = 0 then Dropping (stateAt step s e (a + W)) (acc + 1)
        else ∀ y, Reading (stateAt step s e (a + W)) 0 y (c - 1#W) (acc + 1)
    else pushes s e a W = [] ∧ Dropping (stateAt step s e (a + W)) acc := by
  obtain ⟨hread, hpushes⟩ := h.run hx le_rfl fun j hj => hquiet j (by omega)
  have hlast := hread.last hW (hquiet (W - 1) (by omega)) (hx (W - 1) (by omega))
  have hsplit : pushes s e a W =
      (pushed (stateAt step s e (a + (W - 1))) (e (a + (W - 1)))).toList := by
    have hadd : pushes s e a (W - 1 + 1) = _ := pushes_add 1
    rwa [Nat.sub_add_cancel (by omega : 1 ≤ W), hpushes, List.nil_append, pushes_one] at hadd
  have hnext : stateAt step s e (a + W) = step (stateAt step s e (a + (W - 1))) (e (a + (W - 1))) := by
    rw [← stateAt_succ step, Nat.add_assoc, Nat.sub_add_cancel (by omega : 1 ≤ W)]
  have hroom : room s e a 0 = (stateAt step s e (a + (W - 1))).fifo.inReady := by
    rw [room, Nat.zero_mul, Nat.zero_add]
  rw [hroom, hsplit, hnext]
  cases hready : (stateAt step s e (a + (W - 1))).fifo.inReady with
  | true =>
    rw [hready, if_pos rfl] at hlast
    rw [if_pos rfl, hlast.1]
    exact ⟨rfl, hlast.2⟩
  | false =>
    rw [hready, if_neg Bool.false_ne_true] at hlast
    rw [if_neg Bool.false_ne_true, hlast.1]
    exact ⟨rfl, hlast.2⟩

/-- Of the words `xs`, `c` are meant for the FIFO: those before the first one that finds it full
enter it. -/
theorem payload_run (hW : 2 ≤ W) {c : BitVec W} {acc : ℕ}
    (h : ∀ y, Reading (stateAt step s e a) 0 y c acc) (hpos : c ≠ 0) (hc : c.toNat ≤ xs.length)
    (hshifts : Shifts e a xs) (hquiet : ∀ j < xs.length * W, Quiet (e (a + j))) :
    ∃ k ≤ c.toNat, pushes s e a (xs.length * W) = xs.take k ∧
      Dropping (stateAt step s e (a + xs.length * W)) (acc + k) ∧
        (∀ m < k, room s e a m = true) ∧ (k < c.toNat → room s e a k = false) := by
  induction xs generalizing a c acc with
  | nil =>
    have hzero : c.toNat = 0 := by simpa using hc
    exact absurd (BitVec.eq_of_toNat_eq hzero) hpos
  | cons x xs ih =>
    have hlen : (x :: xs).length * W = W + xs.length * W := by
      rw [List.length_cons, Nat.succ_mul, Nat.add_comm]
    rw [hlen] at hquiet
    have hcpos : 0 < c.toNat := Nat.pos_of_ne_zero fun h0 => hpos (BitVec.eq_of_toNat_eq h0)
    have hsub : (c - 1#W).toNat = c.toNat - 1 := by
      have hlt := c.isLt
      have hone : (1#W).toNat = 1 := BitVec.toNat_one (by omega)
      rw [BitVec.toNat_sub_of_le (by rw [BitVec.le_def, hone]; omega), hone]
    have hword := (h x).word hW (fun i hi => (hshifts.head i hi).2) fun j hj => hquiet j (by omega)
    have hrest (j : ℕ) (hj : j < xs.length * W) : Quiet (e (a + W + j)) := by
      rw [Nat.add_assoc]
      exact hquiet (W + j) (by omega)
    rw [hlen, pushes_add, ← Nat.add_assoc]
    cases hroom : room s e a 0 with
    | false =>
      rw [hroom, if_neg Bool.false_ne_true] at hword
      obtain ⟨hnone, hdrop⟩ := hword
      obtain ⟨hdrop', hnone'⟩ := hdrop.run hrest
      refine ⟨0, Nat.zero_le _, ?_, hdrop', fun m hm => absurd hm (Nat.not_lt_zero m), fun _ => hroom⟩
      rw [hnone, hnone']
      rfl
    | true =>
      rw [hroom, if_pos rfl] at hword
      obtain ⟨hone, hword⟩ := hword
      by_cases hzero : c - 1#W = 0
      · rw [if_pos hzero] at hword
        obtain ⟨hdrop', hnone'⟩ := hword.run hrest
        have hc1 : c.toNat = 1 := by
          have hzero' : (0 : BitVec W).toNat = 0 := by simp
          rw [hzero, hzero'] at hsub
          omega
        refine ⟨1, hcpos, ?_, hdrop', fun m hm => ?_, fun hlt => absurd hlt (by omega)⟩
        · rw [hone, hnone']
          rfl
        · rw [Nat.lt_one_iff.mp hm, hroom]
      · rw [if_neg hzero] at hword
        obtain ⟨k, hk, hpushes, hdrop, hready, hfull⟩ := ih hword hzero
          (by rw [hsub]; rw [List.length_cons] at hc; omega) hshifts.tail hrest
        rw [hsub] at hk hfull
        refine ⟨k + 1, by omega, ?_, ?_, fun m hm => ?_, fun hlt => ?_⟩
        · rw [hone, hpushes]
          rfl
        · rwa [Nat.add_assoc acc 1 k, Nat.add_comm 1 k] at hdrop
        · cases m with
          | zero => exact hroom
          | succ m =>
            rw [room_succ]
            exact hready m (by omega)
        · rw [room_succ]
          exact hfull (by omega)

/-! ## The header -/

/-- The first `i` bits of `WR_REQ_SIZE` have been read. -/
structure Measuring (st : State W L) (i : ℕ) (x : BitVec W) : Prop where
  inputState : st.regs.inputState = .readPacketLength
  bitCnt : st.regs.bitCnt = BitVec.ofNat W i
  accCnt : st.regs.accCnt = 0
  bits : ∀ j < i, st.regs.inRegCnt.getLsbD j = x.getLsbD j

/-- `i` bits of `RD_REQ_SIZE` have been passed over. -/
structure Ignoring (st : State W L) (i : ℕ) (c : BitVec W) : Prop where
  inputState : st.regs.inputState = .ignoreReadLength
  bitCnt : st.regs.bitCnt = BitVec.ofNat W i
  inRegCnt : st.regs.inRegCnt = c
  accCnt : st.regs.accCnt = 0

theorem measuring_first (hW : 2 ≤ W) {st : State W L} {inp : In} (hidle : st.regs.inputState = .idle)
    (hcnt : st.regs.bitCnt = 0) (hinp : Quiet inp) (hshift : inp.shift = true)
    (htdi : inp.tdi = x.getLsbD 0) : Measuring (step st inp) 1 x ∧ pushed st inp = none := by
  have hfsm : inputFsm st.regs st.fifo.inReady inp =
      ({ st.regs with
          error := false
          inRegData := 0
          jtagReset := false
          accCnt := 0
          inputState := .readPacketLength
          bitCnt := 1#W
          inRegCnt := setBit 0 0 inp.tdi }, none) := by
    simp [inputFsm, hidle, hcnt, hshift]
  have hregs := step_regs st hinp
  rw [hfsm] at hregs
  refine ⟨⟨by rw [hregs], by rw [hregs], by rw [hregs], ?_⟩, pushed_of_none (by rw [hfsm])⟩
  rw [hregs, htdi]
  exact getLsbD_setBit_of_agree (by omega) fun j hj => absurd hj (Nat.not_lt_zero j)

theorem Measuring.next {st : State W L} {i : ℕ} {inp : In} (h : Measuring st i x) (hi : i < W - 1)
    (hinp : Quiet inp) (htdi : inp.tdi = x.getLsbD i) :
    Measuring (step st inp) (i + 1) x ∧ pushed st inp = none := by
  have hcnt : st.regs.bitCnt.toNat = i := by rw [h.bitCnt, toNat_ofNat_of_lt (by omega)]
  have hfsm : inputFsm st.regs st.fifo.inReady inp =
      ({ st.regs with
          inRegCnt := setBit st.regs.inRegCnt i inp.tdi
          bitCnt := st.regs.bitCnt + 1#W }, none) := by
    simp only [inputFsm, h.inputState, hcnt, if_pos hi]
  have hregs := step_regs st hinp
  rw [hfsm] at hregs
  refine ⟨⟨?_, ?_, ?_, ?_⟩, pushed_of_none (by rw [hfsm])⟩
  · rw [hregs]
    exact h.inputState
  · rw [hregs, ← ofNat_succ i, ← h.bitCnt]
  · rw [hregs]
    exact h.accCnt
  · rw [hregs, htdi]
    exact getLsbD_setBit_of_agree (by omega) h.bits

theorem Measuring.last (hW : 2 ≤ W) {st : State W L} {inp : In} (h : Measuring st (W - 1) x)
    (hinp : Quiet inp) (htdi : inp.tdi = x.getLsbD (W - 1)) (hx : x ≠ BitVec.allOnes W) :
    pushed st inp = none ∧
      if x = 0 then Dropping (step st inp) 0 else Ignoring (step st inp) 0 x := by
  have hcnt : st.regs.bitCnt.toNat = W - 1 := by rw [h.bitCnt, toNat_ofNat_of_lt (by omega)]
  have hbits := getLsbD_setBit_of_agree (by omega : W - 1 < W) h.bits
  have hreg : setBit st.regs.inRegCnt (W - 1) (x.getLsbD (W - 1)) = x :=
    BitVec.eq_of_getLsbD_eq fun j hj => hbits j (by omega)
  have htop : concatTop (x.getLsbD (W - 1)) x = x := concatTop_eq (by omega) fun _ _ => rfl
  have hregs := step_regs st hinp
  have hfsm : inputFsm st.regs st.fifo.inReady inp =
      ({ st.regs with
          inRegCnt := x
          bitCnt := 0
          inputState := if x = 0 then .dropPacket else .ignoreReadLength
          jtagReset := false
          error := if x = 0 then st.regs.error else false }, none) := by
    simp only [inputFsm, h.inputState, hcnt, lt_irrefl, if_false, if_true, htdi, hreg, htop, if_neg hx]
    by_cases hzero : x = 0
    · rw [if_neg (not_not.mpr hzero), if_pos hzero, if_pos hzero]
    · rw [if_pos hzero, if_neg hzero, if_neg hzero]
  rw [hfsm] at hregs
  refine ⟨pushed_of_none (by rw [hfsm]), ?_⟩
  have hacc : (step st inp).regs.accCnt = 0 := by
    rw [hregs]
    exact h.accCnt
  split_ifs with hzero
  · exact ⟨by rw [hregs]; exact if_pos hzero, hacc⟩
  · exact ⟨by rw [hregs]; exact if_neg hzero, by rw [hregs]; rfl, by rw [hregs], hacc⟩

theorem Ignoring.next {st : State W L} {i : ℕ} {c : BitVec W} {inp : In} (h : Ignoring st i c) (hi : i < W)
    (hinp : Quiet inp) : pushed st inp = none ∧
      if i = W - 1 then ∀ y, Reading (step st inp) 0 y c 0 else Ignoring (step st inp) (i + 1) c := by
  have hcnt : st.regs.bitCnt.toNat = i := by rw [h.bitCnt, toNat_ofNat_of_lt hi]
  have hregs := step_regs st hinp
  split_ifs with hlast
  · have hfsm : inputFsm st.regs st.fifo.inReady inp =
        ({ st.regs with bitCnt := 0, inputState := .readPacket }, none) := by
      simp only [inputFsm, h.inputState, hcnt, if_pos hlast]
    rw [hfsm] at hregs
    refine ⟨pushed_of_none (by rw [hfsm]), fun y => ⟨by rw [hregs], by rw [hregs]; rfl, ?_, ?_,
      fun j hj => absurd hj (Nat.not_lt_zero j)⟩⟩
    · rw [hregs]
      exact h.inRegCnt
    · rw [hregs]
      exact h.accCnt
  · have hfsm : inputFsm st.regs st.fifo.inReady inp =
        ({ st.regs with bitCnt := st.regs.bitCnt + 1#W }, none) := by
      simp only [inputFsm, h.inputState, hcnt, if_neg hlast]
    rw [hfsm] at hregs
    refine ⟨pushed_of_none (by rw [hfsm]), ?_, by rw [hregs, ← ofNat_succ i, ← h.bitCnt], ?_, ?_⟩
    · rw [hregs]
      exact h.inputState
    · rw [hregs]
      exact h.inRegCnt
    · rw [hregs]
      exact h.accCnt

theorem measuring_run (hW : 2 ≤ W) (hidle : (stateAt step s e a).regs.inputState = .idle)
    (hcnt : (stateAt step s e a).regs.bitCnt = 0)
    (hshift : ∀ i < W, (e (a + i)).shift = true ∧ (e (a + i)).tdi = x.getLsbD i)
    (hquiet : ∀ j < W, Quiet (e (a + j))) (hpos : 1 ≤ n) (hn : n ≤ W - 1) :
    Measuring (stateAt step s e (a + n)) n x ∧ pushes s e a n = [] := by
  induction n, hpos using Nat.le_induction with
  | base =>
    obtain ⟨hfirst, hpushed⟩ := measuring_first hW hidle hcnt (hquiet 0 (by omega)) (hshift 0 (by omega)).1
      (hshift 0 (by omega)).2
    refine ⟨hfirst, ?_⟩
    rw [pushes_one]
    exact congrArg Option.toList hpushed
  | succ n hpos ih =>
    obtain ⟨hmeasure, hpushes⟩ := ih (by omega)
    obtain ⟨hnext, hpushed⟩ := hmeasure.next (by omega) (hquiet n (by omega)) (hshift n (by omega)).2
    refine ⟨hnext, ?_⟩
    rw [pushes_add, hpushes, pushes_one, hpushed]
    rfl

theorem header_run (hW : 2 ≤ W) (hidle : (stateAt step s e a).regs.inputState = .idle)
    (hcnt : (stateAt step s e a).regs.bitCnt = 0) (hx : x ≠ BitVec.allOnes W)
    (hshift : ∀ i < W, (e (a + i)).shift = true ∧ (e (a + i)).tdi = x.getLsbD i)
    (hquiet : ∀ j < W, Quiet (e (a + j))) :
    pushes s e a W = [] ∧
      if x = 0 then Dropping (stateAt step s e (a + W)) 0 else Ignoring (stateAt step s e (a + W)) 0 x := by
  obtain ⟨hmeasure, hpushes⟩ := measuring_run hW hidle hcnt hshift hquiet (by omega : 1 ≤ W - 1) le_rfl
  obtain ⟨hpushed, hnext⟩ := hmeasure.last hW (hquiet (W - 1) (by omega)) (hshift (W - 1) (by omega)).2 hx
  rw [← stateAt_succ step, Nat.add_assoc, Nat.sub_add_cancel (by omega : 1 ≤ W)] at hnext
  have hsplit : pushes s e a (W - 1 + 1) = _ := pushes_add 1
  rw [hpushes, pushes_one, hpushed, Nat.sub_add_cancel (by omega : 1 ≤ W)] at hsplit
  exact ⟨hsplit, hnext⟩

theorem Ignoring.run {c : BitVec W} (h : Ignoring (stateAt step s e a) 0 c) (hn : n < W)
    (hquiet : ∀ j < n, Quiet (e (a + j))) :
    Ignoring (stateAt step s e (a + n)) n c ∧ pushes s e a n = [] := by
  induction n with
  | zero => exact ⟨h, rfl⟩
  | succ n ih =>
    obtain ⟨hignore, hpushes⟩ := ih (by omega) fun j hj => hquiet j (Nat.lt_succ_of_lt hj)
    obtain ⟨hpushed, hnext⟩ := hignore.next (by omega) (hquiet n (Nat.lt_succ_self n))
    rw [if_neg (by omega)] at hnext
    refine ⟨hnext, ?_⟩
    rw [pushes_add, hpushes, pushes_one, hpushed]
    rfl

theorem Ignoring.word (hW : 2 ≤ W) {c : BitVec W} (h : Ignoring (stateAt step s e a) 0 c)
    (hquiet : ∀ j < W, Quiet (e (a + j))) :
    (∀ y, Reading (stateAt step s e (a + W)) 0 y c 0) ∧ pushes s e a W = [] := by
  obtain ⟨hignore, hpushes⟩ := h.run (by omega : W - 1 < W) fun j hj => hquiet j (by omega)
  obtain ⟨hpushed, hnext⟩ := hignore.next (by omega) (hquiet (W - 1) (by omega))
  rw [if_pos rfl, ← stateAt_succ step, Nat.add_assoc, Nat.sub_add_cancel (by omega : 1 ≤ W)] at hnext
  have hsplit : pushes s e a (W - 1 + 1) = _ := pushes_add 1
  rw [hpushes, pushes_one, hpushed, Nat.sub_add_cancel (by omega : 1 ≤ W)] at hsplit
  exact ⟨hnext, hsplit⟩

/-! ## A request -/

/-- The words of a request: the header, the payload and the tail. -/
def requestWords (w r : BitVec W) (payload : List (BitVec W)) (tail : BitVec W × BitVec W) : List (BitVec W) :=
  w :: r :: (payload ++ [tail.1, tail.2])

/-- The first `k` words of the payload are the ones that enter the FIFO by cycle `stop`, and `acc_cnt` says
so from the end of the payload on. -/
structure Accepts (s : State W L) (e : ℕ → In) (w : BitVec W) (payload : List (BitVec W)) (stop k : ℕ) :
    Prop where
  le : k ≤ w.toNat
  pushes : pushes s e 0 stop = payload.take k
  accCnt : ∀ t, 1 + (payload.length + 2) * W ≤ t → t ≤ stop → (stateAt step s e t).regs.accCnt.toNat = k
  room : ∀ m < k, room s e (1 + 2 * W) m = true
  full : k < w.toNat → InputFsm.room s e (1 + 2 * W) k = false

theorem request_payload (hW : 2 ≤ W) {w r : BitVec W} {payload : List (BitVec W)} {tail : BitVec W × BitVec W}
    (hw : w ≠ BitVec.allOnes W) (hlen : w.toNat ≤ payload.length)
    (hidle : (stateAt step s e a).regs.inputState = .idle) (hcnt : (stateAt step s e a).regs.bitCnt = 0)
    (hshifts : Shifts e a (requestWords w r payload tail))
    (hquiet : ∀ j < 2 * W + payload.length * W, Quiet (e (a + j))) :
    ∃ k ≤ w.toNat, pushes s e a (2 * W + payload.length * W) = payload.take k ∧
      Dropping (stateAt step s e (a + (2 * W + payload.length * W))) k ∧
        (∀ m < k, room s e (a + 2 * W) m = true) ∧ (k < w.toNat → room s e (a + 2 * W) k = false) := by
  have hq (b n : ℕ) (hn : b + n ≤ 2 * W + payload.length * W) : ∀ j < n, Quiet (e (a + b + j)) := by
    intro j hj
    rw [Nat.add_assoc]
    exact hquiet (b + j) (by omega)
  obtain ⟨hhead, hcase⟩ := header_run hW hidle hcnt hw hshifts.head (hq 0 W (by omega))
  have hbase : a + 2 * W = a + W + W := by omega
  have hend : a + (2 * W + payload.length * W) = a + W + W + payload.length * W := by omega
  have hsplit : pushes s e a (2 * W + payload.length * W) =
      pushes s e (a + W) W ++ pushes s e (a + W + W) (payload.length * W) := by
    rw [two_mul, pushes_add, pushes_add, hhead, ← Nat.add_assoc]
    rfl
  have hq1 := hq W W (by omega)
  have hq2 := hq (2 * W) (payload.length * W) le_rfl
  rw [hbase] at hq2
  rw [hbase, hend, hsplit]
  by_cases hzero : w = 0
  · rw [if_pos hzero] at hcase
    obtain ⟨hdrop1, hnone1⟩ := hcase.run hq1
    obtain ⟨hdrop2, hnone2⟩ := hdrop1.run hq2
    refine ⟨0, Nat.zero_le _, ?_, hdrop2, fun m hm => absurd hm (Nat.not_lt_zero m), fun hlt => ?_⟩
    · rw [hnone1, hnone2]
      rfl
    · rw [hzero] at hlt
      simp at hlt
  · rw [if_neg hzero] at hcase
    obtain ⟨hread, hnone⟩ := hcase.word hW hq1
    have htail : Shifts e (a + W + W) payload := fun m hm i hi => by
      have hbit := hshifts.tail.tail m (by rw [List.length_append]; omega) i hi
      rwa [List.getElem_append_left hm] at hbit
    obtain ⟨k, hk, hpushes, hdrop, hready, hfull⟩ := payload_run hW hread hzero hlen htail hq2
    rw [Nat.zero_add] at hdrop
    exact ⟨k, hk, by rw [hnone, hpushes]; rfl, hdrop, hready, hfull⟩

theorem request_run (hW : 2 ≤ W) {w r : BitVec W} {payload : List (BitVec W)} {tail : BitVec W × BitVec W}
    {stop : ℕ} (hw : w ≠ BitVec.allOnes W) (hlen : payload.length = max w.toNat r.toNat)
    (hdrop : s.regs.inputState = .dropPacket)
    (hcapture : (e 0).rst = false ∧ (e 0).update = false ∧ (e 0).capture = true)
    (hshifts : Shifts e 1 (requestWords w r payload tail)) (hstop : 1 + (payload.length + 4) * W ≤ stop)
    (hquiet : ∀ t, 1 ≤ t → t < stop → Quiet (e t)) : ∃ k, Accepts s e w payload stop k := by
  have hfsm : inputFsm s.regs s.fifo.inReady (e 0) = (({ s.regs with
      bitCnt := 0, inputState := .idle, error := false, jtagReset := false } : Regs W), none) := by
    simp [inputFsm, hdrop, hcapture.2.2]
  have hregs : (stateAt step s e 1).regs = (inputFsm s.regs s.fifo.inReady (e 0)).1 := by
    show (step s (e 0)).regs = _
    rw [step, hcapture.1, hcapture.2.1]
    rfl
  have hstart : pushes s e 0 1 = [] := by
    rw [pushes_one]
    exact congrArg Option.toList (pushed_of_none (by rw [stateAt, hfsm]))
  rw [hfsm] at hregs
  have hbody : (payload.length + 2) * W = 2 * W + payload.length * W := by
    rw [Nat.add_mul]
    omega
  have htotal : (payload.length + 4) * W = 2 * W + payload.length * W + 2 * W := by
    rw [Nat.add_mul]
    omega
  have hq (b n : ℕ) (hb : 1 ≤ b) (hn : b + n ≤ stop) : ∀ j < n, Quiet (e (b + j)) :=
    fun j hj => hquiet (b + j) (by omega) (by omega)
  obtain ⟨k, hk, hpushes, hdropping, hready, hfull⟩ := request_payload hW hw
    (by rw [hlen]; exact le_max_left _ _) (by rw [hregs]) (by rw [hregs]) hshifts (hq 1 _ le_rfl (by omega))
  have hrest (t : ℕ) (ht : 1 + (2 * W + payload.length * W) ≤ t) (hts : t ≤ stop) :
      Dropping (stateAt step s e t) k ∧ pushes s e (1 + (2 * W + payload.length * W))
        (t - (1 + (2 * W + payload.length * W))) = [] := by
    have hrun := hdropping.run (n := t - (1 + (2 * W + payload.length * W))) (hq _ _ (by omega) (by omega))
    rwa [Nat.add_sub_cancel' ht] at hrun
  refine ⟨k, hk, ?_, fun t ht hts => ?_, hready, hfull⟩
  · have hfront : pushes s e 0 (1 + (2 * W + payload.length * W)) = payload.take k := by
      rw [pushes_add, hstart, Nat.zero_add, hpushes]
      rfl
    have hsplit : pushes s e 0 (1 + (2 * W + payload.length * W) +
        (stop - (1 + (2 * W + payload.length * W)))) = _ := pushes_add _
    rw [hfront, Nat.zero_add, (hrest stop (by omega) le_rfl).2, List.append_nil,
      Nat.add_sub_cancel' (by omega)] at hsplit
    exact hsplit
  · rw [(hrest t (by omega) hts).1.2, BitVec.toNat_ofNat, Nat.mod_eq_of_lt]
    have hlt := w.isLt
    omega

/-- Since the last reset or `update` there was no `capture` up to cycle `c`. -/
def AwaitsCapture (e : ℕ → In) (c : ℕ) : Prop :=
  ∃ u < c, ((e u).rst = true ∨ (e u).update = true) ∧ ∀ t, u < t → t < c → (e t).capture = false

theorem dropPacket_of_awaitsCapture {c : ℕ} (h : AwaitsCapture e c) :
    (stateAt step s e c).regs.inputState = .dropPacket := by
  obtain ⟨u, huc, hu, hcapture⟩ := h
  have hrun (n : ℕ) (hn : u + 1 + n ≤ c) : (stateAt step s e (u + 1 + n)).regs.inputState = .dropPacket := by
    induction n with
    | zero =>
      show (step (stateAt step s e u) (e u)).regs.inputState = .dropPacket
      obtain hu | hu := hu <;> simp [step, hu]
    | succ n ih =>
      have hdrop := ih (by omega)
      have hquiet := hcapture (u + 1 + n) (by omega) (by omega)
      show (step (stateAt step s e (u + 1 + n)) (e (u + 1 + n))).regs.inputState = .dropPacket
      cases hrst : (e (u + 1 + n)).rst <;> cases hupdate : (e (u + 1 + n)).update <;>
        simp [step, inputFsm, hdrop, hquiet, hrst, hupdate]
  have hc := hrun (c - (u + 1)) (by omega)
  rwa [Nat.add_sub_cancel' huc] at hc

/-- **Accepted words.** A data request that is shifted without a pause after a `capture` in cycle `c`. The first
`k` words of the payload enter the FIFO, where `k` is the value of `acc_cnt` from the end of the payload
on; it is `w` unless the FIFO was full at the end of word `k`. -/
theorem accepts_prefix (hW : 2 ≤ W) (s : State W L) (e : ℕ → In) (c : ℕ) (w r : BitVec W)
    (payload : List (BitVec W)) (tail : BitVec W × BitVec W) (stop : ℕ) (hw : w ≠ BitVec.allOnes W)
    (hlen : payload.length = max w.toNat r.toNat) (hbefore : AwaitsCapture e c)
    (hcapture : (e c).rst = false ∧ (e c).update = false ∧ (e c).capture = true)
    (hshifts : Shifts (fun t => e (c + t)) 1 (requestWords w r payload tail))
    (hstop : 1 + (payload.length + 4) * W ≤ stop) (hquiet : ∀ t, 1 ≤ t → t < stop → Quiet (e (c + t))) :
    ∃ k, Accepts (stateAt step s e c) (fun t => e (c + t)) w payload stop k :=
  request_run hW hw hlen (dropPacket_of_awaitsCapture hbefore) hcapture hshifts hstop hquiet

/-- An `update`, a `capture`, and a request of two bit words: one to write and none to read. -/
def writeOne (t : ℕ) : In :=
  ⟨false, t == 2 || t == 7, 2 ≤ t, t == 0, t == 1, true⟩

def resetState : State 2 1 := ⟨⟨false, false, .dropPacket, 0, 0, 0, 0⟩, .reset [0]⟩

theorem write_one_accepted :
    ∃ k, Accepts (stateAt step resetState writeOne 1) (fun t => writeOne (1 + t)) 1#2 [2#2] 11 k := by
  refine accepts_prefix le_rfl resetState writeOne 1 1#2 0#2 [2#2] (0#2, 0#2) 11 (by decide) (by decide)
    ⟨0, by decide, .inr rfl, by omega⟩ ⟨rfl, rfl, rfl⟩ ?_ (by decide) ?_
  · unfold Shifts
    decide
  · intro t ht _
    refine ⟨rfl, ?_, ?_⟩
    · simp [writeOne]
    · simp [writeOne]
      omega

end GlipOsd.Jtag.InputFsm
