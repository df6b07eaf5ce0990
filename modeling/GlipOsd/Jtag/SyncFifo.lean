import GlipOsd.Foundations.Streams
import GlipOsd.Jtag.InputFsm

/-! # The FIFO in front of the clock domain crossing

`glip_jtag_fifo` is a queue: the one-hot write pointer counts the words that are stored, and they are in
the first cells, the oldest one in cell 0.
-/

namespace GlipOsd.Jtag.JtagFifo
open Clocked Runs Streams
set_option autoImplicit false

variable {w L : ℕ}

/-- The number of words stored. -/
def level (s : JtagFifo w L) : ℕ := s.fifoWritePtr.toNat.log2

def words (s : JtagFifo w L) : List (BitVec w) := s.fifoData.take s.level

/-- The words that leave and enter at a clock edge. -/
def popped (s : JtagFifo w L) (outReady : Bool) : List (BitVec w) :=
  if s.outValid && outReady then [s.outFlit] else []

def pushed (s : JtagFifo w L) (inFlit : BitVec w) (inValid : Bool) : List (BitVec w) :=
  if inValid && s.inReady then [inFlit] else []

/-- The FIFO has `n` words. -/
structure Wf (s : JtagFifo w L) (n : ℕ) : Prop where
  le : n ≤ L
  ptr : s.fifoWritePtr = 1#(L + 1) <<< n
  length : s.fifoData.length = L

theorem toNat_oneHot {n : ℕ} (hn : n ≤ L) : (1#(L + 1) <<< n).toNat = 2 ^ n := by
  have hlt : 2 ^ n < 2 ^ (L + 1) := Nat.pow_lt_pow_right (by norm_num) (by omega)
  rw [← BitVec.twoPow_eq, BitVec.toNat_twoPow, Nat.mod_eq_of_lt hlt]

section Queue
variable {s : JtagFifo w L} {n : ℕ}

theorem Wf.level_eq (h : Wf s n) : s.level = n := by
  rw [level, h.ptr, toNat_oneHot h.le, Nat.log2_two_pow]

theorem Wf.outValid_eq (h : Wf s n) : s.outValid = decide (0 < n) := by
  rw [outValid, h.ptr, getLsbD_oneHot (Nat.succ_pos L)]
  cases n <;> simp

theorem Wf.inReady_eq (h : Wf s n) : s.inReady = decide (n < L) := by
  have hle := h.le
  rw [inReady, h.ptr, getLsbD_oneHot (Nat.lt_succ_self L)]
  by_cases heq : L = n
  · simp [heq]
  · simp [heq]
    omega

theorem Wf.words_eq (h : Wf s n) : s.words = (List.range n).map fun i => s.fifoData.getD i 0 := by
  apply List.ext_getElem?
  intro i
  rw [words, h.level_eq, List.getElem?_map]
  by_cases hi : i < n
  · have hcell : i < s.fifoData.length := by
      rw [h.length]
      exact hi.trans_le h.le
    rw [List.getElem?_take_of_lt hi, List.getElem?_range hi, Option.map_some, List.getD_eq_getElem?_getD,
      List.getElem?_eq_getElem hcell, Option.getD_some]
  · rw [List.getElem?_take_eq_none (by omega), List.getElem?_eq_none (by rw [List.length_range]; omega),
      Option.map_none]

theorem Wf.length_words (h : Wf s n) : s.words.length = n := by
  rw [h.words_eq, List.length_map, List.length_range]

theorem wf_reset {data : List (BitVec w)} (hdata : data.length = L) : Wf (reset (L := L) data) 0 :=
  ⟨Nat.zero_le L, (BitVec.shiftLeft_zero _).symm, hdata⟩

theorem oneHot_shiftRight (hn : n < L) : 1#(L + 1) <<< (n + 1) >>> 1 = 1#(L + 1) <<< n := by
  apply BitVec.eq_of_toNat_eq
  rw [BitVec.toNat_ushiftRight, toNat_oneHot hn, toNat_oneHot hn.le, Nat.shiftRight_eq_div_pow, pow_one,
    pow_succ, Nat.mul_div_cancel _ (by norm_num)]

theorem words_of_cells {s' : JtagFifo w L} {f : ℕ → BitVec w} (h : Wf s' n)
    (hcells : s'.fifoData = (List.range L).map f) : s'.words = (List.range n).map f := by
  rw [words, h.level_eq, hcells, ← List.map_take, List.take_range, Nat.min_eq_left h.le]

theorem wf_next_reset (inFlit : BitVec w) (inValid outReady : Bool) :
    Wf (s.next true inFlit inValid outReady) 0 :=
  ⟨Nat.zero_le L, (BitVec.shiftLeft_zero _).symm, by simp [next]⟩

section Cases
variable {inValid outReady : Bool}

theorem length_next (s : JtagFifo w L) (rst : Bool) (inFlit : BitVec w) (inValid outReady : Bool) :
    (s.next rst inFlit inValid outReady).fifoData.length = L := by
  rw [next, List.length_map, List.length_range]

theorem Wf.next_replace {m : ℕ} (h : Wf s (m + 1)) (inFlit : BitVec w) (hpop : (s.outValid && outReady) = true)
    (hpush : (inValid && s.inReady) = true) :
    Wf (s.next false inFlit inValid outReady) (m + 1) ∧ (s.next false inFlit inValid outReady).words =
      (List.range m).map (fun i => s.fifoData.getD (i + 1) 0) ++ [inFlit] := by
  have hle := h.le
  have hwf : Wf (s.next false inFlit inValid outReady) (m + 1) := by
    refine ⟨hle, ?_, length_next ..⟩
    simp only [next, hpop, hpush, h.ptr]
    rfl
  refine ⟨hwf, ?_⟩
  rw [words_of_cells hwf rfl, List.range_succ, List.map_append]
  congr 1
  · apply List.map_congr_left
    intro i hi
    have hlt := List.mem_range.mp hi
    simp only [hpop, hpush, h.ptr, getLsbD_oneHot (by omega : i + 1 < L + 1), Bool.true_and, if_true]
    rw [if_neg (by simp; omega), if_pos (by omega)]
  · simp only [hpop, hpush, h.ptr, getLsbD_oneHot (Nat.lt_succ_of_le hle), Bool.true_and, if_true,
      List.map_cons, List.map_nil, decide_true]

theorem Wf.next_leave {m : ℕ} (h : Wf s (m + 1)) (inFlit : BitVec w) (hpop : (s.outValid && outReady) = true)
    (hpush : (inValid && s.inReady) = false) :
    Wf (s.next false inFlit inValid outReady) m ∧ (s.next false inFlit inValid outReady).words =
      (List.range m).map fun i => s.fifoData.getD (i + 1) 0 := by
  have hle := h.le
  have hwf : Wf (s.next false inFlit inValid outReady) m := by
    refine ⟨by omega, ?_, length_next ..⟩
    simp only [next, hpop, hpush, h.ptr, ← oneHot_shiftRight (by omega : m < L)]
    rfl
  refine ⟨hwf, ?_⟩
  rw [words_of_cells hwf rfl]
  apply List.map_congr_left
  intro i hi
  have hlt := List.mem_range.mp hi
  simp only [hpop, hpush, Bool.false_and, Bool.false_eq_true, if_true, if_false]
  rw [if_pos (by omega)]

theorem Wf.next_enter (h : Wf s n) (inFlit : BitVec w) (hpop : (s.outValid && outReady) = false)
    (hpush : (inValid && s.inReady) = true) :
    Wf (s.next false inFlit inValid outReady) (n + 1) ∧ (s.next false inFlit inValid outReady).words =
      (List.range n).map (fun i => s.fifoData.getD i 0) ++ [inFlit] := by
  have hlt : n < L := by
    rw [h.inReady_eq] at hpush
    simp at hpush
    exact hpush.2
  have hwf : Wf (s.next false inFlit inValid outReady) (n + 1) := by
    refine ⟨hlt, ?_, length_next ..⟩
    simp only [next, hpop, hpush, h.ptr, BitVec.shiftLeft_add]
    rfl
  refine ⟨hwf, ?_⟩
  rw [words_of_cells hwf rfl, List.range_succ, List.map_append]
  congr 1
  · apply List.map_congr_left
    intro i hi
    have hi' := List.mem_range.mp hi
    simp only [hpop, hpush, h.ptr, getLsbD_oneHot (by omega : i < L + 1), Bool.true_and, Bool.false_eq_true,
      if_false]
    rw [if_neg (by simp; omega)]
  · simp only [hpop, hpush, h.ptr, getLsbD_oneHot (Nat.lt_succ_of_lt hlt), Bool.true_and,
      Bool.false_eq_true, if_false, List.map_cons, List.map_nil, decide_true, if_true]

theorem Wf.next_keep (h : Wf s n) (inFlit : BitVec w) (hpop : (s.outValid && outReady) = false)
    (hpush : (inValid && s.inReady) = false) :
    Wf (s.next false inFlit inValid outReady) n ∧ (s.next false inFlit inValid outReady).words = s.words := by
  have hwf : Wf (s.next false inFlit inValid outReady) n := by
    refine ⟨h.le, ?_, length_next ..⟩
    simp only [next, hpop, hpush, h.ptr]
    rfl
  refine ⟨hwf, ?_⟩
  rw [words_of_cells hwf rfl, h.words_eq]
  apply List.map_congr_left
  intro i _
  simp only [hpop, hpush, Bool.false_and, Bool.false_eq_true, if_false]

end Cases

/-- The oldest word leaves, and a new one enters behind the others. -/
theorem Wf.next_spec (h : Wf s n) (inFlit : BitVec w) (inValid outReady : Bool) :
    (∃ n', Wf (s.next false inFlit inValid outReady) n') ∧
      s.popped outReady ++ (s.next false inFlit inValid outReady).words =
        s.words ++ s.pushed inFlit inValid := by
  cases hpop : s.outValid && outReady with
  | true =>
    have hpos : 0 < n := by
      rw [h.outValid_eq] at hpop
      simp at hpop
      exact hpop.1
    obtain ⟨m, rfl⟩ : ∃ m, n = m + 1 := ⟨n - 1, by omega⟩
    have hfront : s.words = s.popped outReady ++ (List.range m).map fun i => s.fifoData.getD (i + 1) 0 := by
      rw [h.words_eq, List.range_succ_eq_map, List.map_cons, List.map_map, popped, if_pos hpop]
      rfl
    cases hpush : inValid && s.inReady with
    | true =>
      obtain ⟨hwf, hwords⟩ := h.next_replace inFlit hpop hpush
      refine ⟨⟨_, hwf⟩, ?_⟩
      rw [hwords, hfront, pushed, if_pos hpush, List.append_assoc]
    | false =>
      obtain ⟨hwf, hwords⟩ := h.next_leave inFlit hpop hpush
      refine ⟨⟨_, hwf⟩, ?_⟩
      rw [hwords, hfront, pushed, hpush, if_neg Bool.false_ne_true, List.append_nil]
  | false =>
    have hnone : s.popped outReady = [] := by rw [popped, hpop, if_neg Bool.false_ne_true]
    rw [hnone, List.nil_append]
    cases hpush : inValid && s.inReady with
    | true =>
      obtain ⟨hwf, hwords⟩ := h.next_enter inFlit hpop hpush
      refine ⟨⟨_, hwf⟩, ?_⟩
      rw [hwords, h.words_eq, pushed, if_pos hpush]
    | false =>
      obtain ⟨hwf, hwords⟩ := h.next_keep inFlit hpop hpush
      refine ⟨⟨_, hwf⟩, ?_⟩
      rw [hwords, pushed, hpush, if_neg Bool.false_ne_true, List.append_nil]

end Queue

/-! ## Runs behind a reset -/

/-- A cycle has the word at the input, whether it is valid, and whether the output is ready. -/
def queue (w L : ℕ) : Circuit (JtagFifo w L) (BitVec w × Bool × Bool) (BitVec w) (BitVec w) where
  next s i := s.next false i.1 i.2.1 i.2.2
  ins s i := s.pushed i.1 i.2.1
  outs s i := s.popped i.2.2

/-- The words leave in the order in which they were accepted; the pointer and the cells tell how many are stored and
which. -/
structure InOrder (t : Seen (JtagFifo w L) (BitVec w) (BitVec w)) : Prop where
  order : t.outs <+: t.ins
  fits : t.inside.length ≤ L
  oneHot : ∀ i ≤ L, t.state.fifoWritePtr.getLsbD i = decide (i = t.inside.length)
  cells : t.state.fifoData.take t.inside.length = t.inside
  accepts : ∀ inFlit inValid, t.state.pushed inFlit inValid = [inFlit] ↔ inValid = true ∧ t.inside.length < L
  outValid : t.state.outValid = true ↔ 1 ≤ t.inside.length
  front : t.state.outValid = true → t.inside.head? = some t.state.outFlit

theorem Wf.head_words {s : JtagFifo w L} {n : ℕ} (h : Wf s n) (hv : s.outValid = true) :
    s.words.head? = some s.outFlit := by
  rw [h.outValid_eq] at hv
  obtain ⟨m, rfl⟩ := Nat.exists_eq_succ_of_ne_zero (of_decide_eq_true hv).ne'
  rw [h.words_eq, List.range_succ_eq_map]
  rfl

theorem inOrder_of_words {t : Seen (JtagFifo w L) (BitVec w) (BitVec w)} {n : ℕ} (h : Wf t.state n)
    (hflow : t.ins = t.outs ++ t.state.words) : InOrder t := by
  have hinside := Seen.inside_eq hflow
  refine ⟨⟨_, hflow.symm⟩, ?_, ?_, ?_, ?_, ?_, ?_⟩ <;> rw [hinside]
  · rw [h.length_words]
    exact h.le
  · intro i hi
    rw [h.length_words, h.ptr, getLsbD_oneHot (Nat.lt_succ_of_le hi)]
  · rw [h.length_words, words, h.level_eq]
  · intro inFlit inValid
    rw [h.length_words, pushed, h.inReady_eq]
    by_cases hlt : n < L <;> simp [hlt]
  · rw [h.length_words, h.outValid_eq, decide_eq_true_iff, Nat.one_le_iff_ne_zero, Nat.pos_iff_ne_zero]
  · exact h.head_words

/-- **The FIFO is a queue** of any length and width, in all cycles behind a reset. -/
theorem fifo_keeps_order (data : List (BitVec w)) (hdata : data.length = L) (is : List (BitVec w × Bool × Bool)) :
    Passes (queue w L).step InOrder (start (reset data)) is := by
  have hcycle (s : JtagFifo w L) (i : BitVec w × Bool × Bool) (hwf : ∃ n, Wf s n) :
      (∃ n, Wf ((queue w L).next s i) n) ∧
        Flows s.words ((queue w L).ins s i) ((queue w L).outs s i) ((queue w L).next s i).words := by
    obtain ⟨n, hn⟩ := hwf
    exact hn.next_spec i.1 i.2.1 i.2.2
  have hempty : (reset (L := L) data).words = [] := by
    rw [← List.length_eq_zero_iff, (wf_reset hdata).length_words]
  have hflows := (queue w L).always_queue (fun s => ∃ n, Wf s n) words hcycle ⟨0, wf_reset hdata⟩ hempty is
  refine hflows.mono ?_
  rintro t ⟨⟨n, hwf⟩, hflow⟩
  exact inOrder_of_words hwf hflow

/-- Two words fill a FIFO of two cells, and one leaves while a third is offered in vain; then one enters as another
leaves. -/
theorem short_fifo_keeps_order :
    Passes (queue 8 2).step InOrder (start (reset [0, 0]))
      [(1, true, false), (2, true, true), (3, true, false), (4, true, true), (5, true, true), (0, false, true)] :=
  fifo_keeps_order [0, 0] rfl _

end GlipOsd.Jtag.JtagFifo
