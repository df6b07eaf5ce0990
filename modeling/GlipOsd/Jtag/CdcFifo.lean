import GlipOsd.Foundations.Gray
import GlipOsd.Foundations.Runs

/-! # The FIFO between two clock domains

`cdc_fifo`: a memory of `2 ^ A` words, a counter of `A + 1` bits on each side, and the Gray codes of
the counters carried to the other side by two flops each. A step is an edge of one clock or of both;
at an edge of both, a first flop samples each bit of the other side's code before or after the edge.

Both sides judge by an old count of the other, which errs to the safe side: the writer sees too few
words read and the reader too few words written. In the end it is the order of the counts
`read ≤ seen by the reader ≤ written ≤ seen by the writer + 2 ^ A` that is kept by every edge.
-/

namespace GlipOsd.Jtag.CdcFifo
open Gray Runs
set_option autoImplicit false

/-! ## The modules -/

/-- The registers of `cdc_wrptr_full` and of the synchroniser on its side. -/
structure WrSide (A : ℕ) where
  wbin : BitVec (A + 1)
  wrPtr : BitVec (A + 1)
  wrFull : Bool
  wrq1 : BitVec (A + 1)
  wrq2 : BitVec (A + 1)
  deriving DecidableEq

/-- The registers of `cdc_rdptr_empty` and of the synchroniser on its side. -/
structure RdSide (A : ℕ) where
  rdBin : BitVec (A + 1)
  rdPtr : BitVec (A + 1)
  rdEmpty : Bool
  rdq1 : BitVec (A + 1)
  rdq2 : BitVec (A + 1)
  deriving DecidableEq

def wrReset (A : ℕ) : WrSide A := ⟨0, 0, false, 0, 0⟩

def rdReset (A : ℕ) : RdSide A := ⟨0, 0, true, 0, 0⟩

section Modules
variable {A : ℕ}

/-- `{~ptr[A:A-1], ptr[A-2:0]}` -/
def invertTop (ptr : BitVec (A + 1)) : BitVec (A + 1) :=
  (~~~(ptr.extractLsb' (A - 1) 2) ++ ptr.extractLsb' 0 (A - 1)).setWidth (A + 1)

/-- An edge of `wr_clk`; `sample` is what the first flop gets. -/
def wrEdge (w : WrSide A) (wrInc : Bool) (sample : BitVec (A + 1)) : WrSide A :=
  let wbinnext := w.wbin + BitVec.ofNat (A + 1) (wrInc && !w.wrFull).toNat
  let wgraynext := gray wbinnext
  ⟨wbinnext, wgraynext, wgraynext == invertTop w.wrq2, sample, w.wrq1⟩

def rdEdge (r : RdSide A) (rdInc : Bool) (sample : BitVec (A + 1)) : RdSide A :=
  let rdbinnext := r.rdBin + BitVec.ofNat (A + 1) (rdInc && !r.rdEmpty).toNat
  let rdgraynext := gray rdbinnext
  ⟨rdbinnext, rdgraynext, rdgraynext == r.rdq2, sample, r.rdq1⟩

def WrSide.wrAddr (w : WrSide A) : BitVec A := w.wbin.setWidth A

def RdSide.rdAddr (r : RdSide A) : BitVec A := r.rdBin.setWidth A

end Modules

/-! ## The FIFO -/

/-- The two sides and the memory; as history the words accepted and delivered. -/
structure State (A DW : ℕ) where
  wr : WrSide A
  rd : RdSide A
  mem : BitVec A → BitVec DW
  accepted : List (BitVec DW)
  delivered : List (BitVec DW)

/-- The memory has no reset. -/
def initial {A DW : ℕ} (mem : BitVec A → BitVec DW) : State A DW :=
  ⟨wrReset A, rdReset A, mem, [], []⟩

/-- The inputs at an edge of `wr_clk`; `sel` chooses the bits that are sampled behind the edge. -/
structure WrIn (A DW : ℕ) where
  wrEn : Bool
  wrData : BitVec DW
  sel : BitVec (A + 1)

structure RdIn (A : ℕ) where
  rdEn : Bool
  sel : BitVec (A + 1)

inductive Label (A DW : ℕ)
  | wrClk (i : WrIn A DW)
  | rdClk (j : RdIn A)
  | both (i : WrIn A DW) (j : RdIn A)

section Fifo
variable {A DW : ℕ}

def State.rdData (s : State A DW) : BitVec DW := s.mem s.rd.rdAddr

def write (s : State A DW) (i : WrIn A DW) : State A DW :=
  if i.wrEn && !s.wr.wrFull then
    { s with
      mem := fun a => if a = s.wr.wrAddr then i.wrData else s.mem a
      accepted := s.accepted ++ [i.wrData] }
  else s

def read (s : State A DW) (j : RdIn A) : List (BitVec DW) :=
  if j.rdEn && !s.rd.rdEmpty then s.delivered ++ [s.rdData] else s.delivered

/-- The pointers that move at this edge are sampled bit by bit before or behind it. -/
def step (s : State A DW) : Label A DW → Option (State A DW)
  | .wrClk i =>
    some { write s i with wr := wrEdge s.wr i.wrEn (mix i.sel s.rd.rdPtr s.rd.rdPtr) }
  | .rdClk j =>
    some { s with
      rd := rdEdge s.rd j.rdEn (mix j.sel s.wr.wrPtr s.wr.wrPtr)
      delivered := read s j }
  | .both i j =>
    -- the pointers do not depend on what is sampled
    let wrPtr := (wrEdge s.wr i.wrEn 0).wrPtr
    let rdPtr := (rdEdge s.rd j.rdEn 0).rdPtr
    some { write s i with
      wr := wrEdge s.wr i.wrEn (mix i.sel s.rd.rdPtr rdPtr)
      rd := rdEdge s.rd j.rdEn (mix j.sel s.wr.wrPtr wrPtr)
      delivered := read s j }

/-- The writer's side of the invariant: `written` words, and the counts of words read in the two
flops. -/
structure WrInv (written read1 read2 : ℕ) (w : WrSide A) : Prop where
  wbin : w.wbin = BitVec.ofNat (A + 1) written
  wrPtr : w.wrPtr = gray (BitVec.ofNat (A + 1) written)
  wrq1 : w.wrq1 = gray (BitVec.ofNat (A + 1) read1)
  wrq2 : w.wrq2 = gray (BitVec.ofNat (A + 1) read2)
  order : read2 ≤ read1
  room : written ≤ read2 + 2 ^ A
  notFull : w.wrFull = false → written < read2 + 2 ^ A

structure RdInv (read written1 written2 : ℕ) (r : RdSide A) : Prop where
  rdBin : r.rdBin = BitVec.ofNat (A + 1) read
  rdPtr : r.rdPtr = gray (BitVec.ofNat (A + 1) read)
  rdq1 : r.rdq1 = gray (BitVec.ofNat (A + 1) written1)
  rdq2 : r.rdq2 = gray (BitVec.ofNat (A + 1) written2)
  order : written2 ≤ written1
  behind : read ≤ written2
  notEmpty : r.rdEmpty = false → read < written2

/-- The delivered words are the first accepted ones, and the others are in the memory. -/
structure Stored (mem : BitVec A → BitVec DW) (accepted delivered : List (BitVec DW)) : Prop where
  eq_take : delivered = accepted.take delivered.length
  stored : ∀ (k : ℕ) (hk : k < accepted.length), delivered.length ≤ k →
    mem (BitVec.ofNat A k) = accepted[k]

structure Inv (s : State A DW) (read1 read2 written1 written2 : ℕ) : Prop where
  wr : WrInv s.accepted.length read1 read2 s.wr
  rd : RdInv s.delivered.length written1 written2 s.rd
  read1_le : read1 ≤ s.delivered.length
  written1_le : written1 ≤ s.accepted.length
  stored : Stored s.mem s.accepted s.delivered

/-! ## One edge -/

theorem ofNat_count (n : ℕ) (b : Bool) :
    BitVec.ofNat (A + 1) n + BitVec.ofNat (A + 1) b.toNat = BitVec.ofNat (A + 1) (n + b.toNat) :=
  (BitVec.ofNat_add n b.toNat).symm

theorem getLsbD_invertTop (hA : 2 ≤ A) (ptr : BitVec (A + 1)) (i : ℕ) (hi : i < A + 1) :
    (invertTop ptr).getLsbD i = (ptr.getLsbD i ^^ decide (i = A ∨ i + 1 = A)) := by
  simp only [invertTop, BitVec.getLsbD_setWidth, BitVec.getLsbD_append, hi, decide_true,
    Bool.true_and]
  by_cases hlow : i < A - 1
  · rw [if_pos hlow, BitVec.getLsbD_extractLsb']
    have hne : ¬ (i = A ∨ i + 1 = A) := by omega
    simp [hlow, hne]
  · rw [if_neg hlow, BitVec.getLsbD_not, BitVec.getLsbD_extractLsb']
    have htop : i = A ∨ i + 1 = A := by omega
    have hidx : A - 1 + (i - (A - 1)) = i := by omega
    have hlt : i - (A - 1) < 2 := by omega
    simp [htop, hidx, hlt]

/-- The full test compares with the counter half a round on. -/
theorem invertTop_gray (hA : 2 ≤ A) (n : ℕ) :
    invertTop (gray (BitVec.ofNat (A + 1) n)) = gray (BitVec.ofNat (A + 1) (n + 2 ^ A)) := by
  apply BitVec.eq_of_getLsbD_eq
  intro i hi
  rw [getLsbD_invertTop hA _ i hi, BitVec.ofNat_add, getLsbD_gray_add_half]

/-- The writer counts on only when it is not full, and is full again exactly with `2 ^ A` words
ahead of the count it sees. -/
theorem wrInv_edge (hA : 2 ≤ A) {written read1 read2 next : ℕ} {w : WrSide A}
    (h : WrInv written read1 read2 w) (wrInc : Bool) {sample : BitVec (A + 1)}
    (hsample : sample = gray (BitVec.ofNat (A + 1) next)) (hnext : read1 ≤ next) :
    WrInv (written + (wrInc && !w.wrFull).toNat) next read1 (wrEdge w wrInc sample) := by
  have horder := h.order
  have hroom := h.room
  have hcount : written + (wrInc && !w.wrFull).toNat ≤ read2 + 2 ^ A := by
    cases hf : w.wrFull with
    | true => simpa using hroom
    | false =>
      have hlt := h.notFull hf
      have hone := Bool.toNat_le (wrInc && !false)
      omega
  have hbin : (wrEdge w wrInc sample).wbin =
      BitVec.ofNat (A + 1) (written + (wrInc && !w.wrFull).toNat) := by
    simp only [wrEdge, h.wbin, ofNat_count]
  refine ⟨hbin, congrArg gray hbin, hsample, h.wrq1, hnext, by omega, fun hfull => ?_⟩
  have hne : written + (wrInc && !w.wrFull).toNat ≠ read2 + 2 ^ A := by
    intro heq
    have hcode : gray (wrEdge w wrInc sample).wbin = invertTop w.wrq2 := by
      rw [hbin, h.wrq2, invertTop_gray hA, heq]
    simp only [wrEdge] at hfull hcode
    rw [hcode, beq_self_eq_true] at hfull
    cases hfull
  omega

/-- The reader counts on only when it is not empty, and is empty again exactly at the count it
sees. -/
theorem rdInv_edge {read written1 written2 next : ℕ} {r : RdSide A}
    (h : RdInv read written1 written2 r) (rdInc : Bool) {sample : BitVec (A + 1)}
    (hsample : sample = gray (BitVec.ofNat (A + 1) next)) (hnext : written1 ≤ next) :
    RdInv (read + (rdInc && !r.rdEmpty).toNat) next written1 (rdEdge r rdInc sample) := by
  have horder := h.order
  have hbehind := h.behind
  have hcount : read + (rdInc && !r.rdEmpty).toNat ≤ written2 := by
    cases he : r.rdEmpty with
    | true => simpa using hbehind
    | false =>
      have hlt := h.notEmpty he
      have hone := Bool.toNat_le (rdInc && !false)
      omega
  have hbin : (rdEdge r rdInc sample).rdBin =
      BitVec.ofNat (A + 1) (read + (rdInc && !r.rdEmpty).toNat) := by
    simp only [rdEdge, h.rdBin, ofNat_count]
  refine ⟨hbin, congrArg gray hbin, hsample, h.rdq1, hnext, by omega, fun hempty => ?_⟩
  have hne : read + (rdInc && !r.rdEmpty).toNat ≠ written2 := by
    intro heq
    have hcode : gray (rdEdge r rdInc sample).rdBin = r.rdq2 := by
      rw [hbin, h.rdq2, heq]
    simp only [rdEdge] at hempty hcode
    rw [hcode, beq_self_eq_true] at hempty
    cases hempty
  omega

/-! ## The words -/

section Words
variable {s : State A DW} {read1 read2 written1 written2 : ℕ}

theorem Inv.room (h : Inv s read1 read2 written1 written2) (hfull : s.wr.wrFull = false) :
    s.accepted.length < s.delivered.length + 2 ^ A := by
  have hlt := h.wr.notFull hfull
  have horder := h.wr.order
  have hread := h.read1_le
  omega

theorem Inv.bounded (h : Inv s read1 read2 written1 written2) :
    s.accepted.length ≤ s.delivered.length + 2 ^ A := by
  have hroom := h.wr.room
  have horder := h.wr.order
  have hread := h.read1_le
  omega

theorem Inv.nonempty (h : Inv s read1 read2 written1 written2) (hempty : s.rd.rdEmpty = false) :
    s.delivered.length < s.accepted.length := by
  have hlt := h.rd.notEmpty hempty
  have horder := h.rd.order
  have hwritten := h.written1_le
  omega

theorem Inv.oldest (h : Inv s read1 read2 written1 written2) (hempty : s.rd.rdEmpty = false) :
    s.accepted[s.delivered.length]? = some s.rdData := by
  have hlt := h.nonempty hempty
  rw [List.getElem?_eq_getElem hlt, Option.some.injEq, State.rdData, RdSide.rdAddr, h.rd.rdBin,
    BitVec.setWidth_ofNat_of_le (Nat.le_succ A)]
  exact (h.stored.stored _ hlt le_rfl).symm

theorem write_length (s : State A DW) (i : WrIn A DW) :
    (write s i).accepted.length = s.accepted.length + (i.wrEn && !s.wr.wrFull).toNat := by
  unfold write
  cases hw : i.wrEn && !s.wr.wrFull <;> simp

theorem read_length (s : State A DW) (j : RdIn A) :
    (read s j).length = s.delivered.length + (j.rdEn && !s.rd.rdEmpty).toNat := by
  unfold read
  cases hr : j.rdEn && !s.rd.rdEmpty <;> simp

theorem stored_write {delivered : List (BitVec DW)} (h : Stored s.mem s.accepted delivered)
    (hbin : s.wr.wbin = BitVec.ofNat (A + 1) s.accepted.length)
    (hroom : s.wr.wrFull = false → s.accepted.length < delivered.length + 2 ^ A)
    (i : WrIn A DW) : Stored (write s i).mem (write s i).accepted delivered := by
  unfold write
  split_ifs with hw
  · simp only [Bool.and_eq_true, Bool.not_eq_true'] at hw
    have hlt := hroom hw.2
    have haddr : s.wr.wrAddr = BitVec.ofNat A s.accepted.length := by
      rw [WrSide.wrAddr, hbin, BitVec.setWidth_ofNat_of_le (Nat.le_succ A)]
    have hprefix : delivered.length ≤ s.accepted.length := by
      rw [h.eq_take]
      exact List.length_take_le' ..
    refine ⟨?_, fun k hk hle => ?_⟩
    · rw [List.take_append_of_le_length hprefix]
      exact h.eq_take
    · simp only [haddr]
      by_cases hlast : k = s.accepted.length
      · subst hlast
        simp
      · have hk' : k < s.accepted.length := by
          rw [List.length_append, List.length_singleton] at hk
          omega
        have hne : BitVec.ofNat A k ≠ BitVec.ofNat A s.accepted.length := fun heq =>
          hlast ((ofNat_inj hk'.le (by omega)).mp heq.symm).symm
        rw [if_neg hne, List.getElem_append_left hk']
        exact h.stored k hk' hle
  · exact h

theorem stored_read (h : Inv s read1 read2 written1 written2) (j : RdIn A) :
    Stored s.mem s.accepted (read s j) := by
  unfold read
  split_ifs with hr
  · simp only [Bool.and_eq_true, Bool.not_eq_true'] at hr
    have hlt := h.nonempty hr.2
    have hold := h.oldest hr.2
    refine ⟨?_, fun k hk hle => h.stored.stored k hk ?_⟩
    · rw [List.length_append, List.length_singleton, List.take_add_one, hold, ← h.stored.eq_take]
      rfl
    · rw [List.length_append] at hle
      omega
  · exact h.stored

/-! ## Edges -/

theorem rdPtr_next (h : Inv s read1 read2 written1 written2) (rdInc : Bool)
    (sample : BitVec (A + 1)) : (rdEdge s.rd rdInc sample).rdPtr =
      gray (BitVec.ofNat (A + 1) (s.delivered.length + (rdInc && !s.rd.rdEmpty).toNat)) :=
  (rdInv_edge h.rd rdInc rfl le_rfl).rdPtr

theorem wrPtr_next (hA : 2 ≤ A) (h : Inv s read1 read2 written1 written2) (wrInc : Bool)
    (sample : BitVec (A + 1)) : (wrEdge s.wr wrInc sample).wrPtr =
      gray (BitVec.ofNat (A + 1) (s.accepted.length + (wrInc && !s.wr.wrFull).toNat)) :=
  (wrInv_edge hA h.wr wrInc rfl le_rfl).wrPtr

theorem inv_wrClk (hA : 2 ≤ A) (h : Inv s read1 read2 written1 written2) (i : WrIn A DW) :
    Inv { write s i with wr := wrEdge s.wr i.wrEn (mix i.sel s.rd.rdPtr s.rd.rdPtr) }
      s.delivered.length read1 written1 written2 := by
  have hwr := wrInv_edge hA h.wr i.wrEn ((mix_self i.sel _).trans h.rd.rdPtr) h.read1_le
  have hlength := write_length s i
  have hsame : (write s i).rd = s.rd ∧ (write s i).delivered = s.delivered := by
    unfold write
    split_ifs <;> exact ⟨rfl, rfl⟩
  refine ⟨hlength ▸ hwr, ?_, hsame.2.symm ▸ le_rfl, ?_, ?_⟩
  · rw [hsame.1, hsame.2]
    exact h.rd
  · rw [hlength]
    exact h.written1_le.trans (Nat.le_add_right _ _)
  · rw [hsame.2]
    exact stored_write h.stored h.wr.wbin h.room i

theorem inv_rdClk (h : Inv s read1 read2 written1 written2) (j : RdIn A) :
    Inv { s with
      rd := rdEdge s.rd j.rdEn (mix j.sel s.wr.wrPtr s.wr.wrPtr)
      delivered := read s j } read1 read2 s.accepted.length written1 := by
  have hrd := rdInv_edge h.rd j.rdEn ((mix_self j.sel _).trans h.wr.wrPtr) h.written1_le
  have hlength := read_length s j
  refine ⟨h.wr, hlength ▸ hrd, ?_, le_rfl, stored_read h j⟩
  rw [hlength]
  exact h.read1_le.trans (Nat.le_add_right _ _)

theorem inv_both (hA : 2 ≤ A) (h : Inv s read1 read2 written1 written2) (i : WrIn A DW)
    (j : RdIn A) (sample sample' : BitVec (A + 1)) :
    ∃ read' written', s.delivered.length ≤ read' ∧ s.accepted.length ≤ written' ∧ Inv { write s i with
      wr := wrEdge s.wr i.wrEn (mix i.sel s.rd.rdPtr (rdEdge s.rd j.rdEn sample).rdPtr)
      rd := rdEdge s.rd j.rdEn (mix j.sel s.wr.wrPtr (wrEdge s.wr i.wrEn sample').wrPtr)
      delivered := read s j } read' read1 written' written1 := by
  have hone := Bool.toNat_le (j.rdEn && !s.rd.rdEmpty)
  have hone' := Bool.toNat_le (i.wrEn && !s.wr.wrFull)
  -- each side samples an old or a new count
  obtain ⟨read', hread, hread', hmix⟩ := mix_gray_count i.sel
    (Nat.le_add_right s.delivered.length (j.rdEn && !s.rd.rdEmpty).toNat) (by omega)
  obtain ⟨written', hwritten, hwritten', hmix'⟩ := mix_gray_count j.sel
    (Nat.le_add_right s.accepted.length (i.wrEn && !s.wr.wrFull).toNat) (by omega)
  rw [← rdPtr_next h j.rdEn sample, ← h.rd.rdPtr] at hmix
  rw [← wrPtr_next hA h i.wrEn sample', ← h.wr.wrPtr] at hmix'
  have hwr := wrInv_edge hA h.wr i.wrEn hmix (h.read1_le.trans hread)
  have hrd := rdInv_edge h.rd j.rdEn hmix' (h.written1_le.trans hwritten)
  have hlength := write_length s i
  have hlength' := read_length s j
  refine ⟨read', written', hread, hwritten, hlength ▸ hwr, hlength' ▸ hrd, hlength' ▸ hread',
    hlength ▸ hwritten', ?_⟩
  refine stored_write (stored_read h j) h.wr.wbin (fun hfull => ?_) i
  have hroom := h.room hfull
  rw [hlength']
  omega

theorem inv_step (hA : 2 ≤ A) : Stable (@step A DW) fun s =>
    ∃ read1 read2 written1 written2, Inv s read1 read2 written1 written2 := by
  rintro s l s' ⟨read1, read2, written1, written2, h⟩ hstep
  cases l with
  | wrClk i =>
    obtain rfl := Option.some.inj hstep
    exact ⟨_, _, _, _, inv_wrClk hA h i⟩
  | rdClk j =>
    obtain rfl := Option.some.inj hstep
    exact ⟨_, _, _, _, inv_rdClk h j⟩
  | both i j =>
    obtain rfl := Option.some.inj hstep
    obtain ⟨read', written', -, -, h'⟩ := inv_both hA h i j 0 0
    exact ⟨_, _, _, _, h'⟩

theorem inv_initial (mem : BitVec A → BitVec DW) : Inv (initial mem) 0 0 0 0 where
  wr := ⟨rfl, gray_zero.symm, gray_zero.symm, gray_zero.symm, le_rfl, Nat.zero_le _,
    fun _ => (Nat.zero_add (2 ^ A)).symm ▸ Nat.two_pow_pos A⟩
  rd := ⟨rfl, gray_zero.symm, gray_zero.symm, gray_zero.symm, le_rfl, le_rfl, fun h => by cases h⟩
  read1_le := le_rfl
  written1_le := le_rfl
  stored := ⟨rfl, fun _ hk => absurd hk (Nat.not_lt_zero _)⟩

end Words

def granted (s : State A DW) : Label A DW → Label A DW
  | .wrClk i => .wrClk { i with wrEn := i.wrEn && !s.wr.wrFull }
  | .rdClk j => .rdClk { j with rdEn := j.rdEn && !s.rd.rdEmpty }
  | .both i j =>
    .both { i with wrEn := i.wrEn && !s.wr.wrFull } { j with rdEn := j.rdEn && !s.rd.rdEmpty }

/-- A request in front of a full or an empty FIFO is like no request. -/
theorem step_granted (s : State A DW) (l : Label A DW) : step s l = step s (granted s l) := by
  have hand : ∀ a b : Bool, (a && b && b) = (a && b) := by decide
  cases l <;> simp only [step, granted, write, read, wrEdge, rdEdge, hand]

/-- What is delivered was accepted, in order; what is accepted and not delivered is in the memory,
within its capacity, and the oldest of it at the output. -/
structure Lossless (s : State A DW) : Prop where
  delivered : s.delivered <+: s.accepted
  stored : ∀ (k : ℕ) (hk : k < s.accepted.length), s.delivered.length ≤ k →
    s.mem (BitVec.ofNat A k) = s.accepted[k]
  bounded : s.accepted.length ≤ s.delivered.length + 2 ^ A
  oldest : s.rd.rdEmpty = false → s.accepted[s.delivered.length]? = some s.rdData
  ignored : ∀ l, step s l = step s (granted s l)

end Fifo

/-- **The FIFO loses nothing.** For every size and width, from the reset on and under every
interleaving of the two clocks, with every outcome of sampling a pointer that moves. -/
theorem fifo_lossless {A DW : ℕ} (hA : 2 ≤ A) (mem : BitVec A → BitVec DW) (ls : List (Label A DW))
    (s : State A DW) (hrun : runFrom step (initial mem) ls = some s) : Lossless s := by
  obtain ⟨read1, read2, written1, written2, h⟩ :=
    (inv_step hA).run ⟨0, 0, 0, 0, inv_initial mem⟩ hrun
  refine ⟨?_, h.stored.stored, h.bounded, h.oldest, step_granted s⟩
  rw [h.stored.eq_take]
  exact List.take_prefix _ _

/-- A word is written, seen by the reader behind three edges and delivered; the edge in between is
one of both clocks, where the reader samples some of the bits early. -/
def passage : List (Label 2 8) :=
  [.wrClk ⟨true, 7, 0⟩, .both ⟨true, 9, 0⟩ ⟨true, 1⟩, .rdClk ⟨false, 0⟩, .rdClk ⟨false, 0⟩,
    .rdClk ⟨true, 0⟩]

theorem passage_lossless :
    ∃ s, runFrom step (initial fun _ => 0) passage = some s ∧ s.delivered = [7] ∧ Lossless s :=
  ⟨_, rfl, by decide, fifo_lossless (by decide) _ passage _ rfl⟩

end GlipOsd.Jtag.CdcFifo
