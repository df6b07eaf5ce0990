import GlipOsd.Jtag.Toplevel

/-! # The words between the host and the logic

In either direction the words that have come in at one end have left at the other or are in the FIFOs
between, in order and once, unless the FIFOs are reset while something is stored in them.
-/

namespace GlipOsd.Jtag.Toplevel
open Runs
set_option autoImplicit false

variable {W L : ℕ}

/-! ## The FIFOs -/

def FifoInv (f : CdcFifo.State 4 W) : Prop :=
  ∃ read1 read2 written1 written2, CdcFifo.Inv f read1 read2 written1 written2

theorem FifoInv.eq_append {f : CdcFifo.State 4 W} (h : FifoInv f) : f.accepted = f.delivered ++ stored f := by
  obtain ⟨_, _, _, _, hinv⟩ := h
  have hsplit := List.take_append_drop f.delivered.length f.accepted
  rwa [← hinv.stored.eq_take, eq_comm] at hsplit

theorem fifoInv_initial (mem : BitVec 4 → BitVec W) : FifoInv (CdcFifo.initial mem) :=
  ⟨0, 0, 0, 0, CdcFifo.inv_initial mem⟩

theorem fifoEdge_history (f : CdcFifo.State 4 W) (i : Option (CdcFifo.WrIn 4 W)) (j : Option (CdcFifo.RdIn 4)) :
    (fifoEdge f i j).accepted = f.accepted ++ entering f i ∧
      (fifoEdge f i j).delivered = f.delivered ++ leaving f j := by
  have hwrite (i : CdcFifo.WrIn 4 W) : (CdcFifo.write f i).accepted = f.accepted ++ entering f (some i) ∧
      (CdcFifo.write f i).delivered = f.delivered := by
    simp only [CdcFifo.write, entering, Option.elim_some]
    split_ifs <;> simp
  have hread (j : CdcFifo.RdIn 4) : CdcFifo.read f j = f.delivered ++ leaving f (some j) := by
    simp only [CdcFifo.read, leaving, Option.elim_some]
    split_ifs <;> simp
  have hnone : f.accepted = f.accepted ++ entering f none ∧ f.delivered = f.delivered ++ leaving f none :=
    ⟨(List.append_nil _).symm, (List.append_nil _).symm⟩
  cases i with
  | none =>
    cases j with
    | none => exact hnone
    | some j => exact ⟨hnone.1, hread j⟩
  | some i =>
    cases j with
    | none => exact ⟨(hwrite i).1, (hwrite i).2.trans hnone.2⟩
    | some j => exact ⟨(hwrite i).1, hread j⟩

theorem FifoInv.edge {f : CdcFifo.State 4 W} (h : FifoInv f) (i : Option (CdcFifo.WrIn 4 W))
    (j : Option (CdcFifo.RdIn 4)) : FifoInv (fifoEdge f i j) := by
  have hstep (l : CdcFifo.Label 4 W) : FifoInv ((CdcFifo.step f l).getD f) := by
    cases hs : CdcFifo.step f l with
    | none => exact h
    | some f' => exact CdcFifo.inv_step (by norm_num) f l f' h hs
  cases i with
  | none =>
    cases j with
    | none => exact h
    | some j => exact hstep (.rdClk j)
  | some i =>
    cases j with
    | none => exact hstep (.wrClk i)
    | some j => exact hstep (.both i j)

theorem FifoInv.stored_edge {f : CdcFifo.State 4 W} (h : FifoInv f) (i : Option (CdcFifo.WrIn 4 W))
    (j : Option (CdcFifo.RdIn 4)) : leaving f j ++ stored (fifoEdge f i j) = stored f ++ entering f i := by
  obtain ⟨hacc, hdel⟩ := fifoEdge_history f i j
  have hsplit := (h.edge i j).eq_append
  rw [hacc, hdel, h.eq_append, List.append_assoc, List.append_assoc] at hsplit
  exact (List.append_cancel_left hsplit).symm

/-! ## The invariant -/

structure Inv (s : State W L) : Prop where
  inFifo : FifoInv s.inFifo
  outFifo : FifoInv s.outFifo
  syncFifo : ∃ k, JtagFifo.Wf s.input.fifo k
  dropping : s.input.regs.jtagReset = true → s.input.regs.inputState = .dropPacket

/-- The reset of the communication comes with the state that drops the rest of the request. -/
theorem inputFsm_jtagReset {r : InputFsm.Regs W} (h : r.jtagReset = true → r.inputState = .dropPacket)
    (inReady : Bool) (i : InputFsm.In) : (InputFsm.inputFsm r inReady i).1.jtagReset = true →
      (InputFsm.inputFsm r inReady i).1.inputState = .dropPacket := by
  by_cases hdrop : r.inputState = .dropPacket
  · simp only [InputFsm.inputFsm, hdrop]
    split_ifs <;> intro hreset <;> cases hreset
  · have hlow : ¬ r.jtagReset = true := mt h hdrop
    cases hstate : r.inputState
    case dropPacket => exact absurd hstate hdrop
    all_goals
      simp only [InputFsm.inputFsm, hstate]
      split_ifs <;> intro hreset <;> first | rfl | cases hreset | exact absurd hreset hlow

theorem step_jtagReset {s : InputFsm.State W L} (h : s.regs.jtagReset = true → s.regs.inputState = .dropPacket)
    (i : InputFsm.In) : (InputFsm.step s i).regs.jtagReset = true →
      (InputFsm.step s i).regs.inputState = .dropPacket := by
  simp only [InputFsm.step]
  split_ifs
  · exact fun _ => rfl
  · exact inputFsm_jtagReset h _ i

theorem pushed_of_jtagReset {s : State W L} (h : Inv s) (l : Edge W) (hreset : s.input.regs.jtagReset = true) :
    pushed s l = [] := by
  cases ht : l.tck with
  | none => rw [pushed, ht, Option.elim_none]
  | some t =>
    have hnone : InputFsm.pushed s.input (inputIn s l t) = none := by
      apply InputFsm.pushed_of_none
      simp only [InputFsm.inputFsm, h.dropping hreset]
    rw [pushed, ht, Option.elim_some, hnone]
    rfl

theorem inv_initial (error : Bool) (cells : Fin L → BitVec W) (discovery : Discovery.State W)
    (output : OutputFsm.State W) (inMem outMem : BitVec 4 → BitVec W) :
    Inv (initial error cells discovery output inMem outMem) where
  inFifo := fifoInv_initial inMem
  outFifo := fifoInv_initial outMem
  syncFifo := ⟨0, JtagFifo.wf_reset List.length_ofFn⟩
  dropping h := by cases h

/-! ## One edge -/

section Edges
variable {s s' : State W L} {l : Edge W}

theorem moved_eq (s : State W L) (l : Edge W) :
    moved s l = l.tck.elim [] fun _ => s.input.fifo.popped (!s.inFifo.wr.wrFull) := by
  cases ht : l.tck <;> simp only [moved, inWr, entering, ht, Option.map_none, Option.map_some,
    Option.elim_none, Option.elim_some]
  rfl

theorem syncFifo_spec (h : Inv s) (l : Edge W) :
    (∃ k, JtagFifo.Wf (nextInput s l).fifo k) ∧
      if l.tck.isSome = true ∧ intRst s l = true then (nextInput s l).fifo.words = []
      else moved s l ++ (nextInput s l).fifo.words = s.input.fifo.words ++ pushed s l := by
  obtain ⟨k, hk⟩ := h.syncFifo
  cases ht : l.tck with
  | none =>
    have hsame : nextInput s l = s.input := by rw [nextInput, ht, Option.elim_none]
    rw [moved_eq, pushed, hsame, ht]
    exact ⟨⟨k, hk⟩, by simp⟩
  | some t =>
    have hfifo : (nextInput s l).fifo = s.input.fifo.next (intRst s l)
        ((InputFsm.inputFsm s.input.regs s.input.fifo.inReady (inputIn s l t)).2.getD 0)
        (InputFsm.inputFsm s.input.regs s.input.fifo.inReady (inputIn s l t)).2.isSome
        (!s.inFifo.wr.wrFull) := by
      rw [nextInput, ht]
      rfl
    have hpushed : pushed s l = s.input.fifo.pushed
        ((InputFsm.inputFsm s.input.regs s.input.fifo.inReady (inputIn s l t)).2.getD 0)
        (InputFsm.inputFsm s.input.regs s.input.fifo.inReady (inputIn s l t)).2.isSome := by
      rw [pushed, ht, Option.elim_some, InputFsm.pushed, JtagFifo.pushed]
      cases (InputFsm.inputFsm s.input.regs s.input.fifo.inReady (inputIn s l t)).2 <;>
        cases s.input.fifo.inReady <;> rfl
    rw [moved_eq, hfifo, hpushed, ht, Option.elim_some]
    cases hrst : intRst s l with
    | true =>
      have hwf := JtagFifo.wf_next_reset (s := s.input.fifo)
        ((InputFsm.inputFsm s.input.regs s.input.fifo.inReady (inputIn s l t)).2.getD 0)
        (InputFsm.inputFsm s.input.regs s.input.fifo.inReady (inputIn s l t)).2.isSome (!s.inFifo.wr.wrFull)
      refine ⟨⟨0, hwf⟩, ?_⟩
      rw [if_pos ⟨rfl, rfl⟩, hwf.words_eq]
      rfl
    | false =>
      obtain ⟨hwf, hspec⟩ := hk.next_spec
        ((InputFsm.inputFsm s.input.regs s.input.fifo.inReady (inputIn s l t)).2.getD 0)
        (InputFsm.inputFsm s.input.regs s.input.fifo.inReady (inputIn s l t)).2.isSome (!s.inFifo.wr.wrFull)
      exact ⟨hwf, hspec⟩

/-- The FIFOs between the domains before a reset of them. -/
def nextInFifo (s : State W L) (l : Edge W) : CdcFifo.State 4 W := fifoEdge s.inFifo (inWr s l) (inRd l)

def nextOutFifo (s : State W L) (l : Edge W) : CdcFifo.State 4 W := fifoEdge s.outFifo (outWr l) (outRd s l)

theorem step_fifos (hstep : step s l = some s') : s'.input = nextInput s l ∧
    s'.inFifo = (if clears s l then CdcFifo.initial (nextInFifo s l).mem else nextInFifo s l) ∧
      s'.outFifo = if clears s l then CdcFifo.initial (nextOutFifo s l).mem else nextOutFifo s l := by
  obtain rfl := Option.some.inj hstep
  cases l.rst <;> exact ⟨rfl, rfl, rfl⟩

theorem inv_step (h : Inv s) (hstep : step s l = some s') : Inv s' := by
  obtain ⟨hinput, hin, hout⟩ := step_fifos hstep
  constructor
  · rw [hin]
    split_ifs
    · exact fifoInv_initial _
    · exact h.inFifo.edge _ _
  · rw [hout]
    split_ifs
    · exact fifoInv_initial _
    · exact h.outFifo.edge _ _
  · rw [hinput]
    exact (syncFifo_spec h l).1
  · rw [hinput, nextInput]
    cases l.tck with
    | none => exact h.dropping
    | some t => exact step_jtagReset h.dropping _

end Edges

/-! ## Conservation -/

/-- Every word accepted has been offered to the logic or is on its way, in order and once; and so is every
word taken from the logic on the way to the host. -/
def Conserved (s : State W L) : Prop :=
  s.accepted = s.offered ++ pending s ∧ s.taken = s.popped ++ outgoing s

/-- At a reset of the communication nothing is left behind in the FIFOs between the domains, and nothing
in the FIFO of the input state machine at the edge of `tck` that resets it. -/
def Clean (s : State W L) (l : Edge W) : Prop :=
  l.rst = false → clears s l = true →
    stored s.inFifo ++ moved s l = leaving s.inFifo (inRd l) ∧
      stored s.outFifo ++ entering s.outFifo (outWr l) = leaving s.outFifo (outRd s l) ∧
        (s.input.regs.jtagReset = true → l.tck.isSome = true → s.input.fifo.words = moved s l)

instance (s : State W L) (l : Edge W) : Decidable (Clean s l) :=
  inferInstanceAs (Decidable (_ → _ → _ ∧ _ ∧ (_ → _ → _)))

theorem moved_isPrefix {s : State W L} (h : Inv s) (l : Edge W) : moved s l <+: s.input.fifo.words := by
  obtain ⟨k, hk⟩ := h.syncFifo
  have hspec := (hk.next_spec 0 false (!s.inFifo.wr.wrFull)).2
  have hnone : s.input.fifo.pushed 0 false = [] := rfl
  rw [hnone, List.append_nil] at hspec
  rw [moved_eq]
  cases l.tck with
  | none => exact List.nil_prefix
  | some t => exact ⟨_, hspec⟩

section Reset
variable {s : State W L} {l : Edge W}

/-- The words on the way to the logic survive a reset exactly if there are none. -/
theorem accepted_iff (h : Inv s) (hacc : s.accepted = s.offered ++ pending s) (hrst : l.rst = false) :
    s.accepted ++ pushed s l = s.offered ++ leaving s.inFifo (inRd l) ++ (nextInput s l).fifo.words ↔
      stored s.inFifo ++ moved s l = leaving s.inFifo (inRd l) ∧
        (s.input.regs.jtagReset = true → l.tck.isSome = true → s.input.fifo.words = moved s l) := by
  have hintRst : intRst s l = s.input.regs.jtagReset := by rw [intRst, hrst, Bool.or_false]
  obtain ⟨-, hsync⟩ := syncFifo_spec h l
  rw [hintRst] at hsync
  rw [hacc, pending, List.append_assoc, List.append_assoc, List.append_assoc, List.append_cancel_left_eq]
  split_ifs at hsync with hreset
  · -- both FIFOs are emptied
    obtain ⟨htck, hjtag⟩ := hreset
    rw [hsync, pushed_of_jtagReset h l hjtag, List.append_nil, List.append_nil]
    constructor
    · intro hall
      have hin := congrArg List.length (h.inFifo.stored_edge (inWr s l) (inRd l))
      have hlen := congrArg List.length hall
      have hmoved := (moved_isPrefix h l).length_le
      simp only [List.length_append] at hin hlen
      have heq : moved s l = s.input.fifo.words := by
        apply (moved_isPrefix h l).eq_of_length
        unfold moved at hmoved ⊢
        omega
      exact ⟨heq ▸ hall, fun _ _ => heq.symm⟩
    · rintro ⟨hin, hwords⟩
      rw [hwords hjtag htck]
      exact hin
  · rw [← hsync, ← List.append_assoc, List.append_cancel_right_eq]
    exact ⟨fun hin => ⟨hin, fun hjtag htck => absurd ⟨htck, hjtag⟩ hreset⟩, And.left⟩

theorem taken_iff (htaken : s.taken = s.popped ++ outgoing s) :
    s.taken ++ entering s.outFifo (outWr l) = s.popped ++ leaving s.outFifo (outRd s l) ↔
      stored s.outFifo ++ entering s.outFifo (outWr l) = leaving s.outFifo (outRd s l) := by
  rw [htaken, outgoing, List.append_assoc, List.append_cancel_left_eq]

end Reset

theorem step_history {s s' : State W L} {l : Edge W} (hstep : step s l = some s') (hrst : l.rst = false) :
    (s'.accepted = s.accepted ++ pushed s l ∧ s'.offered = s.offered ++ leaving s.inFifo (inRd l)) ∧
      s'.taken = s.taken ++ entering s.outFifo (outWr l) ∧
        s'.popped = s.popped ++ leaving s.outFifo (outRd s l) := by
  obtain rfl := Option.some.inj hstep
  rw [hrst, if_neg Bool.false_ne_true]
  exact ⟨⟨rfl, rfl⟩, rfl, rfl⟩

theorem conserved_iff_clean {s s' : State W L} {l : Edge W} (h : Inv s) (hs : Conserved s)
    (hstep : step s l = some s') : Conserved s' ↔ Clean s l := by
  obtain ⟨hacc, htaken⟩ := hs
  cases hrst : l.rst with
  | true =>
    obtain rfl := Option.some.inj hstep
    rw [hrst, if_pos rfl]
    exact iff_of_true ⟨rfl, rfl⟩ fun hlow => absurd (hrst.symm.trans hlow) (by decide)
  | false =>
    obtain ⟨⟨haccepted, hoffered⟩, htaken', hpopped⟩ := step_history hstep hrst
    obtain ⟨hinput, hin, hout⟩ := step_fifos hstep
    rw [Conserved, pending, outgoing, haccepted, hoffered, htaken', hpopped, hinput, hin, hout]
    cases hclears : clears s l with
    | true =>
      have hempty (mem : BitVec 4 → BitVec W) : stored (CdcFifo.initial mem) = [] := rfl
      rw [if_pos rfl, if_pos rfl, hempty, hempty, List.nil_append, List.append_nil, accepted_iff h hacc hrst,
        taken_iff htaken]
      constructor
      · rintro ⟨⟨hinFifo, hsync⟩, houtFifo⟩ - -
        exact ⟨hinFifo, houtFifo, hsync⟩
      · intro hclean
        obtain ⟨hinFifo, houtFifo, hsync⟩ := hclean hrst hclears
        exact ⟨⟨hinFifo, hsync⟩, houtFifo⟩
    | false =>
      have hnot : ¬ (l.tck.isSome = true ∧ intRst s l = true) := by
        rintro ⟨-, hreset⟩
        rw [clears, hreset, Bool.true_or] at hclears
        cases hclears
      obtain ⟨-, hsync⟩ := syncFifo_spec h l
      rw [if_neg hnot] at hsync
      rw [if_neg Bool.false_ne_true, if_neg Bool.false_ne_true]
      refine iff_of_true ⟨?_, ?_⟩ fun _ hclear => absurd (hclears.symm.trans hclear) (by decide)
      · -- the words move through the two FIFOs
        have hstored : leaving s.inFifo (inRd l) ++ stored (nextInFifo s l) = stored s.inFifo ++ moved s l :=
          h.inFifo.stored_edge (inWr s l) (inRd l)
        calc s.accepted ++ pushed s l
            = s.offered ++ (stored s.inFifo ++ (s.input.fifo.words ++ pushed s l)) := by
              rw [hacc, pending, List.append_assoc, List.append_assoc]
          _ = s.offered ++ (leaving s.inFifo (inRd l) ++ stored (nextInFifo s l) ++ (nextInput s l).fifo.words) := by
              rw [← hsync, ← List.append_assoc (stored s.inFifo), hstored]
          _ = s.offered ++ leaving s.inFifo (inRd l) ++ (stored (nextInFifo s l) ++ (nextInput s l).fifo.words) := by
              simp only [List.append_assoc]
      · have hstored : leaving s.outFifo (outRd s l) ++ stored (nextOutFifo s l) =
            stored s.outFifo ++ entering s.outFifo (outWr l) := h.outFifo.stored_edge (outWr l) (outRd s l)
        rw [htaken, outgoing, List.append_assoc, ← hstored, List.append_assoc]

end GlipOsd.Jtag.Toplevel
