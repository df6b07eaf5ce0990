import GlipOsd.Jtag.Conservation

/-! # Progress of the words towards the logic

As long as both clocks run, the logic is ready and nothing is reset, every word that has been accepted is
offered to the logic. A word waits in `in_fifo` until the reader has seen that it was written, and in
`sync_fifo` until the writer has seen that `in_fifo` is not full; either takes three edges at most.
-/

namespace GlipOsd.Jtag.Toplevel
open Runs Gray
set_option autoImplicit false

variable {W L : ℕ}

/-! ## The counts behind an edge -/

section Counts
variable {f : CdcFifo.State 4 W} {read1 read2 written1 written2 : ℕ}

/-- Each flop takes the count in front of it when its clock has an edge. -/
theorem edge_inv (h : CdcFifo.Inv f read1 read2 written1 written2) (i : Option (CdcFifo.WrIn 4 W))
    (j : Option (CdcFifo.RdIn 4)) : ∃ r w, f.delivered.length ≤ r ∧ f.accepted.length ≤ w ∧
      CdcFifo.Inv (fifoEdge f i j) (if i.isSome then r else read1) (if i.isSome then read1 else read2)
        (if j.isSome then w else written1) (if j.isSome then written1 else written2) := by
  cases i with
  | none =>
    cases j with
    | none => exact ⟨_, _, le_rfl, le_rfl, h⟩
    | some j => exact ⟨_, _, le_rfl, le_rfl, CdcFifo.inv_rdClk h j⟩
  | some i =>
    cases j with
    | none => exact ⟨_, _, le_rfl, le_rfl, CdcFifo.inv_wrClk (by norm_num) h i⟩
    | some j =>
      obtain ⟨r, w, hr, hw, hinv⟩ := CdcFifo.inv_both (by norm_num) h i j 0 0
      exact ⟨r, w, hr, hw, hinv⟩

theorem rdEmpty_edge (f : CdcFifo.State 4 W) (i : Option (CdcFifo.WrIn 4 W)) (j : CdcFifo.RdIn 4) :
    (fifoEdge f i (some j)).rd.rdEmpty = ((fifoEdge f i (some j)).rd.rdPtr == f.rd.rdq2) := by
  cases i <;> rfl

theorem wrFull_edge (f : CdcFifo.State 4 W) (i : CdcFifo.WrIn 4 W) (j : Option (CdcFifo.RdIn 4)) :
    (fifoEdge f (some i) j).wr.wrFull = ((fifoEdge f (some i) j).wr.wrPtr == CdcFifo.invertTop f.wr.wrq2) := by
  cases j <;> rfl

/-- The number of edges of the reader until a word that is stored can leave. -/
def Seen (f : CdcFifo.State 4 W) : ℕ → Prop
  | 0 => f.rd.rdEmpty = false
  | 1 => ∃ r1 r2 w1 w2, CdcFifo.Inv f r1 r2 w1 w2 ∧ f.delivered.length < w2
  | 2 => ∃ r1 r2 w1 w2, CdcFifo.Inv f r1 r2 w1 w2 ∧ f.delivered.length < w1
  | _ => f.delivered.length < f.accepted.length

/-- The number of edges of the writer until a word can enter a FIFO that has been read to the end. -/
def Free (f : CdcFifo.State 4 W) : ℕ → Prop
  | 0 => f.wr.wrFull = false
  | 1 => ∃ r1 r2 w1 w2, CdcFifo.Inv f r1 r2 w1 w2 ∧ f.accepted.length ≤ r2
  | 2 => ∃ r1 r2 w1 w2, CdcFifo.Inv f r1 r2 w1 w2 ∧ f.accepted.length ≤ r1
  | _ => f.accepted.length ≤ f.delivered.length

theorem seen_succ (h : FifoInv f) {k : ℕ} (hseen : Seen f k) : Seen f (k + 1) := by
  match k with
  | 0 =>
    obtain ⟨r1, r2, w1, w2, hinv⟩ := h
    exact ⟨r1, r2, w1, w2, hinv, hinv.rd.notEmpty hseen⟩
  | 1 =>
    obtain ⟨r1, r2, w1, w2, hinv, hlt⟩ := hseen
    exact ⟨r1, r2, w1, w2, hinv, hlt.trans_le hinv.rd.order⟩
  | 2 =>
    obtain ⟨r1, r2, w1, w2, hinv, hlt⟩ := hseen
    exact hlt.trans_le hinv.written1_le
  | _ + 3 => exact hseen

/-- When nothing leaves at an edge, the reader has seen more behind it. -/
theorem seen_edge (h : FifoInv f) {k : ℕ} (hseen : Seen f (k + 1)) (i : Option (CdcFifo.WrIn 4 W))
    (j : CdcFifo.RdIn 4) (hstay : leaving f (some j) = []) : Seen (fifoEdge f i (some j)) k := by
  obtain ⟨-, hdel⟩ := fifoEdge_history f i (some j)
  rw [hstay, List.append_nil] at hdel
  match k with
  | 0 =>
    obtain ⟨r1, r2, w1, w2, hinv, hlt⟩ := hseen
    obtain ⟨r, w, -, -, hnext⟩ := edge_inv hinv i (some j)
    have hne : gray (BitVec.ofNat 5 f.delivered.length) ≠ gray (BitVec.ofNat 5 w2) := by
      intro heq
      have hbound := hinv.bounded
      have hw2 := hinv.rd.order
      have hw1 := hinv.written1_le
      have hcount := (ofNat_inj hlt.le (by omega)).mp (gray_injective heq).symm
      omega
    show (fifoEdge f i (some j)).rd.rdEmpty = false
    rw [rdEmpty_edge, hnext.rd.rdPtr, hinv.rd.rdq2, hdel]
    exact beq_eq_false_iff_ne.mpr hne
  | 1 =>
    obtain ⟨r1, r2, w1, w2, hinv, hlt⟩ := hseen
    obtain ⟨r, w, -, -, hnext⟩ := edge_inv hinv i (some j)
    exact ⟨_, _, _, _, hnext, by rw [hdel]; exact hlt⟩
  | 2 =>
    obtain ⟨r1, r2, w1, w2, hinv⟩ := h
    obtain ⟨r, w, -, hw, hnext⟩ := edge_inv hinv i (some j)
    exact ⟨_, _, _, _, hnext, by rw [hdel]; exact (show f.delivered.length < _ from hseen).trans_le hw⟩
  | k + 3 =>
    have hacc := (fifoEdge_history f i (some j)).1
    show (fifoEdge f i (some j)).delivered.length < (fifoEdge f i (some j)).accepted.length
    rw [hdel, hacc, List.length_append]
    exact (show f.delivered.length < _ from hseen).trans_le (Nat.le_add_right _ _)

theorem seen_wrEdge {k : ℕ} (hseen : Seen f k) (i : Option (CdcFifo.WrIn 4 W)) : Seen (fifoEdge f i none) k := by
  obtain ⟨hacc, hdel⟩ := fifoEdge_history f i none
  have hnone : leaving f none = [] := rfl
  rw [hnone, List.append_nil] at hdel
  match k with
  | 0 =>
    have hrd : (fifoEdge f i none).rd = f.rd := by
      cases i with
      | none => rfl
      | some i =>
        show (CdcFifo.write f i).rd = f.rd
        unfold CdcFifo.write
        split_ifs <;> rfl
    show (fifoEdge f i none).rd.rdEmpty = false
    rw [hrd]
    exact hseen
  | 1 =>
    obtain ⟨r1, r2, w1, w2, hinv, hlt⟩ := hseen
    obtain ⟨r, w, -, -, hnext⟩ := edge_inv hinv i none
    exact ⟨_, _, _, _, hnext, by rw [hdel]; exact hlt⟩
  | 2 =>
    obtain ⟨r1, r2, w1, w2, hinv, hlt⟩ := hseen
    obtain ⟨r, w, -, -, hnext⟩ := edge_inv hinv i none
    exact ⟨_, _, _, _, hnext, by rw [hdel]; exact hlt⟩
  | k + 3 =>
    show (fifoEdge f i none).delivered.length < (fifoEdge f i none).accepted.length
    rw [hdel, hacc, List.length_append]
    exact (show f.delivered.length < _ from hseen).trans_le (Nat.le_add_right _ _)

/-- When nothing enters at an edge, the writer has seen more behind it. -/
theorem free_edge (h : FifoInv f) {k : ℕ} (hfree : Free f (k + 1)) (i : CdcFifo.WrIn 4 W)
    (j : Option (CdcFifo.RdIn 4)) (hstay : entering f (some i) = []) : Free (fifoEdge f (some i) j) k := by
  obtain ⟨hacc, hdel⟩ := fifoEdge_history f (some i) j
  rw [hstay, List.append_nil] at hacc
  match k with
  | 0 =>
    obtain ⟨r1, r2, w1, w2, hinv, hle⟩ := hfree
    obtain ⟨r, w, -, -, hnext⟩ := edge_inv hinv (some i) j
    have hne : gray (BitVec.ofNat 5 f.accepted.length) ≠ gray (BitVec.ofNat 5 (r2 + 2 ^ 4)) := by
      intro heq
      have hr2 := hinv.wr.order
      have hr1 := hinv.read1_le
      have hprefix : f.delivered.length ≤ f.accepted.length := by
        rw [h.eq_append, List.length_append]
        exact Nat.le_add_right _ _
      have hcount := (ofNat_inj (by omega) (by omega)).mp (gray_injective heq).symm
      omega
    show (fifoEdge f (some i) j).wr.wrFull = false
    rw [wrFull_edge, hnext.wr.wrPtr, hinv.wr.wrq2, hacc, CdcFifo.invertTop_gray (by norm_num)]
    exact beq_eq_false_iff_ne.mpr hne
  | 1 =>
    obtain ⟨r1, r2, w1, w2, hinv, hle⟩ := hfree
    obtain ⟨r, w, -, -, hnext⟩ := edge_inv hinv (some i) j
    exact ⟨_, _, _, _, hnext, by rw [hacc]; exact hle⟩
  | 2 =>
    obtain ⟨r1, r2, w1, w2, hinv⟩ := h
    obtain ⟨r, w, hr, -, hnext⟩ := edge_inv hinv (some i) j
    exact ⟨_, _, _, _, hnext, by rw [hacc]; exact (show f.accepted.length ≤ _ from hfree).trans hr⟩
  | k + 3 =>
    show (fifoEdge f (some i) j).accepted.length ≤ (fifoEdge f (some i) j).delivered.length
    rw [hdel, hacc, List.length_append]
    exact (show f.accepted.length ≤ _ from hfree).trans (Nat.le_add_right _ _)

theorem free_rdEdge {k : ℕ} (hfree : Free f k) (j : Option (CdcFifo.RdIn 4)) : Free (fifoEdge f none j) k := by
  obtain ⟨hacc, hdel⟩ := fifoEdge_history f none j
  have hnone : entering f none = [] := rfl
  rw [hnone, List.append_nil] at hacc
  match k with
  | 0 =>
    have hwr : (fifoEdge f none j).wr = f.wr := by cases j <;> rfl
    show (fifoEdge f none j).wr.wrFull = false
    rw [hwr]
    exact hfree
  | 1 =>
    obtain ⟨r1, r2, w1, w2, hinv, hle⟩ := hfree
    obtain ⟨r, w, -, -, hnext⟩ := edge_inv hinv none j
    exact ⟨_, _, _, _, hnext, by rw [hacc]; exact hle⟩
  | 2 =>
    obtain ⟨r1, r2, w1, w2, hinv, hle⟩ := hfree
    obtain ⟨r, w, -, -, hnext⟩ := edge_inv hinv none j
    exact ⟨_, _, _, _, hnext, by rw [hacc]; exact hle⟩
  | k + 3 =>
    show (fifoEdge f none j).accepted.length ≤ (fifoEdge f none j).delivered.length
    rw [hdel, hacc, List.length_append]
    exact (show f.accepted.length ≤ _ from hfree).trans (Nat.le_add_right _ _)

end Counts

/-! ## The words in `in_fifo` -/

/-- No reset, and a logic that is ready. -/
def Flowing (s : State W L) (l : Edge W) : Prop :=
  clears s l = false ∧ ∀ c, l.clk = some c → c.fifoInReady = true

section Flow
variable {N k : ℕ} {s s' t : State W L} {l : Edge W} {ls : List (Edge W)} {segs : List (List (Edge W))}

theorem Flowing.rst (h : Flowing s l) : l.rst = false := by
  have hclears := h.1
  rw [clears, intRst] at hclears
  simp only [Bool.or_eq_false_iff] at hclears
  exact hclears.1.2

theorem Flowing.inFifo (h : Flowing s l) (hstep : step s l = some s') :
    s'.inFifo = fifoEdge s.inFifo (inWr s l) (inRd l) := by
  obtain ⟨-, hin, -⟩ := step_fifos hstep
  rw [h.1, if_neg Bool.false_ne_true] at hin
  exact hin

theorem Flowing.offered (h : Flowing s l) (hstep : step s l = some s') :
    s'.offered = s.offered ++ leaving s.inFifo (inRd l) := (step_history hstep h.rst).1.2

theorem Flowing.offered_le (h : Flowing s l) (hstep : step s l = some s') (hN : N < s.offered.length) :
    N < s'.offered.length := by
  rw [h.offered hstep, List.length_append]
  omega

theorem leaving_of_seen {f : CdcFifo.State 4 W} (hseen : Seen f 0) {j : CdcFifo.RdIn 4} (hj : j.rdEn = true) :
    leaving f (some j) = [f.rdData] := by
  rw [leaving, Option.elim_some, hj, show f.rd.rdEmpty = false from hseen]
  rfl

theorem seen_drop (h : Inv s) (hflow : Flowing s l) (hstep : step s l = some s') (hN : N ≤ s.offered.length)
    (hclk : l.clk.isSome = true) (hseen : Seen s.inFifo k) :
    N < s'.offered.length ∨ ∃ m, k = m + 1 ∧ Seen s'.inFifo m := by
  obtain ⟨c, hc⟩ := Option.isSome_iff_exists.mp hclk
  have hrd : inRd l = some ⟨c.fifoInReady, c.inSel⟩ := by rw [inRd, hc, Option.map_some]
  rw [hflow.offered hstep, hflow.inFifo hstep, hrd, List.length_append]
  by_cases hstay : leaving s.inFifo (some ⟨c.fifoInReady, c.inSel⟩) = []
  · right
    cases k with
    | zero =>
      rw [leaving_of_seen hseen (hflow.2 c hc)] at hstay
      cases hstay
    | succ m => exact ⟨m, rfl, seen_edge h.inFifo hseen _ _ hstay⟩
  · have hpos := List.length_pos_iff.mpr hstay
    left
    omega

theorem seen_keep (h : Inv s) (hflow : Flowing s l) (hstep : step s l = some s') (hN : N ≤ s.offered.length)
    (hseen : Seen s.inFifo k) : N < s'.offered.length ∨ Seen s'.inFifo k := by
  cases hc : l.clk with
  | none =>
    have hrd : inRd l = none := by rw [inRd, hc, Option.map_none]
    rw [hflow.inFifo hstep, hrd]
    exact .inr (seen_wrEdge hseen _)
  | some c =>
    obtain hgrown | ⟨m, rfl, hm⟩ := seen_drop h hflow hstep hN (by rw [hc]; rfl) hseen
    · exact .inl hgrown
    · exact .inr (seen_succ (inv_step h hstep).inFifo hm)

/-- Both clocks run. -/
def Busy (seg : List (Edge W)) : Prop := (∃ l ∈ seg, l.tck.isSome = true) ∧ ∃ l ∈ seg, l.clk.isSome = true

/-- What is kept on the way: the invariant, and at least `N` words have been offered. -/
def Reached (N : ℕ) (s : State W L) : Prop := Inv s ∧ N ≤ s.offered.length

theorem Reached.next (h : Reached N s) (hflow : Flowing s l) (hstep : step s l = some s') : Reached N s' := by
  refine ⟨inv_step h.1 hstep, h.2.trans ?_⟩
  rw [hflow.offered hstep, List.length_append]
  exact Nat.le_add_right _ _

/-- A word that is stored in `in_fifo` leaves it within four segments. -/
theorem stored_leaves (h : Inv s) (hstored : stored s.inFifo ≠ []) (hsegs : ∀ seg ∈ segs, Busy seg)
    (hlen : 4 ≤ segs.length) (hrun : runFrom step s segs.flatten = some t)
    (ht : Takes step Flowing s segs.flatten) : s.offered.length < t.offered.length := by
  have hseen : Seen s.inFifo 3 := by
    have hpos := List.length_pos_iff.mpr hstored
    show s.inFifo.delivered.length < s.inFifo.accepted.length
    rw [stored, List.length_drop] at hpos
    omega
  exact rank_reaches (Reached s.offered.length) (fun t => s.offered.length < t.offered.length)
    (fun k s => Seen s.inFifo k) (fun l => l.clk.isSome = true)
    (fun _ _ _ h hc hstep => h.next hc hstep) (fun _ _ _ _ hc hstep hg => hc.offered_le hstep hg)
    (fun _ _ _ _ h hc hstep hq => seen_keep h.1 hc hstep h.2 hq)
    (fun _ _ _ _ h hc hstep hl hq => seen_drop h.1 hc hstep h.2 hl hq)
    (fun seg hmem => (hsegs seg hmem).2) hlen ⟨h, le_rfl⟩ hseen hrun ht

/-! ## The words in `sync_fifo` -/

theorem stored_ne_nil {f : CdcFifo.State 4 W} : stored f ≠ [] ↔ Seen f 3 := by
  rw [← List.length_pos_iff, stored, List.length_drop, Nat.sub_pos_iff_lt]
  rfl

theorem stored_eq_nil {f : CdcFifo.State 4 W} : stored f = [] ↔ Free f 3 := by
  rw [stored, List.drop_eq_nil_iff]
  rfl

/-- A word is in `sync_fifo`, and the writer of `in_fifo` waits for `k` edges at most. -/
def Waiting (k : ℕ) (s : State W L) : Prop := s.input.fifo.words ≠ [] ∧ ∃ m ≤ k, Free s.inFifo m

/-- A word has left `in_fifo` or is stored in it. -/
def Arrived (N : ℕ) (s : State W L) : Prop := N < s.offered.length ∨ stored s.inFifo ≠ []

theorem Flowing.moves (hflow : Flowing s l) (h : Inv s) :
    moved s l ++ (nextInput s l).fifo.words = s.input.fifo.words ++ pushed s l := by
  have hclears := hflow.1
  rw [clears, Bool.or_eq_false_iff] at hclears
  have hsync := (syncFifo_spec h l).2
  rwa [if_neg (by rw [hclears.1]; simp)] at hsync

theorem arrived_of_moved (h : Inv s) (hflow : Flowing s l) (hstep : step s l = some s')
    (hN : N ≤ s.offered.length) (hmoved : moved s l ≠ []) : Arrived N s' := by
  have hspec := h.inFifo.stored_edge (inWr s l) (inRd l)
  rw [← hflow.inFifo hstep] at hspec
  by_cases hstay : leaving s.inFifo (inRd l) = []
  · right
    intro hnone
    rw [hstay, hnone] at hspec
    exact hmoved (List.append_eq_nil_iff.mp hspec.symm).2
  · left
    have hpos := List.length_pos_iff.mpr hstay
    rw [hflow.offered hstep, List.length_append]
    omega

theorem waiting_drop (h : Inv s) (hflow : Flowing s l) (hstep : step s l = some s')
    (hN : N ≤ s.offered.length) (htck : l.tck.isSome = true) (hwait : Waiting k s) :
    Arrived N s' ∨ ∃ m, k = m + 1 ∧ Waiting m s' := by
  obtain ⟨hwords, m, hm, hfree⟩ := hwait
  by_cases hmoved : moved s l = []
  · right
    obtain ⟨j, hj⟩ := h.syncFifo
    obtain ⟨t, ht⟩ := Option.isSome_iff_exists.mp htck
    have hvalid : s.input.fifo.outValid = true := by
      have hpos := List.length_pos_iff.mpr hwords
      rw [hj.length_words] at hpos
      rw [hj.outValid_eq, decide_eq_true hpos]
    have hwr : inWr s l = some ⟨s.input.fifo.outValid, s.input.fifo.outFlit, t.inSel⟩ := by
      rw [inWr, ht, Option.map_some]
    have hstay := hmoved
    rw [moved, hwr] at hstay
    have hmoves := hflow.moves h
    rw [hmoved, List.nil_append] at hmoves
    cases m with
    | zero =>
      have hlow : s.inFifo.wr.wrFull = false := hfree
      rw [entering, Option.elim_some, hvalid, hlow] at hstay
      cases hstay
    | succ m =>
      refine ⟨k - 1, by omega, ?_, m, by omega, ?_⟩
      · rw [(step_fifos hstep).1, hmoves]
        exact fun hnil => hwords (List.append_eq_nil_iff.mp hnil).1
      · rw [hflow.inFifo hstep, hwr]
        exact free_edge h.inFifo hfree _ _ hstay
  · exact .inl (arrived_of_moved h hflow hstep hN hmoved)

theorem waiting_keep (h : Inv s) (hflow : Flowing s l) (hstep : step s l = some s')
    (hN : N ≤ s.offered.length) (hwait : Waiting k s) : Arrived N s' ∨ Waiting k s' := by
  cases ht : l.tck with
  | none =>
    obtain ⟨hwords, m, hm, hfree⟩ := hwait
    have hwr : inWr s l = none := by rw [inWr, ht, Option.map_none]
    have hsame : nextInput s l = s.input := by rw [nextInput, ht, Option.elim_none]
    refine .inr ⟨?_, m, hm, ?_⟩
    · rw [(step_fifos hstep).1, hsame]
      exact hwords
    · rw [hflow.inFifo hstep, hwr]
      exact free_rdEdge hfree _
  | some t =>
    obtain harrived | ⟨m, rfl, hwords, j, hj, hfree⟩ := waiting_drop h hflow hstep hN (by rw [ht]; rfl) hwait
    · exact .inl harrived
    · exact .inr ⟨hwords, j, by omega, hfree⟩

theorem arrived_keep (h : Inv s) (hflow : Flowing s l) (hstep : step s l = some s')
    (hN : N ≤ s.offered.length) (harrived : Arrived N s) : Arrived N s' := by
  obtain hgrown | hstored := harrived
  · exact .inl (hflow.offered_le hstep hgrown)
  · obtain hgrown | hseen := seen_keep h hflow hstep hN (stored_ne_nil.mp hstored)
    · exact .inl hgrown
    · exact .inr (stored_ne_nil.mpr hseen)

theorem words_arrive (h : Inv s) (hstored : stored s.inFifo = []) (hwords : s.input.fifo.words ≠ [])
    (hsegs : ∀ seg ∈ segs, Busy seg) (hlen : 4 ≤ segs.length)
    (hrun : runFrom step s segs.flatten = some t) (ht : Takes step Flowing s segs.flatten) :
    Arrived s.offered.length t :=
  rank_reaches (Reached s.offered.length) (Arrived s.offered.length) Waiting (fun l => l.tck.isSome = true)
    (fun _ _ _ h hc hstep => h.next hc hstep)
    (fun _ _ _ h hc hstep hg => arrived_keep h.1 hc hstep h.2 hg)
    (fun _ _ _ _ h hc hstep hq => waiting_keep h.1 hc hstep h.2 hq)
    (fun _ _ _ _ h hc hstep hl hq => waiting_drop h.1 hc hstep h.2 hl hq)
    (fun seg hmem => (hsegs seg hmem).1) hlen ⟨h, le_rfl⟩
    ⟨hwords, 3, le_rfl, stored_eq_nil.mp hstored⟩ hrun ht

/-! ## All words -/

theorem Reached.run (h : Reached N s) (hrun : runFrom step s ls = some t) (ht : Takes step Flowing s ls) :
    Reached N t :=
  ht.run (Reached N) (fun _ _ _ h hc hstep => h.next hc hstep) h hrun

/-- Some word is offered within eight segments, if there is one on the way. -/
theorem pending_leaves (h : Inv s) (hpending : pending s ≠ []) (hsegs : ∀ seg ∈ segs, Busy seg)
    (hlen : 8 ≤ segs.length) (hrun : runFrom step s segs.flatten = some t)
    (ht : Takes step Flowing s segs.flatten) : s.offered.length < t.offered.length := by
  by_cases hstored : stored s.inFifo = []
  · have hwords : s.input.fifo.words ≠ [] := by
      rwa [pending, hstored, List.nil_append] at hpending
    rw [← List.take_append_drop 4 segs, List.flatten_append] at hrun ht
    obtain ⟨u, hfirst, hsecond⟩ := runFrom_append_eq_some.mp hrun
    obtain ⟨htfirst, htsecond⟩ := ht.of_append hfirst
    have hu : Reached s.offered.length u := Reached.run ⟨h, le_rfl⟩ hfirst htfirst
    have harrived := words_arrive h hstored hwords (fun seg hmem => hsegs seg (List.mem_of_mem_take hmem))
      (by rw [List.length_take]; omega) hfirst htfirst
    obtain hgrown | hstored' := harrived
    · exact (Reached.run (N := s.offered.length + 1) ⟨hu.1, hgrown⟩ hsecond htsecond).2
    · exact hu.2.trans_lt (stored_leaves hu.1 hstored' (fun seg hmem => hsegs seg (List.mem_of_mem_drop hmem))
        (by rw [List.length_drop]; omega) hsecond htsecond)
  · exact stored_leaves h hstored hsegs (by omega) hrun ht

/-- No word is lost, and those in `words` have been accepted. -/
def Kept (words : List (BitVec W)) (s : State W L) : Prop := Inv s ∧ Conserved s ∧ words <+: s.accepted

theorem Kept.run {words : List (BitVec W)} (h : Kept words s) (hrun : runFrom step s ls = some t)
    (ht : Takes step Flowing s ls) : Kept words t := by
  refine ht.run (Kept words) ?_ h hrun
  rintro s l s' ⟨hinv, hconserved, hwords⟩ hflow hstep
  refine ⟨inv_step hinv hstep, (conserved_iff_clean hinv hconserved hstep).mpr ?_, ?_⟩
  · exact fun _ hclears => absurd (hflow.1.symm.trans hclears) (by decide)
  · rw [(step_history hstep hflow.rst).1.1]
    exact hwords.trans (List.prefix_append _ _)

/-- Every eight segments another word is offered, as long as not all of `words` are. -/
theorem offered_after {words : List (BitVec W)} (m : ℕ) (h : Kept words s) (hsegs : ∀ seg ∈ segs, Busy seg)
    (hlen : 8 * m ≤ segs.length) (hrun : runFrom step s segs.flatten = some t)
    (ht : Takes step Flowing s segs.flatten) : min words.length (s.offered.length + m) ≤ t.offered.length := by
  induction m generalizing s segs with
  | zero => exact (Nat.min_le_right _ _).trans (Reached.run ⟨h.1, le_rfl⟩ hrun ht).2
  | succ m ih =>
    by_cases hpending : pending s = []
    · have hall := h.2.1.1
      rw [hpending, List.append_nil] at hall
      have hwords := h.2.2.length_le
      rw [hall] at hwords
      exact (Nat.min_le_left _ _).trans (hwords.trans (Reached.run ⟨h.1, le_rfl⟩ hrun ht).2)
    · rw [← List.take_append_drop 8 segs, List.flatten_append] at hrun ht
      obtain ⟨u, hfirst, hsecond⟩ := runFrom_append_eq_some.mp hrun
      obtain ⟨htfirst, htsecond⟩ := ht.of_append hfirst
      have hgrown := pending_leaves h.1 hpending (fun seg hmem => hsegs seg (List.mem_of_mem_take hmem))
        (by rw [List.length_take]; omega) hfirst htfirst
      have hrest := ih (h.run hfirst htfirst) (fun seg hmem => hsegs seg (List.mem_of_mem_drop hmem))
        (by rw [List.length_drop]; omega) hsecond htsecond
      omega

/-- With enough edges of both clocks all words that had been accepted are offered. -/
theorem drains (h : Inv s) (hs : Conserved s) (hsegs : ∀ seg ∈ segs, Busy seg)
    (hlen : 8 * (pending s).length ≤ segs.length) (hrun : runFrom step s segs.flatten = some t)
    (ht : Takes step Flowing s segs.flatten) : s.accepted <+: t.offered := by
  have hkept : Kept s.accepted s := ⟨h, hs, List.prefix_rfl⟩
  have hcount := offered_after (pending s).length hkept hsegs hlen hrun ht
  obtain ⟨-, hconserved, hwords⟩ := hkept.run hrun ht
  have hlength := congrArg List.length hs.1
  rw [List.length_append] at hlength
  rw [← hlength, Nat.min_self] at hcount
  have hoffered : t.offered <+: t.accepted := by
    rw [hconserved.1]
    exact List.prefix_append _ _
  exact List.prefix_of_prefix_length_le hwords hoffered hcount

end Flow

end GlipOsd.Jtag.Toplevel
