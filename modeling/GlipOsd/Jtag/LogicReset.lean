import GlipOsd.Jtag.Draining

/-! # A reset of the logic

`gb_jtag_logic_reset` sends a first word of ones. It makes the discovery state machine look for the bit that
resets the logic, but also the input state machine reset the communication: words that are in one of the
FIFOs at that moment are lost, although they have been counted.
-/

namespace GlipOsd.Jtag.Toplevel
open Runs Bytes
set_option autoImplicit false

variable {W L : ℕ}

/-! ## The message -/

/-- What the TAP offers from an update to the first bit `sc` of the second word of a message that resets the
logic. -/
def Resets (W : ℕ) (ts : List TckIn) : Prop :=
  ∃ update quiet word sc, ts = update :: (quiet ++ (word ++ [sc])) ∧ update.updateDr = true ∧
    (∀ t ∈ quiet, t.updateDr = false ∧ (t.shiftDr && t.debugSelect) = false) ∧ word.length = W ∧
      ∀ t ∈ word ++ [sc], t.updateDr = false ∧ (t.shiftDr && t.debugSelect) = true ∧ t.tdi = true

/-- The first bits that `gb_jtag_logic_reset` sends. -/
example : (bytesBits (Discovery.ctrlReq 1)).take (16 + 1) = List.replicate (16 + 1) true := by decide

def discoveryAfter (d : Discovery.State W) (L : ℕ) (ts : List TckIn) : Discovery.State W :=
  ts.foldl (fun d t => Discovery.step L d (discoveryIn t)) d

theorem run_discovery {s s' : State W L} {ls : List (Edge W)} (hrun : runFrom step s ls = some s') :
    s'.discovery = discoveryAfter s.discovery L (ls.filterMap Edge.tck) := by
  induction ls generalizing s with
  | nil =>
    obtain rfl := Option.some.inj hrun
    rfl
  | cons l ls ih =>
    obtain ⟨u, hstep, hrest⟩ := (runFrom_cons_eq_some step).mp hrun
    have hu : u.discovery = l.tck.elim s.discovery fun t => Discovery.step L s.discovery (discoveryIn t) := by
      obtain rfl := Option.some.inj hstep
      cases l.rst <;> rfl
    rw [ih hrest, hu]
    cases ht : l.tck with
    | none => rw [List.filterMap_cons_none ht, Option.elim_none]
    | some t =>
      rw [List.filterMap_cons_some ht, Option.elim_some]
      rfl

theorem discovery_quiet {ts : List TckIn}
    (hts : ∀ t ∈ ts, t.updateDr = false ∧ (t.shiftDr && t.debugSelect) = false) :
    discoveryAfter (Discovery.reset W) L ts = Discovery.reset W := by
  induction ts with
  | nil => rfl
  | cons t ts ih =>
    obtain ⟨hupdate, hshift⟩ := hts t List.mem_cons_self
    have hstep : Discovery.step L (Discovery.reset W) (discoveryIn t) = Discovery.reset W := by
      simp only [Discovery.step, discoveryIn, hupdate, hshift]
      rfl
    rw [discoveryAfter, List.foldl_cons, hstep]
    exact ih fun t ht => hts t (List.mem_cons_of_mem _ ht)

theorem discovery_ones {ts : List TckIn} {d : Discovery.State W} {k : ℕ}
    (hd : Discovery.Phase (BitVec.allOnes W) d k) (hk : k + ts.length ≤ W)
    (hts : ∀ t ∈ ts, t.updateDr = false ∧ (t.shiftDr && t.debugSelect) = true ∧ t.tdi = true) :
    Discovery.Phase (BitVec.allOnes W) (discoveryAfter d L ts) (k + ts.length) := by
  induction ts generalizing d k with
  | nil => exact hd
  | cons t ts ih =>
    obtain ⟨hupdate, hshift, htdi⟩ := hts t List.mem_cons_self
    rw [List.length_cons] at hk
    have hnext : Discovery.Phase (BitVec.allOnes W) (Discovery.step L d (discoveryIn t)) (k + 1) := by
      refine hd.next hupdate fun hlt => ⟨hshift, ?_⟩
      rw [BitVec.getLsbD_allOnes, decide_eq_true hlt]
      exact htdi
    have hlen : k + (t :: ts).length = k + 1 + ts.length := by
      rw [List.length_cons]
      omega
    rw [hlen]
    exact ih hnext (by omega) fun t ht => hts t (List.mem_cons_of_mem _ ht)

theorem ctrlLogicRst_of_resets (hW : 0 < W) {ts : List TckIn} (h : Resets W ts) (d : Discovery.State W) :
    (discoveryAfter d L ts).ctrlLogicRst = true := by
  obtain ⟨update, quiet, word, sc, rfl, hupdate, hquiet, hlen, hbits⟩ := h
  have hstart : Discovery.step L d (discoveryIn update) = Discovery.reset W := if_pos hupdate
  have hphase : Discovery.Phase (BitVec.allOnes W) (discoveryAfter (Discovery.reset W) L word) W := by
    have hones := discovery_ones (L := L) (Discovery.phase_reset hW) (by omega)
      fun t ht => hbits t (List.mem_append_left _ ht)
    rwa [hlen, Nat.zero_add] at hones
  obtain ⟨hupdate', -, htdi⟩ := hbits sc (List.mem_append_right _ (List.mem_singleton_self sc))
  have hfold : discoveryAfter d L (update :: (quiet ++ (word ++ [sc]))) = Discovery.step L
      (discoveryAfter (Discovery.reset W) L word) (discoveryIn sc) := by
    have hrest := discovery_quiet (W := W) (L := L) hquiet
    unfold discoveryAfter at hrest ⊢
    rw [List.foldl_cons, hstart, List.foldl_append, hrest, List.foldl_append, List.foldl_cons, List.foldl_nil]
  rw [hfold, hphase.ctrlLogicRst_eq hW hupdate']
  exact Bool.and_eq_true_iff.mpr ⟨decide_eq_true ⟨rfl, rfl⟩, htdi⟩

/-! ## Words survive -/

/-- Every message that resets the logic does so. -/
def AssertsReset (s0 : State W L) (ls : List (Edge W)) : Prop :=
  ∀ (pre msg post : List (Edge W)) (s : State W L), ls = pre ++ msg ++ post → Resets W (msg.filterMap Edge.tck) →
    runFrom step s0 (pre ++ msg) = some s → s.discovery.ctrlLogicRst = true

/-- Where both clocks run, the logic is ready and nothing is reset, all words that had been accepted are
offered. -/
def Delivers (s0 : State W L) (ls : List (Edge W)) : Prop :=
  ∀ (pre : List (Edge W)) (segs : List (List (Edge W))) (post : List (Edge W)) (s t : State W L),
    ls = pre ++ (segs.flatten ++ post) → runFrom step s0 pre = some s → runFrom step s segs.flatten = some t →
      Takes step Flowing s segs.flatten → (∀ seg ∈ segs, Busy seg) → 8 * (pending s).length ≤ segs.length →
        s.accepted <+: t.offered

/-- In every state of a run no word has been lost, whatever messages are sent to reset the logic. -/
def Survives (s0 : State W L) (ls : List (Edge W)) : Prop :=
  Passes step Conserved s0 ls ∧ AssertsReset s0 ls ∧ Delivers s0 ls

theorem assertsReset (hW : 0 < W) (s0 : State W L) (ls : List (Edge W)) : AssertsReset s0 ls := by
  rintro pre msg post s - hresets hrun
  obtain ⟨u, -, hmsg⟩ := runFrom_append_eq_some.mp hrun
  rw [run_discovery hmsg]
  exact ctrlLogicRst_of_resets hW hresets u.discovery

theorem conserved_initial (error : Bool) (cells : Fin L → BitVec W) (discovery : Discovery.State W)
    (output : OutputFsm.State W) (inMem outMem : BitVec 4 → BitVec W) :
    Conserved (initial error cells discovery output inMem outMem) := by
  have hwords : (JtagFifo.reset (L := L) (List.ofFn cells)).words = [] := by
    rw [(JtagFifo.wf_reset List.length_ofFn).words_eq]
    rfl
  refine ⟨?_, rfl⟩
  rw [pending]
  exact hwords.symm

theorem delivers_of_clean {s0 t : State W L} {ls : List (Edge W)} (h : Inv s0) (hs : Conserved s0)
    (hrun : runFrom step s0 ls = some t) (hclean : Takes step Clean s0 ls) : Delivers s0 ls := by
  rintro pre segs post s u rfl hpre hsegs hflow hbusy hlen
  obtain ⟨hinv, hconserved⟩ := (hclean.of_append hpre).1.run (fun s => Inv s ∧ Conserved s)
    (fun s l s' h hc hstep => ⟨inv_step h.1 hstep, (conserved_iff_clean h.1 h.2 hstep).mpr hc⟩) ⟨h, hs⟩ hpre
  exact drains hinv hconserved hbusy hlen hsegs hflow

/-- **Logic reset.** In a run from the reset on the words survive exactly if nothing is stored on the way
whenever the communication is reset. -/
theorem survives_iff_clean (hW : 0 < W) (error : Bool) (cells : Fin L → BitVec W) (discovery : Discovery.State W)
    (output : OutputFsm.State W) (inMem outMem : BitVec 4 → BitVec W) (ls : List (Edge W)) (s : State W L)
    (hrun : runFrom step (initial error cells discovery output inMem outMem) ls = some s) :
    Survives (initial error cells discovery output inMem outMem) ls ↔
      Takes step Clean (initial error cells discovery output inMem outMem) ls := by
  have hinv := inv_initial error cells discovery output inMem outMem
  have hconserved := conserved_initial error cells discovery output inMem outMem
  have hiff := passes_iff_takes Inv (fun s l s' h _ hstep _ => inv_step h hstep)
    (fun s l s' h hs hstep => conserved_iff_clean h hs hstep) hinv hconserved hrun
  constructor
  · exact fun h => hiff.mp h.1
  · exact fun h => ⟨hiff.mpr h, assertsReset hW _ _, delivers_of_clean hinv hconserved hrun h⟩

/-! ## A word that is lost -/

def tckEdge (shift update capture tdi : Bool) : Edge 16 := ⟨false, some ⟨tdi, shift, update, capture, true, 0, 0⟩, none⟩

/-- An update, a capture and the bits of a scan, while `clk` stands still. -/
def scan (bs : List Bool) : List (Edge 16) :=
  tckEdge false true false false :: tckEdge false false true false :: bs.map (tckEdge true false false)

def afterReset : State 16 3 :=
  initial false (fun _ => 0) (Discovery.reset 16) (OutputFsm.reset 16) (fun _ => 0) (fun _ => 0)

/-- A request with one word, and the beginning of a message that resets the logic. -/
def writeAndReset : List (Edge 16) :=
  scan (bytesBits [1, 0, 0, 0, 0xCD, 0xAB, 0, 0, 0, 0]) ++ scan ((bytesBits (Discovery.ctrlReq 1)).take 17)

theorem writeAndReset_loses : ((runFrom step afterReset writeAndReset).map fun s =>
    (s.accepted, s.offered, pending s, s.discovery.ctrlLogicRst)) = some ([0xABCD], [], [], true) ∧
      ¬ Survives afterReset writeAndReset := by
  have heval : ((runFrom step afterReset writeAndReset).map fun s =>
      (s.accepted, s.offered, pending s, s.discovery.ctrlLogicRst)) = some ([0xABCD], [], [], true) := by
    decide +kernel
  refine ⟨heval, fun hsurvives => ?_⟩
  obtain ⟨s, hrun, hs⟩ := Option.map_eq_some_iff.mp heval
  simp only [Prod.mk.injEq] at hs
  obtain ⟨haccepted, hoffered, hpending, -⟩ := hs
  have hlost := (hsurvives.1.last hrun).1
  rw [haccepted, hoffered, hpending] at hlost
  cases hlost

/-- Both clocks run, and the logic takes what it is offered. -/
def bothEdge : Edge 16 := ⟨false, some ⟨false, false, false, false, true, 0, 0⟩, some ⟨0, false, true, 0, 0⟩⟩

/-- The same messages, with some time in between. -/
def writeWaitReset : List (Edge 16) :=
  scan (bytesBits [1, 0, 0, 0, 0xCD, 0xAB, 0, 0, 0, 0]) ++ List.replicate 8 bothEdge ++
    scan ((bytesBits (Discovery.ctrlReq 1)).take 17)

/-- The word has been offered when the message comes, and nothing is lost. -/
theorem offered_word_survives : ((runFrom step afterReset writeWaitReset).map fun s =>
    (s.accepted, s.offered, pending s, s.discovery.ctrlLogicRst)) = some ([0xABCD], [0xABCD], [], true) ∧
      Survives afterReset writeWaitReset := by
  have heval : ((runFrom step afterReset writeWaitReset).map fun s =>
      (s.accepted, s.offered, pending s, s.discovery.ctrlLogicRst)) = some ([0xABCD], [0xABCD], [], true) := by
    decide +kernel
  obtain ⟨s, hrun, -⟩ := Option.map_eq_some_iff.mp heval
  refine ⟨heval, (survives_iff_clean (by decide) false _ _ _ _ _ _ s hrun).mpr ?_⟩
  show Takes step Clean afterReset _
  decide +kernel

end GlipOsd.Jtag.Toplevel
