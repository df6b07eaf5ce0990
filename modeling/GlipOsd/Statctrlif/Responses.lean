import GlipOsd.Foundations.Runs
import GlipOsd.Statctrlif.Model

/-! # The responses on `debug_out`

`Tracked` adds to the registers the flits transferred so far. The two flits of a response are
followed by a value after a read that succeeded, and `last` marks the final flit.
-/

namespace GlipOsd.Statctrlif.Responses
open Runs Packets
set_option autoImplicit false

variable {w : ℕ}

/-! ## Well-formed responses -/

def header (id : BitVec 10) (write error : Bool) : BitVec 16 :=
  0#4 ++ BitVec.ofBool write ++ BitVec.ofBool error ++ id

def response (id requester : BitVec 10) (write error : Bool) (value : BitVec 16) : List DiiFlit :=
  ⟨true, false, requester.zeroExtend 16⟩ :: ⟨true, error || write, header id write error⟩ ::
    if error || write then [] else [⟨true, true, value⟩]

def IsResponse (id : BitVec 10) (q : List DiiFlit) : Prop :=
  ∃ requester write error value, q = response id requester write error value

/-- Complete responses, and the front of one that is not complete. -/
def WellFormed (id : BitVec 10) (sent : List DiiFlit) : Prop :=
  ∃ (ps : List (List DiiFlit)) (rest more : List DiiFlit), sent = ps.flatten ++ rest ∧
    (∀ q ∈ ps, IsResponse id q) ∧ more ≠ [] ∧ IsResponse id (rest ++ more)

theorem IsResponse.isPacket {id : BitVec 10} {q : List DiiFlit} (h : IsResponse id q) :
    IsPacket DiiFlit.last q := by
  obtain ⟨requester, write, error, value, rfl⟩ := h
  unfold response
  by_cases hend : (error || write) = true
  · rw [if_pos hend, hend]
    exact ⟨[⟨true, false, _⟩], _, rfl, by simp [Open], rfl⟩
  · rw [if_neg hend, Bool.eq_false_iff.mpr hend]
    exact ⟨[⟨true, false, _⟩, ⟨true, false, _⟩], _, rfl, by simp [Open], rfl⟩

theorem IsResponse.two_le_length {id : BitVec 10} {q : List DiiFlit} (h : IsResponse id q) :
    2 ≤ q.length := by
  obtain ⟨requester, write, error, value, rfl⟩ := h
  rw [response, List.length_cons, List.length_cons]
  omega

/-- The front of a packet that is not complete does not contain its final flit. -/
theorem open_of_isPacket_append {rest more : List DiiFlit} (h : IsPacket DiiFlit.last (rest ++ more))
    (hmore : more ≠ []) : Open DiiFlit.last rest := by
  obtain ⟨body, x, heq, hbody, -⟩ := h
  obtain ⟨more', y, rfl⟩ := List.eq_nil_or_concat more |>.resolve_left hmore
  rw [List.concat_eq_append, ← List.append_assoc] at heq
  obtain ⟨rfl, -⟩ := List.append_inj' heq rfl
  exact fun z hz => hbody z (List.mem_append_left more' hz)

theorem not_wellFormed_single {id : BitVec 10} {ps : List (List DiiFlit)} {x : DiiFlit}
    (hps : ∀ q ∈ ps, IsResponse id q) (hx : x.last = true) : ¬ WellFormed id (ps.flatten ++ [x]) := by
  rintro ⟨qs, rest, more, heq, hqs, hmore, hrest⟩
  have hsingle : IsPacket DiiFlit.last [x] := ⟨[], x, rfl, by simp [Open], hx⟩
  have hpackets : ∀ q ∈ ps ++ [[x]], IsPacket DiiFlit.last q := by
    intro q hq
    obtain hq | hq := List.mem_append.mp hq
    · exact (hps q hq).isPacket
    · exact List.mem_singleton.mp hq ▸ hsingle
  have hcut := cut_flatten hpackets (by simp [Open] : Open DiiFlit.last [])
  have hcut' := cut_flatten (fun q hq => (hqs q hq).isPacket)
    (open_of_isPacket_append hrest.isPacket hmore)
  rw [List.append_nil, List.flatten_append, List.flatten_singleton, heq, hcut', Prod.mk.injEq] at hcut
  have hmem : [x] ∈ qs := by
    rw [hcut.1]
    exact List.mem_append_right ps List.mem_cons_self
  have hlen := (hqs _ hmem).two_le_length
  rw [List.length_singleton] at hlen
  omega

/-! ## The run -/

structure Tracked (w : ℕ) where
  regs : Regs w
  /-- The flits transferred on `debug_out`. -/
  sent : List DiiFlit

def cycle (p : Params) (t : Tracked w) (i : Input) : Option (Tracked w) :=
  some ⟨next p t.regs i, t.sent ++ (debugOut p t.regs).transfer i.debugOutReady⟩

/-- No value follows a response with an error. -/
def NoStrayValue (t : Tracked w) (i : Input) : Prop :=
  ¬ (t.regs.state = .respValue ∧ t.regs.respError = true ∧ i.debugOutReady = true)

def partSent (p : Params) (s : Regs w) : List DiiFlit :=
  match s.state with
  | .respSrc => [⟨true, false, s.respDest.zeroExtend 16⟩]
  | .respValue =>
    if s.respError then []
    else [⟨true, false, s.respDest.zeroExtend 16⟩, ⟨true, false, header p.id false false⟩]
  | _ => []

/-- Complete responses and the part of the current one. -/
def Accounted (p : Params) (t : Tracked w) : Prop :=
  ∃ ps : List (List DiiFlit), (∀ q ∈ ps, IsResponse p.id q) ∧ t.sent = ps.flatten ++ partSent p t.regs ∧
    (t.regs.state = .respValue → t.regs.reqWrite = false)

variable {p : Params} {t t' : Tracked w} {i : Input}

theorem Accounted.wellFormed (h : Accounted p t) : WellFormed p.id t.sent := by
  obtain ⟨ps, hps, hsent, hread⟩ := h
  have hwhole : ∃ more, more ≠ [] ∧ IsResponse p.id (partSent p t.regs ++ more) := by
    unfold partSent
    cases hs : t.regs.state with
    | respSrc =>
      exact ⟨[⟨true, true, header p.id true false⟩], List.cons_ne_nil _ _,
        t.regs.respDest, true, false, 0, rfl⟩
    | respValue =>
      cases t.regs.respError with
      | true => exact ⟨response p.id 0 true false 0, List.cons_ne_nil _ _, 0, true, false, 0, rfl⟩
      | false => exact ⟨[⟨true, true, 0⟩], List.cons_ne_nil _ _, t.regs.respDest, false, false, 0, rfl⟩
    | _ => exact ⟨response p.id 0 true false 0, List.cons_ne_nil _ _, 0, true, false, 0, rfl⟩
  obtain ⟨more, hmore, hresponse⟩ := hwhole
  exact ⟨ps, _, more, hsent, hps, hmore, hresponse⟩

theorem accounted_of_silent (h : Accounted p t) (hout : debugOut p t.regs = .idle)
    (hnext : (next p t.regs i).state ≠ .respSrc ∧ (next p t.regs i).state ≠ .respValue)
    (hstep : cycle p t i = some t') : Accounted p t' := by
  obtain rfl := Option.some.inj hstep
  obtain ⟨ps, hps, hsent, -⟩ := h
  have hpart : partSent p t.regs = [] := by
    unfold debugOut at hout
    unfold partSent
    cases hs : t.regs.state <;> rw [hs] at hout <;> first | rfl | cases hout
  have hpart' : partSent p (next p t.regs i) = [] := by
    unfold partSent
    cases hs : (next p t.regs i).state with
    | respSrc => exact absurd hs hnext.1
    | respValue => exact absurd hs hnext.2
    | _ => rfl
  refine ⟨ps, hps, ?_, fun hs => absurd hs hnext.2⟩
  simp only [hout, hpart', hsent, hpart, DiiFlit.transfer_idle, List.append_nil]

theorem acceptAddr_state (s : Regs w) (last : Bool) :
    (acceptAddr s last).state = .respStart ∨ (acceptAddr s last).state = .write ∨
      (acceptAddr s last).state = .drop := by
  unfold acceptAddr
  split_ifs <;> simp

/-- A response is only started from `STATE_RESP_START`. -/
theorem next_state_of_silent (s : Regs w) (hout : debugOut p s = .idle) :
    (next p s i).state ≠ .respSrc ∧ (next p s i).state ≠ .respValue := by
  unfold debugOut at hout
  unfold next
  cases hs : s.state with
  | respStart | respSrc | respValue =>
    rw [hs] at hout
    cases hout
  | addr =>
    simp only
    split_ifs
    · simp
    · rcases acceptAddr_state (decodeAddr p s i.debugIn.data) i.debugIn.last with h | h | h <;> simp [h]
    · simp [hs]
  | extWait => simp [hs]
  | _ =>
    simp only
    split_ifs <;> simp [hs]

theorem cycle_of_not_ready {t : Tracked w} (hready : i.debugOutReady = false)
    (hs : t.regs.state = .respStart ∨ t.regs.state = .respSrc ∨ t.regs.state = .respValue) :
    cycle p t i = some t := by
  have hnext : next p t.regs i = t.regs := by
    rcases hs with hs | hs | hs <;> simp only [next, hs, hready, Bool.false_eq_true, if_false]
  rw [cycle, hnext, DiiFlit.transfer_of_not_ready _ hready, List.append_nil]

theorem accounted_of_sent (h : Accounted p t) (hc : NoStrayValue t i) (hready : i.debugOutReady = true)
    (hs : t.regs.state = .respStart ∨ t.regs.state = .respSrc ∨ t.regs.state = .respValue)
    (hstep : cycle p t i = some t') : Accounted p t' := by
  obtain rfl := Option.some.inj hstep
  obtain ⟨ps, hps, hsent, hread⟩ := h
  -- a response that is complete joins the others
  have hmore (requester : BitVec 10) (write error : Bool) (value : BitVec 16) :
      ∀ q ∈ ps ++ [response p.id requester write error value], IsResponse p.id q := by
    intro q hq
    obtain hq | hq := List.mem_append.mp hq
    · exact hps q hq
    · exact List.mem_singleton.mp hq ▸ ⟨requester, write, error, value, rfl⟩
  obtain hs | hs | hs := hs
  · refine ⟨ps, hps, ?_, ?_⟩
    · simp [hsent, partSent, next, debugOut, hs, hready]
    · simp [next, hs, hready]
  · cases hw : t.regs.reqWrite with
    | true =>
      refine ⟨_, hmore t.regs.respDest true t.regs.respError 0, ?_, ?_⟩
      · simp [hsent, partSent, next, debugOut, hs, hready, hw, response, header]
      · simp [next, hs, hready, hw]
    | false =>
      cases herr : t.regs.respError with
      | true =>
        refine ⟨_, hmore t.regs.respDest false true 0, ?_, ?_⟩
        · simp [hsent, partSent, next, debugOut, hs, hready, hw, herr, response, header]
        · simp [next, hs, hready, hw]
      | false =>
        refine ⟨ps, hps, ?_, ?_⟩
        · simp [hsent, partSent, next, debugOut, hs, hready, hw, herr, header]
        · simp [next, hs, hready, hw]
  · have herr : t.regs.respError = false := by
      rw [← Bool.not_eq_true]
      exact fun herr => hc ⟨hs, herr, hready⟩
    refine ⟨_, hmore t.regs.respDest false false (t.regs.reqrespValue.setWidth 16), ?_, ?_⟩
    · simp [hsent, partSent, next, debugOut, hs, hready, herr, response]
    · simp [next, hs, hready]

/-- One cycle: the stream stays well formed exactly if no stray value is sent. -/
theorem wellFormed_cycle (h : Accounted p t) (hstep : cycle p t i = some t') :
    (NoStrayValue t i → Accounted p t') ∧ (WellFormed p.id t'.sent → NoStrayValue t i) := by
  constructor
  · intro hc
    by_cases hs : t.regs.state = .respStart ∨ t.regs.state = .respSrc ∨ t.regs.state = .respValue
    · cases hready : i.debugOutReady with
      | true => exact accounted_of_sent h hc hready hs hstep
      | false =>
        obtain rfl := Option.some.inj ((cycle_of_not_ready hready hs).symm.trans hstep)
        exact h
    · have hout : debugOut p t.regs = .idle := by
        simp only [not_or] at hs
        unfold debugOut
        cases hstate : t.regs.state <;> simp_all
      exact accounted_of_silent h hout (next_state_of_silent t.regs hout) hstep
  · rintro hwf ⟨hs, herr, hready⟩
    obtain rfl := Option.some.inj hstep
    obtain ⟨ps, hps, hsent, -⟩ := h
    refine not_wellFormed_single (x := ⟨true, true, t.regs.reqrespValue.setWidth 16⟩) hps rfl ?_
    simpa [hsent, partSent, debugOut, hs, herr, hready, DiiFlit.transfer] using hwf

instance (t : Tracked w) (i : Input) : Decidable (NoStrayValue t i) :=
  inferInstanceAs (Decidable (¬ _))

/-- **Well-formed responses.** From reset, the flits transferred on `debug_out` consist of complete
responses and the front of one, in every state of a run, if and only if in no cycle of it a value is
sent after a response with an error. -/
theorem wellFormed_iff (p : Params) (s : Regs w) (hs : IsReset s) (inputs : List Input) :
    Passes (cycle p) (fun t => WellFormed p.id t.sent) ⟨s, []⟩ inputs ↔
      Takes (cycle p) NoStrayValue ⟨s, []⟩ inputs := by
  have hstart : Accounted p (⟨s, []⟩ : Tracked w) := by
    refine ⟨[], by simp, ?_, ?_⟩
    · simp only [partSent, hs.1, List.flatten_nil, List.append_nil]
    · simp only [hs.1, reduceCtorEq, false_implies]
  obtain ⟨t, hrun⟩ := exists_run (cycle p) (fun _ _ => rfl) ⟨s, []⟩ inputs
  refine passes_iff_takes (Accounted p) ?_ ?_ hstart hstart.wellFormed hrun
  · exact fun t i t' hacc _ hstep hwf =>
      (wellFormed_cycle hacc hstep).1 ((wellFormed_cycle hacc hstep).2 hwf)
  · exact fun t i t' hacc _ hstep =>
      ⟨(wellFormed_cycle hacc hstep).2, fun hc => ((wellFormed_cycle hacc hstep).1 hc).wellFormed⟩

/-- A cycle with a valid flit on `debug_in`, and an error from the register interface. -/
def offer (last : Bool) (data : BitVec 16) : Input := ⟨⟨true, last, data⟩, true, false, true, 0⟩

theorem local_read_wellFormed :
    Passes (cycle scmParams) (fun t => WellFormed scmParams.id t.sent) ⟨resetRegs, []⟩
      [offer false 0, offer false 0x405, offer true 0, offer false 0, offer false 0, offer false 0] :=
  (wellFormed_iff scmParams resetRegs ⟨rfl, rfl⟩ _).mpr (by decide +kernel)

/-- An external read with an error is answered in three flits, of which the second is marked as the last
one. -/
theorem failed_read_not_wellFormed :
    ∃ t, runFrom (cycle scmParams) ⟨resetRegs, []⟩
        [offer false 0, offer false 0x405, offer true 0x204, offer false 0, offer false 0, offer false 0,
          offer false 0] = some t ∧ ¬ WellFormed scmParams.id t.sent := by
  refine ⟨_, rfl, ?_⟩
  have hps : ∀ q ∈ [response 0 5 false true 0], IsResponse 0 q := by
    intro q hq
    exact List.mem_singleton.mp hq ▸ ⟨5, false, true, 0, rfl⟩
  exact not_wellFormed_single (x := ⟨true, true, 0⟩) hps rfl

end GlipOsd.Statctrlif.Responses
