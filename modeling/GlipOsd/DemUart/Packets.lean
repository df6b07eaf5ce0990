import GlipOsd.DemUart.Blocking
import GlipOsd.DemUart.CharDelivery
import GlipOsd.Ring.Multiplexers
import GlipOsd.Statctrlif.Responses

/-! # The packets of the UART device emulation

On `debug_out` come whole packets, and their second flit tells the characters from the responses of the register
interface. A flit that is not taken is offered again, unless the module is stalled before a character has begun to leave.
-/

namespace GlipOsd.DemUart
open Packets
set_option autoImplicit false

/-- The type of the packet, in the upper bits of its second flit. -/
def isChar (q : List DiiFlit) : Bool := q[1]?.any fun f => f.data.getLsbD 15

/-! ## Responses -/

section Responses
open Statctrlif Statctrlif.Responses
variable {w : ℕ} {p : Params} {s : Statctrlif.Regs w} {i : Statctrlif.Input} {sent : List DiiFlit}

/-- No packet on `debug_out` is a character, and the current one is sent as far as the state tells. -/
structure Answering (p : Params) (s : Statctrlif.Regs w) (sent : List DiiFlit) : Prop where
  packets : ∀ q ∈ (cut DiiFlit.last sent).1, isChar q = false
  rest : (cut DiiFlit.last sent).2 = partSent p s
  read : s.state = .respValue → s.reqWrite = false

theorem answering_reset (hs : Statctrlif.IsReset s) : Answering p s [] := by
  refine ⟨nofun, ?_, fun h => ?_⟩
  · rw [partSent, hs.1]
    rfl
  · rw [hs.1] at h
    cases h

theorem Answering.of_last (h : Answering p s sent) {f : DiiFlit} (hf : f.last = true)
    (hchar : isChar (partSent p s ++ [f]) = false) :
    (∀ q ∈ (cut DiiFlit.last (sent ++ [f])).1, isChar q = false) ∧ (cut DiiFlit.last (sent ++ [f])).2 = [] := by
  rw [cut_concat, if_pos hf, h.rest]
  refine ⟨fun q hq => ?_, rfl⟩
  obtain hq | hq := List.mem_append.mp hq
  · exact h.packets q hq
  · rw [List.mem_singleton.mp hq]
    exact hchar

theorem Answering.of_open (h : Answering p s sent) {f : DiiFlit} (hf : f.last = false) :
    (∀ q ∈ (cut DiiFlit.last (sent ++ [f])).1, isChar q = false) ∧
      (cut DiiFlit.last (sent ++ [f])).2 = partSent p s ++ [f] := by
  rw [cut_concat, if_neg (by rw [hf]; exact Bool.false_ne_true), h.rest]
  exact ⟨h.packets, rfl⟩

/-- The header of a response has type 0. -/
theorem getLsbD_header (id : BitVec 10) (write error : Bool) : (header id write error).getLsbD 15 = false := by
  simp only [header, BitVec.getLsbD_append]
  simp

theorem Answering.of_silent (h : Answering p s sent) (hout : Statctrlif.debugOut p s = .idle) :
    Answering p (Statctrlif.next p s i) (sent ++ (Statctrlif.debugOut p s).transfer i.debugOutReady) := by
  obtain ⟨hsrc, hvalue⟩ := next_state_of_silent (p := p) (i := i) s hout
  have hpart : partSent p s = [] := by
    unfold Statctrlif.debugOut at hout
    unfold partSent
    cases hs : s.state <;> rw [hs] at hout <;> first | rfl | cases hout
  have hpart' : partSent p (Statctrlif.next p s i) = [] := by
    unfold partSent
    cases hs : (Statctrlif.next p s i).state with
    | respSrc => exact absurd hs hsrc
    | respValue => exact absurd hs hvalue
    | _ => rfl
  rw [hout, DiiFlit.transfer_idle, List.append_nil]
  exact ⟨h.packets, by rw [hpart', h.rest, hpart], fun hs => absurd hs hvalue⟩

theorem Answering.of_ready (h : Answering p s sent) (hready : i.debugOutReady = true)
    (hs : s.state = .respStart ∨ s.state = .respSrc ∨ s.state = .respValue) :
    Answering p (Statctrlif.next p s i) (sent ++ [Statctrlif.debugOut p s]) := by
  have hheader := getLsbD_header p.id s.reqWrite s.respError
  obtain hs | hs | hs := hs
  · have hout : (Statctrlif.debugOut p s).last = false := by rw [Statctrlif.debugOut, hs]
    obtain ⟨hpackets, hrest⟩ := h.of_open hout
    refine ⟨hpackets, ?_, ?_⟩
    · rw [hrest]
      simp [partSent, Statctrlif.next, Statctrlif.debugOut, hs, hready]
    · simp [Statctrlif.next, hs, hready]
  · have hout : (Statctrlif.debugOut p s).last = (s.respError || s.reqWrite) := by rw [Statctrlif.debugOut, hs]
    cases hend : (s.respError || s.reqWrite) with
    | true =>
      have hchar : isChar (partSent p s ++ [Statctrlif.debugOut p s]) = false := by
        simpa [isChar, partSent, Statctrlif.debugOut, hs, header] using hheader
      obtain ⟨hpackets, hrest⟩ := h.of_last (hout.trans hend) hchar
      refine ⟨hpackets, ?_, ?_⟩
      · rw [hrest]
        cases hw : s.reqWrite <;> simp_all [partSent, Statctrlif.next]
      · cases hw : s.reqWrite <;> simp [Statctrlif.next, hs, hready, hw]
    | false =>
      obtain ⟨herror, hwrite⟩ := Bool.or_eq_false_iff.mp hend
      obtain ⟨hpackets, hrest⟩ := h.of_open (hout.trans hend)
      refine ⟨hpackets, ?_, ?_⟩
      · rw [hrest]
        simp [partSent, Statctrlif.next, Statctrlif.debugOut, hs, hready, hwrite, herror, header]
      · simp [Statctrlif.next, hs, hready, hwrite]
  · have hout : (Statctrlif.debugOut p s).last = true := by rw [Statctrlif.debugOut, hs]
    have hchar : isChar (partSent p s ++ [Statctrlif.debugOut p s]) = false := by
      have hread := getLsbD_header p.id false false
      cases herror : s.respError with
      | true => simp [isChar, partSent, hs, herror]
      | false => simpa [isChar, partSent, hs, herror] using hread
    obtain ⟨hpackets, hrest⟩ := h.of_last hout hchar
    refine ⟨hpackets, ?_, ?_⟩
    · rw [hrest]
      simp [partSent, Statctrlif.next, hs, hready]
    · simp [Statctrlif.next, hs, hready]

theorem next_of_not_ready (hs : s.state = .respStart ∨ s.state = .respSrc ∨ s.state = .respValue)
    (hready : i.debugOutReady = false) : Statctrlif.next p s i = s := by
  obtain hs | hs | hs := hs <;> simp [Statctrlif.next, hs, hready]

theorem Answering.cycle (h : Answering p s sent) :
    Answering p (Statctrlif.next p s i) (sent ++ (Statctrlif.debugOut p s).transfer i.debugOutReady) := by
  by_cases hs : s.state = .respStart ∨ s.state = .respSrc ∨ s.state = .respValue
  · cases hready : i.debugOutReady with
    | true =>
      have hvalid : (Statctrlif.debugOut p s).valid = true := by
        obtain hs | hs | hs := hs <;> rw [Statctrlif.debugOut, hs]
      rw [DiiFlit.transfer_of_ready hvalid rfl]
      exact h.of_ready hready hs
    | false =>
      rw [next_of_not_ready hs hready, DiiFlit.transfer_of_not_ready _ rfl, List.append_nil]
      exact h
  · apply h.of_silent
    simp only [not_or] at hs
    unfold Statctrlif.debugOut
    cases hstate : s.state <;> simp_all

end Responses

/-! ## Flits that are not taken -/

section Kept
variable {id : BitVec 10} {s : Regs} {i j : Input}

theorem uMux_not_ready (hready : i.debugOutReady = false) :
    (uMux id s i).ready0 = false ∧ (uMux id s i).ready1 = false := by
  unfold uMux Ring.mux
  rw [hready]
  cases s.mux with
  | noworm =>
    simp only
    split_ifs <;> exact ⟨rfl, rfl⟩
  | wormRing | wormLocal => exact ⟨rfl, rfl⟩

/-- The flit on `debug_out` is one of the two that are offered to the multiplexer, which stays with it. -/
theorem debugOut_source (h : Locked id s) (hready : i.debugOutReady = false) (hv : (debugOut id s i).valid = true) :
    (debugOut id s i = cCtrlstatOut id s ∧ (uMux id s i).next ≠ .wormLocal) ∨
      (debugOut id s i = cUartOut id s i ∧ (uMux id s i).next = .wormLocal) := by
  unfold debugOut at hv ⊢
  unfold uMux Ring.mux at hv ⊢
  rw [hready] at hv ⊢
  cases hm : s.mux with
  | noworm =>
    have hlast : (cUartOut id s i).last = false := by
      have hstate : s.state = .s0 := by
        by_contra hne
        rw [h.char hne] at hm
        cases hm
      rw [cUartOut_last, hstate]
      rfl
    simp only [hm] at hv ⊢
    split_ifs at hv ⊢ with hctrl hopen huart hchar
    · exact .inl ⟨rfl, nofun⟩
    · exact .inl ⟨rfl, nofun⟩
    · exact .inr ⟨rfl, rfl⟩
    · rw [hlast] at hchar
      exact absurd rfl hchar
    · cases hv
  | wormRing => exact .inl ⟨rfl, by simp⟩
  | wormLocal => exact .inr ⟨rfl, by simp⟩

theorem debugOut_response (hm : s.mux ≠ .wormLocal) (hv : (cCtrlstatOut id s).valid = true) :
    debugOut id s i = cCtrlstatOut id s := by
  unfold debugOut uMux Ring.mux
  cases hs : s.mux with
  | noworm => simp only [hv, if_true]
  | wormRing => rfl
  | wormLocal => exact absurd hs hm

theorem debugOut_wormLocal (hm : s.mux = .wormLocal) : debugOut id s i = cUartOut id s i := by
  rw [debugOut, uMux, hm]
  rfl

/-- A flit that is not taken is offered again, unless it is the first one of a character and the stall bit is set
meanwhile. The character is held at the input. -/
theorem debugOut_kept (h : Locked id s) (hready : i.debugOutReady = false) (hv : (debugOut id s i).valid = true)
    (hheld : i.outValid = true → j.outValid = true ∧ j.outChar = i.outChar) (hchar : s.state ≠ .s0 → i.outValid = true) :
    debugOut id (next id s i) j = debugOut id s i ∨ Blocking.Withdrawn (next id s i) j := by
  obtain ⟨hready0, hready1⟩ : (uMux id s i).ready0 = false ∧ (uMux id s i).ready1 = false := uMux_not_ready hready
  obtain ⟨hout, hnext⟩ | ⟨hout, hnext⟩ := debugOut_source h hready hv
  · rw [hout] at hv
    have hctrl : (next id s i).ctrl = s.ctrl := next_of_not_ready (Blocking.response_valid_iff.mp hv) hready0
    have hsame : cCtrlstatOut id (next id s i) = cCtrlstatOut id s := by rw [cCtrlstatOut, cCtrlstatOut, hctrl]
    left
    rw [hout, ← hsame]
    exact debugOut_response hnext (hsame ▸ hv)
  · have hstate : (next id s i).state = s.state := by
      simp only [next, nextState, hready1, Bool.and_false, Bool.false_eq_true, if_false]
      cases s.state <;> rfl
    rw [hout] at hv ⊢
    rw [debugOut_wormLocal hnext]
    cases hs : s.state with
    | s0 =>
      rw [cUartOut_valid, hs] at hv
      have hboth : (i.outValid && !s.ctrl.modCsStall) = true := hv
      obtain ⟨hvalid, hrunning⟩ := Bool.and_eq_true_iff.mp hboth
      cases hstall : (next id s i).ctrl.modCsStall with
      | true => exact .inr ⟨hnext, hstate.trans hs, .inr hstall⟩
      | false =>
        left
        simp only [cUartOut, hstate, hs, stall_eq, hstall, hrunning, hvalid, (hheld hvalid).1, Bool.not_false]
    | s1 =>
      left
      simp only [cUartOut, hstate, hs]
    | s2 =>
      left
      simp only [cUartOut, hstate, hs, (hheld (hchar (by rw [hs]; decide))).2]

end Kept

/-! ## Characters -/

namespace Nasti

theorem isPacket_charPacket (id : BitVec 10) (c : BitVec 8) : IsPacket DiiFlit.last (charPacket id c) :=
  ⟨[⟨true, false, 0⟩, ⟨true, false, 0b1000#4 ++ 0b00#2 ++ id⟩], ⟨true, true, 0#8 ++ c⟩, rfl, by simp [Open], rfl⟩

theorem isChar_charPacket (id : BitVec 10) (c : BitVec 8) : isChar (charPacket id c) = true := by
  have hheader : (0b1000#4 ++ 0b00#2 ++ id).getLsbD 15 = true := by
    simp only [BitVec.getLsbD_append]
    rfl
  exact hheader

/-- The character that a transaction writes. -/
def character (dlab : Bool) : Transaction → List (BitVec 8)
  | .write addr data => if addr = regTxrx ∧ dlab = false then [data] else []
  | .read _ => []

def written : Bool → List Transaction → List (BitVec 8)
  | _, [] => []
  | dlab, t :: ts => character dlab t ++ written (latch dlab t) ts

theorem written_prefix (dlab : Bool) {us ts : List Transaction} (h : us <+: ts) : written dlab us <+: written dlab ts := by
  obtain ⟨vs, rfl⟩ := h
  induction us generalizing dlab with
  | nil => exact List.nil_prefix
  | cons u us ih =>
    rw [List.cons_append, written, written, List.prefix_append_right_inj]
    exact ih (latch dlab u)

theorem packets_eq_flatMap (id : BitVec 10) (dlab : Bool) (ts : List Transaction) :
    packets id dlab ts = (written dlab ts).flatMap (charPacket id) := by
  induction ts generalizing dlab with
  | nil => rfl
  | cons t ts ih =>
    rw [packets, written, ih, List.flatMap_append]
    congr 1
    cases t with
    | write addr data =>
      simp only [flits, character]
      split_ifs <;> simp
    | read addr => rfl

variable {id : BitVec 10} {t : Tracked} {i : Input}

theorem cut_packets (id : BitVec 10) (cs : List (BitVec 8)) :
    (cut DiiFlit.last (cs.flatMap (charPacket id))).1 = cs.map (charPacket id) := by
  rw [cut_flatMap]
  intro q hq
  obtain ⟨c, -, rfl⟩ := List.mem_map.mp hq
  exact isPacket_charPacket id c

theorem Performed.cut_prefix (h : Performed id t) :
    (cut DiiFlit.last (chars t.sent)).1 <+: (written false t.accepted).map (charPacket id) := by
  have hpre : (cut DiiFlit.last (chars t.sent)).1 <+: _ := cut_fst_prefix h.sent_prefix
  rwa [packets_eq_flatMap, cut_packets] at hpre

/-- The packets of both kinds come out of the multiplexer one behind the other. -/
def Merged (id : BitVec 10) (t : Tracked) : Prop :=
  ∃ ins, Merges Ring.Flit.ends t.regs.uart.mux.lock.side ins t.sent ∧
    (ins true).map Ring.Flit.toDiiFlit = chars t.sent ∧
    Answering (ctrlParams id) t.regs.uart.ctrl ((ins false).map Ring.Flit.toDiiFlit)

theorem merged_reset {s : Regs} (hs : IsReset s) : Merged id ⟨s, [], []⟩ := by
  obtain ⟨-, -, -, hctrl, hmux, -⟩ := hs
  refine ⟨fun _ => [], ?_, rfl, answering_reset hctrl⟩
  rw [hmux]
  exact merges_nil

theorem Merged.cycle (h : Merged id t) : Merged id (cycle id t i) := by
  obtain ⟨ins, hmerges, hchars, hanswering⟩ := h
  have hserves := Ring.mux_serves t.regs.uart.mux (cCtrlstatOut id t.regs.uart)
    (cUartOut id t.regs.uart (uartInput t.regs i)) i.debugOutReady
  refine ⟨_, hserves.merges hmerges, ?_, ?_⟩
  · rw [List.map_append, hchars, chars_cycle, cond_true, Ring.map_transfer, DiiFlit.transfer]
    rfl
  · rw [List.map_append, cond_false, Ring.map_transfer]
    exact hanswering.cycle (i := ctrlInput id t.regs.uart (uartInput t.regs i))

/-- Which packets on `debug_out` are characters can be told from their second flit. -/
theorem Merged.filter_isChar (h : Merged id t) (hperformed : Performed id t) :
    (cut DiiFlit.last (t.sent.map Ring.Flit.toDiiFlit)).1.filter isChar = (cut DiiFlit.last (chars t.sent)).1 := by
  obtain ⟨ins, hmerges, hchars, hanswering⟩ := h
  have hmap : ∀ xs : List Ring.Flit, (cut DiiFlit.last (xs.map Ring.Flit.toDiiFlit)).1 =
      (cut Ring.Flit.ends xs).1.map (List.map Ring.Flit.toDiiFlit) := fun xs =>
    congrArg Prod.fst (cut_map Ring.Flit.toDiiFlit (fun _ => rfl) xs)
  have hside : ∀ other, ∀ q ∈ (cut Ring.Flit.ends (ins other)).1,
      (isChar ∘ List.map Ring.Flit.toDiiFlit) q = (other == true) := by
    intro other q hq
    have hmem := List.mem_map_of_mem (f := List.map Ring.Flit.toDiiFlit) hq
    rw [← hmap] at hmem
    cases other with
    | false => exact hanswering.packets _ hmem
    | true =>
      rw [hchars] at hmem
      obtain ⟨c, -, hc⟩ := List.mem_map.mp (hperformed.cut_prefix.subset hmem)
      rw [Function.comp_apply, ← hc]
      exact isChar_charPacket id c
  rw [hmap, List.filter_map, hmerges.filter hside, ← hmap, hchars]

/-- While a character is being sent, it is at the input of the packetiser. -/
theorem Performed.outValid (h : Performed id t) (hstate : t.regs.uart.state ≠ .s0) : outValid t.regs = true := by
  by_contra hnot
  rw [Bool.not_eq_true] at hnot
  cases hreq : t.regs.busReq with
  | false =>
    rw [Performed, hreq] at h
    exact hstate h.1.state
  | true =>
    rw [Performed, hreq] at h
    obtain ⟨ts, haccessing⟩ := h
    exact hstate (haccessing.state hnot)

/-- It stays there until it has been taken. -/
theorem Performed.next_of_outValid (h : Performed id t) (hready : i.debugOutReady = false)
    (hvalid : Nasti.outValid t.regs = true) :
    next id t.regs i = { t.regs with uart := DemUart.next id t.regs.uart (uartInput t.regs i) } := by
  have hreq : t.regs.busReq = true := by
    simp only [Nasti.outValid, Bool.and_eq_true] at hvalid
    exact hvalid.1.1.1
  have hack : DemUart.outReady id t.regs.uart (uartInput t.regs i) = false := by
    have hnone : (uMux id t.regs.uart (uartInput t.regs i)).ready0 = false ∧ _ := uMux_not_ready hready
    unfold DemUart.outReady
    cases t.regs.uart.state with
    | s0 | s1 => rfl
    | s2 => exact hnone.2
  rw [Performed, hreq] at h
  obtain ⟨ts, haccessing⟩ := h
  exact next_of_waiting haccessing.resp hvalid hack

theorem Performed.debugOut_kept (h : Performed id t) (hlocked : Locked id t.regs.uart) (hready : i.debugOutReady = false)
    (hv : (debugOut id t.regs i).valid = true) (j : Input) :
    debugOut id (next id t.regs i) j = debugOut id t.regs i ∨
      Blocking.Withdrawn (next id t.regs i).uart (uartInput (next id t.regs i) j) := by
  refine DemUart.debugOut_kept hlocked hready hv (fun hvalid => ?_) h.outValid
  rw [h.next_of_outValid hready hvalid]
  exact ⟨hvalid, rfl⟩

end Nasti

end GlipOsd.DemUart
