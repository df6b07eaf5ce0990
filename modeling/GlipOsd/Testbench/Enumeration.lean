import GlipOsd.Scm.Answers
import GlipOsd.Testbench.Draining

/-! # The host reads the system control module

`testbench` with `u_scm` at port 1. The host sends read requests to it, besides packets to other modules, and
the answers come back through the ring. For this no other module sends to port 1, and the ring brings the
address of a request right behind its header.
-/

namespace GlipOsd.Testbench.Enumeration
open Packets Runs GlipOsd.Ring Him
set_option autoImplicit false

structure State where
  system : System
  scm : Scm.Tracked

def start (data0 data1 : ℕ → List Flit) (data : List Flit) (size : BitVec 5) (ps : List HostPacket)
    (regs : Statctrlif.Regs 16) : State :=
  ⟨Testbench.start data0 data1 data size ps, Scm.start regs⟩

/-- `id` is `10'd1`. -/
def scmOut (s : State) : DiiFlit := Statctrlif.debugOut (Scm.params 1) s.scm.regs

section Signals
variable (c : Scm.Config) (N BUFFER_SIZE : ℕ) (s : State) (i : Cycle)

/-- The cycle of the ring, in which the module is at port 1. -/
def wiredIn : Cycle where
  glipInValid := i.glipInValid
  glipOutReady := i.glipOutReady
  diiOut p := if p = 1 then scmOut s else i.diiOut p
  diiInReady p := if p = 1 then Statctrlif.debugInReady s.scm.regs else i.diiInReady p

/-- `dii_in[1]` and `dii_out_ready[1]`. -/
def scmIn : Scm.Cycle where
  debugIn := (muxLocal N s.system.ring (ringIn s.system (wiredIn s i)) 1).out.toDiiFlit
  debugOutReady := (muxRing0 BUFFER_SIZE s.system.ring (ringIn s.system (wiredIn s i)) 1).ready1

def step : Option State := do
  let system ← Testbench.step N BUFFER_SIZE s.system (wiredIn s i)
  let scm ← Scm.cycle c 1 s.scm (scmIn N BUFFER_SIZE s i)
  some ⟨system, scm⟩

def Prompt : Prop := Scm.Prompt s.scm (scmIn N BUFFER_SIZE s i)

instance : Decidable (Prompt N BUFFER_SIZE s i) := inferInstanceAs (Decidable (Scm.Prompt _ _))

end Signals

/-- Only the host has sent to the system control module. -/
def Undisturbed (N : ℕ) (s : System) : Prop := ∀ j < N, 2 ≤ j → ∀ f ∈ s.ring.injected j, f.dest ≠ routerId 1

instance (N : ℕ) (s : System) : Decidable (Undisturbed N s) := inferInstanceAs (Decidable (∀ j < N, _))

variable {c : Scm.Config} {N BUFFER_SIZE : ℕ} {s s' t : State} {i : Cycle} {ps : List HostPacket}
  {reqs : List Scm.Request}

theorem step_eq_some : step c N BUFFER_SIZE s i = some s' ↔
    Testbench.step N BUFFER_SIZE s.system (wiredIn s i) = some s'.system ∧
      Scm.cycle c 1 s.scm (scmIn N BUFFER_SIZE s i) = some s'.scm := by
  unfold step
  obtain ⟨scm, hscm⟩ : ∃ scm, Scm.cycle c 1 s.scm (scmIn N BUFFER_SIZE s i) = some scm := ⟨_, rfl⟩
  rw [hscm]
  cases Testbench.step N BUFFER_SIZE s.system (wiredIn s i) with
  | none => exact ⟨fun h => (nomatch h), fun h => (nomatch h.1)⟩
  | some system =>
    simp only [Option.bind_eq_bind, Option.bind_some, Option.some.injEq]
    constructor
    · rintro rfl
      exact ⟨rfl, rfl⟩
    · rintro ⟨rfl, rfl⟩
      rfl

/-! ## The wires at port 1 -/

structure Wires (s : State) : Prop where
  taken : (s.system.ring.delivered 1).map Flit.toDiiFlit = s.scm.taken
  sent : (s.system.ring.injected 1).map Flit.toDiiFlit = s.scm.sent
  offered : ∀ flit ∈ s.system.ring.offered 1, scmOut s = flit

theorem wires_start (data0 data1 : ℕ → List Flit) (data : List Flit) (size : BitVec 5) (ps : List HostPacket)
    (regs : Statctrlif.Regs 16) : Wires (start data0 data1 data size ps regs) :=
  ⟨rfl, rfl, fun _ h => (nomatch h)⟩

theorem diiOut_other {p : ℕ} (hone : p ≠ 1) : (wiredIn s i).diiOut p = i.diiOut p := if_neg hone

theorem state_of_scmOut (hvalid : (scmOut s).valid = true) : s.scm.regs.state = .respStart ∨
    s.scm.regs.state = .respSrc ∨ s.scm.regs.state = .respValue := by
  unfold scmOut Statctrlif.debugOut at hvalid
  cases hs : s.scm.regs.state <;> rw [hs] at hvalid <;> simp_all [DiiFlit.idle]

theorem Wires.next (h : Wires s) (hstep : step c N BUFFER_SIZE s i = some s') : Wires s' := by
  obtain ⟨hsystem, hscm⟩ := step_eq_some.mp hstep
  obtain ⟨-, hring, -⟩ := Testbench.step_eq_some.mp hsystem
  refine ⟨?_, ?_, ?_⟩
  · rw [hring, delivered_next, List.map_append, h.taken, delivering, map_transfer]
    obtain hcycle := Option.some.inj hscm
    rw [← hcycle]
    rfl
  · rw [hring, injected_next, List.map_append, h.sent, injecting, map_transfer]
    obtain hcycle := Option.some.inj hscm
    rw [← hcycle]
    rfl
  · intro flit hflit
    rw [hring] at hflit
    simp only [Ring.next] at hflit
    split_ifs at hflit with hrefused
    · obtain rfl : scmOut s = flit := Option.some.inj hflit
      obtain ⟨hvalid, hnot⟩ := Bool.and_eq_true_iff.mp hrefused
      rw [Ring.accepted, hvalid, Bool.true_and, Bool.not_eq_true'] at hnot
      have hkeep : Scm.cycle c 1 s.scm (scmIn N BUFFER_SIZE s i) = some s.scm :=
        Scm.cycle_of_responding (state_of_scmOut hvalid) hnot
      obtain heq := Option.some.inj (hkeep.symm.trans hscm)
      rw [scmOut, scmOut, ← heq]
    · cases hflit

/-- The system control module keeps the protocol of the interconnect by itself. -/
theorem Wires.keeps_iff (h : Wires s) : Keeps N s.system (wiredIn s i) ↔
    (s.system.offering = true → i.glipInValid = true) ∧
      ∀ p < N, p ≠ 0 → p ≠ 1 → ∀ flit ∈ s.system.ring.offered p, i.diiOut p = flit := by
  refine and_congr_right fun _ => ⟨fun hall p hp hzero hone flit hflit => ?_, fun hall p hp hzero flit hflit => ?_⟩
  · rw [← diiOut_other hone]
    exact hall p hp hzero flit hflit
  · by_cases hone : p = 1
    · subst hone
      exact h.offered flit hflit
    · rw [diiOut_other hone]
      exact hall p hp hzero hone flit hflit

/-! ## Runs -/

/-- The flits of the packets of the host for port 1 are requests. -/
def Asks (ps : List HostPacket) (reqs : List Scm.Request) : Prop :=
  (ps.filter (addressedTo 1)).map HostPacket.flits = reqs.map Scm.Request.flits ∧ ∀ r ∈ reqs, r.requester = 0

structure Running (c : Scm.Config) (N BUFFER_SIZE : ℕ) (ps : List HostPacket) (reqs : List Scm.Request)
    (s : State) : Prop where
  fed : Fed ps s.system
  delivers : Delivers N BUFFER_SIZE s.system.ring
  serves : Short N s.system → Serves N BUFFER_SIZE s.system
  wires : Wires s
  scm : Undisturbed N s.system → ∃ done todo, Scm.Inv c 1 s.scm done todo reqs

theorem asks_flatMap (hasks : Asks ps reqs) :
    (ps.filter (addressedTo 1)).flatMap HostPacket.flits = reqs.flatMap Scm.Request.flits := by
  rw [List.flatMap_def, List.flatMap_def, hasks.1]

/-- The answers are packets for the host. -/
theorem answers_packets (hasks : Asks ps reqs) : ∀ q ∈ reqs.map (Scm.Request.answer c 1),
    IsPacket DiiFlit.last q ∧ q.head?.any (fun f => (destOf f).toNat == 0) = true := by
  intro q hq
  obtain ⟨r, hr, rfl⟩ := List.mem_map.mp hq
  have hresponse : Statctrlif.Responses.IsResponse 1 (r.answer c 1) := ⟨_, _, _, _, rfl⟩
  refine ⟨hresponse.isPacket, ?_⟩
  rw [Scm.Request.answer, hasks.2 r hr]
  rfl

/-- Of a port that accepts packets, those for port 1 are accepted as far as the others. -/
theorem injected_prefix (_ : N ≤ 1024) (hdelivers : Delivers N BUFFER_SIZE s.system.ring) {j : ℕ} (hj : j < N)
    {qs : List (List DiiFlit)} (hpackets : ∀ q ∈ qs, IsPacket DiiFlit.last q)
    (hpre : (s.system.ring.injected j).map Flit.toDiiFlit <+: qs.flatten) :
    (ofTag (j, routerId 1) (s.system.ring.injected j)).map Flit.toDiiFlit <+: (forPort 1 qs).flatten := by
  obtain ⟨u, hu⟩ := hdelivers.line
  have hhead : ∀ f ∈ s.system.ring.injected j, f.starts →
      ((destOf f.toDiiFlit).toNat == 1) = decide (f.tag = (j, routerId 1)) := by
    intro f hf hstart
    have hsource := hdelivers.located.injected j f hf
    rw [Bool.eq_iff_iff, beq_iff_eq, decide_eq_true_eq, ← eq_routerId_iff (by omega), ← hstart,
      Flit.tag, Prod.mk.injEq]
    exact ⟨fun hd => ⟨hsource, hd⟩, And.right⟩
  exact filter_prefix (hu.injected j hj).1 Flit.toDiiFlit (fun _ => rfl) (p := fun t => decide (t = (j, routerId 1)))
    hhead hpackets hpre

theorem isPacket_request (r : Scm.Request) : IsPacket DiiFlit.last r.flits :=
  ⟨[⟨true, false, r.dest⟩, ⟨true, false, r.header⟩], ⟨true, true, r.addr⟩, rfl, by simp [Open], rfl⟩

section Taken
variable (hN : 2 ≤ N) (hmax : N ≤ 1024) (hasks : Asks ps reqs)
  (hdelivers : Delivers N BUFFER_SIZE s.system.ring) (hwires : Wires s)
include hN hmax hasks hdelivers

/-- What the host has sent to port 1 are requests, of which the last one may be sent in part. -/
theorem requests_of_host (hps : ∀ p ∈ ps, p.data ≠ []) (hfed : Fed ps s.system) :
    (ofTag (0, routerId 1) (s.system.ring.injected 0)).map Flit.toDiiFlit <+: reqs.flatMap Scm.Request.flits := by
  have hpre : (s.system.ring.injected 0).map Flit.toDiiFlit <+: (ps.map HostPacket.flits).flatten := by
    rw [hfed.wired.injected, ← List.flatMap_def, ← deframe_stream]
    exact hfed.flits_prefix
  have hpackets : ∀ q ∈ ps.map HostPacket.flits, IsPacket DiiFlit.last q := by
    intro q hq
    obtain ⟨p, hp, rfl⟩ := List.mem_map.mp hq
    exact isPacket_flits (hps p hp)
  rw [← asks_flatMap hasks, List.flatMap_def, ← forPort_flits]
  exact injected_prefix hmax hdelivers (by omega) hpackets hpre

include hwires

/-- The system control module sends nothing to its own port. -/
theorem answers_elsewhere (hsent : s.scm.sent <+: reqs.flatMap (Scm.Request.answer c 1)) :
    ofTag (1, routerId 1) (s.system.ring.injected 1) = [] := by
  have hanswers := answers_packets (c := c) hasks
  have hnone : forPort 1 (reqs.map (Scm.Request.answer c 1)) = [] := by
    refine List.filter_eq_nil_iff.mpr fun q hq => ?_
    obtain ⟨-, hhead⟩ := hanswers q hq
    obtain ⟨f, hf, hzero⟩ := (Option.any_eq_true _ _).mp hhead
    rw [hf, Option.any_some, beq_iff_eq.mp hzero]
    decide
  rw [← hwires.sent, List.flatMap_def] at hsent
  have hpre := injected_prefix hmax hdelivers (by omega) (fun q hq => (hanswers q hq).1) hsent
  rw [hnone, List.flatten_nil, List.prefix_nil, List.map_eq_nil_iff] at hpre
  exact hpre

/-- All that arrives at port 1 has come from the host. -/
theorem delivered_from_host (hundisturbed : Undisturbed N s.system)
    (hsent : s.scm.sent <+: reqs.flatMap (Scm.Request.answer c 1)) :
    ofTag (0, routerId 1) (s.system.ring.delivered 1) = s.system.ring.delivered 1 := by
  have hnone : ∀ j < N, j ≠ 0 → ofTag (j, routerId 1) (s.system.ring.delivered 1) = [] := by
    intro j hj hzero
    have hinjected : ofTag (j, routerId 1) (s.system.ring.injected j) = [] := by
      by_cases hone : j = 1
      · subst hone
        exact answers_elsewhere hN hmax hasks hdelivers hwires hsent
      · exact ofTag_eq_nil fun f hf htag =>
          hundisturbed j hj (by omega) f hf (congrArg Prod.snd htag)
    have hflits := hdelivers.conserved 1 (by omega) j hj
    rw [hinjected] at hflits
    exact (List.append_eq_nil_iff.mp hflits.symm).1
  refine List.filter_eq_self.mpr fun f hf => ?_
  obtain ⟨hsource, hdest⟩ := hdelivers.located.delivered 1 (by omega) f hf
  have htag : f.tag = (f.source, routerId 1) := congrArg (Prod.mk f.source) hdest
  by_cases hzero : f.source = 0
  · rw [htag, hzero]
    exact decide_eq_true rfl
  · have hmem : f ∈ ofTag (f.source, routerId 1) (s.system.ring.delivered 1) :=
      List.mem_filter.mpr ⟨hf, decide_eq_true htag⟩
    rw [hnone f.source hsource hzero] at hmem
    cases hmem

theorem taken_requests (hps : ∀ p ∈ ps, p.data ≠ []) (hfed : Fed ps s.system) (hundisturbed : Undisturbed N s.system)
    (hsent : s.scm.sent <+: reqs.flatMap (Scm.Request.answer c 1)) :
    s.scm.taken <+: reqs.flatMap Scm.Request.flits := by
  refine List.IsPrefix.trans ?_ (requests_of_host hN hmax hasks hdelivers hps hfed)
  rw [← hwires.taken, ← delivered_from_host hN hmax hasks hdelivers hwires hundisturbed hsent,
    hdelivers.conserved 1 (by omega) 0 (by omega), List.map_append]
  exact List.prefix_append _ _

end Taken

/-! ## Every run -/

theorem undisturbed_of_next (hstep : step c N BUFFER_SIZE s i = some s') (h : Undisturbed N s'.system) :
    Undisturbed N s.system := by
  obtain ⟨hsystem, -⟩ := step_eq_some.mp hstep
  obtain ⟨-, hring, -⟩ := Testbench.step_eq_some.mp hsystem
  intro j hj htwo f hf
  refine h j hj htwo f ?_
  rw [hring, injected_next]
  exact List.mem_append_left _ hf

theorem running_start (hB : 2 ≤ BUFFER_SIZE) {regs : Statctrlif.Regs 16} (hregs : Statctrlif.IsReset regs)
    (data0 data1 : ℕ → List Flit) (data : List Flit) (size : BitVec 5) (ps : List HostPacket)
    (reqs : List Scm.Request) : Running c N BUFFER_SIZE ps reqs (start data0 data1 data size ps regs) where
  fed := fed_start data0 data1 data size ps
  delivers := delivers_initial hB data0 data1
  serves := fun _ => ⟨wired_start data0 data1 data size ps, delivers_initial hB data0 data1, Framing.right_start data⟩
  wires := wires_start data0 data1 data size ps regs
  scm := fun _ => ⟨[], reqs, Scm.inv_start_of_reset c 1 hregs reqs⟩

theorem Running.next (hN : 2 ≤ N) (hmax : N ≤ 1024) (hB : 2 ≤ BUFFER_SIZE) (hps : ∀ p ∈ ps, p.data ≠ [])
    (hasks : Asks ps reqs) (h : Running c N BUFFER_SIZE ps reqs s) (hprompt : Prompt N BUFFER_SIZE s i)
    (hstep : step c N BUFFER_SIZE s i = some s') : Running c N BUFFER_SIZE ps reqs s' := by
  obtain ⟨hsystem, hscm⟩ := step_eq_some.mp hstep
  obtain ⟨-, hring, -⟩ := Testbench.step_eq_some.mp hsystem
  have hfed := fed_stable hps _ _ _ h.fed hsystem
  have hdelivers : Delivers N BUFFER_SIZE s'.system.ring := hring ▸ h.delivers.next (by omega) hmax hB
  have hwires := h.wires.next hstep
  refine ⟨hfed, hdelivers, fun hshort => ?_, hwires, fun hundisturbed => ?_⟩
  · have hshort' := short_of_next hsystem hshort
    exact (h.serves hshort').next (by omega) hmax hB hshort' hsystem
  obtain ⟨done, todo, hinv⟩ := h.scm (undisturbed_of_next hstep hundisturbed)
  refine Scm.inv_cycle hinv hprompt hscm ?_
  exact taken_requests hN hmax hasks hdelivers hwires hps hfed hundisturbed (hinv.sent_next hscm)

section Answered
variable (hN : 2 ≤ N) (hmax : N ≤ 1024) (hasks : Asks ps reqs) (h : Running c N BUFFER_SIZE ps reqs s)
include hasks

theorem forPort_answers : forPort 0 (cut DiiFlit.last (reqs.flatMap (Scm.Request.answer c 1))).1 =
    reqs.map (Scm.Request.answer c 1) := by
  have hanswers := answers_packets (c := c) hasks
  rw [cut_flatMap fun q hq => (hanswers q hq).1]
  exact List.filter_eq_self.mpr fun q hq => (hanswers q hq).2

include hN hmax h

theorem Running.received_prefix (hinv : ∃ done todo, Scm.Inv c 1 s.scm done todo reqs) :
    received s.system 0 1 <+: reqs.map (Scm.Request.answer c 1) := by
  obtain ⟨done, todo, hinv⟩ := hinv
  have hpre := h.delivers.packetsFrom_prefix hmax (i := 0) (j := 1) (by omega) (by omega)
  refine (hpre.map (List.map Flit.toDiiFlit)).trans ?_
  rw [packetsTo_map, h.wires.sent, ← forPort_answers hasks]
  exact List.IsPrefix.filter _ <| cut_fst_prefix hinv.sent_front

/-- Between the requests, and when nothing is on its way, all requests are answered. -/
theorem Running.received_all (hps : ∀ p ∈ ps, p.data ≠ []) (hidle : Idle N s.system)
    (hinv : ∃ done todo, Scm.Inv c 1 s.scm done todo reqs) (hscm : s.scm.regs.state = .idle) :
    received s.system 0 1 = reqs.map (Scm.Request.answer c 1) := by
  obtain ⟨done, todo, hinv⟩ := hinv
  obtain ⟨htaken, hsent⟩ := hinv.served.idle hscm
  -- of the requests that have arrived none is missing
  have hrequests := h.fed.received_eq h.delivers hidle hmax hps (p := 1) (by omega)
  have hcut : cut DiiFlit.last ((s.system.ring.delivered 1).map Flit.toDiiFlit) = _ :=
    cut_map Flit.toDiiFlit (fun _ => rfl : ∀ f : Flit, f.toDiiFlit.last = Flit.ends f) _
  have hdone : (cut DiiFlit.last s.scm.taken).1 = done.map Scm.Request.flits := by
    rw [htaken, cut_flatMap]
    intro q hq
    obtain ⟨r, -, rfl⟩ := List.mem_map.mp hq
    exact isPacket_request r
  rw [← h.wires.taken, hcut] at hdone
  have hlength : reqs.length ≤ done.length := by
    have hpackets := congrArg List.length hdone
    have hreceived := congrArg List.length hrequests
    simp only [List.length_map, hasks.1] at hpackets hreceived
    rw [← hreceived, ← hpackets, received, List.length_map]
    exact List.length_filter_le _ _
  have hsplit := congrArg List.length hinv.split
  rw [List.length_append] at hsplit
  have htodo : todo = [] := List.length_eq_zero_iff.mp (by omega)
  have hall := hinv.split
  rw [htodo, List.append_nil] at hall
  rw [received, h.delivers.packets_eq hmax (load_eq_zero.mp hidle.ring) (by omega) (by omega), packetsTo_map,
    h.wires.sent, hsent, ← hall, forPort_answers hasks]

end Answered

/-- **The host reads the registers of the system control module.** In every run of the system in which an address
follows its header at once and only the host sends to the module, the packets that come back from there to the host
are answers with the values of the registers, one for each request and in their order; none is missing once nothing
is on its way any more. The words that the host takes are frames of all packets that come back. -/
theorem registers_read (hN : 2 ≤ N) (hmax : N ≤ 1024) (hB : 2 ≤ BUFFER_SIZE) (hps : ∀ p ∈ ps, p.data ≠ [])
    (hasks : Asks ps reqs) {regs : Statctrlif.Regs 16} (hregs : Statctrlif.IsReset regs)
    {data0 data1 : ℕ → List Flit} {data : List Flit} {size : BitVec 5} {cycles : List Cycle}
    (hprompt : Takes (step c N BUFFER_SIZE) (Prompt N BUFFER_SIZE) (start data0 data1 data size ps regs) cycles)
    (hrun : runFrom (step c N BUFFER_SIZE) (start data0 data1 data size ps regs) cycles = some t)
    (hundisturbed : Undisturbed N t.system) :
    received t.system 0 1 <+: reqs.map (Scm.Request.answer c 1) ∧
      (Idle N t.system → t.scm.regs.state = .idle → received t.system 0 1 = reqs.map (Scm.Request.answer c 1)) ∧
      (Short N t.system → t.system.egress.words <+: Framing.frames (cut Flit.ends (t.system.ring.delivered 0)).1) := by
  have h : Running c N BUFFER_SIZE ps reqs t := by
    refine hprompt.run _ (fun _ _ _ h hc hstep => h.next hN hmax hB hps hasks hc hstep) ?_ hrun
    exact running_start hB hregs data0 data1 data size ps reqs
  have hinv := h.scm hundisturbed
  exact ⟨h.received_prefix hN hmax hasks hinv, fun hidle hscm => h.received_all hN hmax hasks hps hidle hinv hscm,
    fun hshort => (h.serves hshort).words_framed⟩

/-! The host asks for the number of modules. -/

def numModPacket : HostPacket := ⟨[0x0100, 0x0004, 0x0102], by decide⟩

/-- The request goes to the module, and behind the fourteenth cycle the answer is at the host and nothing is on its
way. The header of the answer says that there are three words. -/
theorem num_mod_received : ∃ t, runFrom (step ⟨0xdead, 3, 16⟩ 2 2)
      (start (fun _ => []) (fun _ => []) [] 0 [numModPacket] Statctrlif.resetRegs) (List.replicate 14 silent) = some t ∧
    received t.system 0 1 = [[⟨true, false, 0⟩, ⟨true, false, 1⟩, ⟨true, true, 3⟩]] ∧
    t.system.egress.words = [0x0300, 0x0000, 0x0100, 0x0300] ∧
    t.system.egress.words <+: Framing.frames (cut Flit.ends (t.system.ring.delivered 0)).1 := by
  have hprompt : Takes (step ⟨0xdead, 3, 16⟩ 2 2) (Prompt 2 2)
      (start (fun _ => []) (fun _ => []) [] 0 [numModPacket] Statctrlif.resetRegs) (List.replicate 14 silent) := by
    decide +kernel
  obtain ⟨t, hrun, hundisturbed, hshort, hidle, hscm, hwords⟩ : ∃ t ∈ runFrom (step ⟨0xdead, 3, 16⟩ 2 2)
      (start (fun _ => []) (fun _ => []) [] 0 [numModPacket] Statctrlif.resetRegs) (List.replicate 14 silent),
      Undisturbed 2 t.system ∧ Short 2 t.system ∧ Idle 2 t.system ∧ t.scm.regs.state = .idle ∧
        t.system.egress.words = [0x0300, 0x0000, 0x0100, 0x0300] := by
    decide +kernel
  have hasks : Asks [numModPacket] [Scm.numModRequest] := ⟨by decide, by decide⟩
  obtain ⟨-, hanswered, hframed⟩ := registers_read (by decide) (by decide) (by decide) (by decide) hasks ⟨rfl, rfl⟩
    hprompt hrun hundisturbed
  exact ⟨t, hrun, hanswered hidle hscm, hwords, hframed hshort⟩

end GlipOsd.Testbench.Enumeration
