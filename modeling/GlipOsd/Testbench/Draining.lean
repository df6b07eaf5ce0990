import GlipOsd.Him.Capacity
import GlipOsd.Ring.Draining
import GlipOsd.Ring.Multiplexers
import GlipOsd.Testbench.Delivery

/-! # Everything arrives

The host interface module stops the ring while its buffer is full, and the ring stops the words of the
host while it is busy itself. With packets shorter than the buffer, one of the three goes on whenever
there is something to do: a word is taken, a flit moves or a word is given to the host.
-/

namespace GlipOsd.Him
open Packets GlipOsd.Ring
set_option autoImplicit false

/-- Twice the flits that are stored, and the header that is still to be sent. -/
def backlog (t : Tracked) : ℕ := 2 * (stored t).length + if t.regs.egressActive then 0 else 1

theorem Sending.backlog_cycle {t t' : Tracked} {i : Input} {done : List (List Flit)} {front : List Flit}
    (h : Sending t done front) (hstep : cycle t i = some t') :
    backlog t' + (sent t.regs i).length ≤
      backlog t + 2 * (i.diiIn.transfer (diiInReady t.regs)).length := by
  have hsent : (sent t.regs i).length = if glipOutValid t.regs && i.glipOutReady then 1 else 0 := by
    unfold sent
    split_ifs <;> rfl
  rw [hsent]
  unfold backlog
  cases hready : diiEgressReady t.regs i with
  | true =>
    obtain ⟨hactive, -⟩ := Bool.and_eq_true_iff.mp hready
    obtain ⟨f, rest, hstored, -, hstored', hactive', -⟩ := h.cycle_flit hstep hready
    have hword : (if glipOutValid t.regs && i.glipOutReady then 1 else 0) ≤ 1 := by split_ifs <;> omega
    have hlast : (if !f.last then 0 else 1) ≤ 1 := by split_ifs <;> omega
    rw [hstored, hstored', hactive, hactive', List.length_append, List.length_cons, if_pos rfl]
    omega
  | false =>
    obtain ⟨-, hstored'⟩ := h.cycle_header hstep hready
    have hactive' : t'.regs.egressActive =
        (t.regs.egressActive || glipOutValid t.regs && i.glipOutReady) := by
      obtain rfl := Option.some.inj hstep
      simp only [next, hready, Bool.false_and, Bool.not_false]
      cases t.regs.egressActive <;> rfl
    rw [hstored', hactive', List.length_append]
    cases hactive : t.regs.egressActive with
    | false =>
      cases glipOutValid t.regs && i.glipOutReady <;> simp <;> omega
    | true =>
      have hnot : i.glipOutReady = false := by
        rw [diiEgressReady, hactive, Bool.true_and] at hready
        exact hready
      rw [hnot]
      simp
      omega

end GlipOsd.Him

namespace GlipOsd.Testbench
open Packets Runs GlipOsd.Ring Him
set_option autoImplicit false

/-- The packets for the host, those that are being sent included, are shorter than the buffer of the
host interface module. -/
def ShortTraffic (N : ℕ) (s : System) : Prop :=
  ∀ j < N, Shorter Flit.ends bufSize (ofTag (j, routerId 0) (s.ring.injected j))

instance (N : ℕ) (s : System) : Decidable (ShortTraffic N s) :=
  inferInstanceAs (Decidable (∀ j < N, _))

/-- The host offers a word if it has one and takes what it gets, the modules are ready, and a module
that has begun a packet goes on with it. -/
structure Cooperative (N : ℕ) (s : System) (i : Cycle) : Prop where
  offers : i.glipInValid = true
  takes : i.glipOutReady = true
  ready : ∀ p < N, p ≠ 0 → i.diiInReady p = true
  packet : ∀ p < N, p ≠ 0 → s.ring.injecting p ≠ none → (i.diiOut p).valid = true

/-- A word or a flit waits. -/
def ToDo (N : ℕ) (s : System) (i : Cycle) : Prop :=
  s.ingress.toSend ≠ [] ∨ glipOutValid s.egress.regs = true ∨ (∃ k < 2 * N, stored N s.ring k ≠ []) ∨
    ∃ p < N, p ≠ 0 ∧ (i.diiOut p).valid = true

instance (N : ℕ) (s : System) (i : Cycle) : Decidable (Cooperative N s i) :=
  decidable_of_iff (i.glipInValid = true ∧ i.glipOutReady = true ∧
      (∀ p < N, p ≠ 0 → i.diiInReady p = true) ∧
        ∀ p < N, p ≠ 0 → s.ring.injecting p ≠ none → (i.diiOut p).valid = true)
    ⟨fun ⟨hoffers, htakes, hready, hpacket⟩ => ⟨hoffers, htakes, hready, hpacket⟩,
      fun h => ⟨h.offers, h.takes, h.ready, h.packet⟩⟩

instance (N : ℕ) (s : System) (i : Cycle) : Decidable (ToDo N s i) :=
  inferInstanceAs (Decidable (_ ∨ _ ∨ (∃ k < 2 * N, _) ∨ ∃ p < N, _))

/-- The cycles of a run in which something waits although everyone cooperates. -/
def waitingCycles (N BUFFER_SIZE : ℕ) : System → List Cycle → ℕ :=
  cost (step N BUFFER_SIZE) fun s i => if Cooperative N s i ∧ ToDo N s i then 1 else 0

section Potential
variable (N : ℕ) (s : System)

def potential : ℕ :=
  3 * load N s.ring + backlog s.egress + (6 * N + 1) * s.ingress.toSend.length

/-- The flits that the modules have sent. -/
def fromModules : ℕ := ∑ p ∈ Finset.range (N - 1), (s.ring.injected (p + 1)).length

end Potential

variable {N BUFFER_SIZE : ℕ} {s s' t : System} {i : Cycle} {ps : List HostPacket}

/-! ## The packet in progress at port 0 -/

theorem last_deframe {ws : List (BitVec 16)} {n : ℕ} (hpending : pending n ws = 0) :
    ∀ f ∈ (deframe n ws).getLast?, f.last = true := by
  induction ws generalizing n with
  | nil => cases n <;> exact fun f hf => nomatch hf
  | cons w ws ih =>
    cases n with
    | zero => exact ih hpending
    | succ n =>
      intro f hf
      rw [deframe, List.getLast?_cons] at hf
      cases hrest : deframe n ws with
      | nil =>
        have hzero : n = 0 := by
          cases ws with
          | nil => exact hpending
          | cons v vs =>
            cases n with
            | zero => rfl
            | succ n => cases hrest
        rw [hrest] at hf
        obtain rfl := Option.some.inj hf
        exact beq_iff_eq.mpr hzero
      | cons g gs =>
        rw [hrest, List.getLast?_cons, Option.getD_some] at hf
        exact ih hpending f (by rw [hrest, List.getLast?_cons]; exact hf)

/-- While a packet is being injected at port 0, the next word of the host is one of its flits. -/
theorem Fed.packet (h : Fed ps s) (hline : ∃ u, Line N BUFFER_SIZE s.ring u) (hN : 1 ≤ N)
    (hinjecting : s.ring.injecting 0 ≠ none) : s.ingress.regs.ingressActive = true ∧ s.ingress.toSend ≠ [] := by
  have hpending : pending 0 s.ingress.words ≠ 0 := by
    intro hzero
    obtain ⟨u, hu⟩ := hline
    have hopen := (hu.injected 0 hN).2
    have hlast := last_deframe hzero
    rw [← h.framed.1, ← h.wired.injected] at hlast
    have hnone : behind none (s.ring.injected 0) = none := by
      obtain hnil | ⟨xs, f, heq⟩ := List.eq_nil_or_concat (s.ring.injected 0)
      · rw [hnil]
        rfl
      · have hends : f.ends = true := by
          refine hlast f.toDiiFlit ?_
          rw [heq]
          simp
        rw [heq, behind, List.concat_eq_append, opened_append, opened_singleton, after, if_pos hends]
    rw [hnone, injectTag] at hopen
    exact hinjecting (Option.map_eq_none_iff.mp hopen.symm)
  refine ⟨?_, fun hnil => hpending ?_⟩
  · by_contra hidle
    exact hpending (h.framed.2.mp (Bool.eq_false_iff.mpr hidle))
  · have hall := h.synced.split
    rw [hnil, List.append_nil] at hall
    rw [hall]
    exact pending_stream ps

/-! ## Short packets -/

theorem short_of_traffic (hmax : N ≤ 1024) (hN : 1 ≤ N) (h : Delivers N BUFFER_SIZE s.ring)
    (hshort : ShortTraffic N s) : Short N s := by
  intro j hj p hp
  rw [← h.packetsTo_eq hmax hN hj] at hp
  exact (hshort j hj).1 p hp

theorem shortTraffic_of_next (hstep : step N BUFFER_SIZE s i = some s') (h : ShortTraffic N s') :
    ShortTraffic N s := by
  obtain ⟨-, hring, -⟩ := step_eq_some.mp hstep
  intro j hj
  refine (h j hj).front ?_
  rw [hring, injected_next, ofTag_append]
  exact List.prefix_append _ _

/-- The packet that is being received from the ring is part of one that was sent. -/
theorem inProgress_lt (hN : 1 ≤ N) (h : Delivers N BUFFER_SIZE s.ring) (hshort : ShortTraffic N s) :
    (cut Flit.ends (s.ring.delivered 0)).2.length < bufSize := by
  obtain ⟨u, hu⟩ := h.line
  by_cases hnil : (cut Flit.ends (s.ring.delivered 0)).2 = []
  · rw [hnil]
    decide
  · obtain ⟨x, xs, heq, -, htags⟩ := (tagged_cut (hu.delivered 0 hN)).2.1 hnil
    have hx : x ∈ s.ring.delivered 0 := mem_of_mem_cut (.inr rfl) (heq ▸ List.mem_cons_self)
    obtain ⟨hsource, hdest⟩ := h.located.delivered 0 hN x hx
    have htag : x.tag = (x.source, routerId 0) := congrArg (Prod.mk x.source) hdest
    have hcut := cut_filter_eq (hu.delivered 0 hN) fun t => decide (t = (x.source, routerId 0))
    have hall : (cut Flit.ends (ofTag (x.source, routerId 0) (s.ring.delivered 0))).2 =
        (cut Flit.ends (s.ring.delivered 0)).2 := by
      refine (congrArg Prod.snd hcut).trans (List.filter_eq_self.mpr fun y hy => ?_)
      rw [heq] at hy
      obtain rfl | hy := List.mem_cons.mp hy
      · exact decide_eq_true htag
      · exact decide_eq_true ((htags y hy).trans htag)
    have hpre : ofTag (x.source, routerId 0) (s.ring.delivered 0) <+:
        ofTag (x.source, routerId 0) (s.ring.injected x.source) := by
      rw [h.conserved 0 hN x.source hsource]
      exact List.prefix_append _ _
    rw [← hall]
    exact ((hshort x.source hsource).front hpre).2

/-! ## One cycle -/

/-- Everything that the parts of the system keep. -/
structure Running (N BUFFER_SIZE : ℕ) (ps : List HostPacket) (s : System) : Prop where
  fed : Fed ps s
  sound : Sound N BUFFER_SIZE s.ring
  serves : Serves N BUFFER_SIZE s

section Running
variable (hN : 1 ≤ N) (hmax : N ≤ 1024) (hB : 2 ≤ BUFFER_SIZE) (hps : ∀ p ∈ ps, p.data ≠ [])
include hN hmax hB hps

theorem Running.next (h : Running N BUFFER_SIZE ps s) (hshort : ShortTraffic N s)
    (hstep : step N BUFFER_SIZE s i = some s') : Running N BUFFER_SIZE ps s' where
  fed := fed_stable hps _ _ _ h.fed hstep
  sound := sound_stable hN hB _ _ _ h.sound (h.fed.wired.ring_step hstep)
  serves := h.serves.next hN hmax hB (short_of_traffic hmax hN h.serves.delivers hshort) hstep

end Running

/-- The words taken from the host in a cycle. -/
def takenWords (BUFFER_SIZE : ℕ) (s : System) (i : Cycle) : ℕ :=
  (s.ingress.taken (ingressIn BUFFER_SIZE s i)).length

def linkFlits (N BUFFER_SIZE : ℕ) (s : System) (i : Cycle) : ℕ :=
  ∑ k ∈ Finset.range (2 * N), (flow N BUFFER_SIZE s.ring (ringIn s i) (k + 1)).length

/-- The flits that the modules send in a cycle. -/
def sentByModules (N BUFFER_SIZE : ℕ) (s : System) (i : Cycle) : ℕ :=
  ∑ p ∈ Finset.range (N - 1), (injecting BUFFER_SIZE s.ring (ringIn s i) (p + 1)).length

theorem sum_injecting (hN : 1 ≤ N) :
    ∑ p ∈ Finset.range N, (injecting BUFFER_SIZE s.ring (ringIn s i) p).length =
      (injecting BUFFER_SIZE s.ring (ringIn s i) 0).length + sentByModules N BUFFER_SIZE s i := by
  obtain ⟨n, rfl⟩ : ∃ n, N = n + 1 := ⟨N - 1, by omega⟩
  rw [Finset.sum_range_succ', Nat.add_comm]
  rfl

/-- A flit is sent together with the word that it is made of. -/
theorem injecting_le :
    (injecting BUFFER_SIZE s.ring (ringIn s i) 0).length ≤ takenWords BUFFER_SIZE s i := by
  by_cases hfire : (himOut s i).valid = true ∧ himOutReady BUFFER_SIZE s i = true
  · obtain ⟨hvalid, hready⟩ := hfire
    obtain ⟨-, hword⟩ := (himOut_valid BUFFER_SIZE).mp hvalid
    have htaken : takenWords BUFFER_SIZE s i = 1 := by
      rw [takenWords, Receiving.taken, hword, Ingress.glipInReady, input_diiOutReady,
        ingressIn, hready, Bool.or_true]
      rfl
    rw [htaken]
    exact Flit.length_transfer_le _ _
  · have hnone : injecting BUFFER_SIZE s.ring (ringIn s i) 0 = [] := by
      refine if_neg fun h => hfire ?_
      exact Bool.and_eq_true_iff.mp h
    rw [hnone]
    exact Nat.zero_le _

theorem toSend_next (hstep : step N BUFFER_SIZE s i = some s') :
    s'.ingress.toSend.length + takenWords BUFFER_SIZE s i = s.ingress.toSend.length := by
  obtain ⟨-, -, hingress, -⟩ := step_eq_some.mp hstep
  have hnext : s'.ingress.toSend =
      s.ingress.toSend.drop (s.ingress.taken (ingressIn BUFFER_SIZE s i)).length :=
    congrArg Receiving.toSend (Option.some.inj hingress).symm
  rw [hnext, takenWords]
  cases htaken : s.ingress.taken (ingressIn BUFFER_SIZE s i) with
  | nil => rfl
  | cons w ws =>
    obtain ⟨rfl, -, -, hsend⟩ := Receiving.taken_eq htaken
    rw [hsend]
    rfl

section Cycle
variable (hN : 1 ≤ N) (hB : 2 ≤ BUFFER_SIZE) (h : Running N BUFFER_SIZE ps s)
include hN hB h

/-- The potential pays for every flit on a link and every word, and it rises with the flits of the
modules only. -/
theorem Running.potential_next (hstep : step N BUFFER_SIZE s i = some s') :
    potential N s' + (linkFlits N BUFFER_SIZE s i + (sent s.egress.regs (egressIn N s i)).length +
        takenWords BUFFER_SIZE s i) ≤
      potential N s + 6 * N * sentByModules N BUFFER_SIZE s i := by
  obtain ⟨-, hring, -, hegress, -⟩ := step_eq_some.mp hstep
  obtain ⟨u, hu, -⟩ := h.sound
  obtain ⟨done, front, hexact⟩ := h.serves.right
  have hload := load_next hu hN (ringIn s i) hB
  have hlinks : (delivering N s.ring (ringIn s i) 0).length ≤ linkFlits N BUFFER_SIZE s i :=
    delivering_le hu hN
  have hbacklog : backlog s'.egress + (sent s.egress.regs (egressIn N s i)).length ≤
      backlog s.egress + 2 * (delivering N s.ring (ringIn s i) 0).length :=
    hexact.toSending.backlog_cycle hegress
  have hwords := toSend_next hstep
  have hinject : (injecting BUFFER_SIZE s.ring (ringIn s i) 0).length ≤ takenWords BUFFER_SIZE s i :=
    injecting_le
  rw [sum_injecting hN, ← hring] at hload
  unfold linkFlits at hlinks ⊢
  unfold potential
  rw [← hwords]
  have hmul : 6 * N * (injecting BUFFER_SIZE s.ring (ringIn s i) 0).length ≤
      6 * N * takenWords BUFFER_SIZE s i := Nat.mul_le_mul_left _ hinject
  have hload' : 2 * N * ((injecting BUFFER_SIZE s.ring (ringIn s i) 0).length +
      sentByModules N BUFFER_SIZE s i) * 3 =
        6 * N * (injecting BUFFER_SIZE s.ring (ringIn s i) 0).length +
          6 * N * sentByModules N BUFFER_SIZE s i := by ring
  have hsplit : (6 * N + 1) * (s'.ingress.toSend.length + takenWords BUFFER_SIZE s i) =
      (6 * N + 1) * s'.ingress.toSend.length +
        (6 * N * takenWords BUFFER_SIZE s i + takenWords BUFFER_SIZE s i) := by ring
  rw [hsplit]
  omega

omit hB in
theorem Running.driven (h' : Cooperative N s i) (hstep : step N BUFFER_SIZE s i = some s')
    (hready : diiInReady s.egress.regs = true) : Driven N s.ring (ringIn s i) := by
  obtain ⟨⟨hhost, hmodules⟩, -⟩ := step_eq_some.mp hstep
  have hheld := h.fed.wired.held ⟨hhost, hmodules⟩
  refine ⟨fun p hp => ?_, hheld, fun p hp hinjecting => ?_⟩
  · by_cases hzero : p = 0
    · exact (if_pos hzero).trans hready
    · exact (if_neg hzero).trans (h'.ready p hp hzero)
  · by_cases hzero : p = 0
    · subst hzero
      obtain ⟨hactive, hsend⟩ := h.fed.packet h.serves.delivers.line hN hinjecting
      obtain ⟨w, ws, hw⟩ := List.exists_cons_of_ne_nil hsend
      refine (himOut_valid BUFFER_SIZE).mpr ⟨hactive, ?_⟩
      simp [Receiving.input, hw, ingressIn, h'.offers]
    · exact (congrArg DiiFlit.valid (diiIn_module hzero)).trans (h'.packet p hp hzero hinjecting)

omit hB in
/-- A buffer that is full holds a whole packet. -/
theorem Running.valid_of_full (hshort : ShortTraffic N s) (hready : diiInReady s.egress.regs = false) :
    glipOutValid s.egress.regs = true := by
  obtain ⟨done, front, hexact⟩ := h.serves.right
  have hok : ¬ Capacity.FullAndSilent s.egress := by
    rw [Capacity.fullAndSilent_iff hexact.toSending, not_le, Capacity.inProgress, h.fed.wired.accepted]
    exact inProgress_lt hN h.serves.delivers hshort
  by_contra hnot
  exact hok ⟨hready, Bool.eq_false_iff.mpr hnot⟩

omit hN hB h in
/-- With an idle ring the next word of the host is a header, which is taken. -/
theorem takenWords_of_not_busy (h' : Cooperative N s i) (hN : 1 ≤ N) (hsend : s.ingress.toSend ≠ [])
    (hbusy : ¬ Busy N s.ring (ringIn s i)) : takenWords BUFFER_SIZE s i = 1 := by
  obtain ⟨w, ws, hw⟩ := List.exists_cons_of_ne_nil hsend
  have hinput : s.ingress.input (ingressIn BUFFER_SIZE s i) = ⟨true, w, himOutReady BUFFER_SIZE s i⟩ := by
    simp [Receiving.input, hw, ingressIn, h'.offers]
  have hidle : s.ingress.regs.ingressActive = false := by
    by_contra hactive
    refine hbusy ⟨0, hN, .inr (.inr ?_)⟩
    refine (himOut_valid BUFFER_SIZE).mpr ⟨Bool.not_eq_false _ ▸ hactive, ?_⟩
    rw [hinput]
  rw [takenWords, Receiving.taken, hinput, Ingress.glipInReady, hidle]
  rfl

/-- Something goes on. -/
theorem Running.progress (hshort : ShortTraffic N s) (h' : Cooperative N s i) (htodo : ToDo N s i)
    (hstep : step N BUFFER_SIZE s i = some s') :
    1 ≤ linkFlits N BUFFER_SIZE s i + (sent s.egress.regs (egressIn N s i)).length +
        takenWords BUFFER_SIZE s i + sentByModules N BUFFER_SIZE s i := by
  have hsent : glipOutValid s.egress.regs = true → (sent s.egress.regs (egressIn N s i)).length = 1 := by
    intro hvalid
    rw [sent, hvalid, egressIn, h'.takes]
    rfl
  cases hready : diiInReady s.egress.regs with
  | false =>
    have hone := hsent (h.valid_of_full hN hshort hready)
    omega
  | true =>
    obtain ⟨u, hu, hw⟩ := h.sound
    by_cases hbusy : Busy N s.ring (ringIn s i)
    · have hmoves := moves_of_busy hu hN hw (h.driven hN h' hstep hready) hB hbusy
      have hone := flows_of_moves hu hN hmoves
      have hinject : (injecting BUFFER_SIZE s.ring (ringIn s i) 0).length ≤ takenWords BUFFER_SIZE s i :=
        injecting_le
      rw [sum_injecting hN] at hone
      unfold linkFlits
      omega
    · obtain hsend | hvalid | ⟨k, hk, hne⟩ | ⟨p, hp, hzero, hvalid⟩ := htodo
      · have htaken : takenWords BUFFER_SIZE s i = 1 := takenWords_of_not_busy h' hN hsend hbusy
        omega
      · have hone := hsent hvalid
        omega
      · refine absurd (busy_of_load hu fun hzero => hne ?_) hbusy
        exact load_eq_zero.mp hzero k hk
      · exact absurd ⟨p, hp, .inr (.inr ((congrArg DiiFlit.valid (diiIn_module hzero)).trans hvalid))⟩ hbusy

end Cycle

/-! ## Every run -/

theorem fromModules_next (hstep : step N BUFFER_SIZE s i = some s') :
    fromModules N s' = fromModules N s + sentByModules N BUFFER_SIZE s i := by
  obtain ⟨-, hring, -⟩ := step_eq_some.mp hstep
  unfold fromModules sentByModules
  rw [hring, ← Finset.sum_add_distrib]
  exact Finset.sum_congr rfl fun p _ => by rw [injected_next, List.length_append]

theorem running_start (hB : 2 ≤ BUFFER_SIZE) (data0 data1 : ℕ → List Flit) (data : List Flit)
    (size : BitVec 5) (ps : List HostPacket) :
    Running N BUFFER_SIZE ps (start data0 data1 data size ps) :=
  ⟨fed_start data0 data1 data size ps, sound_initial hB data0 data1,
    ⟨wired_start data0 data1 data size ps, delivers_initial hB data0 data1, Framing.right_start data⟩⟩

theorem potential_start (data0 data1 : ℕ → List Flit) (data : List Flit) (size : BitVec 5)
    (ps : List HostPacket) : potential N (start data0 data1 data size ps) =
      1 + (6 * N + 1) * (stream ps).length := by
  have hload : load N (start data0 data1 data size ps).ring = 0 := load_initial data0 data1
  rw [potential, hload, Nat.mul_zero, Nat.zero_add]
  rfl

section Runs
variable (hN : 1 ≤ N) (hmax : N ≤ 1024) (hB : 2 ≤ BUFFER_SIZE) (hps : ∀ p ∈ ps, p.data ≠ [])
  {data0 data1 : ℕ → List Flit} {data : List Flit} {size : BitVec 5} {cycles : List Cycle}
include hN hmax hB hps

/-- The host and the modules do not wait for nothing: in every run, the cycles in which something
waits although everyone cooperates are bounded by the words of the host and the flits of the modules. -/
theorem waiting_cycles_le
    (hrun : runFrom (step N BUFFER_SIZE) (start data0 data1 data size ps) cycles = some t)
    (hshort : ShortTraffic N t) :
    waitingCycles N BUFFER_SIZE (start data0 data1 data size ps) cycles ≤
      1 + (6 * N + 1) * ((stream ps).length + fromModules N t) := by
  have hpay : ∀ s i s', Running N BUFFER_SIZE ps s → ShortTraffic N s → step N BUFFER_SIZE s i = some s' →
      potential N s' + (if Cooperative N s i ∧ ToDo N s i then 1 else 0) +
          (6 * N + 1) * fromModules N s ≤
        potential N s + (6 * N + 1) * fromModules N s' := by
    intro s i s' h hs hstep
    have hnext := h.potential_next hN hB hstep
    rw [fromModules_next hstep, Nat.mul_add, Nat.succ_mul _ (sentByModules N BUFFER_SIZE s i)]
    split_ifs with hwaits
    · have hone := h.progress hN hB hs hwaits.1 hwaits.2 hstep
      omega
    · omega
  have htakes := takes_of_last (fun _ _ _ hstep => shortTraffic_of_next hstep) hrun hshort
  have htotal := htakes.cost_le (fun _ _ _ h hs hstep => h.next hN hmax hB hps hs hstep) hpay
    (running_start hB data0 data1 data size ps) hrun
  have hzero : fromModules N (start data0 data1 data size ps) = 0 := Finset.sum_eq_zero fun _ _ => rfl
  rw [potential_start, hzero] at htotal
  unfold waitingCycles
  rw [Nat.mul_add]
  omega

end Runs

theorem waiting_cycles_le_one : ∃ t, runFrom (step 2 2)
      (start (fun _ => []) (fun _ => []) [] 0 [⟨[0x0100], by decide⟩]) (List.replicate 3 silent) = some t ∧
    waitingCycles 2 2 (start (fun _ => []) (fun _ => []) [] 0 [⟨[0x0100], by decide⟩])
        (List.replicate 3 silent) ≤
      1 + (6 * 2 + 1) * ((stream [⟨[0x0100], by decide⟩]).length + fromModules 2 t) := by
  refine ⟨_, rfl, ?_⟩
  have hrun : runFrom (step 2 2) (start (fun _ => []) (fun _ => []) [] 0 [⟨[0x0100], by decide⟩])
      (List.replicate 3 silent) = some _ := rfl
  exact waiting_cycles_le (by decide) (by decide) (by decide) (by decide) hrun (by decide)

/-! ## Once the modules are silent -/

/-- Everyone cooperates, and the modules do not send. -/
structure Calm (N : ℕ) (s : System) (i : Cycle) : Prop extends Cooperative N s i where
  silent : ∀ p < N, p ≠ 0 → (i.diiOut p).valid = false

structure Idle (N : ℕ) (s : System) : Prop where
  host : s.ingress.toSend = []
  words : glipOutValid s.egress.regs = false
  ring : load N s.ring = 0

instance (N : ℕ) (s : System) : Decidable (Idle N s) :=
  decidable_of_iff (s.ingress.toSend = [] ∧ glipOutValid s.egress.regs = false ∧ load N s.ring = 0)
    ⟨fun ⟨hhost, hwords, hring⟩ => ⟨hhost, hwords, hring⟩, fun h => ⟨h.host, h.words, h.ring⟩⟩

/-- The potential, but nothing once there is nothing to do. -/
def rank (N : ℕ) (s : System) : ℕ := if Idle N s then 0 else potential N s

theorem rank_le (N : ℕ) (s : System) : rank N s ≤ potential N s := by
  unfold rank
  split_ifs <;> omega

theorem Calm.sentByModules_eq (h : Calm N s i) : sentByModules N BUFFER_SIZE s i = 0 := by
  refine Finset.sum_eq_zero fun p hp => ?_
  have hlt := Finset.mem_range.mp hp
  have hinvalid : (localIn s.ring (ringIn s i) (p + 1)).valid = false :=
    (congrArg DiiFlit.valid (diiIn_module (by omega))).trans (h.silent (p + 1) (by omega) (by omega))
  rw [injecting, Flit.transfer_of_not_valid _ hinvalid, List.length_nil]

theorem toDo_of_not_idle (h : ¬ Idle N s) : ToDo N s i := by
  by_contra hnone
  unfold ToDo at hnone
  push Not at hnone
  obtain ⟨hhost, hwords, hring, -⟩ := hnone
  exact h ⟨hhost, Bool.eq_false_iff.mpr hwords, load_eq_zero.mpr hring⟩

section Calm
variable (hN : 1 ≤ N) (hB : 2 ≤ BUFFER_SIZE) (h : Running N BUFFER_SIZE ps s)
include hN hB h

theorem Running.idle_next (hcalm : Calm N s i) (hstep : step N BUFFER_SIZE s i = some s')
    (hidle : Idle N s) : Idle N s' := by
  obtain ⟨-, hring, -, hegress, -⟩ := step_eq_some.mp hstep
  obtain ⟨u, hu, -⟩ := h.sound
  obtain ⟨done, front, hexact⟩ := h.serves.right
  have hwords := toSend_next hstep
  rw [hidle.host, List.length_nil, Nat.add_eq_zero_iff] at hwords
  have hinject : (injecting BUFFER_SIZE s.ring (ringIn s i) 0).length ≤ takenWords BUFFER_SIZE s i :=
    injecting_le
  have hnone : (injecting BUFFER_SIZE s.ring (ringIn s i) 0).length = 0 := by omega
  have hload := load_next hu hN (ringIn s i) hB
  rw [sum_injecting hN, hcalm.sentByModules_eq, hidle.ring, hnone, ← hring] at hload
  have hlinks : (delivering N s.ring (ringIn s i) 0).length ≤ _ := delivering_le hu hN
  have hnothing : delivering N s.ring (ringIn s i) 0 = [] := by
    rw [← List.length_eq_zero_iff]
    omega
  have hready : diiEgressReady s.egress.regs (egressIn N s i) = false := by
    by_contra hready
    have hactive := (Bool.and_eq_true_iff.mp (Bool.not_eq_false _ ▸ hready)).1
    have hvalid := hexact.valid_eq.trans (hexact.active hactive)
    rw [hidle.words] at hvalid
    cases hvalid
  obtain ⟨hsending, hstored⟩ := hexact.toSending.cycle_header hegress hready
  refine ⟨List.length_eq_zero_iff.mp hwords.1, ?_, by omega⟩
  have harrived : (egressIn N s i).diiIn.transfer (diiInReady s.egress.regs) = [] := hnothing
  rw [hsending.valid_eq, hstored, harrived, List.append_nil, ← hexact.valid_eq, hidle.words]

theorem Running.rank_next (hcalm : Calm N s i) (hshort : ShortTraffic N s)
    (hstep : step N BUFFER_SIZE s i = some s') : rank N s' ≤ rank N s - 1 := by
  have hle := rank_le N s'
  by_cases hidle : Idle N s
  · have hidle' := h.idle_next hN hB hcalm hstep hidle
    rw [rank, if_pos hidle']
    exact Nat.zero_le _
  · have hnext := h.potential_next hN hB hstep
    have hone := h.progress hN hB hshort hcalm.toCooperative (toDo_of_not_idle hidle) hstep
    rw [hcalm.sentByModules_eq] at hnext hone
    have hrank : rank N s = potential N s := if_neg hidle
    rw [Nat.mul_zero] at hnext
    omega

omit hN hB in
theorem Running.potential_le : potential N s ≤
    3 * (N * (2 * N + 1) * BUFFER_SIZE) + 17 + (6 * N + 1) * s.ingress.toSend.length := by
  obtain ⟨u, hu, -⟩ := h.sound
  obtain ⟨done, front, hexact⟩ := h.serves.right
  have hload : 2 * load N s.ring ≤ 2 * N * (2 * N + 1) * BUFFER_SIZE :=
    ahead_le fun k hk => DiiBuffer.length_queue_le (hu.wf k hk)
  have hhalf : 2 * N * (2 * N + 1) * BUFFER_SIZE = 2 * (N * (2 * N + 1) * BUFFER_SIZE) := by ring
  have hstored : (stored s.egress).length ≤ 8 := hexact.wf.length_queue_le
  have hbacklog : backlog s.egress ≤ 17 := by
    unfold backlog
    split_ifs <;> omega
  unfold potential
  omega

omit hN hB in
/-- Without potential there is nothing to do. -/
theorem Running.idle_of_potential (hzero : potential N s = 0) : Idle N s := by
  obtain ⟨done, front, hexact⟩ := h.serves.right
  unfold potential backlog at hzero
  have hnone : stored s.egress = [] := List.length_eq_zero_iff.mp (by omega)
  refine ⟨?_, ?_, by omega⟩
  · rw [Nat.add_eq_zero_iff, Nat.mul_eq_zero] at hzero
    exact List.length_eq_zero_iff.mp (hzero.2.resolve_left (by omega))
  · rw [hexact.valid_eq, hnone]
    rfl

end Calm

theorem Fed.received_eq (h : Fed ps s) (hdelivers : Delivers N BUFFER_SIZE s.ring) (hidle : Idle N s)
    (hmax : N ≤ 1024) (hps : ∀ p ∈ ps, p.data ≠ []) {p : ℕ} (hp : p < N) :
    received s p 0 = (ps.filter (addressedTo p)).map HostPacket.flits := by
  have hall := h.synced.split
  rw [hidle.host, List.append_nil] at hall
  rw [received, hdelivers.packets_eq hmax (load_eq_zero.mp hidle.ring) hp (by omega), h.wired.packetsTo_map,
    h.framed.1, hall, cut_stream hps, forPort_flits]

/-- Once the modules are silent and as long as everyone cooperates, everything arrives in a bounded time:
each module has received all packets that the host has addressed to it, all packets of the modules
are where they are sent to, and the host has taken a frame of each packet that was sent to it. -/
theorem everything_arrives (hN : 1 ≤ N) (hmax : N ≤ 1024) (hB : 2 ≤ BUFFER_SIZE)
    (hps : ∀ p ∈ ps, p.data ≠ []) {data0 data1 : ℕ → List Flit} {data : List Flit} {size : BitVec 5}
    {cycles calm : List Cycle}
    (hrun : runFrom (step N BUFFER_SIZE) (start data0 data1 data size ps) cycles = some s)
    (hcalm : Takes (step N BUFFER_SIZE) (Calm N) s calm)
    (hlong : 3 * (N * (2 * N + 1) * BUFFER_SIZE) + 17 + (6 * N + 1) * s.ingress.toSend.length ≤
      calm.length)
    (hrun' : runFrom (step N BUFFER_SIZE) s calm = some t) (hshort : ShortTraffic N t) :
    (∀ i < N, received t i 0 = (ps.filter (addressedTo i)).map HostPacket.flits) ∧
      (∀ i < N, ∀ j < N, packetsFrom j (t.ring.delivered i) = packetsTo i (t.ring.injected j)) ∧
      t.egress.words = Framing.frames (cut Flit.ends (t.ring.delivered 0)).1 := by
  have hback : ∀ s i s', step N BUFFER_SIZE s i = some s' → ShortTraffic N s' → ShortTraffic N s :=
    fun _ _ _ hstep => shortTraffic_of_next hstep
  have hinv : ∀ s i s', Running N BUFFER_SIZE ps s → Calm N s i ∧ ShortTraffic N s →
      step N BUFFER_SIZE s i = some s' → Running N BUFFER_SIZE ps s' :=
    fun _ _ _ h hc hstep => h.next hN hmax hB hps hc.2 hstep
  have hs : Running N BUFFER_SIZE ps s := by
    refine run_of_last hback ?_ (running_start hB data0 data1 data size ps) hrun ?_
    · exact fun _ _ _ h hs hstep => h.next hN hmax hB hps hs hstep
    · exact holds_before hback hrun' hshort
  have htakes := hcalm.and (takes_of_last hback hrun' hshort)
  have ht : Running N BUFFER_SIZE ps t := htakes.run _ hinv hs hrun'
  have hrank : rank N t ≤ rank N s - calm.length := by
    refine htakes.countdown hinv (fun _ _ _ h hc hstep => ?_) hs hrun'
    exact h.rank_next hN hB hc.1 hc.2 hstep
  have hidle : Idle N t := by
    by_contra hnot
    have hle := hs.potential_le
    have hstart := rank_le N s
    have heq : rank N t = potential N t := if_neg hnot
    exact hnot (ht.idle_of_potential (by omega))
  have hdelivers := ht.serves.delivers
  refine ⟨fun i hi => ht.fed.received_eq hdelivers hidle hmax hps hi,
    fun i hi j hj => hdelivers.packets_eq hmax (load_eq_zero.mp hidle.ring) hi hj, ?_⟩
  obtain ⟨done, front, hexact⟩ := ht.serves.right
  rw [← ht.serves.wired.accepted]
  exact hexact.framed.rest hidle.words

/-! The host addresses a word to the module at port 1. -/

theorem silent_runs (N BUFFER_SIZE : ℕ) (hoffered : ∀ p, p ≠ 0 → s.ring.offered p = none)
    (hinjecting : ∀ p, p ≠ 0 → s.ring.injecting p = none) (n : ℕ) :
    ∃ t, runFrom (step N BUFFER_SIZE) s (List.replicate n silent) = some t ∧
      Takes (step N BUFFER_SIZE) (Calm N) s (List.replicate n silent) ∧
      ∀ p, p ≠ 0 → t.ring.injected p = s.ring.injected p := by
  induction n generalizing s with
  | zero => exact ⟨s, rfl, trivial, fun _ _ => rfl⟩
  | succ n ih =>
    have hkeeps : Keeps N s silent := by
      refine ⟨fun _ => rfl, fun p _ hp flit hflit => ?_⟩
      rw [hoffered p hp] at hflit
      cases hflit
    obtain ⟨s', hstep⟩ : ∃ s', step N BUFFER_SIZE s silent = some s' := ⟨_, if_pos hkeeps⟩
    obtain ⟨-, hring, -⟩ := step_eq_some.mp hstep
    have hidle : ∀ p, p ≠ 0 → (localIn s.ring (ringIn s silent) p).valid = false :=
      fun p hp => congrArg DiiFlit.valid (diiIn_module hp)
    have hinjected : ∀ p, p ≠ 0 → s'.ring.injected p = s.ring.injected p := fun p hp => by
      rw [hring, injected_next, injecting, Flit.transfer_of_not_valid _ (hidle p hp), List.append_nil]
    obtain ⟨t, hrun, htakes, hsame⟩ := ih (s := s')
      (fun p hp => by simp only [hring, Ring.next, hidle p hp, Bool.false_and, Bool.false_eq_true, if_false])
      (fun p hp => by
        simp only [hring, Ring.next, Ring.accepted, hidle p hp, Bool.false_and, Bool.false_eq_true, if_false]
        exact hinjecting p hp)
    refine ⟨t, (runFrom_cons_eq_some _).mpr ⟨s', hstep, hrun⟩, ⟨⟨⟨rfl, rfl, fun _ _ _ => rfl,
      fun p _ hp h => absurd (hinjecting p hp) h⟩, fun _ _ _ => rfl⟩, ?_⟩,
      fun p hp => (hsame p hp).trans (hinjected p hp)⟩
    intro u hu
    obtain rfl := Option.some.inj (hstep.symm.trans hu)
    exact htakes

theorem everything_arrives_one : ∃ t, runFrom (step 2 2)
      (start (fun _ => []) (fun _ => []) [] 0 [⟨[0x0100], by decide⟩]) (List.replicate 103 silent) = some t ∧
    received t 1 0 = [[⟨true, true, 1⟩]] := by
  obtain ⟨t, hrun, hcalm, hsame⟩ := silent_runs (s := start (fun _ => []) (fun _ => []) [] 0
    [⟨[0x0100], by decide⟩]) 2 2 (fun _ _ => rfl) (fun _ _ => rfl) 103
  have hfed := (fed_stable (by decide)).run (fed_start _ _ _ _ _) hrun
  have hone : (t.ring.injected 0).length ≤ 1 := by
    rw [← List.length_map, hfed.wired.injected]
    exact hfed.flits_prefix.length_le
  have hshort : ShortTraffic 2 t := by
    intro j _
    refine shorter_of_length ((List.length_filter_le _ _).trans_lt ?_)
    by_cases hj : j = 0
    · subst hj
      exact hone.trans_lt (by decide)
    · rw [hsame j hj]
      exact Nat.zero_lt_succ 7
  have hfirst : runFrom (step 2 2) (start (fun _ => []) (fun _ => []) [] 0 [⟨[0x0100], by decide⟩]) [] =
      some _ := rfl
  have harrives := everything_arrives (by decide) (by decide) (by decide) (by simp) hfirst hcalm
    (by decide) hrun hshort
  exact ⟨t, hrun, harrives.1 1 (by decide)⟩

end GlipOsd.Testbench
