import GlipOsd.Foundations.Runs

/-! # Request pulses between two clock domains

`cdc_rqacksync`: the busy flag of the write side goes through two flops to the read side, which gives a pulse when it
comes, and from there through two flops back, where its arrival is the acknowledge. A step is an edge of one clock or
of both; at an edge of both, a first flop samples the register of the other side before or after the edge.

The five registers of the way there and back hold ones behind the request and zeros before it. A request that follows
the last one closely leaves a gap of zeros between the two, and the gap is all that tells them apart: a first flop that
never samples it lets it vanish.
-/

namespace GlipOsd.Jtag.RqAckSync
open Runs
set_option autoImplicit false

/-! ## The modules -/

/-- `cdc_sync_2ff` -/
structure Sync2ff where
  ff1 : Bool
  ff2 : Bool
  deriving DecidableEq

/-- An edge of its `rd_clk`; `wrP` is what the first flop gets. -/
def Sync2ff.edge (s : Sync2ff) (wrP : Bool) : Sync2ff := ⟨wrP, s.ff1⟩

/-- The registers of `cdc_rqacksync`: three in the domain of `wr_clk`, one in that of `rd_clk`, and the flops of
`u_sync_rd2wr`, clocked by `rd_clk`, and of `u_sync_wr2rd`, clocked by `wr_clk`. -/
structure Regs where
  reqReg : Bool
  ackRegshort : Bool
  wrReqbusReg : Bool
  rdReqshort : Bool
  syncRd2wr : Sync2ff
  syncWr2rd : Sync2ff
  deriving DecidableEq

def reset : Regs := ⟨false, false, false, false, ⟨false, false⟩, ⟨false, false⟩⟩

namespace Regs

def reqRegSyn (x : Regs) : Bool := x.syncRd2wr.ff2

def ackReg (x : Regs) : Bool := x.syncWr2rd.ff2

def wrReqAck (x : Regs) : Bool := !(!x.ackReg || x.ackRegshort)

def wrReqbus (x : Regs) : Bool := x.wrReqAck ^^ x.reqReg

/-- The output `wr_reqbusy` -/
def wrReqbusy (x : Regs) : Bool := x.wrReqbus

/-- The output `rd_clkreq` -/
def rdClkreq (x : Regs) : Bool := !(!x.reqRegSyn || x.rdReqshort)

/-- The registers of the domain of `wr_clk` at its edge; `sample` is what the first flop gets. -/
def wrEdge (x : Regs) (wrClkreq sample : Bool) : Regs :=
  { x with
    reqReg := if x.wrReqbus = false then wrClkreq else x.reqReg
    ackRegshort := x.ackReg
    wrReqbusReg := x.wrReqbus
    syncWr2rd := x.syncWr2rd.edge sample }

def rdEdge (x : Regs) (sample : Bool) : Regs :=
  { x with
    rdReqshort := x.reqRegSyn
    syncRd2wr := x.syncRd2wr.edge sample }

end Regs

/-- At an edge of both clocks, `newReq` and `newAck` choose what the first flops sample: the value behind the edge or
the one before it. -/
inductive Edge
  | wrClk (wrClkreq : Bool)
  | rdClk
  | both (wrClkreq newReq newAck : Bool)
  deriving DecidableEq

namespace Edge

def ticksWr : Edge → Bool
  | .rdClk => false
  | _ => true

def ticksRd : Edge → Bool
  | .wrClk _ => false
  | _ => true

/-- A request at an edge of `wr_clk`. -/
def request : Edge → Bool
  | .wrClk wrClkreq => wrClkreq
  | .rdClk => false
  | .both wrClkreq _ _ => wrClkreq

end Edge

def Regs.next (x : Regs) : Edge → Regs
  | .wrClk wrClkreq => x.wrEdge wrClkreq x.reqRegSyn
  | .rdClk => x.rdEdge x.wrReqbusReg
  | .both wrClkreq newReq newAck =>
    -- neither register depends on what is sampled
    let reqbus := if newReq then x.wrReqbus else x.wrReqbusReg
    let reqSyn := if newAck then x.syncRd2wr.ff1 else x.reqRegSyn
    (x.wrEdge wrClkreq reqSyn).rdEdge reqbus

/-- The registers; as history the requests accepted and the cycles of `rd_clk` with a pulse. -/
structure State where
  regs : Regs
  accepted : ℕ
  pulses : ℕ

def start : State := ⟨reset, 0, 0⟩

def accepts (x : Regs) (e : Edge) : Bool := e.request && !x.wrReqbusy

/-- A cycle with `rd_clkreq` begins at an edge of `rd_clk`. -/
def pulses (x : Regs) (e : Edge) : Bool := e.ticksRd && (x.next e).rdClkreq

def step (s : State) (e : Edge) : Option State :=
  some ⟨s.regs.next e, s.accepted + (accepts s.regs e).toNat, s.pulses + (pulses s.regs e).toNat⟩

/-! ## The way of a request -/

namespace Regs

/-- The registers on the way of a request, there and back. -/
def chain (x : Regs) : List Bool :=
  [x.wrReqbusReg, x.syncRd2wr.ff1, x.syncRd2wr.ff2, x.syncWr2rd.ff1, x.syncWr2rd.ff2]

/-- How far the request has come. -/
def front (x : Regs) : ℕ := (x.chain.takeWhile id).length

/-- How much of the request before it is left. -/
def back (x : Regs) : ℕ := (x.chain.reverse.takeWhile id).length

/-- Behind the ones of a request and the zeros of the gap there are only ones of the request before. A request on its
way is held in `req_reg`, and an acknowledge is new just when the way is full. -/
def Wf (x : Regs) : Prop :=
  ((x.chain.dropWhile id).dropWhile not).all id = true ∧ (x.wrReqbusReg = true → x.reqReg = true) ∧
    (x.ackReg = true → x.ackRegshort = decide (x.front ≠ 5))

instance (x : Regs) : Decidable x.Wf := inferInstanceAs (Decidable (_ ∧ _ ∧ _))

/-- The request has been accepted and the read side has not begun its pulse. -/
def pending (x : Regs) : Bool := x.reqReg && decide (x.front < 3)

/-- No gap is left, and the acknowledge is not new. -/
def Stuck (x : Regs) : Prop := x.reqReg = true ∧ x.ackRegshort = true ∧ x.front = 5

instance (x : Regs) : Decidable x.Stuck := inferInstanceAs (Decidable (_ ∧ _ ∧ _))

end Regs

/-- What the first flop of the read side samples was there before the edge. -/
def Edge.oldReq : Edge → Bool
  | .wrClk _ => false
  | .rdClk => true
  | .both _ newReq _ => !newReq

/-- What the first flop of the write side samples was there before the edge. -/
def Edge.oldAck : Edge → Bool
  | .wrClk _ => true
  | .rdClk => false
  | .both _ _ newAck => !newAck

/-- A register that is sampled on the other side becomes one only where the flop has its zero, or takes it now. -/
def GapSeen (x : Regs) (e : Edge) : Prop :=
  (e.ticksWr = true → x.wrReqbusReg = false → x.wrReqbusy = true → x.syncRd2wr.ff1 = false ∨ e.oldReq = true) ∧
    (e.ticksRd = true → x.reqRegSyn = false → x.syncRd2wr.ff1 = true → x.syncWr2rd.ff1 = false ∨ e.oldAck = true)

instance (x : Regs) (e : Edge) : Decidable (GapSeen x e) := inferInstanceAs (Decidable (_ ∧ _))

/-- The next edge of `rd_clk` moves the request, or the end of the one before that is in its way. -/
def Regs.waitsForRd (x : Regs) : Bool :=
  x.front = 0 && x.syncRd2wr.ff1 || x.front = 1 || x.front = 2 && !x.syncWr2rd.ff1

def Helpful (x : Regs) (e : Edge) : Prop := if x.waitsForRd then e.ticksRd = true else e.ticksWr = true

instance (x : Regs) (e : Edge) : Decidable (Helpful x e) :=
  inferInstanceAs (Decidable (if x.waitsForRd then e.ticksRd = true else e.ticksWr = true))

def Regs.rank (x : Regs) : ℕ := 5 - x.front + x.back

/-! ## One edge

There are eight registers, so that what an edge does can be decided.
-/

section OneEdge

instance decidableForallRegs {P : Regs → Prop} [DecidablePred P] : Decidable (∀ x, P x) :=
  decidable_of_iff
    (∀ reqReg ackRegshort wrReqbusReg rdReqshort r₁ r₂ w₁ w₂ : Bool,
      P ⟨reqReg, ackRegshort, wrReqbusReg, rdReqshort, ⟨r₁, r₂⟩, ⟨w₁, w₂⟩⟩)
    ⟨fun h x => h x.1 x.2 x.3 x.4 x.5.1 x.5.2 x.6.1 x.6.2, fun h _ _ _ _ _ _ _ _ => h _⟩

instance decidableForallEdge {P : Edge → Prop} [DecidablePred P] : Decidable (∀ e, P e) :=
  decidable_of_iff ((∀ req, P (.wrClk req)) ∧ P .rdClk ∧ ∀ req newReq newAck, P (.both req newReq newAck))
    ⟨fun h e => match e with
      | .wrClk req => h.1 req
      | .rdClk => h.2.1
      | .both req newReq newAck => h.2.2 req newReq newAck,
     fun h => ⟨fun _ => h _, h _, fun _ _ _ => h _⟩⟩

theorem wf_next : ∀ x : Regs, x.Wf → ∀ e, GapSeen x e → (x.next e).Wf := by decide

theorem stuck_of_not_gapSeen : ∀ x : Regs, x.Wf → ∀ e, ¬ GapSeen x e → (x.next e).Stuck := by decide

theorem stuck_next : ∀ x : Regs, x.Stuck → ∀ e, (x.next e).Stuck := by decide

theorem Regs.Stuck.no_pulse : ∀ {x : Regs}, x.Stuck → ∀ e, pulses x e = false := by decide

theorem Regs.Stuck.busy : ∀ {x : Regs}, x.Stuck → x.wrReqbusy = true := by decide

theorem Regs.Wf.pending_next : ∀ {x : Regs}, x.Wf → ∀ {e : Edge}, GapSeen x e →
    (accepts x e).toNat + x.pending.toNat = (pulses x e).toNat + (x.next e).pending.toNat := by decide

theorem Regs.Wf.idle : ∀ {x : Regs}, x.Wf → x.wrReqbusy = false → x.pending = false := by decide

/-- A pulse ends at the next edge of `rd_clk`. -/
theorem rdClkreq_next : ∀ x : Regs, x.rdClkreq = true → ∀ e, (x.next e).rdClkreq = !e.ticksRd := by decide

/-- The rank is lower behind an edge of the helpful clock; other edges lower it, or they leave the way as it is. -/
theorem Regs.Wf.rank_next : ∀ {x : Regs}, x.Wf → x.wrReqbusy = true → ∀ {e : Edge}, GapSeen x e →
    (x.next e).wrReqbusy = true →
      (x.next e).rank < x.rank ∨
        (x.next e).rank = x.rank ∧ ¬ Helpful x e ∧ (x.next e).waitsForRd = x.waitsForRd := by decide

theorem Regs.Wf.rank_lt : ∀ {x : Regs}, x.Wf → x.wrReqbusy = true → x.rank < 10 := by decide

end OneEdge

/-! ## Runs -/

/-- One pulse of one cycle for each request, and no state that is busy for ever: what holds of a state that is reached. -/
structure Sound (t : State) : Prop where
  requested : t.pulses ≤ t.accepted
  atMostOne : t.accepted ≤ t.pulses + 1
  idle : t.regs.wrReqbusy = false → t.pulses = t.accepted
  short : t.regs.rdClkreq = true → ∀ e, (t.regs.next e).rdClkreq = !e.ticksRd
  leaves : ∃ es u, runFrom step t es = some u ∧ u.regs.wrReqbusy = false

/-- The requests accepted are those with their pulse and the one that is pending. -/
structure Counted (t : State) : Prop where
  wf : t.regs.Wf
  balance : t.accepted = t.pulses + t.regs.pending.toNat

section Runs
variable {t t' : State} {e : Edge}

theorem counted_start : Counted start := ⟨by decide, rfl⟩

theorem Counted.step (h : Counted t) (he : GapSeen t.regs e) (hstep : step t e = some t') : Counted t' := by
  obtain rfl := Option.some.inj hstep
  refine ⟨wf_next t.regs h.wf e he, ?_⟩
  have hpending := h.wf.pending_next he
  have hbalance := h.balance
  show t.accepted + (accepts t.regs e).toNat =
    t.pulses + (pulses t.regs e).toNat + (t.regs.next e).pending.toNat
  omega

/-- Ten rounds of both clocks, in whatever order their edges come, bring an end of the busy state. -/
theorem Counted.served (h : Counted t) {rounds : List (List Edge)} (hlen : 10 ≤ rounds.length)
    (hrounds : ∀ r ∈ rounds, (∃ e ∈ r, e.ticksWr = true) ∧ ∃ e ∈ r, e.ticksRd = true)
    (ht : Takes RqAckSync.step (fun t e => GapSeen t.regs e) t rounds.flatten) :
    ¬ Passes RqAckSync.step (fun t => t.regs.wrReqbusy = true) t rounds.flatten := by
  intro hbusy
  have hrank : t.regs.rank < rounds.length := lt_of_lt_of_le (h.wf.rank_lt hbusy.head) hlen
  obtain ⟨u, hrun⟩ := exists_run RqAckSync.step (fun _ _ => rfl) t rounds.flatten
  refine helpful_reaches Counted (fun t => ¬ t.regs.wrReqbusy = true) (fun t e => Helpful t.regs e)
    (fun t => t.regs.rank) ?_ ?_ ?_ hrank h hrun ht ?_
  · exact fun s l s' hs hc hstep => hs.step hc hstep
  · rintro s l s' hs hb hc hstep hb'
    obtain rfl := Option.some.inj hstep
    obtain hlt | ⟨heq, hhelp, hwaits⟩ := hs.wf.rank_next (not_not.mp hb) hc (not_not.mp hb')
    · exact .inl hlt
    · refine .inr ⟨heq, hhelp, fun m hm => ?_⟩
      show Helpful (s.regs.next l) m
      rwa [Helpful, hwaits]
  · intro r hr s
    obtain ⟨⟨w, hw, hwr⟩, e, he, hrd⟩ := hrounds r hr
    cases hwaits : s.regs.waitsForRd with
    | true => exact ⟨e, he, by simpa [Helpful, hwaits] using hrd⟩
    | false => exact ⟨w, hw, by simpa [Helpful, hwaits] using hwr⟩
  · exact hbusy.mono fun s hs => not_not.mpr hs

theorem gapSeen_together (x : Regs) : GapSeen x (.both false false false) :=
  ⟨fun _ _ _ => .inr rfl, fun _ _ _ => .inr rfl⟩

theorem Counted.leaves (h : Counted t) : ∃ es u, runFrom RqAckSync.step t es = some u ∧ u.regs.wrReqbusy = false := by
  have hseen : Takes RqAckSync.step (fun t e => GapSeen t.regs e) t
      (List.replicate 10 [Edge.both false false false]).flatten := by
    refine takes_of_labels (fun s e he => ?_) t
    obtain rfl : e = .both false false false := by simpa using he
    exact gapSeen_together s.regs
  have hserved := h.served (by simp) (by simp [Edge.ticksWr, Edge.ticksRd]) hseen
  obtain ⟨es, u, hrun, hu⟩ := exists_not_of_not_passes hserved
  exact ⟨es, u, hrun, Bool.eq_false_iff.mpr hu⟩

theorem Counted.sound (h : Counted t) : Sound t where
  requested := by rw [h.balance]; exact Nat.le_add_right _ _
  atMostOne := by rw [h.balance]; exact Nat.add_le_add_left (Bool.toNat_le _) _
  idle hidle := by rw [h.balance, h.wf.idle hidle]; rfl
  short := rdClkreq_next t.regs
  leaves := h.leaves

/-- A state without the gap is never left, and there are no pulses. -/
theorem stuck_forever (h : t.regs.Stuck) {es : List Edge} {u : State} (hrun : runFrom step t es = some u) :
    u.regs.Stuck ∧ u.pulses = t.pulses := by
  have hstable : Stable step fun s => s.regs.Stuck ∧ s.pulses = t.pulses := by
    rintro s e s' ⟨hs, hpulses⟩ hstep
    obtain rfl := Option.some.inj hstep
    refine ⟨stuck_next s.regs hs e, ?_⟩
    show s.pulses + (pulses s.regs e).toNat = t.pulses
    rw [hs.no_pulse e, hpulses]
    rfl
  exact hstable.run ⟨h, rfl⟩ hrun

theorem not_sound_of_stuck (h : t.regs.Stuck) : ¬ Sound t := by
  intro hsound
  obtain ⟨es, u, hrun, hu⟩ := hsound.leaves
  rw [(stuck_forever h hrun).1.busy] at hu
  cases hu

theorem Counted.sound_step (h : Counted t) (hstep : RqAckSync.step t e = some t') : Sound t' ↔ GapSeen t.regs e := by
  constructor
  · intro hsound
    by_contra he
    obtain rfl := Option.some.inj hstep
    exact not_sound_of_stuck (stuck_of_not_gapSeen t.regs h.wf e he) hsound
  · intro he
    exact (h.step he hstep).sound

/-- **The gap between two requests must be seen.** Requests and pulses correspond one for one and the busy flag can fall
again, in every state of a run, exactly if each gap was sampled on the way there and on the way back. It does fall within
ten rounds of both clocks as long as the gaps are sampled. -/
theorem sound_iff_gapSeen (es : List Edge) :
    (Passes step Sound start es ↔ Takes step (fun t e => GapSeen t.regs e) start es) ∧
      ∀ t (rounds : List (List Edge)), runFrom step start es = some t →
        (∀ r ∈ rounds, (∃ e ∈ r, e.ticksWr = true) ∧ ∃ e ∈ r, e.ticksRd = true) → 10 ≤ rounds.length →
          Takes step (fun t e => GapSeen t.regs e) start (es ++ rounds.flatten) →
            ¬ Passes step (fun t => t.regs.wrReqbusy = true) t rounds.flatten := by
  have hkeep (s : State) (e : Edge) (s' : State) (hs : Counted s) (he : GapSeen s.regs e)
      (hstep : step s e = some s') : Counted s' := hs.step he hstep
  constructor
  · obtain ⟨u, hrun⟩ := exists_run step (fun _ _ => rfl) start es
    refine passes_iff_takes Counted ?_ ?_ counted_start counted_start.sound hrun
    · intro s e s' hs _ hstep hsound
      exact hs.step ((hs.sound_step hstep).mp hsound) hstep
    · intro s e s' hs _ hstep
      exact hs.sound_step hstep
  · intro t rounds hrun hrounds hlen hseen
    obtain ⟨hes, hrest⟩ := hseen.of_append hrun
    have ht : Counted t := hes.run Counted hkeep counted_start hrun
    exact ht.served hlen hrounds hrest

end Runs

theorem one_request_served :
    ∃ t, runFrom step start [.wrClk true] = some t ∧ t.regs.wrReqbusy = true ∧
      ¬ Passes step (fun t => t.regs.wrReqbusy = true) t (List.replicate 10 [.both false false false]).flatten :=
  ⟨_, rfl, rfl, (sound_iff_gapSeen [.wrClk true]).2 _ _ rfl (by simp [Edge.ticksWr, Edge.ticksRd]) (by simp)
    (by decide)⟩

/-- The second request is accepted in the cycle of the acknowledge, and `rd_clk` has no edge in the next. -/
def closeRequests : List Edge :=
  [.wrClk true, .wrClk false, .rdClk, .rdClk, .wrClk false, .wrClk false, .wrClk true, .wrClk false]

/-- The second of two requests has no pulse, and the write side is busy for ever. -/
theorem second_request_lost :
    ∃ t, runFrom step start closeRequests = some t ∧ t.accepted = 2 ∧
      ∀ es u, runFrom step t es = some u → u.pulses = 1 ∧ u.regs.wrReqbusy = true := by
  refine ⟨_, rfl, rfl, fun es u hrun => ?_⟩
  obtain ⟨hstuck, hpulses⟩ := stuck_forever (by decide) hrun
  exact ⟨hpulses, hstuck.busy⟩

end GlipOsd.Jtag.RqAckSync
