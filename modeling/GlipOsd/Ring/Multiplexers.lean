import GlipOsd.Foundations.Merging
import GlipOsd.Ring.Components
import GlipOsd.Foundations.Runs

/-! # The multiplexers merge whole packets

`ring_router_mux` and `ring_router_mux_rr` from reset, with any flits at the inputs in any cycles. A flit may even be
taken back before it is accepted: what counts is what is transferred.
-/

namespace GlipOsd.Ring
open Packets Runs
set_option autoImplicit false

/-- The state of a multiplexer and what has been transferred at the inputs and at the output. -/
structure Muxed (σ : Type) where
  state : σ
  ins : Bool → List Flit
  out : List Flit

structure MuxIn where
  in0 : Flit
  in1 : Flit
  outReady : Bool

section Cycle
variable {σ : Type} (serve : σ → Flit → Flit → Bool → MuxOut σ) (s : Muxed σ) (i : MuxIn)

def Muxed.output : MuxOut σ := serve s.state i.in0 i.in1 i.outReady

/-- The flits that are transferred at an input. -/
def Muxed.accepted (side : Bool) : List Flit :=
  bif side then i.in1.transfer (s.output serve i).ready1 else i.in0.transfer (s.output serve i).ready0

def Muxed.step : Option (Muxed σ) :=
  some ⟨(s.output serve i).next, fun side => s.ins side ++ s.accepted serve i side,
    s.out ++ (s.output serve i).out.transfer i.outReady⟩

/-- What is transferred at an input is transferred at the output in the same cycle, and nothing else is. -/
def Muxed.PassesOn : Prop :=
  (s.output serve i).out.transfer i.outReady = s.accepted serve i false ++ s.accepted serve i true ∧
    ((s.output serve i).out.transfer i.outReady).length ≤ 1

end Cycle

/-- The packets at the output are whole packets of the inputs. -/
def Muxed.WholePackets {σ : Type} (s : Muxed σ) : Prop := ∃ lock, Merges Flit.ends lock s.ins s.out

def muxStart : Muxed MuxState := ⟨.noworm, fun _ => [], []⟩

def muxRrStart : Muxed MuxRrState := ⟨.noworm0, fun _ => [], []⟩

/-! ## One cycle -/

def Lock.side : Lock → Option Bool
  | .free => none
  | .in0 => some false
  | .in1 => some true

theorem Flit.length_transfer_le (f : Flit) (ready : Bool) : (f.transfer ready).length ≤ 1 := by
  unfold Flit.transfer
  split_ifs <;> simp

section Serves
variable {lock lock' own : Lock} {side : Bool} {ins : Bool → List Flit} {o : List Flit}

theorem merges_behind (hown : own.side = some side) (hlock : lock = own ∨ lock = .free) (f : Flit) (ready : Bool)
    (h : Merges Flit.ends lock.side ins o) :
    Merges Flit.ends (lock.behind own f ready).side (fun other => ins other ++ if other = side then f.transfer ready else [])
      (o ++ f.transfer ready) := by
  have hside : lock.side = none ∨ lock.side = some side := by
    obtain rfl | rfl := hlock
    · exact .inr hown
    · exact .inl rfl
  by_cases hfire : f.valid = true ∧ ready = true
  · obtain ⟨hv, hr⟩ := hfire
    have hins : (fun other => ins other ++ if other = side then f.transfer ready else []) =
        Function.update ins side (ins side ++ [f]) := by
      funext other
      by_cases hne : other = side
      · rw [if_pos hne, hne, Function.update_self, Flit.transfer_of_valid hv hr]
      · rw [if_neg hne, Function.update_of_ne hne, List.append_nil]
    have hbehind : (lock.behind own f ready).side = if Flit.ends f then none else some side := by
      cases hl : f.last with
      | true => simp [Lock.behind, Flit.ends, hl, hv, hr, Lock.side]
      | false => simp [Lock.behind, Flit.ends, hl, hown]
    rw [hins, hbehind, Flit.transfer_of_valid hv hr]
    exact h.take hside f
  · have hnone : f.transfer ready = [] := if_neg (by rwa [Bool.and_eq_true])
    simp only [hnone, ite_self, List.append_nil]
    -- the lock may be taken before the flit is accepted
    obtain hb | ⟨hb, -, hcase⟩ := Lock.behind_cases lock own f ready
    · rw [hb, hown]
      obtain rfl | rfl := hlock
      · rwa [hown] at h
      · exact h.bind side
    · rw [hb]
      rwa [hcase.resolve_right hfire] at h

theorem Serves.merges {in0 in1 out : Flit} {outReady ready0 ready1 : Bool}
    (h : Serves in0 in1 outReady lock lock' out ready0 ready1) (hm : Merges Flit.ends lock.side ins o) :
    Merges Flit.ends lock'.side
      (fun other => ins other ++ bif other then in1.transfer ready1 else in0.transfer ready0)
      (o ++ out.transfer outReady) := by
  cases h with
  | idle hlock h0 h1 hout hnext =>
    rw [Flit.transfer_of_not_valid _ hout, Flit.transfer_of_not_ready in0 rfl, Flit.transfer_of_not_ready in1 rfl]
    simp only [Bool.cond_self, List.append_nil]
    rwa [hnext, ← hlock]
  | input0 h hnext =>
    have hins : (fun other => ins other ++ bif other then in1.transfer false else in0.transfer outReady) =
        fun other => ins other ++ if other = false then in0.transfer outReady else [] := by
      funext other
      rw [Flit.transfer_of_not_ready in1 rfl]
      cases other <;> rfl
    rw [hins, hnext]
    exact merges_behind rfl (h.imp_right And.left) in0 outReady hm
  | input1 h hnext =>
    have hins : (fun other => ins other ++ bif other then in1.transfer outReady else in0.transfer false) =
        fun other => ins other ++ if other = true then in1.transfer outReady else [] := by
      funext other
      rw [Flit.transfer_of_not_ready in0 rfl]
      cases other <;> rfl
    rw [hins, hnext]
    exact merges_behind rfl (h.imp_right And.left) in1 outReady hm

end Serves

/-! ## Runs -/

section Runs
variable {σ : Type} {serve : σ → Flit → Flit → Bool → MuxOut σ} (lockOf : σ → Lock)

/-- A multiplexer that serves its inputs under a lock merges whole packets. -/
theorem passes_whole
    (hserve : ∀ state in0 in1 outReady, (serve state in0 in1 outReady).Serves (lockOf state)
      (lockOf (serve state in0 in1 outReady).next) in0 in1 outReady)
    {s : Muxed σ} (hs : Merges Flit.ends (lockOf s.state).side s.ins s.out) (is : List MuxIn) :
    Passes (Muxed.step serve) Muxed.WholePackets s is ∧ Takes (Muxed.step serve) (Muxed.PassesOn serve) s is := by
  induction is generalizing s with
  | nil => exact ⟨⟨_, hs⟩, trivial⟩
  | cons i is ih =>
    have hcycle := hserve s.state i.in0 i.in1 i.outReady
    have hnext := ih (s := ⟨(s.output serve i).next, _, _⟩) (Serves.merges hcycle hs)
    refine ⟨⟨⟨_, hs⟩, fun s' hstep => ?_⟩, ⟨⟨hcycle.transfer, Flit.length_transfer_le _ _⟩, fun s' hstep => ?_⟩⟩
    · obtain rfl := Option.some.inj hstep
      exact hnext.1
    · obtain rfl := Option.some.inj hstep
      exact hnext.2

/-- **Both multiplexers merge whole packets**, whatever is offered at the inputs and whenever the output is ready. -/
theorem muxes_merge_whole_packets (is : List MuxIn) :
    (Passes (Muxed.step mux) Muxed.WholePackets muxStart is ∧ Takes (Muxed.step mux) (Muxed.PassesOn mux) muxStart is) ∧
      Passes (Muxed.step muxRr) Muxed.WholePackets muxRrStart is ∧
        Takes (Muxed.step muxRr) (Muxed.PassesOn muxRr) muxRrStart is :=
  ⟨passes_whole MuxState.lock mux_serves merges_nil is,
    passes_whole MuxRrState.lock muxRr_serves merges_nil is⟩

end Runs

end GlipOsd.Ring
