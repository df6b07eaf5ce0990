import Mathlib
import GlipOsd.Foundations.Worms
import GlipOsd.Ring.Router

/-! # What the modules of the ring do

In terms of the flits that are transferred at their inputs and outputs: the buffer is a queue, the
demultiplexer splits its input by the destination of the packets, and a multiplexer joins its inputs
packet by packet.
-/

namespace GlipOsd.Ring
open Packets
set_option autoImplicit false

def Flit.transfer (flit : Flit) (ready : Bool) : List Flit :=
  if flit.valid && ready then [flit] else []

abbrev Tag := ℕ × BitVec 10

def Flit.tag (f : Flit) : Tag := (f.source, f.dest)

def Flit.ends (f : Flit) : Bool := f.last

/-- The first flit of a packet names its destination. -/
def Flit.starts (f : Flit) : Prop := f.dest = destOf f.toDiiFlit

abbrev behind (u : Option Tag) (xs : List Flit) : Option Tag := opened Flit.ends Flit.tag u xs

abbrev FlitWorms (u : Option Tag) (xs : List Flit) : Prop := Worms Flit.ends Flit.tag Flit.starts u xs

theorem Flit.transfer_of_valid {f : Flit} {ready : Bool} (hv : f.valid = true) (hr : ready = true) :
    f.transfer ready = [f] := by
  rw [Flit.transfer, hv, hr]
  rfl

theorem Flit.transfer_of_not_valid {f : Flit} (ready : Bool) (hv : f.valid = false) :
    f.transfer ready = [] := by
  rw [Flit.transfer, hv]
  rfl

theorem Flit.transfer_of_not_ready (f : Flit) {ready : Bool} (hr : ready = false) :
    f.transfer ready = [] := by
  rw [Flit.transfer, hr, Bool.and_false]
  rfl

theorem Flit.not_fire {f : Flit} {ready : Bool} (h : f.transfer ready = []) :
    (f.valid && ready) = false := by
  unfold Flit.transfer at h
  split_ifs at h with hv
  exact Bool.eq_false_iff.mpr hv

theorem worms_transfer {u : Option Tag} {f : Flit} {ready : Bool}
    (h : f.valid = true → Continues Flit.tag Flit.starts u f) : FlitWorms u (f.transfer ready) := by
  unfold Flit.transfer
  split_ifs with hv
  · exact (worms_singleton u f).mpr (h (Bool.and_eq_true_iff.mp hv).1)
  · trivial

theorem map_transfer (f : Flit) (ready : Bool) :
    (f.transfer ready).map Flit.toDiiFlit = f.toDiiFlit.transfer ready := by
  unfold Flit.transfer DiiFlit.transfer
  split_ifs <;> rfl

theorem Flit.mem_transfer {f g : Flit} {ready : Bool} (h : g ∈ f.transfer ready) :
    g = f ∧ f.valid = true ∧ ready = true := by
  unfold Flit.transfer at h
  split_ifs at h with hv
  · rw [Bool.and_eq_true] at hv
    exact ⟨List.mem_singleton.mp h, hv⟩
  · cases h

/-! ## The buffer -/

namespace Buffer

variable {size : ℕ} {b : Buffer}

def queue (b : Buffer) : List Flit :=
  if b.regOutValid then (b.data.take (b.rp + 1)).reverse else []

structure Wf (size : ℕ) (b : Buffer) : Prop where
  rp_lt : b.rp < size
  rp_zero : b.regOutValid = false → b.rp = 0
  filled : b.regOutValid = true → b.rp < b.data.length
  valid : ∀ f ∈ b.queue, f.valid = true

theorem wf_reset (hsize : 0 < size) (data : List Flit) : Wf size (reset data) where
  rp_lt := hsize
  rp_zero _ := rfl
  filled h := by cases h
  valid _ h := by cases h

theorem queue_eq_nil (h : b.regOutValid = false) : b.queue = [] := by
  rw [queue, h]
  rfl

theorem Wf.queue_eq (h : Wf size b) (hv : b.regOutValid = true) :
    b.queue = b.flitOut :: (b.data.take b.rp).reverse := by
  have hlt := h.filled hv
  have hq : b.queue = b.data[b.rp] :: (b.data.take b.rp).reverse := by
    rw [queue, if_pos hv, List.take_add_one, List.reverse_append, List.getElem?_eq_getElem hlt]
    rfl
  have hvalid := h.valid b.data[b.rp] (hq ▸ List.mem_cons_self)
  rw [hq, flitOut, List.getD_eq_getElem?_getD, List.getElem?_eq_getElem hlt, Option.getD_some, hv,
    ← hvalid]

theorem Wf.length_queue (h : Wf size b) (hv : b.regOutValid = true) :
    b.queue.length = b.rp + 1 := by
  rw [queue, if_pos hv, List.length_reverse, List.length_take]
  have hlt := h.filled hv
  omega

theorem Wf.out_valid (h : Wf size b) : b.flitOut.valid = true ↔ b.queue ≠ [] := by
  have hout : b.flitOut.valid = b.regOutValid := rfl
  cases hv : b.regOutValid with
  | false => simp [hout, hv, queue_eq_nil hv]
  | true => simp [hout, hv, h.queue_eq hv]

theorem Wf.inReady_iff (h : Wf size b) : b.flitInReady size = true ↔ b.queue.length < size := by
  have hlt := h.rp_lt
  unfold flitInReady
  cases hv : b.regOutValid with
  | false =>
    rw [queue_eq_nil hv]
    simp
    omega
  | true =>
    rw [h.length_queue hv]
    simp
    omega

theorem wf_of_take (data : List Flit) {rp : ℕ} (hrp : rp < size) (hlen : rp < data.length)
    (hvalid : ∀ f ∈ data.take (rp + 1), f.valid = true) :
    Wf size ⟨data, rp, true⟩ ∧ queue ⟨data, rp, true⟩ = (data.take (rp + 1)).reverse :=
  ⟨⟨hrp, (nomatch ·), fun _ => hlen, fun f hf => hvalid f (List.mem_reverse.mp hf)⟩, rfl⟩

theorem wf_of_enter {data : List Flit} {n : ℕ} {f : Flit} (hn : n < size) (hlen : n ≤ data.length)
    (hf : f.valid = true) (hvalid : ∀ g ∈ data.take n, g.valid = true) :
    Wf size ⟨(f :: data).take size, n, true⟩ ∧
      queue ⟨(f :: data).take size, n, true⟩ = (data.take n).reverse ++ [f] := by
  have htake : ((f :: data).take size).take (n + 1) = f :: data.take n := by
    rw [List.take_take, Nat.min_eq_left hn, List.take_succ_cons]
  have hall : ∀ g ∈ ((f :: data).take size).take (n + 1), g.valid = true := by
    rw [htake]
    intro g hg
    obtain rfl | hg := List.mem_cons.mp hg
    · exact hf
    · exact hvalid g hg
  obtain ⟨hwf, hqueue⟩ := wf_of_take ((f :: data).take size) hn
    (by rw [List.length_take, List.length_cons]; omega) hall
  rw [htake, List.reverse_cons] at hqueue
  exact ⟨hwf, hqueue⟩

theorem next_empty (h : Wf size b) (hv : b.regOutValid = false) (flitIn : Flit) (outReady : Bool) :
    Wf size (b.next size flitIn outReady) ∧
      (b.next size flitIn outReady).queue = flitIn.transfer (b.flitInReady size) := by
  have hrp := h.rp_lt
  have hzero := h.rp_zero hv
  have hout : b.flitOut.valid = false := hv
  have hready : b.flitInReady size = true := by simp [flitInReady, hv]
  rw [hready]
  cases hf : flitIn.valid with
  | false =>
    have hnext : b.next size flitIn outReady = b := by
      have hb : b = ⟨b.data, b.rp, false⟩ := by rw [← hv]
      rw [hb]
      simp [next, flitOut, hf]
    rw [hnext, queue_eq_nil hv, Flit.transfer_of_not_valid true hf]
    exact ⟨h, rfl⟩
  | true =>
    have hnext : b.next size flitIn outReady = ⟨(flitIn :: b.data).take size, 0, true⟩ := by
      simp [next, hf, hready, hout, hv, hzero]
    rw [hnext, Flit.transfer_of_valid hf rfl]
    exact wf_of_enter (Nat.zero_lt_of_lt hrp) (Nat.zero_le _) hf (by simp)

theorem next_enter (h : Wf size b) (hv : b.regOutValid = true) {flitIn : Flit} (hf : flitIn.valid = true)
    (hready : b.flitInReady size = true) (outReady : Bool) :
    Wf size (b.next size flitIn outReady) ∧
      b.flitOut.transfer outReady ++ (b.next size flitIn outReady).queue = b.queue ++ [flitIn] := by
  have hrp := h.rp_lt
  have hlen := h.filled hv
  have hout : b.flitOut.valid = true := hv
  have hall : ∀ f ∈ b.data.take (b.rp + 1), f.valid = true := fun f hf =>
    h.valid f (by rw [queue, if_pos hv]; exact List.mem_reverse.mpr hf)
  have hfull : b.rp ≠ size - 1 := by simpa [flitInReady, hv] using hready
  cases outReady with
  | true =>
    have hnext : b.next size flitIn true = ⟨(flitIn :: b.data).take size, b.rp, true⟩ := by
      simp [next, hf, hready, hout, hv]
    obtain ⟨hwf, hqueue⟩ := wf_of_enter hrp hlen.le hf
      fun f hf => hall f (List.take_subset_take_left _ (Nat.le_succ _) hf)
    rw [hnext, hqueue, Flit.transfer_of_valid hout rfl, h.queue_eq hv]
    exact ⟨hwf, rfl⟩
  | false =>
    have hnext : b.next size flitIn false = ⟨(flitIn :: b.data).take size, b.rp + 1, true⟩ := by
      simp [next, hf, hready, hv]
    obtain ⟨hwf, hqueue⟩ := wf_of_enter (by omega : b.rp + 1 < size) hlen hf hall
    rw [hnext, hqueue, Flit.transfer_of_not_ready _ rfl, queue, if_pos hv]
    exact ⟨hwf, rfl⟩

theorem next_leave (hsize : 2 ≤ size) (h : Wf size b) (hv : b.regOutValid = true) {flitIn : Flit}
    (hin : (flitIn.valid && b.flitInReady size) = false) (outReady : Bool) :
    Wf size (b.next size flitIn outReady) ∧
      b.flitOut.transfer outReady ++ (b.next size flitIn outReady).queue = b.queue := by
  have hrp := h.rp_lt
  have hlen := h.filled hv
  have hout : b.flitOut.valid = true := hv
  have hall : ∀ f ∈ b.data.take (b.rp + 1), f.valid = true := fun f hf =>
    h.valid f (by rw [queue, if_pos hv]; exact List.mem_reverse.mpr hf)
  cases outReady with
  | false =>
    have hnext : b.next size flitIn false = b := by
      have hb : b = ⟨b.data, b.rp, true⟩ := by rw [← hv]
      simp only [next, hin, hv]
      rw [hb]
      simp
    rw [hnext, Flit.transfer_of_not_ready _ rfl]
    exact ⟨h, rfl⟩
  | true =>
    rw [h.queue_eq hv, Flit.transfer_of_valid hout rfl]
    cases hzero : b.rp with
    | zero =>
      -- a buffer with room takes every flit
      have hready : b.flitInReady size = true := by
        simp only [flitInReady, hzero, Bool.or_eq_true, bne_iff_ne]
        omega
      have hf : flitIn.valid = false := by rwa [hready, Bool.and_true] at hin
      have hnext : b.next size flitIn true = ⟨b.data, 0, false⟩ := by
        simp [next, hf, hout, hv, hzero]
      rw [hnext]
      exact ⟨⟨Nat.zero_lt_of_lt hrp, fun _ => rfl, (nomatch ·), fun f hf => (nomatch hf)⟩, rfl⟩
    | succ n =>
      have hnext : b.next size flitIn true = ⟨b.data, n, true⟩ := by
        simp [next, hin, hout, hv, hzero]
      obtain ⟨hwf, hqueue⟩ := wf_of_take b.data (by omega : n < size) (by omega)
        fun f hf => hall f (List.take_subset_take_left _ (by omega) hf)
      rw [hnext, hqueue]
      exact ⟨hwf, rfl⟩

/-- A flit leaves at the front and one enters at the back. -/
theorem next_spec (hsize : 2 ≤ size) (h : Wf size b) (flitIn : Flit) (outReady : Bool) :
    Wf size (b.next size flitIn outReady) ∧
      b.flitOut.transfer outReady ++ (b.next size flitIn outReady).queue =
        b.queue ++ flitIn.transfer (b.flitInReady size) := by
  cases hv : b.regOutValid with
  | false =>
    have hout : b.flitOut.valid = false := hv
    rw [queue_eq_nil hv, Flit.transfer_of_not_valid outReady hout]
    exact next_empty h hv flitIn outReady
  | true =>
    cases hin : flitIn.valid && b.flitInReady size with
    | true =>
      obtain ⟨hf, hready⟩ := Bool.and_eq_true_iff.mp hin
      rw [Flit.transfer_of_valid hf hready]
      exact next_enter h hv hf hready outReady
    | false =>
      have hnone : flitIn.transfer (b.flitInReady size) = [] := by
        rw [Flit.transfer, hin]
        rfl
      rw [hnone, List.append_nil]
      exact next_leave hsize h hv hin outReady

end Buffer

/-! ## The demultiplexer -/

theorem Flit.gate_transfer (f : Flit) (en ready : Bool) :
    (f.gate en).transfer ready = if en then f.transfer ready else [] := by
  cases en with
  | false => rfl
  | true => rfl

namespace Demux

structure Follows (id : BitVec 10) (u : Option Tag) (d : Demux) : Prop where
  worm : d.worm = u.isSome
  wormLocal : ∀ t ∈ u, d.wormLocal = (t.2 == id)

theorem follows_reset (id : BitVec 10) : Follows id none reset := ⟨rfl, fun _ h => nomatch h⟩

variable {d : Demux} {id : BitVec 10} {u : Option Tag} {inRing : Flit}

theorem Follows.switch_eq (h : Follows id u d) (hc : Continues Flit.tag Flit.starts u inRing) :
    d.switchLocal id inRing = (inRing.dest == id) := by
  unfold switchLocal
  cases u with
  | none =>
    have hdest : inRing.dest = destOf inRing.toDiiFlit := hc
    rw [h.worm, hdest]
    rfl
  | some t =>
    obtain rfl : inRing.tag = t := hc
    rw [h.worm, h.wormLocal _ rfl]
    rfl

theorem Follows.next (h : Follows id u d)
    (hc : inRing.valid = true → Continues Flit.tag Flit.starts u inRing) (ready : Bool) :
    Follows id (behind u (inRing.transfer ready)) (d.next id inRing ready) := by
  by_cases hfire : inRing.valid = true ∧ ready = true
  · obtain ⟨hv, hr⟩ := hfire
    rw [Flit.transfer_of_valid hv hr, behind, opened_singleton]
    have hcont := hc hv
    cases u with
    | none =>
      have hw : d.worm = false := h.worm
      have hdest : inRing.dest = destOf inRing.toDiiFlit := hcont
      cases hl : inRing.last with
      | true =>
        refine ⟨by simp [Demux.next, hw, hl, after, Flit.ends], fun t ht => ?_⟩
        simp [after, Flit.ends, hl] at ht
      | false =>
        refine ⟨by simp [Demux.next, hw, hv, hr, hl, after, Flit.ends], fun t ht => ?_⟩
        obtain rfl : inRing.tag = t := by simpa [after, Flit.ends, hl] using ht
        simp [Demux.next, hw, Flit.tag, hdest]
    | some t =>
      have hw : d.worm = true := h.worm
      have htag : inRing.tag = t := hcont
      cases hl : inRing.last with
      | true =>
        refine ⟨by simp [Demux.next, hw, hv, hr, hl, after, Flit.ends], fun t' ht' => ?_⟩
        simp [after, Flit.ends, hl] at ht'
      | false =>
        have hkeep : d.next id inRing ready = d := by simp [Demux.next, hw, hl]
        have hafter : after Flit.ends Flit.tag inRing = some t := by
          simp [after, Flit.ends, hl, htag]
        rw [hkeep, hafter]
        exact h
  · have hfire' : (ready && inRing.valid) = false := by
      cases hv : inRing.valid <;> cases hr : ready <;> simp_all
    have hnone : inRing.transfer ready = [] := by
      rw [Flit.transfer, Bool.and_comm, hfire']
      rfl
    rw [hnone, behind, opened_nil]
    cases u with
    | none =>
      have hw : d.worm = false := h.worm
      exact ⟨by simp [Demux.next, hw, hfire'], fun t ht => by cases ht⟩
    | some t =>
      have hw : d.worm = true := h.worm
      have hkeep : d.next id inRing ready = d := by simp [Demux.next, hw, hfire']
      rw [hkeep]
      exact h

/-- The flits that go to the local port and those that go on along the ring. -/
theorem Follows.split (h : Follows id u d)
    (hc : inRing.valid = true → Continues Flit.tag Flit.starts u inRing) (r0 r1 : Bool) :
    (d.outLocal id inRing).transfer r0 =
        (inRing.transfer (d.inRingReady id inRing r0 r1)).filter (fun f => f.tag.2 == id) ∧
      (d.outRing id inRing).transfer r1 =
        (inRing.transfer (d.inRingReady id inRing r0 r1)).filter (fun f => !(f.tag.2 == id)) := by
  rw [outLocal, outRing, Flit.gate_transfer, Flit.gate_transfer]
  cases hv : inRing.valid with
  | false => simp [Flit.transfer_of_not_valid _ hv]
  | true =>
    have hswitch := h.switch_eq (hc hv)
    have hfilter : ∀ (p : Flit → Bool) (r : Bool),
        (inRing.transfer r).filter p = if p inRing then inRing.transfer r else [] := by
      intro p r
      cases r with
      | false => simp [Flit.transfer_of_not_ready]
      | true => simp [Flit.transfer_of_valid hv, List.filter_cons]
    rw [hfilter, hfilter, hswitch, inRingReady, hswitch, Flit.tag]
    cases inRing.dest == id <;> exact ⟨rfl, rfl⟩

theorem Follows.outLocal_valid (h : Follows id u d)
    (hc : inRing.valid = true → Continues Flit.tag Flit.starts u inRing) :
    (d.outLocal id inRing).valid = true ↔ inRing.valid = true ∧ (inRing.tag.2 == id) = true := by
  have hand : (d.outLocal id inRing).valid = (d.switchLocal id inRing && inRing.valid) := rfl
  rw [hand, Bool.and_eq_true, and_comm]
  exact and_congr_right fun hv => by rw [h.switch_eq (hc hv), Flit.tag]

theorem Follows.outRing_valid (h : Follows id u d)
    (hc : inRing.valid = true → Continues Flit.tag Flit.starts u inRing) :
    (d.outRing id inRing).valid = true ↔ inRing.valid = true ∧ (!(inRing.tag.2 == id)) = true := by
  have hand : (d.outRing id inRing).valid = (!(d.switchLocal id inRing) && inRing.valid) := rfl
  rw [hand, Bool.and_eq_true, and_comm]
  exact and_congr_right fun hv => by rw [h.switch_eq (hc hv), Flit.tag]

theorem continues_gate (f : Flit) (en : Bool) :
    Continues Flit.tag Flit.starts u (f.gate en) ↔ Continues Flit.tag Flit.starts u f := by
  cases u <;> rfl

theorem Follows.outLocal_continues (h : Follows id u d)
    (hc : inRing.valid = true → Continues Flit.tag Flit.starts u inRing)
    (hv : (d.outLocal id inRing).valid = true) :
    Continues Flit.tag Flit.starts (u.filter fun t => t.2 == id) (d.outLocal id inRing) := by
  obtain ⟨hv, hid⟩ := (h.outLocal_valid hc).mp hv
  exact (continues_gate _ _).mpr (continues_filter (hc hv) hid)

theorem Follows.outRing_continues (h : Follows id u d)
    (hc : inRing.valid = true → Continues Flit.tag Flit.starts u inRing)
    (hv : (d.outRing id inRing).valid = true) :
    Continues Flit.tag Flit.starts (u.filter fun t => !(t.2 == id)) (d.outRing id inRing) := by
  obtain ⟨hv, hid⟩ := (h.outRing_valid hc).mp hv
  exact (continues_gate _ _).mpr (continues_filter (p := fun t => !(t.2 == id)) (hc hv) hid)

end Demux

/-! ## The multiplexers -/

/-- The input that a multiplexer is bound to by a packet in progress. -/
inductive Lock
  | free
  | in0
  | in1
  deriving DecidableEq

def MuxState.lock : MuxState → Lock
  | .noworm => .free
  | .wormRing => .in0
  | .wormLocal => .in1

def MuxRrState.lock : MuxRrState → Lock
  | .noworm0 => .free
  | .noworm1 => .free
  | .worm0 => .in0
  | .worm1 => .in1

/-- The lock behind a cycle in which `flit` is at the output. -/
def Lock.behind (lock own : Lock) (flit : Flit) (ready : Bool) : Lock :=
  if lock = .free then if flit.last then .free else own
  else if flit.last && flit.valid && ready then .free
  else own

/-- One cycle of a multiplexer: nothing is offered, or it serves one of the inputs. -/
inductive Serves (in0 in1 : Flit) (outReady : Bool) (lock lock' : Lock) : Flit → Bool → Bool → Prop
  | idle {out : Flit} (hlock : lock = .free) (h0 : in0.valid = false) (h1 : in1.valid = false)
      (hout : out.valid = false) (hnext : lock' = .free) :
      Serves in0 in1 outReady lock lock' out false false
  | input0 (h : lock = .in0 ∨ lock = .free ∧ in0.valid = true)
      (hnext : lock' = lock.behind .in0 in0 outReady) :
      Serves in0 in1 outReady lock lock' in0 outReady false
  | input1 (h : lock = .in1 ∨ lock = .free ∧ in1.valid = true)
      (hnext : lock' = lock.behind .in1 in1 outReady) :
      Serves in0 in1 outReady lock lock' in1 false outReady

def MuxOut.Serves {σ : Type} (m : MuxOut σ) (lock lock' : Lock) (in0 in1 : Flit) (outReady : Bool) :
    Prop :=
  Ring.Serves in0 in1 outReady lock lock' m.out m.ready0 m.ready1

theorem mux_serves (state : MuxState) (inRing inLocal : Flit) (outReady : Bool) :
    (mux state inRing inLocal outReady).Serves state.lock
      (mux state inRing inLocal outReady).next.lock inRing inLocal outReady := by
  cases state with
  | noworm =>
    simp only [mux]
    by_cases h0 : inRing.valid = true
    · rw [if_pos h0]
      refine .input0 (.inr ⟨rfl, h0⟩) ?_
      cases hl : inRing.last <;> simp [Lock.behind, MuxState.lock, hl]
    · rw [if_neg h0]
      by_cases h1 : inLocal.valid = true
      · rw [if_pos h1]
        refine .input1 (.inr ⟨rfl, h1⟩) ?_
        cases hl : inLocal.last <;> simp [Lock.behind, MuxState.lock, hl]
      · rw [if_neg h1]
        exact .idle rfl (Bool.eq_false_iff.mpr h0) (Bool.eq_false_iff.mpr h1) rfl rfl
  | wormRing =>
    refine .input0 (.inl rfl) ?_
    simp only [mux, MuxState.lock, Lock.behind, reduceCtorEq, if_false]
    split_ifs <;> rfl
  | wormLocal =>
    refine .input1 (.inl rfl) ?_
    simp only [mux, MuxState.lock, Lock.behind, reduceCtorEq, if_false]
    split_ifs <;> rfl

theorem muxRr_serves (state : MuxRrState) (in0 in1 : Flit) (outReady : Bool) :
    (muxRr state in0 in1 outReady).Serves state.lock (muxRr state in0 in1 outReady).next.lock in0 in1
      outReady := by
  cases state with
  | noworm0 =>
    simp only [muxRr]
    by_cases h0 : in0.valid = true
    · rw [if_pos h0]
      refine .input0 (.inr ⟨rfl, h0⟩) ?_
      cases hl : in0.last <;> simp [Lock.behind, MuxRrState.lock, hl]
    · rw [if_neg h0]
      by_cases h1 : in1.valid = true
      · rw [if_pos h1]
        refine .input1 (.inr ⟨rfl, h1⟩) ?_
        cases hl : in1.last <;> simp [Lock.behind, MuxRrState.lock, hl]
      · rw [if_neg h1]
        exact .idle rfl (Bool.eq_false_iff.mpr h0) (Bool.eq_false_iff.mpr h1) rfl rfl
  | noworm1 =>
    simp only [muxRr]
    by_cases h1 : in1.valid = true
    · rw [if_pos h1]
      refine .input1 (.inr ⟨rfl, h1⟩) ?_
      cases hl : in1.last <;> simp [Lock.behind, MuxRrState.lock, hl]
    · rw [if_neg h1]
      by_cases h0 : in0.valid = true
      · rw [if_pos h0]
        refine .input0 (.inr ⟨rfl, h0⟩) ?_
        cases hl : in0.last <;> simp [Lock.behind, MuxRrState.lock, hl]
      · rw [if_neg h0]
        exact .idle rfl (Bool.eq_false_iff.mpr h0) (Bool.eq_false_iff.mpr h1) rfl rfl
  | worm0 =>
    refine .input0 (.inl rfl) ?_
    simp only [muxRr, MuxRrState.lock, Lock.behind, reduceCtorEq, if_false]
    split_ifs <;> rfl
  | worm1 =>
    refine .input1 (.inl rfl) ?_
    simp only [muxRr, MuxRrState.lock, Lock.behind, reduceCtorEq, if_false]
    split_ifs <;> rfl

/-- The packets in progress at the inputs and at the output: only the input that the multiplexer is
bound to may be inside a packet, and so is the output then. -/
structure Joined (lock : Lock) (a b c : Option Tag) : Prop where
  left : lock ≠ .in0 → a = none
  right : lock ≠ .in1 → b = none
  out0 : lock = .in0 → c = a
  out1 : lock = .in1 → c = b
  free : lock = .free → c = none

theorem joined_free : Joined .free none none none :=
  ⟨fun _ => rfl, fun _ => rfl, (nomatch ·), (nomatch ·), fun _ => rfl⟩

/-- A multiplexer that is bound to an input before the first flit of a packet waits for that flit. -/
def Waits (lock own : Lock) (a : Option Tag) (f : Flit) : Prop :=
  lock = own → a = none → f.valid = true ∧ f.last = false

section Serves
variable {in0 in1 out : Flit} {outReady ready0 ready1 : Bool} {lock lock' : Lock}

theorem Serves.transfer (h : Serves in0 in1 outReady lock lock' out ready0 ready1) :
    out.transfer outReady = in0.transfer ready0 ++ in1.transfer ready1 := by
  cases h with
  | idle hlock h0 h1 hout hnext =>
    rw [Flit.transfer_of_not_valid _ hout, Flit.transfer_of_not_ready _ rfl,
      Flit.transfer_of_not_ready _ rfl]
    rfl
  | input0 h hnext => rw [Flit.transfer_of_not_ready in1 rfl, List.append_nil]
  | input1 h hnext => rw [Flit.transfer_of_not_ready in0 rfl, List.nil_append]

theorem Lock.behind_cases (lock own : Lock) (f : Flit) (ready : Bool) :
    lock.behind own f ready = own ∨
      lock.behind own f ready = .free ∧ f.last = true ∧
        (lock = .free ∨ f.valid = true ∧ ready = true) := by
  unfold Lock.behind
  split_ifs with hfree hl hend
  · exact .inr ⟨rfl, hl, .inl hfree⟩
  · exact .inl rfl
  · rw [Bool.and_eq_true, Bool.and_eq_true] at hend
    exact .inr ⟨rfl, hend.1.1, .inr ⟨hend.1.2, hend.2⟩⟩
  · exact .inl rfl

/-- A multiplexer that is unbound has no packet in progress. -/
theorem opened_of_free {own : Lock} {f : Flit} {ready : Bool} {a : Option Tag} (hown : own ≠ .free)
    (ha : lock = .free → a = none) (hfree : lock.behind own f ready = .free) :
    behind a (f.transfer ready) = none := by
  obtain hb | ⟨-, hl, hcase⟩ := Lock.behind_cases lock own f ready
  · exact absurd (hb.symm.trans hfree) hown
  · by_cases hfire : f.valid = true ∧ ready = true
    · rw [Flit.transfer_of_valid hfire.1 hfire.2]
      exact if_pos hl
    · have hnone : f.transfer ready = [] := if_neg (by rwa [Bool.and_eq_true])
      rw [hnone]
      exact ha (hcase.resolve_right hfire)

/-- The packets at the output are those of the inputs, one behind the other. -/
theorem Serves.joined (h : Serves in0 in1 outReady lock lock' out ready0 ready1)
    {a b c : Option Tag} (hj : Joined lock a b c)
    (h0 : in0.valid = true → Continues Flit.tag Flit.starts a in0)
    (h1 : in1.valid = true → Continues Flit.tag Flit.starts b in1) :
    FlitWorms c (out.transfer outReady) ∧
      Joined lock' (behind a (in0.transfer ready0)) (behind b (in1.transfer ready1))
        (behind c (out.transfer outReady)) := by
  cases h with
  | idle hlock hv0 hv1 hout hnext =>
    subst hlock hnext
    rw [Flit.transfer_of_not_valid _ hout, Flit.transfer_of_not_ready _ rfl,
      Flit.transfer_of_not_ready _ rfl]
    exact ⟨trivial, hj⟩
  | input0 h hnext =>
    have hb : b = none := hj.right fun hl => by rcases h with h | ⟨h, -⟩ <;> cases hl.symm.trans h
    have hca : c = a := by
      obtain h | ⟨h, -⟩ := h
      · exact hj.out0 h
      · rw [hj.free h, hj.left fun hl => nomatch h.symm.trans hl]
    have hfree : lock' = .free → behind a (in0.transfer outReady) = none := fun hl =>
      opened_of_free (by decide) (fun hf => hca ▸ hj.free hf) (hnext ▸ hl)
    have hlock' : lock' ≠ .in1 := by
      rcases Lock.behind_cases lock .in0 in0 outReady with hl | ⟨hl, -⟩ <;> rw [hnext, hl] <;> decide
    rw [hca, hb, Flit.transfer_of_not_ready in1 rfl]
    refine ⟨worms_transfer h0, fun hl => ?_, fun _ => rfl, fun _ => rfl, (absurd · hlock'), hfree⟩
    cases hl' : lock' with
    | free => exact hfree hl'
    | in0 => exact absurd hl' hl
    | in1 => exact absurd hl' hlock'
  | input1 h hnext =>
    have ha : a = none := hj.left fun hl => by rcases h with h | ⟨h, -⟩ <;> cases hl.symm.trans h
    have hcb : c = b := by
      obtain h | ⟨h, -⟩ := h
      · exact hj.out1 h
      · rw [hj.free h, hj.right fun hl => nomatch h.symm.trans hl]
    have hfree : lock' = .free → behind b (in1.transfer outReady) = none := fun hl =>
      opened_of_free (by decide) (fun hf => hcb ▸ hj.free hf) (hnext ▸ hl)
    have hlock' : lock' ≠ .in0 := by
      rcases Lock.behind_cases lock .in1 in1 outReady with hl | ⟨hl, -⟩ <;> rw [hnext, hl] <;> decide
    rw [hcb, ha, Flit.transfer_of_not_ready in0 rfl]
    refine ⟨worms_transfer h1, fun _ => rfl, fun hl => ?_, (absurd · hlock'), fun _ => rfl, hfree⟩
    cases hl' : lock' with
    | free => exact hfree hl'
    | in0 => exact absurd hl' hlock'
    | in1 => exact absurd hl' hl

/-- Behind a cycle in which an input is served: a multiplexer that then waits for the first flit of a
packet has not taken it. -/
theorem waits_behind {own : Lock} {f : Flit} {ready : Bool} {a : Option Tag} (hown : own ≠ .free)
    (h : lock = own ∨ lock = .free ∧ f.valid = true) (hwait : Waits lock own a f)
    (hlock : lock.behind own f ready = own) (ha : behind a (f.transfer ready) = none) :
    f.valid = true ∧ f.last = false ∧ f.transfer ready = [] := by
  by_cases hfire : f.valid = true ∧ ready = true
  · -- the flit is not the last one, so that its packet is in progress
    rw [Flit.transfer_of_valid hfire.1 hfire.2, behind, opened_singleton, after] at ha
    have hl : f.last = true := by
      by_contra hl
      rw [Flit.ends, if_neg hl] at ha
      cases ha
    refine absurd (hlock.symm.trans ?_) hown
    unfold Lock.behind
    rw [hl, hfire.1, hfire.2]
    simp
  · have hnone : f.transfer ready = [] := if_neg (by rwa [Bool.and_eq_true])
    rw [hnone] at ha ⊢
    obtain h | ⟨h, hv⟩ := h
    · exact ⟨(hwait h ha).1, (hwait h ha).2, rfl⟩
    · refine ⟨hv, ?_, rfl⟩
      cases hl : f.last with
      | false => rfl
      | true =>
        rw [Lock.behind, if_pos h, if_pos hl] at hlock
        exact absurd hlock.symm hown

theorem Serves.waits0 (h : Serves in0 in1 outReady lock lock' out ready0 ready1) {a : Option Tag}
    (hwait : Waits lock .in0 a in0) (hlock : lock' = .in0)
    (ha : behind a (in0.transfer ready0) = none) :
    in0.valid = true ∧ in0.last = false ∧ in0.transfer ready0 = [] := by
  cases h with
  | idle _ _ _ _ hnext => exact nomatch hnext.symm.trans hlock
  | input0 h hnext => exact waits_behind (by decide) h hwait (hnext.symm.trans hlock) ha
  | input1 h hnext =>
    rcases Lock.behind_cases lock .in1 in1 outReady with hl | ⟨hl, -⟩ <;>
      exact nomatch hl.symm.trans (hnext.symm.trans hlock)

theorem Serves.waits1 (h : Serves in0 in1 outReady lock lock' out ready0 ready1) {b : Option Tag}
    (hwait : Waits lock .in1 b in1) (hlock : lock' = .in1)
    (hb : behind b (in1.transfer ready1) = none) :
    in1.valid = true ∧ in1.last = false ∧ in1.transfer ready1 = [] := by
  cases h with
  | idle _ _ _ _ hnext => exact nomatch hnext.symm.trans hlock
  | input0 h hnext =>
    rcases Lock.behind_cases lock .in0 in0 outReady with hl | ⟨hl, -⟩ <;>
      exact nomatch hl.symm.trans (hnext.symm.trans hlock)
  | input1 h hnext => exact waits_behind (by decide) h hwait (hnext.symm.trans hlock) hb

/-- A multiplexer with a ready output takes a flit when there is one, unless it is bound to an input
without one. -/
theorem Serves.progress (h : Serves in0 in1 true lock lock' out ready0 ready1)
    (h0 : lock = .in0 → in0.valid = true) (h1 : lock = .in1 → in1.valid = true)
    (hfree : lock = .free → in0.valid = true ∨ in1.valid = true) :
    in0.transfer ready0 = [in0] ∨ in1.transfer ready1 = [in1] := by
  cases h with
  | idle hlock hv0 hv1 _ _ =>
    obtain hv | hv := hfree hlock
    · exact nomatch hv0.symm.trans hv
    · exact nomatch hv1.symm.trans hv
  | input0 h _ => exact .inl (Flit.transfer_of_valid (h.elim h0 And.right) rfl)
  | input1 h _ => exact .inr (Flit.transfer_of_valid (h.elim h1 And.right) rfl)

end Serves

end GlipOsd.Ring
