import GlipOsd.Dii
import GlipOsd.Foundations.Runs
import GlipOsd.Him.Egress

/-! # The host interface module, from the host

The ingress half of `osd_him`: a packet of the host is a word with its size and a word for each flit. The flits
are counted down in a register of five bits, from the size less 1, so that a size of 0 counts as 32.

`deframe` says what the words of the host stand for, at any size.
-/

namespace GlipOsd.Him
open Runs
set_option autoImplicit false

structure Ingress where
  ingressActive : Bool
  ingressSize : BitVec 5
  deriving DecidableEq

structure IngressIn where
  glipInValid : Bool
  glipInData : BitVec 16
  diiOutReady : Bool

namespace Ingress

section Signals
variable (s : Ingress) (i : IngressIn)

def dataBe : BitVec 16 := swap i.glipInData

def glipInReady : Bool := !s.ingressActive || i.diiOutReady

def diiOut : DiiFlit where
  valid := s.ingressActive && i.glipInValid
  last := s.ingressActive && s.ingressSize == 0
  data := dataBe i

def next : Ingress :=
  if !s.ingressActive then
    if i.glipInValid && glipInReady s i then ⟨true, (dataBe i).extractLsb' 0 5 - 1⟩ else s
  else
    if i.glipInValid && glipInReady s i then ⟨!(s.ingressSize == 0), s.ingressSize - 1⟩ else s

end Signals

/-- `ingress_size` is not reset. -/
def reset (size : BitVec 5) : Ingress := ⟨false, size⟩

end Ingress

/-! ## What the words of the host stand for -/

/-- The flits for the words `ws` when `n` flits of a packet are still to come. -/
def deframe : ℕ → List (BitVec 16) → List DiiFlit
  | _, [] => []
  | 0, w :: ws => deframe (swap w).toNat ws
  | n + 1, w :: ws => ⟨true, n == 0, swap w⟩ :: deframe n ws

/-- The number of flits that are still to come behind the words `ws`. -/
def pending : ℕ → List (BitVec 16) → ℕ
  | n, [] => n
  | 0, w :: ws => pending (swap w).toNat ws
  | n + 1, _ :: ws => pending n ws

structure HostPacket where
  data : List (BitVec 16)
  fits : data.length ≤ 32

namespace HostPacket

def header (p : HostPacket) : BitVec 16 := swap (BitVec.ofNat 16 p.data.length)

def words (p : HostPacket) : List (BitVec 16) := p.header :: p.data

/-- The data words byte-swapped, the last one marked. -/
def flits (p : HostPacket) : List DiiFlit :=
  p.data.mapIdx fun k w => ⟨true, k + 1 == p.data.length, swap w⟩

end HostPacket

def stream (ps : List HostPacket) : List (BitVec 16) := ps.flatMap HostPacket.words

/-! ## Histories -/

/-- The registers with the words taken from the host, the flits transferred and the words that the host has
still to send. -/
structure Receiving where
  regs : Ingress
  words : List (BitVec 16)
  flits : List DiiFlit
  toSend : List (BitVec 16)

namespace Receiving

def start (size : BitVec 5) (ps : List HostPacket) : Receiving := ⟨Ingress.reset size, [], [], stream ps⟩

/-- What the module sees: with nothing to send the channel is not valid. -/
def input (t : Receiving) (i : IngressIn) : IngressIn :=
  match t.toSend with
  | [] => { i with glipInValid := false }
  | w :: _ => if i.glipInValid then { i with glipInData := w } else i

def taken (t : Receiving) (i : IngressIn) : List (BitVec 16) :=
  if (t.input i).glipInValid && t.regs.glipInReady (t.input i) then [(t.input i).glipInData] else []

def cycle (t : Receiving) (i : IngressIn) : Option Receiving := some
  { regs := t.regs.next (t.input i)
    words := t.words ++ t.taken i
    flits := t.flits ++ (t.regs.diiOut (t.input i)).transfer i.diiOutReady
    toSend := t.toSend.drop (t.taken i).length }

/-- The flits are those of the words taken, and the next word is taken as a header if no flit is to come. -/
def Framed (t : Receiving) : Prop :=
  t.flits = deframe 0 t.words ∧ (t.regs.ingressActive = false ↔ pending 0 t.words = 0)

/-- The header that is taken announces at least one flit. -/
def HeaderNonzero (t : Receiving) (i : IngressIn) : Prop :=
  pending 0 t.words = 0 → ∀ w ∈ t.taken i, swap w ≠ 0

instance (t : Receiving) : Decidable (Framed t) := inferInstanceAs (Decidable (_ ∧ _))

instance (t : Receiving) (i : IngressIn) : Decidable (HeaderNonzero t i) := inferInstanceAs (Decidable (_ → _))

/-- Packets of the host are being received, and the register is right. -/
structure Synced (ps : List HostPacket) (t : Receiving) : Prop where
  split : t.words ++ t.toSend = stream ps
  size : t.regs.ingressActive = true → t.regs.ingressSize.toNat + 1 = pending 0 t.words

end Receiving

/-! ## Words and packets -/

theorem swap_swap (w : BitVec 16) : swap (swap w) = w := by
  apply BitVec.eq_of_getLsbD_eq
  intro k hk
  simp only [swap, BitVec.getLsbD_append, BitVec.getLsbD_extractLsb']
  by_cases hlow : k < 8
  · simp [hlow]
  · have hhigh : k - 8 < 8 := by omega
    simp [hlow, hhigh, Nat.add_sub_cancel' (Nat.le_of_not_lt hlow)]

theorem deframe_append (n : ℕ) (xs ys : List (BitVec 16)) :
    deframe n (xs ++ ys) = deframe n xs ++ deframe (pending n xs) ys := by
  induction xs generalizing n with
  | nil => cases n <;> rfl
  | cons w xs ih =>
    cases n with
    | zero => exact ih (swap w).toNat
    | succ n => rw [List.cons_append, deframe, deframe, pending, ih, List.cons_append]

theorem pending_append (n : ℕ) (xs ys : List (BitVec 16)) : pending n (xs ++ ys) = pending (pending n xs) ys := by
  induction xs generalizing n with
  | nil => cases n <;> rfl
  | cons w xs ih =>
    cases n with
    | zero => exact ih (swap w).toNat
    | succ n => exact ih n

theorem pending_data (ws : List (BitVec 16)) (n : ℕ) : pending (ws.length + n) ws = n := by
  induction ws with
  | nil => exact Nat.zero_add n
  | cons w ws ih =>
    rw [List.length_cons, Nat.add_right_comm, pending, ih]

namespace HostPacket
variable (p : HostPacket)

theorem toNat_header : (swap p.header).toNat = p.data.length := by
  have hfits := p.fits
  rw [header, swap_swap, BitVec.toNat_ofNat, Nat.mod_eq_of_lt (by omega)]

theorem pending_words : pending 0 p.words = 0 := by
  rw [words, pending, toNat_header]
  exact pending_data p.data 0

theorem deframe_words : deframe 0 p.words = p.flits := by
  have hdata (ws : List (BitVec 16)) :
      deframe ws.length ws = ws.mapIdx fun k w => ⟨true, k + 1 == ws.length, swap w⟩ := by
    induction ws with
    | nil => rfl
    | cons w ws ih =>
      rw [List.length_cons, deframe, ih, List.mapIdx_cons]
      simp
  rw [words, deframe, toNat_header]
  exact hdata p.data

end HostPacket

/-- The words of whole packets stand for their flits. -/
theorem deframe_stream (ps : List HostPacket) : deframe 0 (stream ps) = ps.flatMap HostPacket.flits := by
  induction ps with
  | nil => rfl
  | cons p ps ih =>
    rw [stream, List.flatMap_cons, deframe_append, p.pending_words, p.deframe_words, List.flatMap_cons]
    exact congrArg _ ih

theorem pending_stream (ps : List HostPacket) : pending 0 (stream ps) = 0 := by
  induction ps with
  | nil => rfl
  | cons p ps ih =>
    rw [stream, List.flatMap_cons, pending_append, p.pending_words]
    exact ih

/-- Where a header is due there is one. -/
theorem header_due {ps : List HostPacket} {ws rest : List (BitVec 16)} {w : BitVec 16}
    (h : ws ++ w :: rest = stream ps) (hpending : pending 0 ws = 0) : ∃ p ∈ ps, w = p.header := by
  induction ps generalizing ws with
  | nil => simp [stream] at h
  | cons p ps ih =>
    rw [stream, List.flatMap_cons] at h
    have hlater {xs : List (BitVec 16)} (hxs : xs ++ w :: rest = stream ps) (hdue : pending 0 xs = 0) :
        ∃ q ∈ p :: ps, w = q.header := by
      obtain ⟨q, hq, hw⟩ := ih hxs hdue
      exact ⟨q, List.mem_cons_of_mem p hq, hw⟩
    cases ws with
    | nil =>
      obtain ⟨rfl, -⟩ := List.cons.inj h
      exact ⟨p, List.mem_cons_self, rfl⟩
    | cons v ws =>
      obtain ⟨rfl, hrest⟩ := List.cons.inj h
      rw [pending, p.toNat_header] at hpending
      obtain ⟨xs, hdata, hws⟩ | ⟨xs, hws, hstream⟩ := List.append_eq_append_iff.mp hrest
      · -- the packet is not complete
        cases xs with
        | nil =>
          rw [List.nil_append] at hws
          have hrest : [] ++ w :: rest = stream ps := hws
          exact hlater hrest rfl
        | cons x xs =>
          rw [hdata, List.length_append, List.length_cons, pending_data] at hpending
          omega
      · rw [hws, pending_append] at hpending
        have hfull : pending p.data.length p.data = 0 := pending_data p.data 0
        rw [hfull] at hpending
        exact hlater hstream.symm hpending

/-- It announces at most 32 flits. -/
theorem header_le {ps : List HostPacket} {ws rest : List (BitVec 16)} {w : BitVec 16}
    (h : ws ++ w :: rest = stream ps) (hpending : pending 0 ws = 0) : (swap w).toNat ≤ 32 := by
  obtain ⟨p, -, rfl⟩ := header_due h hpending
  rw [p.toNat_header]
  exact p.fits

/-! ## Cycles -/

namespace Receiving
variable {ps : List HostPacket} {t t' : Receiving} {i : IngressIn}

theorem cycle_idle (h : t.taken i = []) (hstep : cycle t i = some t') : t' = t := by
  obtain rfl := Option.some.inj hstep
  have hready : ((t.input i).glipInValid && t.regs.glipInReady (t.input i)) = false := by
    by_contra hne
    rw [taken, if_pos (Bool.not_eq_false _ ▸ hne)] at h
    cases h
  have hout : (t.input i).diiOutReady = i.diiOutReady := by
    unfold input
    split
    · rfl
    · split_ifs <;> rfl
  have hregs : t.regs.next (t.input i) = t.regs := by
    unfold Ingress.next
    rw [hready]
    simp
  have hflits : (t.regs.diiOut (t.input i)).transfer i.diiOutReady = [] := by
    rw [DiiFlit.transfer, if_neg]
    intro hboth
    simp only [Ingress.diiOut, Bool.and_eq_true] at hboth
    obtain ⟨⟨-, hvalid⟩, hr⟩ := hboth
    rw [hvalid, Ingress.glipInReady, hout, hr, Bool.or_true] at hready
    cases hready
  rw [h, hregs, hflits, List.append_nil, List.append_nil]
  rfl

theorem taken_eq {w : BitVec 16} {ws : List (BitVec 16)} (h : t.taken i = w :: ws) :
    ws = [] ∧ t.input i = ⟨true, w, i.diiOutReady⟩ ∧ t.regs.glipInReady (t.input i) = true ∧
      t.toSend = w :: t.toSend.drop 1 := by
  unfold taken at h
  split_ifs at h with hboth
  obtain ⟨rfl, rfl⟩ := List.cons.inj h
  obtain ⟨hvalid, hready⟩ := Bool.and_eq_true_iff.mp hboth
  refine ⟨rfl, ?_, hready, ?_⟩
  · cases hsend : t.toSend with
    | nil =>
      simp only [input, hsend] at hvalid
      cases hvalid
    | cons v rest =>
      simp only [input, hsend] at hvalid ⊢
      split_ifs at hvalid ⊢ with hi
      · rw [hi]
      · exact absurd hvalid hi
  · cases hsend : t.toSend with
    | nil =>
      simp only [input, hsend] at hvalid
      cases hvalid
    | cons v rest =>
      simp only [input, hsend] at hvalid ⊢
      split_ifs at hvalid ⊢ with hi
      · rfl
      · exact absurd hvalid hi

theorem cycle_header {w : BitVec 16} (hactive : t.regs.ingressActive = false) (h : t.taken i = [w])
    (hstep : cycle t i = some t') :
    t' = ⟨⟨true, (swap w).extractLsb' 0 5 - 1⟩, t.words ++ [w], t.flits, t.toSend.drop 1⟩ := by
  obtain rfl := Option.some.inj hstep
  obtain ⟨-, hinput, -, -⟩ := taken_eq h
  rw [h, hinput]
  simp [Ingress.next, Ingress.glipInReady, Ingress.diiOut, DiiFlit.transfer, Ingress.dataBe, hactive]

theorem cycle_data {w : BitVec 16} (hactive : t.regs.ingressActive = true) (h : t.taken i = [w])
    (hstep : cycle t i = some t') :
    t' = ⟨⟨!(t.regs.ingressSize == 0), t.regs.ingressSize - 1⟩, t.words ++ [w],
      t.flits ++ [⟨true, t.regs.ingressSize == 0, swap w⟩], t.toSend.drop 1⟩ := by
  obtain rfl := Option.some.inj hstep
  obtain ⟨-, hinput, hready, -⟩ := taken_eq h
  rw [hinput] at hready
  have hout : i.diiOutReady = true := by
    rw [Ingress.glipInReady, hactive] at hready
    exact hready
  rw [h, hinput]
  simp [Ingress.next, Ingress.glipInReady, Ingress.diiOut, DiiFlit.transfer, Ingress.dataBe, hactive, hout]

theorem synced_start (size : BitVec 5) (ps : List HostPacket) : Synced ps (start size ps) where
  split := rfl
  size h := by cases h

/-- One cycle: the module loses the packets exactly with a header that announces no flit. -/
theorem Synced.cycle (h : Synced ps t) (hframed : Framed t) (hstep : cycle t i = some t') :
    (Framed t' ↔ HeaderNonzero t i) ∧ (Framed t' → Synced ps t') := by
  obtain ⟨hflits, hidle⟩ := hframed
  cases htaken : t.taken i with
  | nil =>
    obtain rfl := cycle_idle htaken hstep
    refine ⟨⟨fun _ _ w hw => ?_, fun _ => ⟨hflits, hidle⟩⟩, fun _ => h⟩
    rw [htaken] at hw
    cases hw
  | cons w ws =>
    obtain ⟨rfl, -, -, hsend⟩ := taken_eq htaken
    have hsplit : t.words ++ w :: t.toSend.drop 1 = stream ps := by rw [← hsend, h.split]
    have hsplit' : (t.words ++ [w]) ++ t.toSend.drop 1 = stream ps := by
      rw [List.append_assoc]
      exact hsplit
    cases hactive : t.regs.ingressActive with
    | false =>
      have hpending : pending 0 t.words = 0 := hidle.mp hactive
      have hle := header_le hsplit hpending
      have hnext : pending 0 (t.words ++ [w]) = (swap w).toNat := by
        rw [pending_append, hpending]
        rfl
      have hsame : deframe 0 (t.words ++ [w]) = deframe 0 t.words := by
        rw [deframe_append, hpending]
        exact List.append_nil _
      obtain rfl := cycle_header hactive htaken hstep
      have hzero : (swap w).toNat = 0 ↔ swap w = 0 := by
        rw [← BitVec.toNat_inj]
        rfl
      refine ⟨?_, fun hframed' => ⟨hsplit', fun _ => ?_⟩⟩
      · rw [Framed, HeaderNonzero, htaken]
        simp only [hnext, hsame, hflits, hpending, hzero, true_and, Bool.true_eq_false, false_iff, forall_const,
          List.mem_singleton, forall_eq]
      · have hpos : (swap w).toNat ≠ 0 := by
          intro hnil
          have hno := hframed'.2.mpr (hnext.trans hnil)
          cases hno
        simp only [hnext]
        rw [BitVec.toNat_sub, BitVec.extractLsb'_toNat]
        simp
        omega
    | true =>
      obtain ⟨k, hk⟩ : ∃ k, pending 0 t.words = k + 1 := ⟨_, (h.size hactive).symm⟩
      have hsize : t.regs.ingressSize.toNat = k := by
        have hsize := h.size hactive
        omega
      have hlt := t.regs.ingressSize.isLt
      have hzero : (t.regs.ingressSize == 0) = (k == 0) := by
        rw [Bool.eq_iff_iff, beq_iff_eq, beq_iff_eq, ← BitVec.toNat_inj, hsize]
        rfl
      have hnext : pending 0 (t.words ++ [w]) = k := by
        rw [pending_append, hk]
        rfl
      have hdata : deframe 0 (t.words ++ [w]) = deframe 0 t.words ++ [⟨true, k == 0, swap w⟩] := by
        rw [deframe_append, hk]
        rfl
      obtain rfl := cycle_data hactive htaken hstep
      refine ⟨⟨fun _ hheader => ?_, fun _ => ⟨?_, ?_⟩⟩, fun _ => ⟨hsplit', fun hactive' => ?_⟩⟩
      · rw [hk] at hheader
        cases hheader
      · simp only [hdata, hflits, hzero]
      · simp only [hnext, hzero, Bool.not_eq_false', beq_iff_eq]
      · rw [hzero] at hactive'
        have hpos : k ≠ 0 := by simpa using hactive'
        simp only [hnext]
        rw [BitVec.toNat_sub, hsize]
        simp
        omega

/-- **Ingress framing.** For all packets of the host and every timing: the flits are the data words of the
packets and nothing else in every state of the run if and only if no header announces 0 flits. -/
theorem ingress_framed_iff (size : BitVec 5) (ps : List HostPacket) (inputs : List IngressIn) :
    Passes cycle Framed (start size ps) inputs ↔ Takes cycle HeaderNonzero (start size ps) inputs := by
  obtain ⟨t, hrun⟩ := exists_run cycle (fun _ _ => rfl) (start size ps) inputs
  refine passes_iff_takes (Synced ps) (fun _ _ _ h hframed hstep hframed' => ?_)
    (fun _ _ _ h hframed hstep => ?_) (synced_start size ps) ⟨rfl, ?_⟩ hrun
  · exact (h.cycle hframed hstep).2 hframed'
  · exact (h.cycle hframed hstep).1
  · exact ⟨fun _ => rfl, fun _ => rfl⟩

/-- A packet without data, and then one with a word: its header is transferred as a flit. -/
theorem empty_packet_not_framed : ¬ Passes cycle Framed
    (start 0 [⟨[], by decide⟩, ⟨[0x1234], by decide⟩]) (List.replicate 3 ⟨true, 0, true⟩) := by
  decide

end Receiving

end GlipOsd.Him
